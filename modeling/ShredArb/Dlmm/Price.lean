/-
  ShredArb.Dlmm.Price — the prices of the bins are in order.

  The price of a bin below 0 is a truncated power of a fraction just below 1;
  the price of a bin above 0 is the truncated inverse of that power, so what
  holds of one side holds of the other turned around.

  Main results:
    * `priceLoop_eq` — the loop over 19 bits never fails, and is the power,
    * `dlmmPriceFromId_eq` — the price of every id,
    * `price_monotone`.
-/
import ShredArb.Dlmm.Arith
import ShredArb.Lib.TruncPow

namespace ShredArb.Dlmm

open ShredArb.Word ShredArb.TruncPow

/-! ## §1. The power. -/

theorem u128MulShr64_down {a b : Nat} (ha : a ≤ 2 ^ 64) (hb : b < 2 ^ 64) :
    u128MulShr64 a b false = some (a * b / 2 ^ 64) := by
  have hprod : a * b ≤ 2 ^ 64 * b := Nat.mul_le_mul_right b ha
  have hlt : a * b / 2 ^ 64 < 2 ^ 64 := by omega
  rw [u128MulShr64_eq (by omega) (by omega), if_pos hlt]
  rfl

/-- **The loop is the truncated power.**  No product of it leaves 128 bits. -/
theorem priceLoop_eq (exp : Nat) (n : Nat) : ∀ (bit result squared : Nat), bit + n = 19 →
    result ≤ 2 ^ 64 → squared < 2 ^ 64 →
    priceLoop exp n bit result squared
      = some (truncPow (2 ^ 64) n squared (exp / 2 ^ bit) result) := by
  induction n with
  | zero =>
    intro bit result squared hbit hresult hsquared
    rfl
  | succ n ih =>
    intro bit result squared hbit hresult hsquared
    have hprod : result * squared ≤ 2 ^ 64 * squared := Nat.mul_le_mul_right squared hresult
    have hsq : squared * squared ≤ 2 ^ 64 * squared := Nat.mul_le_mul_right squared hsquared.le
    have hhalf : exp / 2 ^ bit / 2 = exp / 2 ^ (bit + 1) := by
      rw [Nat.div_div_eq_div_mul, ← pow_succ]
    have hres : (if exp.testBit bit then u128MulShr64 result squared false else some result)
        = some (if exp / 2 ^ bit % 2 = 1 then result * squared / 2 ^ 64 else result) := by
      rw [Nat.testBit_eq_decide_div_mod_eq]
      by_cases hodd : exp / 2 ^ bit % 2 = 1
      · rw [if_pos (decide_eq_true hodd), if_pos hodd, u128MulShr64_down hresult hsquared]
      · rw [if_neg (by simpa using hodd), if_neg hodd]
    have hle : (if exp / 2 ^ bit % 2 = 1 then result * squared / 2 ^ 64 else result) ≤ 2 ^ 64 := by
      split
      · omega
      · exact hresult
    rw [priceLoop, hres, Option.bind_some]
    show _ = some (truncPow (2 ^ 64) n (squared * squared / 2 ^ 64) (exp / 2 ^ bit / 2)
      (if exp / 2 ^ bit % 2 = 1 then result * squared / 2 ^ 64 else result))
    rw [hhalf]
    by_cases hlast : bit + 1 < 19
    · rw [if_pos hlast, u128MulShr64_down hsquared.le hsquared, Option.bind_some]
      exact ih (bit + 1) _ _ (by omega) hle (by omega)
    · -- the last bit: the square is not taken any more
      obtain rfl : n = 0 := by omega
      rw [if_neg hlast, Option.bind_some]
      rfl

/-- The fraction that is raised to a power: the inverse of `1 + bin_step / 10000`. -/
def priceBase (binStep : UInt16) : Nat :=
  (2 ^ 128 - 1) / (2 ^ 64 + binStep.toNat * 2 ^ 64 / dlmmBasisPointMax)

/-- Its power. -/
def pricePower (binStep : UInt16) (e : Nat) : Nat :=
  truncPow (2 ^ 64) 19 (priceBase binStep) e (2 ^ 64)

theorem priceBase_lt (binStep : UInt16) : priceBase binStep < 2 ^ 64 := by
  have hbase : priceBase binStep ≤ (2 ^ 128 - 1) / 2 ^ 64 :=
    Nat.div_le_div_left (Nat.le_add_right _ _) (by norm_num)
  have hone : (2 ^ 128 - 1) / 2 ^ 64 < 2 ^ 64 := by norm_num
  omega

theorem pricePower_zero (binStep : UInt16) : pricePower binStep 0 = 2 ^ 64 :=
  truncPow_zero 19 (priceBase binStep) (2 ^ 64)

theorem pricePower_antitone (binStep : UInt16) {e e' : Nat} (hle : e ≤ e') (he' : e' < 2 ^ 19) :
    pricePower binStep e' ≤ pricePower binStep e :=
  truncPow_antitone (by norm_num) (priceBase_lt binStep).le hle he'

/-- A power with a positive exponent is below 1. -/
theorem pricePower_lt (binStep : UInt16) {e : Nat} (hpos : 0 < e) (he : e < 2 ^ 19) :
    pricePower binStep e < 2 ^ 64 := by
  have hone : pricePower binStep 1 = priceBase binStep := truncPow_one (by norm_num) 18 _
  have hle : pricePower binStep e ≤ pricePower binStep 1 := pricePower_antitone binStep hpos he
  have hbase := priceBase_lt binStep
  omega

theorem pricePower_le (binStep : UInt16) {e : Nat} (he : e < 2 ^ 19) :
    pricePower binStep e ≤ 2 ^ 64 := by
  rw [← pricePower_zero binStep]
  exact pricePower_antitone binStep (Nat.zero_le e) he

/-! ## §2. The prices. -/

/-- The price of bin `id`, as a number. -/
def priceOf (binStep : UInt16) (id : Int) : Nat :=
  if id ≤ 0 then pricePower binStep id.natAbs
  else (2 ^ 128 - 1) / pricePower binStep id.natAbs

theorem priceOf_zero (binStep : UInt16) : priceOf binStep 0 = 2 ^ 64 := by
  rw [priceOf, if_pos (le_refl _)]
  exact pricePower_zero binStep

theorem priceOf_lt (binStep : UInt16) {id : Int} (he : id.natAbs < 2 ^ 19) :
    priceOf binStep id < 2 ^ 128 := by
  have hpow := pricePower_le binStep he
  have hinv : (2 ^ 128 - 1) / pricePower binStep id.natAbs ≤ 2 ^ 128 - 1 := Nat.div_le_self _ _
  unfold priceOf
  split <;> omega

/-- **The price of every id**: refused where the exponent is too large or the
power is cut to 0. -/
theorem dlmmPriceFromId_eq (id : Int32) (binStep : UInt16) :
    dlmmPriceFromId id binStep =
      if id.toInt.natAbs < 2 ^ 19 ∧ pricePower binStep id.toInt.natAbs ≠ 0
      then some (BitVec.ofNat 128 (priceOf binStep id.toInt)) else none := by
  unfold dlmmPriceFromId
  by_cases hzero : id = 0
  · have hid : id.toInt = 0 := by
      rw [hzero]
      rfl
    have hpow : pricePower binStep (0 : Int).natAbs = 2 ^ 64 := pricePower_zero binStep
    rw [if_pos hzero, hid, priceOf_zero, if_pos ⟨by norm_num, by rw [hpow]; norm_num⟩]
  · have hne : id.toInt ≠ 0 := fun h => hzero (Int32.toInt_inj.mp h)
    rw [if_neg hzero]
    simp only
    by_cases hexp : id.toInt.natAbs < 2 ^ 19
    · have hbase : 2 ^ 64 + binStep.toNat * 2 ^ 64 / dlmmBasisPointMax ≥ 2 ^ 64 :=
        Nat.le_add_right _ _
      have hfraction : (2 ^ 128 - 1) / (2 ^ 64 + binStep.toNat * 2 ^ 64 / dlmmBasisPointMax)
          = priceBase binStep := rfl
      rw [if_neg (by omega), if_pos hbase, if_pos hbase, hfraction,
        priceLoop_eq _ 19 0 (2 ^ 64) _ rfl (le_refl _) (priceBase_lt binStep), Option.bind_some,
        pow_zero, Nat.div_one]
      have hpower : truncPow (2 ^ 64) 19 (priceBase binStep) id.toInt.natAbs (2 ^ 64)
          = pricePower binStep id.toInt.natAbs := rfl
      rw [hpower]
      by_cases hpow : pricePower binStep id.toInt.natAbs = 0
      · rw [if_pos hpow, if_neg (fun h => h.2 hpow)]
      · have hok : id.toInt.natAbs < 2 ^ 19 ∧ pricePower binStep id.toInt.natAbs ≠ 0 := ⟨hexp, hpow⟩
        rw [if_neg hpow, priceOf]
        by_cases hneg : id.toInt < 0
        · rw [if_neg (by simpa using hneg), if_pos hneg.le, if_pos hok]
        · rw [if_pos (by simpa using hneg), if_neg (show ¬ id.toInt ≤ 0 by omega), if_pos hok]
    · rw [if_pos (by omega), if_neg (fun h => hexp h.1)]

/-- The prices are in order wherever the powers are not cut to 0. -/
theorem priceOf_mono (binStep : UInt16) {a b : Int} (hab : a ≤ b) (ha : a.natAbs < 2 ^ 19)
    (hb : b.natAbs < 2 ^ 19) (hpow : pricePower binStep b.natAbs ≠ 0) :
    priceOf binStep a ≤ priceOf binStep b := by
  have hlea := pricePower_le binStep ha
  unfold priceOf
  by_cases hb0 : b ≤ 0
  · -- both below: the power of the smaller exponent is the larger
    rw [if_pos (by omega), if_pos hb0]
    exact pricePower_antitone binStep (by omega) ha
  · have hltb := pricePower_lt binStep (e := b.natAbs) (by omega) hb
    rw [if_neg hb0]
    by_cases ha0 : a ≤ 0
    · -- on both sides of 0: at most 1, and at least 1
      rw [if_pos ha0, Nat.le_div_iff_mul_le (Nat.pos_of_ne_zero hpow)]
      calc pricePower binStep a.natAbs * pricePower binStep b.natAbs
          ≤ 2 ^ 64 * (2 ^ 64 - 1) := Nat.mul_le_mul hlea (by omega)
        _ ≤ 2 ^ 128 - 1 := by norm_num
    · -- both above: inverses turn the order around
      rw [if_neg ha0]
      exact Nat.div_le_div_left (pricePower_antitone binStep (by omega) hb)
        (Nat.pos_of_ne_zero hpow)

theorem priceOf_pos (binStep : UInt16) {id : Int} (he : id.natAbs < 2 ^ 19)
    (hpow : pricePower binStep id.natAbs ≠ 0) : 0 < priceOf binStep id := by
  have hle := pricePower_le binStep he
  unfold priceOf
  split
  · omega
  · exact Nat.div_pos (by omega) (by omega)

/-- The largest exponent with a power. -/
def lastExp (binStep : UInt16) : Nat :=
  Nat.findGreatest (fun e => pricePower binStep e ≠ 0) (2 ^ 19 - 1)

theorem isSome_price_iff (binStep : UInt16) (id : Int32) :
    (dlmmPriceFromId id binStep).isSome = true ↔ id.toInt.natAbs ≤ lastExp binStep := by
  have hlast : lastExp binStep ≤ 2 ^ 19 - 1 := Nat.findGreatest_le _
  have hpos : pricePower binStep (lastExp binStep) ≠ 0 :=
    Nat.findGreatest_spec (P := fun e => pricePower binStep e ≠ 0) (Nat.zero_le _)
      (by rw [pricePower_zero]; norm_num)
  rw [dlmmPriceFromId_eq]
  constructor
  · intro h
    split at h
    · rename_i hok
      exact Nat.le_findGreatest (by omega) hok.2
    · cases h
  · intro h
    have hpow := pricePower_antitone binStep h (by omega)
    rw [if_pos ⟨by omega, by omega⟩]
    rfl

/-- **The prices of the bins are positive and in order, and the ids that have
one are an interval around 0.** -/
theorem price_monotone (binStep : UInt16) :
    (∀ (a b : Int32) (p q : BitVec 128), a ≤ b → dlmmPriceFromId a binStep = some p →
      dlmmPriceFromId b binStep = some q → 0 < p.toNat ∧ p.toNat ≤ q.toNat) ∧
    ∃ lo hi : Int, lo ≤ 0 ∧ 0 ≤ hi ∧ ∀ id : Int32,
      (dlmmPriceFromId id binStep).isSome = true ↔ lo ≤ id.toInt ∧ id.toInt ≤ hi := by
  constructor
  · intro a b p q hab ha hb
    rw [dlmmPriceFromId_eq] at ha hb
    obtain ⟨⟨hae, hap⟩, ha⟩ := Option.ite_none_right_eq_some.mp ha
    obtain ⟨⟨hbe, hbp⟩, hb⟩ := Option.ite_none_right_eq_some.mp hb
    rw [← Option.some.inj ha, ← Option.some.inj hb, BitVec.toNat_ofNat, BitVec.toNat_ofNat,
      Nat.mod_eq_of_lt (priceOf_lt binStep hae), Nat.mod_eq_of_lt (priceOf_lt binStep hbe)]
    exact ⟨priceOf_pos binStep hae hap,
      priceOf_mono binStep (Int32.le_iff_toInt_le.mp hab) hae hbe hbp⟩
  · refine ⟨-lastExp binStep, lastExp binStep, by omega, by omega, ?_⟩
    intro id
    rw [isSome_price_iff]
    omega

/-- The bins next to 0, at a step of ten basis points. -/
theorem price_monotone_demo : ∃ p q : BitVec 128,
    dlmmPriceFromId (-1) 10 = some p ∧ dlmmPriceFromId 1 10 = some q ∧
      p.toNat = 18428315757951600016 ∧ q.toNat = 18465190817783261167 ∧
      0 < p.toNat ∧ p.toNat ≤ q.toNat := by
  have hp : dlmmPriceFromId (-1) 10 = some (BitVec.ofNat 128 18428315757951600016) := by
    decide +kernel
  have hq : dlmmPriceFromId 1 10 = some (BitVec.ofNat 128 18465190817783261167) := by
    decide +kernel
  exact ⟨_, _, hp, hq, rfl, rfl, (price_monotone 10).1 (-1) 1 _ _ (by decide) hp hq⟩

end ShredArb.Dlmm
