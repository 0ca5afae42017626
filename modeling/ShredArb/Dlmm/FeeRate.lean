/-
  ShredArb.Dlmm.FeeRate — the fee rate, exact and as computed.

  `total_fee_rate` caps the sum of a base and a variable part, both taken in 128
  bits.  The variable part always fits.  The base part is multiplied by a power
  of ten with an 8-bit exponent and WRAPS; what is left of it is a multiple of
  2²⁷ and so above the cap, unless nothing is left.

  The two parts together could wrap once more, and for one base part they can:
  `base_factor` 24109, `bin_step` 56401, exponent 45 leave a remainder that the
  variable part may carry over 2¹²⁸.  For every other base part a vector of
  `carryVector` shows that it cannot.

  Main results:
    * `base_room` — where the sum does not carry,
    * `totalFeeRate_exact_iff`.
-/
import ShredArb.Dlmm.Kernel
import ShredArb.Lib.Residue

namespace ShredArb.Dlmm

open ShredArb.Word ShredArb.Residue

/-! ## §1. The exact rate. -/

/-- The base part. -/
def baseFee (s : DlmmState) : Nat :=
  s.parameters.baseFactor.toNat * s.binStep.toNat * 10 * 10 ^ s.parameters.baseFeePowerFactor.toNat

/-- The variable part. -/
def variableFee (s : DlmmState) : Nat :=
  ceilDiv (s.parameters.variableFeeControl.toNat *
    (s.vParameters.volatilityAccumulator.toNat * s.binStep.toNat) ^ 2) (10 ^ 11)

/-- The rate over the integers. -/
def feeRate (s : DlmmState) : Nat := min (baseFee s + variableFee s) dlmmMaxFeeRate

/-! ## §2. The two parts in 128 bits. -/

/-- The loop is the power, wrapped. -/
theorem pow10_mod (n : Nat) : pow10 n = 10 ^ n % 2 ^ 128 := by
  induction n with
  | zero => rfl
  | succ n ih =>
    have hstep : 10 ^ (n + 1) = 10 ^ n * 10 := pow_succ 10 n
    rw [pow10, ih, wrap128, Nat.mod_mul_mod, hstep]

theorem base_wrapped (s : DlmmState) :
    wrap128 (s.parameters.baseFactor.toNat * s.binStep.toNat * 10
      * pow10 s.parameters.baseFeePowerFactor.toNat) = baseFee s % 2 ^ 128 := by
  rw [pow10_mod, wrap128, Nat.mul_mod_mod, baseFee]

/-- The variable part of a step, at most. -/
theorem variableFee_le (s : DlmmState) {b : Nat} (hb : s.binStep.toNat ≤ b) :
    variableFee s ≤ ceilDiv ((2 ^ 32 - 1) * ((2 ^ 32 - 1) * b) ^ 2) (10 ^ 11) := by
  have hc := UInt32.toNat_lt s.parameters.variableFeeControl
  have hv := UInt32.toNat_lt s.vParameters.volatilityAccumulator
  refine ceilDiv_mono (by norm_num) (Nat.mul_le_mul (by omega) (Nat.pow_le_pow_left ?_ 2))
  exact Nat.mul_le_mul (by omega) hb

theorem variable_wrapped (s : DlmmState) :
    (if s.parameters.variableFeeControl > 0 then
      wrap128 (wrap128 (s.parameters.variableFeeControl.toNat *
        (s.vParameters.volatilityAccumulator.toNat * s.binStep.toNat *
          (s.vParameters.volatilityAccumulator.toNat * s.binStep.toNat))) + 99999999999)
        / 100000000000 else 0) = variableFee s := by
  have hc : s.parameters.variableFeeControl.toNat ≤ 2 ^ 32 - 1 := by
    have := UInt32.toNat_lt s.parameters.variableFeeControl
    omega
  have hv : s.vParameters.volatilityAccumulator.toNat ≤ 2 ^ 32 - 1 := by
    have := UInt32.toNat_lt s.vParameters.volatilityAccumulator
    omega
  have hb : s.binStep.toNat ≤ 2 ^ 16 - 1 := by
    have := UInt16.toNat_lt s.binStep
    omega
  have hvfa := Nat.mul_le_mul hv hb
  have hfits := Nat.mul_le_mul hc (Nat.mul_le_mul hvfa hvfa)
  rw [variableFee, pow_two]
  by_cases hpos : s.parameters.variableFeeControl > 0
  · rw [if_pos hpos]
    generalize s.parameters.variableFeeControl.toNat * (s.vParameters.volatilityAccumulator.toNat *
      s.binStep.toNat * (s.vParameters.volatilityAccumulator.toNat * s.binStep.toNat)) = x at hfits ⊢
    rw [wrap128_of_lt (show x < 2 ^ 128 by omega), wrap128_of_lt (by omega),
      ← add_pred_div_eq_ceilDiv x (by norm_num)]
    omega
  · have hzero : s.parameters.variableFeeControl.toNat = 0 := by
      by_contra hne
      exact hpos (UInt32.lt_iff_toNat_lt.mpr (Nat.pos_of_ne_zero hne))
    rw [if_neg hpos, hzero, Nat.zero_mul, ceilDiv_zero]

/-- What `total_fee_rate` computes. -/
theorem totalFeeRate_eq (s : DlmmState) :
    totalFeeRate s = min ((baseFee s % 2 ^ 128 + variableFee s) % 2 ^ 128) dlmmMaxFeeRate := by
  unfold totalFeeRate
  simp only
  rw [base_wrapped, variable_wrapped, wrap128]
  split <;> omega

/-! ## §3. Where the sum carries. -/

/-- The largest product of the two factors of the base part. -/
abbrev factorMax : Nat := 65535 * 65535

/-- The largest variable part. -/
abbrev variableMax : Nat := 3402719821687723223345048702

/-- For each power, a factor that takes it to a small residue; none for 36 and
for 45. -/
def carryVectors : List Nat :=
  [6805647339, 4423670770, 442367077, 1337309702, 4906871731, 6990182466, 1645169965, 329033993, 0,
   10464976322, 22717594052, 15187625592, 20591363101, 11458620262, 18634788321, 22271786720,
   2227178672, 0, 14524939049, 1316516734, 2658986453, 2658986453, 2658986453, 5607161473,
   3192459668, 1596229834, 6295041896, 5505914723, 5138554150, 513855415, 13441923543, 4555866053,
   3000302681, 3889311079, 3200349703, 3200349703, 52302604231, 10767409937, 4767297611,
   15315678503, 1644586217, 1644586217, 4647658222, 14789762597, 2102272934, 2938258637,
   4070531939, 4070531939, 3589616595, 717923319, 855496541, 855496541, 2208556808, 1104278404,
   15513056246, 1800654242, 2590199132, 1374054055, 274810811, 274810811, 8540361059, 22632133689,
   6249666609]

/-- The factor of a power: 1 where the base part does not reach the modulus,
and the missing twos where it has many. -/
def carryVector (e : Nat) : Nat :=
  if e ≤ 27 then 1 else if e ≤ 90 then carryVectors.getD (e - 28) 0 else 2 ^ (127 - e)

theorem carryVector_spec : ∀ e < 256, e ≠ 36 → e ≠ 45 → 0 < carryVector e ∧
    factorMax * (carryVector e * (10 * 10 ^ e) % 2 ^ 128) + variableMax * carryVector e < 2 ^ 128 := by
  decide +kernel

/-- The one base part whose remainder the variable part reaches over. -/
structure Carries (s : DlmmState) : Prop where
  baseFactor : s.parameters.baseFactor.toNat = 24109
  binStep : s.binStep.toNat = 56401
  power : s.parameters.baseFeePowerFactor.toNat = 45
  variable_ : 1791287909698199541635874816 ≤ variableFee s

/-- The product that comes close at 36 has a factor that fits neither field. -/
theorem product_ne_36 {a b : Nat} (ha : a < 2 ^ 16) (hb : b < 2 ^ 16) : a * b ≠ 2169791627 := by
  intro h
  have hprime : Nat.Prime 52921747 := by norm_num
  have hdvd : 52921747 ∣ a * b := ⟨41, by rw [h]⟩
  rcases (Nat.Prime.dvd_mul hprime).mp hdvd with hd | hd
  · obtain ⟨k, rfl⟩ := hd
    rcases Nat.eq_zero_or_pos k with rfl | hk
    · omega
    · omega
  · obtain ⟨k, rfl⟩ := hd
    rcases Nat.eq_zero_or_pos k with rfl | hk
    · omega
    · omega

/-- The product that comes close at 45 has two prime factors. -/
theorem product_eq_45 {a b : Nat} (ha : a < 2 ^ 16) (hb : b < 2 ^ 16) (h : a * b = 1359771709) :
    a = 24109 ∧ b = 56401 ∨ a = 56401 ∧ b = 24109 := by
  have hprime : Nat.Prime 24109 := by norm_num
  have hdvd : 24109 ∣ a * b := ⟨56401, by rw [h]⟩
  rcases (Nat.Prime.dvd_mul hprime).mp hdvd with hd | hd
  · obtain ⟨k, rfl⟩ := hd
    have hk : k = 1 ∨ k = 2 ∨ k = 0 := by omega
    rcases hk with rfl | rfl | rfl <;> omega
  · obtain ⟨k, rfl⟩ := hd
    have hk : k = 1 ∨ k = 2 ∨ k = 0 := by omega
    rcases hk with rfl | rfl | rfl <;> omega

/-- **The sum carries for one base part only.** -/
theorem base_room (s : DlmmState) (h : ¬ Carries s) :
    baseFee s % 2 ^ 128 + variableFee s < 2 ^ 128 := by
  have ha := UInt16.toNat_lt s.parameters.baseFactor
  have hb := UInt16.toNat_lt s.binStep
  have he := UInt8.toNat_lt s.parameters.baseFeePowerFactor
  have hx : s.parameters.baseFactor.toNat * s.binStep.toNat ≤ factorMax :=
    Nat.mul_le_mul (by omega) (by omega)
  have hmax : ceilDiv ((2 ^ 32 - 1) * ((2 ^ 32 - 1) * 65535) ^ 2) (10 ^ 11) = variableMax := by
    decide +kernel
  have hsmall : ceilDiv ((2 ^ 32 - 1) * ((2 ^ 32 - 1) * 24109) ^ 2) (10 ^ 11)
      < 1791287909698199541635874816 := by decide +kernel
  have hV : variableFee s ≤ variableMax := hmax ▸ variableFee_le s (by omega)
  have hV24 : s.binStep.toNat = 24109 → variableFee s < 1791287909698199541635874816 :=
    fun hstep => lt_of_le_of_lt (variableFee_le s hstep.le) hsmall
  -- what is missing to the modulus would be at most the variable part
  by_contra hcarry
  have hlt : baseFee s % 2 ^ 128 < 2 ^ 128 := Nat.mod_lt _ (by norm_num)
  have hdvd := dvd_add_missing (N := 2 ^ 128) (by norm_num) (baseFee s)
  obtain ⟨y, hy⟩ : ∃ y, y = 2 ^ 128 - baseFee s % 2 ^ 128 := ⟨_, rfl⟩
  have hpos : 0 < y := by omega
  have hyV : y ≤ variableFee s := by omega
  have hbase : baseFee s = s.parameters.baseFactor.toNat * s.binStep.toNat *
      (10 * 10 ^ s.parameters.baseFeePowerFactor.toNat) := by rw [baseFee, Nat.mul_assoc]
  rw [← hy, hbase] at hdvd
  by_cases h36 : s.parameters.baseFeePowerFactor.toNat = 36
  · rw [h36] at hdvd
    obtain ⟨k, hxk, hyk⟩ := residue_multiple (v := 2169791627) (u := 1894859669979575372134481920)
      (by norm_num) (by decide +kernel) (by decide +kernel) (X := factorMax) (Y := variableMax)
      (by decide +kernel) (by decide +kernel) hx (hyV.trans hV) hdvd
    have hk : k = 1 := by
      simp only [factorMax] at hx
      omega
    rw [hk, Nat.one_mul] at hxk
    exact product_ne_36 ha hb hxk
  · by_cases h45 : s.parameters.baseFeePowerFactor.toNat = 45
    · rw [h45] at hdvd
      obtain ⟨k, hxk, hyk⟩ := residue_multiple (v := 1359771709) (u := 1791287909698199541635874816)
        (by norm_num) (by decide +kernel) (by decide +kernel) (X := factorMax) (Y := variableMax)
        (by decide +kernel) (by decide +kernel) hx (hyV.trans hV) hdvd
      have hk : k = 1 := by
        simp only [variableMax] at hV
        omega
      rw [hk, Nat.one_mul] at hxk hyk
      rcases product_eq_45 ha hb hxk with ⟨hfac, hstep⟩ | ⟨-, hstep⟩
      · exact h ⟨hfac, hstep, h45, by omega⟩
      · have := hV24 hstep
        omega
    · obtain ⟨hv, hcert⟩ := carryVector_spec _ he h36 h45
      exact residue_gap hv hcert hx (hyV.trans hV) hpos hdvd

/-! ## §4. When the rate is exact. -/

/-- The base part wraps to nothing: it is not zero, but 2¹²⁸ divides it. -/
def Vanishes (s : DlmmState) : Prop := baseFee s ≠ 0 ∧ 2 ^ 128 ∣ baseFee s

/-- A base part that wraps leaves a multiple of 2²⁷. -/
theorem residue_of_wrap {s : DlmmState} (h : 2 ^ 128 ≤ baseFee s) :
    2 ^ 27 ∣ baseFee s % 2 ^ 128 := by
  have ha := UInt16.toNat_lt s.parameters.baseFactor
  have hb := UInt16.toNat_lt s.binStep
  have hx : s.parameters.baseFactor.toNat * s.binStep.toNat ≤ 65535 * 65535 :=
    Nat.mul_le_mul (by omega) (by omega)
  have hpower : 27 ≤ s.parameters.baseFeePowerFactor.toNat := by
    by_contra hlt
    have hpow : 10 ^ s.parameters.baseFeePowerFactor.toNat ≤ 10 ^ 26 :=
      Nat.pow_le_pow_right (by norm_num) (by omega)
    have hle : baseFee s ≤ 65535 * 65535 * 10 * 10 ^ 26 :=
      Nat.mul_le_mul (Nat.mul_le_mul_right 10 hx) hpow
    omega
  have htwo : 2 ^ 27 ∣ 10 ^ s.parameters.baseFeePowerFactor.toNat :=
    (pow_dvd_pow_of_dvd (by norm_num) 27).trans (pow_dvd_pow 10 hpower)
  exact (Nat.dvd_mod_iff (pow_dvd_pow 2 (by norm_num))).mpr (htwo.mul_left _)

/-- The base part that carries is beyond the modulus, and short of a multiple by
the remainder of `Carries`. -/
theorem residue_of_carries {s : DlmmState} (h : Carries s) :
    2 ^ 128 ≤ baseFee s ∧
      baseFee s % 2 ^ 128 + 1791287909698199541635874816 = 2 ^ 128 := by
  rw [baseFee, h.baseFactor, h.binStep, h.power]
  decide +kernel

/-- A base part that wraps and does not vanish leaves more than the cap. -/
theorem cap_lt_residue {s : DlmmState} (hwrap : 2 ^ 128 ≤ baseFee s) (h : ¬ Vanishes s) :
    dlmmMaxFeeRate < baseFee s % 2 ^ 128 := by
  have hne : baseFee s ≠ 0 := by omega
  have hmod : baseFee s % 2 ^ 128 ≠ 0 := fun h0 => h ⟨hne, Nat.dvd_of_mod_eq_zero h0⟩
  have hle := Nat.le_of_dvd (Nat.pos_of_ne_zero hmod) (residue_of_wrap hwrap)
  have hcap : dlmmMaxFeeRate < 2 ^ 27 := by decide
  omega

/-- **The rate is exact if and only if the base part does not vanish below the
cap**, and the one base part that carries is not carried to below it. -/
theorem totalFeeRate_exact_iff (s : DlmmState) :
    totalFeeRate s = feeRate s ↔
      ¬ (Vanishes s ∧ variableFee s < dlmmMaxFeeRate) ∧
        ¬ (Carries s ∧ variableFee s < 1791287909698199541635874816 + dlmmMaxFeeRate) := by
  rw [totalFeeRate_eq, feeRate]
  have hcap : dlmmMaxFeeRate = 100000000 := rfl
  have hV : variableFee s < 2 ^ 127 := by
    have hb := UInt16.toNat_lt s.binStep
    have hmax : ceilDiv ((2 ^ 32 - 1) * ((2 ^ 32 - 1) * 65535) ^ 2) (10 ^ 11) < 2 ^ 127 := by
      decide +kernel
    exact lt_of_le_of_lt (variableFee_le s (by omega)) hmax
  by_cases hcarries : Carries s
  · -- the sum is past the modulus: what is left is the variable part less the remainder
    obtain ⟨hwrap, hres⟩ := residue_of_carries hcarries
    have hover := hcarries.variable_
    have hkept : ¬ Vanishes s := fun hv => by
      have := Nat.mod_eq_zero_of_dvd hv.2
      omega
    have hsum : (baseFee s % 2 ^ 128 + variableFee s) % 2 ^ 128
        = variableFee s - 1791287909698199541635874816 := by
      generalize baseFee s % 2 ^ 128 = r at hres ⊢
      omega
    rw [hsum]
    simp only [hkept, hcarries, false_and, not_false_eq_true, true_and]
    omega
  · rw [Nat.mod_eq_of_lt (base_room s hcarries)]
    simp only [hcarries, false_and, not_false_eq_true, and_true]
    rcases Nat.lt_or_ge (baseFee s) (2 ^ 128) with hfit | hwrap
    · -- nothing wraps, and a base part below the modulus vanishes only at zero
      have hkept : ¬ Vanishes s := fun hv =>
        absurd (Nat.le_of_dvd (Nat.pos_of_ne_zero hv.1) hv.2) (Nat.not_le.mpr hfit)
      rw [Nat.mod_eq_of_lt hfit]
      simp [hkept]
    · by_cases hvanish : Vanishes s
      · have hzero : baseFee s % 2 ^ 128 = 0 := Nat.mod_eq_zero_of_dvd hvanish.2
        rw [hzero]
        simp only [hvanish, true_and]
        omega
      · -- both sides are the cap
        have hlt := cap_lt_residue hwrap hvanish
        simp only [hvanish, false_and, not_false_eq_true, iff_true]
        omega

/-- Base factor 1, bin step 1 and exponent 127: the base part is 10¹²⁸, whose
low 128 bits are all zero. -/
theorem totalFeeRate_vanishes :
    let s : DlmmState := { (default : DlmmState) with
      binStep := 1
      parameters := { (default : DlmmState).parameters with
        baseFactor := 1, baseFeePowerFactor := 127 } }
    totalFeeRate s = 0 ∧ feeRate s = dlmmMaxFeeRate ∧ totalFeeRate s ≠ feeRate s := by
  decide +kernel

end ShredArb.Dlmm
