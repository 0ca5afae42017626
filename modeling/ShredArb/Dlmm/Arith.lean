/-
  ShredArb.Dlmm.Arith — what the fixed-point kernels, the fees and the fill of
  ONE bin compute.

  One spec lemma per function of `Dlmm.Kernel`; nothing above this file
  unfolds the arithmetic again.

  Main results:
    * `u128MulShr64_eq` / `u128Shl64Div_eq` — the limb kernels are the exact
      rounded quotients.
    * `fillMm_spec` — a fill never gives out more than it took at the bin's
      price, and a positive leftover means the bin's out-side is used up.
    * `takeFill_foi` — with the fee on the input, what goes into the bin is
      exactly what the fill used.
-/
import ShredArb.Dlmm.Kernel

namespace ShredArb.Dlmm

open ShredArb.Word

/-! ## §1. The 128-bit kernels. -/

/-- The exact product, floor or ceiling, over `2 ^ 64`. -/
def roundShr64 (n : Nat) (roundUp : Bool) : Nat :=
  if roundUp then ceilDiv n (2 ^ 64) else n / 2 ^ 64

theorem two_limbs {a : Nat} (ha : a < 2 ^ 128) :
    wrap64 (a / 2 ^ 64) * 2 ^ 64 + wrap64 a = a := by
  have hhi : a / 2 ^ 64 < 2 ^ 64 := Nat.div_lt_of_lt_mul ha
  rw [wrap64_of_lt hhi]
  exact Nat.div_add_mod' a (2 ^ 64)

/-- The three words of a product that the limb computation of
`u128_mul_shr64` produces. -/
theorem mul_limbs {a b : Nat} (ha : a < 2 ^ 128) (hb : b < 2 ^ 128) :
    let p00 := wrap64 a * wrap64 b
    let p01 := wrap64 a * wrap64 (b / 2 ^ 64)
    let p10 := wrap64 (a / 2 ^ 64) * wrap64 b
    let mid := p00 / 2 ^ 64 + wrap64 p01 + wrap64 p10
    a * b = (wrap64 (a / 2 ^ 64) * wrap64 (b / 2 ^ 64) + p01 / 2 ^ 64 + p10 / 2 ^ 64
        + mid / 2 ^ 64) * (2 ^ 64) ^ 2
      + wrap64 mid * 2 ^ 64 + wrap64 p00 := by
  have hs := schoolbook (2 ^ 64) (wrap64 a) (wrap64 (a / 2 ^ 64)) (wrap64 b)
    (wrap64 (b / 2 ^ 64))
  rw [two_limbs ha, two_limbs hb] at hs
  exact hs

/-- The exact value and refusal of `u128_mul_shr64`. -/
theorem u128MulShr64_eq {a b : Nat} (ha : a < 2 ^ 128) (hb : b < 2 ^ 128)
    (roundUp : Bool) :
    u128MulShr64 a b roundUp
      = if a * b / 2 ^ 64 < 2 ^ 64 then some (roundShr64 (a * b) roundUp) else none := by
  have hprod := mul_limbs ha hb
  simp only at hprod
  have hab : a * b < 2 ^ 128 * 2 ^ 128 := Nat.mul_lt_mul'' ha hb
  unfold u128MulShr64
  simp only
  generalize hp00 : wrap64 a * wrap64 b = p00 at hprod ⊢
  generalize wrap64 a * wrap64 (b / 2 ^ 64) = p01 at hprod ⊢
  generalize wrap64 (a / 2 ^ 64) * wrap64 b = p10 at hprod ⊢
  generalize wrap64 (a / 2 ^ 64) * wrap64 (b / 2 ^ 64) = p11 at hprod ⊢
  have hp00lt : p00 < 2 ^ 128 := by
    rw [← hp00]
    calc wrap64 a * wrap64 b < 2 ^ 64 * 2 ^ 64 :=
          Nat.mul_lt_mul'' (wrap64_lt a) (wrap64_lt b)
      _ = 2 ^ 128 := by norm_num
  have hmid : wrap128 (p00 / 2 ^ 64 + wrap64 p01 + wrap64 p10)
      = p00 / 2 ^ 64 + wrap64 p01 + wrap64 p10 := by
    apply wrap128_of_lt
    have h1 := wrap64_lt p01
    have h2 := wrap64_lt p10
    omega
  rw [hmid]
  generalize p00 / 2 ^ 64 + wrap64 p01 + wrap64 p10 = mid at hprod ⊢
  have hhi : wrap128 (p11 + p01 / 2 ^ 64 + p10 / 2 ^ 64 + mid / 2 ^ 64)
      = p11 + p01 / 2 ^ 64 + p10 / 2 ^ 64 + mid / 2 ^ 64 := by
    apply wrap128_of_lt
    omega
  rw [hhi]
  generalize p11 + p01 / 2 ^ 64 + p10 / 2 ^ 64 + mid / 2 ^ 64 = hi at hprod ⊢
  have hlo := wrap64_lt mid
  have hfrac := wrap64_lt p00
  by_cases h0 : hi = 0
  · subst h0
    have hdiv : a * b / 2 ^ 64 = wrap64 mid := by omega
    have hmod : a * b % 2 ^ 64 = wrap64 p00 := by omega
    have hlt : a * b / 2 ^ 64 < 2 ^ 64 := by omega
    have hne : wrap64 mid ≠ 2 ^ 128 - 1 := by omega
    rw [if_neg (not_not_intro rfl), if_pos hlt, if_neg hne]
    unfold roundShr64 ceilDiv
    rw [hdiv, hmod]
    cases roundUp with
    | false => simp only [Bool.false_and, Bool.false_eq_true, if_false]
    | true =>
      simp only [Bool.true_and, bne_iff_ne, ne_eq, if_true]
      split <;> simp only [Nat.add_zero]
  · have hge : ¬ a * b / 2 ^ 64 < 2 ^ 64 := by omega
    rw [if_pos h0, if_neg hge]

/-- The exact value and refusal of `u128_shl64_div`. -/
theorem u128Shl64Div_eq (num den : Nat) (roundUp : Bool) :
    u128Shl64Div num den roundUp
      = if den = 0 ∨ 2 ^ 64 ≤ num then none
        else if roundUp = true then
          if num * 2 ^ 64 % den ≠ 0 ∧ num * 2 ^ 64 / den = 2 ^ 128 - 1 then none
          else some (ceilDiv (num * 2 ^ 64) den)
        else some (num * 2 ^ 64 / den) := by
  unfold u128Shl64Div
  by_cases hbad : den = 0 ∨ 2 ^ 64 ≤ num
  · rw [if_pos hbad, if_pos]
    rcases hbad with h | h
    · exact Or.inl h
    · right
      omega
  · have hnum : num < 2 ^ 64 := by omega
    have hwrap : wrap128 (num * 2 ^ 64) = num * 2 ^ 64 :=
      wrap128_of_lt (by omega)
    rw [if_neg hbad, if_neg (by omega)]
    simp only [hwrap]
    unfold ceilDiv
    generalize num * 2 ^ 64 = n
    cases roundUp with
    | false => simp only [Bool.false_and, Bool.false_eq_true, if_false]
    | true =>
      simp only [Bool.true_and, bne_iff_ne, ne_eq, if_true]
      by_cases hr : n % den = 0
      · simp only [hr, not_true_eq_false, if_false, false_and, Nat.add_zero]
      · simp only [hr, not_false_eq_true, if_true, true_and]

theorem fitU64_eq_some {r : Option Nat} {n : Nat} (h : fitU64 r = some n) :
    r = some n ∧ n < 2 ^ 64 := by
  unfold fitU64 at h
  cases r with
  | none => simp at h
  | some m =>
    simp only [Option.bind_some] at h
    split at h
    · simp at h
    · simp only [Option.some.injEq] at h
      subst h
      exact ⟨rfl, by omega⟩

/-! ## §2. Amounts at a price. -/

/-- `amount_out` rounds in the pool's favour. -/
theorem amountOut_le {inAmt price out : Nat} {sfy : Bool}
    (hin : inAmt < 2 ^ 64) (hp : price < 2 ^ 128)
    (h : amountOut inAmt price sfy = some out) :
    out < 2 ^ 64 ∧
      (if sfy then out * 2 ^ 64 ≤ inAmt * price else out * price ≤ inAmt * 2 ^ 64) := by
  cases sfy with
  | true =>
    obtain ⟨hr, hlt⟩ := fitU64_eq_some (by simpa [amountOut] using h)
    rw [u128MulShr64_eq hp (by omega)] at hr
    split at hr
    · simp only [roundShr64, Bool.false_eq_true, if_false, Option.some.injEq] at hr
      refine ⟨hlt, ?_⟩
      simp only [if_true]
      rw [← hr, Nat.mul_comm inAmt price]
      exact Nat.div_mul_le_self _ _
    · simp at hr
  | false =>
    obtain ⟨hr, hlt⟩ := fitU64_eq_some (by simpa [amountOut] using h)
    rw [u128Shl64Div_eq] at hr
    split at hr
    · simp at hr
    · simp only [Bool.false_eq_true, if_false, Option.some.injEq] at hr
      refine ⟨hlt, ?_⟩
      simp only [Bool.false_eq_true, if_false]
      rw [← hr]
      exact Nat.div_mul_le_self _ _

/-- `amount_in`, rounding up, asks at least the price of what it gives. -/
theorem le_amountIn {out price cost : Nat} {sfy : Bool}
    (hout : out < 2 ^ 64) (hp : price < 2 ^ 128)
    (h : amountIn out price sfy true = some cost) :
    cost < 2 ^ 64 ∧
      (if sfy then out * 2 ^ 64 ≤ cost * price else out * price ≤ cost * 2 ^ 64) := by
  cases sfy with
  | true =>
    obtain ⟨hr, hlt⟩ := fitU64_eq_some (by simpa [amountIn] using h)
    rw [u128Shl64Div_eq] at hr
    split at hr
    · simp at hr
    · rename_i hden
      simp only [if_true] at hr
      split at hr
      · simp at hr
      · simp only [Option.some.injEq] at hr
        refine ⟨hlt, ?_⟩
        simp only [if_true]
        rw [← hr]
        exact le_ceilDiv_mul _ (by omega)
  | false =>
    obtain ⟨hr, hlt⟩ := fitU64_eq_some (by simpa [amountIn] using h)
    rw [u128MulShr64_eq (by omega) hp] at hr
    split at hr
    · simp only [roundShr64, if_true, Option.some.injEq] at hr
      refine ⟨hlt, ?_⟩
      simp only [Bool.false_eq_true, if_false]
      rw [← hr]
      exact le_ceilDiv_mul _ (by norm_num)
    · simp at hr

/-! ## §3. Fees. -/

theorem computeFee_lt {s : DlmmState} {amount fee : Nat}
    (h : computeFee s amount = some fee) : fee < 2 ^ 64 := by
  unfold computeFee at h
  simp only at h
  split at h
  · simp at h
  · split at h
    · simp at h
    · simp only [Option.some.injEq] at h
      omega

/-- The references are all that `update_references` touches. -/
theorem updateReferences_shared (s : DlmmState) :
    (updateReferences s).binStep = s.binStep ∧
      (updateReferences s).parameters = s.parameters ∧
      (updateReferences s).bins = s.bins ∧ (updateReferences s).activeId = s.activeId ∧
      (updateReferences s).reserveX = s.reserveX ∧
      (updateReferences s).reserveY = s.reserveY := by
  unfold updateReferences
  simp only
  split
  next => exact ⟨rfl, rfl, rfl, rfl, rfl, rfl⟩
  next => exact ⟨rfl, rfl, rfl, rfl, rfl, rfl⟩

theorem feeOnInput_updateReferences (s : DlmmState) (sfy : Bool) :
    feeOnInput (updateReferences s) sfy = feeOnInput s sfy := by
  unfold feeOnInput updateReferences
  simp only
  split
  next => rfl
  next => rfl

/-! ## §4. The fill of one bin. -/

theorem DlmmBin.outSide_lt (b : DlmmBin) (sfy : Bool) : b.outSide sfy < 2 ^ 64 :=
  UInt64.toNat_lt _

/-- `used` units in pay for `out` units out at `price` (Y per X, scaled by
`2 ^ 64`). -/
def PaidFor (sfy : Bool) (price used out : Nat) : Prop :=
  if sfy then out * 2 ^ 64 ≤ used * price else out * price ≤ used * 2 ^ 64

/-- **The fill of one bin**: it splits the amount, pays for what it takes at
the bin's price, and leaves something over only when it emptied the bin. -/
theorem fillMm_spec {bin : DlmmBin} {amount : Nat} {sfy : Bool} {m : MmFill}
    (hamt : amount < 2 ^ 64) (h : fillMm bin amount sfy = some m) :
    m.usedIn + m.left = amount ∧ PaidFor sfy bin.price.toNat m.usedIn m.outAmt ∧
      (0 < m.left → m.outAmt = bin.outSide sfy) := by
  unfold fillMm at h
  simp only at h
  split at h
  · rename_i hempty
    simp only [Option.some.injEq] at h
    subst h
    refine ⟨by simp, ?_, fun _ => hempty.symm⟩
    unfold PaidFor
    split <;> simp
  · rw [Option.bind_eq_some_iff] at h
    obtain ⟨maxIn, hin, h⟩ := h
    obtain ⟨hlt, hpaid⟩ := le_amountIn (bin.outSide_lt sfy) bin.price.isLt hin
    split at h
    · rename_i hge
      simp only [Option.some.injEq] at h
      subst h
      exact ⟨by simp only; omega, hpaid, fun _ => rfl⟩
    · simp only [Option.map_eq_some_iff] at h
      obtain ⟨out, hout, h⟩ := h
      subst h
      refine ⟨by simp, (amountOut_le hamt bin.price.isLt hout).2, ?_⟩
      intro hpos
      simp at hpos

/-- The fee taken off before the fill leaves the fill something not above the
remaining amount. -/
theorem inputFee_le {s : DlmmState} {left fee : Nat} {foi : Bool}
    (h : inputFee s left foi = some fee) : fee ≤ left := by
  unfold inputFee at h
  split at h
  · simp only [Option.bind_eq_some_iff] at h
    obtain ⟨g, -, h⟩ := h
    split at h
    · simp at h
    · simp only [Option.some.injEq] at h
      omega
  · simp only [Option.some.injEq] at h
    omega

/-- **With the fee on the input, what an iteration books into the bin is what
its fill used**, and it stops short of the whole amount only when the fill had
something left over. -/
theorem takeFill_foi {s : DlmmState} {bin : DlmmBin} {left : Nat} {sfy : Bool}
    {f : BinFill} (hleft : left < 2 ^ 64)
    (h : takeFill s bin left true sfy = some f) :
    ∃ excluded m, excluded ≤ left ∧ fillMm bin excluded sfy = some m ∧
      f.outAmt = m.outAmt ∧ f.intoBin = m.usedIn ∧ (f.included < left → 0 < m.left) := by
  unfold takeFill at h
  simp only [Option.bind_eq_some_iff, Option.map_eq_some_iff] at h
  obtain ⟨fee, hfee, m, hm, inc, hinc, out, hout, proto, -, hf⟩ := h
  have hle := inputFee_le hfee
  obtain ⟨hsplit, -, -⟩ := fillMm_spec (by omega) hm
  simp only [outputFee, if_true, Option.some.injEq] at hout
  subst hout hf
  refine ⟨left - fee, m, by omega, hm, rfl, ?_, ?_⟩
  · -- booked amount: `included - fee` undoes the addition of the fee
    unfold includedFee at hinc
    split at hinc
    · simp only [if_true, Option.map_eq_some_iff] at hinc
      obtain ⟨fee2, hfee2, hinc⟩ := hinc
      subst hinc
      have hsub : sub64 (left - fee) m.left = m.usedIn := by
        rw [sub64_of_le (by omega) (by omega)]
        omega
      show sub64 (wrap64 (sub64 (left - fee) m.left + fee2)) fee2 = m.usedIn
      rw [hsub]
      exact sub64_wrap64_add (by omega) (computeFee_lt hfee2)
    · simp only [Option.some.injEq] at hinc
      subst hinc
      show sub64 left fee = m.usedIn
      rw [sub64_of_le hle hleft]
      omega
  · intro hlt
    unfold includedFee at hinc
    split at hinc
    · assumption
    · simp only [Option.some.injEq] at hinc
      subst hinc
      exact absurd hlt (lt_irrefl _)

end ShredArb.Dlmm
