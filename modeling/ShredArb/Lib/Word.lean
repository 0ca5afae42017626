/-
  ShredArb.Lib.Word — fixed-width words as naturals.

  A machine word of width `w` is a natural below `2 ^ w`; an operation that
  can leave the width is written as the exact operation followed by the
  reduction (`wrap64`, `wrap128`), so that a reader sees WHERE a wrap can
  happen.  The lemmas say when the reduction does nothing, and give the two
  facts about rounded division and two-limb products every fixed-point
  kernel rests on.
-/
import Mathlib.Algebra.Order.Floor.Semifield
import Mathlib.Data.Rat.Floor
import Mathlib.Tactic

namespace ShredArb.Word

/-! ## §1. Reduction to a width. -/

/-- Reduction modulo `2 ^ 64`. -/
def wrap64 (n : Nat) : Nat := n % 2 ^ 64

/-- Reduction modulo `2 ^ 128`. -/
def wrap128 (n : Nat) : Nat := n % 2 ^ 128

/-- Unsigned 64-bit subtraction, wrapping below zero. -/
def sub64 (a b : Nat) : Nat := (a + (2 ^ 64 - b)) % 2 ^ 64

/-- Unsigned 128-bit subtraction, wrapping below zero. -/
def sub128 (a b : Nat) : Nat := (a + (2 ^ 128 - b)) % 2 ^ 128

theorem wrap64_of_lt {n : Nat} (h : n < 2 ^ 64) : wrap64 n = n :=
  Nat.mod_eq_of_lt h

theorem wrap64_lt (n : Nat) : wrap64 n < 2 ^ 64 :=
  Nat.mod_lt _ (by norm_num)

theorem wrap128_of_lt {n : Nat} (h : n < 2 ^ 128) : wrap128 n = n :=
  Nat.mod_eq_of_lt h

theorem wrap128_lt (n : Nat) : wrap128 n < 2 ^ 128 :=
  Nat.mod_lt _ (by norm_num)

theorem sub64_of_le {a b : Nat} (hba : b ≤ a) (ha : a < 2 ^ 64) :
    sub64 a b = a - b := by
  unfold sub64
  omega

/-- Adding and taking back the same word is the identity, wrap or no wrap. -/
theorem sub64_wrap64_add {a b : Nat} (ha : a < 2 ^ 64) (hb : b < 2 ^ 64) :
    sub64 (wrap64 (a + b)) b = a := by
  unfold sub64 wrap64
  omega

theorem sub128_of_le {a b : Nat} (hba : b ≤ a) (ha : a < 2 ^ 128) :
    sub128 a b = a - b := by
  unfold sub128
  omega

/-! ## §2. Exact operations on 64-bit fields. -/

/-- A subtraction that stays above zero is exact. -/
theorem toNat_sub_ofNat {a : UInt64} {n : Nat} (h : n ≤ a.toNat) :
    (a - UInt64.ofNat n).toNat = a.toNat - n := by
  have hlt := UInt64.toNat_lt a
  have hof : (UInt64.ofNat n).toNat = n := UInt64.toNat_ofNat_of_lt' (lt_of_le_of_lt h hlt)
  rw [UInt64.toNat_sub_of_le _ _ (UInt64.le_iff_toNat_le.mpr (by omega)), hof]

/-- An addition, wrap or no wrap. -/
theorem toNat_add_ofNat_mod (a : UInt64) (n : Nat) :
    (a + UInt64.ofNat n).toNat = (a.toNat + n) % 2 ^ 64 := by
  rw [UInt64.toNat_add, UInt64.toNat_ofNat']
  omega

/-- An addition that does not leave the width is exact. -/
theorem toNat_add_ofNat {a : UInt64} {n : Nat} (h : a.toNat + n < 2 ^ 64) :
    (a + UInt64.ofNat n).toNat = a.toNat + n := by
  rw [toNat_add_ofNat_mod, Nat.mod_eq_of_lt h]

/-! ## §3. Rounded division. -/

/-- The quotient rounded up, as a machine computes it: quotient plus one
when the remainder is not zero. -/
def ceilDiv (n d : Nat) : Nat := n / d + (if n % d ≠ 0 then 1 else 0)

theorem le_ceilDiv_mul (n : Nat) {d : Nat} (hd : 0 < d) : n ≤ ceilDiv n d * d := by
  unfold ceilDiv
  have hdm := Nat.div_add_mod n d
  have hlt := Nat.mod_lt n hd
  split
  · have : (n / d + 1) * d = d * (n / d) + d := by ring
    omega
  · have : (n / d + 0) * d = d * (n / d) := by ring
    omega

/-- The rounded-up quotient is the least one that covers `n`. -/
theorem ceilDiv_le_of {n d k : Nat} (hd : 0 < d) (h : n ≤ k * d) :
    ceilDiv n d ≤ k := by
  unfold ceilDiv
  have hdm := Nat.div_add_mod n d
  have hlt := Nat.mod_lt n hd
  split
  · rename_i hr
    by_contra hcon
    have hk : k ≤ n / d := by omega
    have : k * d ≤ n / d * d := Nat.mul_le_mul_right d hk
    have hpos : 0 < n % d := Nat.pos_of_ne_zero hr
    nlinarith
  · rw [Nat.add_zero]
    exact Nat.div_le_of_le_mul (by linarith)

theorem ceilDiv_mul_lt (n : Nat) {d : Nat} (hd : 0 < d) : ceilDiv n d * d < n + d := by
  unfold ceilDiv
  have hdm := Nat.div_add_mod n d
  split
  · rename_i hr
    have : (n / d + 1) * d = d * (n / d) + d := by ring
    omega
  · have : (n / d + 0) * d = d * (n / d) := by ring
    omega

theorem add_pred_div_eq_ceilDiv (n : Nat) {d : Nat} (hd : 0 < d) :
    (n + d - 1) / d = ceilDiv n d := by
  apply le_antisymm
  · have hcov := le_ceilDiv_mul n hd
    have hlt : n + d - 1 < (ceilDiv n d + 1) * d := by
      have : (ceilDiv n d + 1) * d = ceilDiv n d * d + d := by ring
      omega
    have := (Nat.div_lt_iff_lt_mul hd).mpr hlt
    omega
  · refine ceilDiv_le_of hd ?_
    have hdm := Nat.div_add_mod (n + d - 1) d
    have hlt := Nat.mod_lt (n + d - 1) hd
    have : d * ((n + d - 1) / d) = (n + d - 1) / d * d := by ring
    omega

theorem ceilDiv_mono {n m d : Nat} (hd : 0 < d) (h : n ≤ m) :
    ceilDiv n d ≤ ceilDiv m d :=
  ceilDiv_le_of hd (h.trans (le_ceilDiv_mul m hd))

/-- The quotient rounded up is the least whole number above the quotient. -/
theorem ceilDiv_eq_ceil (n : Nat) {d : Nat} (hd : 0 < d) : ceilDiv n d = ⌈(n / d : ℚ)⌉₊ := by
  have hdq : (0 : ℚ) < d := Nat.cast_pos.mpr hd
  refine le_antisymm (ceilDiv_le_of hd ?_) (Nat.ceil_le.mpr ?_)
  · have habove : (n : ℚ) ≤ ⌈(n / d : ℚ)⌉₊ * d := (div_le_iff₀ hdq).mp (Nat.le_ceil _)
    exact_mod_cast habove
  · have hcov : (n : ℚ) ≤ ceilDiv n d * d := by exact_mod_cast le_ceilDiv_mul n hd
    exact (div_le_iff₀ hdq).mpr hcov

@[simp] theorem ceilDiv_zero (d : Nat) : ceilDiv 0 d = 0 := by
  simp [ceilDiv]

/-! ## §4. Two-limb products. -/

/-- **Schoolbook product of two two-limb numbers**: the three carries of the
limb products put together give the exact product back. -/
theorem schoolbook (W a0 a1 b0 b1 : Nat) :
    (a1 * W + a0) * (b1 * W + b0)
      = (a1 * b1 + a0 * b1 / W + a1 * b0 / W
          + (a0 * b0 / W + a0 * b1 % W + a1 * b0 % W) / W) * W ^ 2
        + (a0 * b0 / W + a0 * b1 % W + a1 * b0 % W) % W * W
        + a0 * b0 % W := by
  have h00 := Nat.div_add_mod (a0 * b0) W
  have h01 := Nat.div_add_mod (a0 * b1) W
  have h10 := Nat.div_add_mod (a1 * b0) W
  have hmid := Nat.div_add_mod (a0 * b0 / W + a0 * b1 % W + a1 * b0 % W) W
  set q00 := a0 * b0 / W
  set q01 := a0 * b1 / W
  set q10 := a1 * b0 / W
  set r01 := a0 * b1 % W
  set r10 := a1 * b0 % W
  set qm := (q00 + r01 + r10) / W
  calc (a1 * W + a0) * (b1 * W + b0)
      = a1 * b1 * W ^ 2 + (a0 * b1 + a1 * b0) * W + a0 * b0 := by ring
    _ = a1 * b1 * W ^ 2 + ((W * q01 + r01) + (W * q10 + r10)) * W
          + (W * q00 + a0 * b0 % W) := by rw [h00, h01, h10]
    _ = (a1 * b1 + q01 + q10) * W ^ 2 + (q00 + r01 + r10) * W
          + a0 * b0 % W := by ring
    _ = (a1 * b1 + q01 + q10) * W ^ 2
          + (W * qm + (q00 + r01 + r10) % W) * W + a0 * b0 % W := by rw [hmid]
    _ = _ := by ring

/-! ## §5. The highest bit, copied down. -/

/-- One round of `y |= y >> s` doubles how far each bit of `x` is copied down. -/
theorem testBit_copyDown {x y s : Nat}
    (h : ∀ i, y.testBit i = true ↔ ∃ d < s, x.testBit (i + d) = true) (i : Nat) :
    (y ||| y >>> s).testBit i = true ↔ ∃ d < s + s, x.testBit (i + d) = true := by
  rw [Nat.testBit_or, Nat.testBit_shiftRight, Bool.or_eq_true, h, h]
  constructor
  · rintro (⟨d, hd, hx⟩ | ⟨d, hd, hx⟩)
    · exact ⟨d, by omega, hx⟩
    · exact ⟨s + d, by omega, by rwa [show i + (s + d) = s + i + d by omega]⟩
  · rintro ⟨d, hd, hx⟩
    rcases Nat.lt_or_ge d s with hlt | hge
    · exact Or.inl ⟨d, hlt, hx⟩
    · exact Or.inr ⟨d - s, by omega, by rwa [show s + i + (d - s) = i + d by omega]⟩

/-- Copied down far enough, the bits are all those up to the highest one. -/
theorem eq_of_copiedDown {x y s : Nat} (hx : x ≠ 0) (hs : x < 2 ^ s)
    (h : ∀ i, y.testBit i = true ↔ ∃ d < s, x.testBit (i + d) = true) :
    y = 2 ^ (x.log2 + 1) - 1 := by
  refine Nat.eq_of_testBit_eq fun i => ?_
  rw [Nat.testBit_two_pow_sub_one, Bool.eq_iff_iff, h, decide_eq_true_eq]
  constructor
  · rintro ⟨d, -, hbit⟩
    have hle : 2 ^ (i + d) ≤ x := Nat.ge_two_pow_of_testBit hbit
    have hlog := (Nat.le_log2 hx).mpr hle
    omega
  · intro hi
    have hlt := (Nat.log2_lt hx).mpr hs
    refine ⟨x.log2 - i, by omega, ?_⟩
    rw [show i + (x.log2 - i) = x.log2 by omega]
    exact Nat.testBit_log2 hx

/-- Five rounds are enough for 32 bits. -/
theorem copyDown32 {x : Nat} (hx : x ≠ 0) (hlt : x < 2 ^ 32) :
    let a := x ||| x >>> 1
    let b := a ||| a >>> 2
    let c := b ||| b >>> 4
    let d := c ||| c >>> 8
    d ||| d >>> 16 = 2 ^ (x.log2 + 1) - 1 := by
  have h0 : ∀ i, x.testBit i = true ↔ ∃ d < 1, x.testBit (i + d) = true := by
    intro i
    constructor
    · exact fun h => ⟨0, by omega, h⟩
    · rintro ⟨d, hd, h⟩
      obtain rfl : d = 0 := by omega
      exact h
  exact eq_of_copiedDown hx hlt (testBit_copyDown (testBit_copyDown (testBit_copyDown
    (testBit_copyDown (testBit_copyDown h0)))))

end ShredArb.Word
