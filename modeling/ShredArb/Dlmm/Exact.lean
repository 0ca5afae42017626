/-
  ShredArb.Dlmm.Exact — the 128-bit kernels against exact quotients.

  The product of two 128-bit numbers has 256 bits; `u128_mul_shr64` adds it up
  from four products of 64-bit halves and keeps the words above the lowest.
  Both kernels are the rounded RATIONAL quotient wherever they succeed, and
  they refuse nothing else.

  Main results:
    * `mulShr64_exact`, `shl64Div_exact` — each kernel,
    * `kernels_exact`.
-/
import ShredArb.Dlmm.Arith

namespace ShredArb.Dlmm

open ShredArb.Word

/-- The quotient of two numbers, rounded down or up. -/
def rounded (n d : Nat) (roundUp : Bool) : Nat :=
  if roundUp then ⌈(n / d : ℚ)⌉₊ else ⌊(n / d : ℚ)⌋₊

theorem rounded_eq (n : Nat) {d : Nat} (hd : 0 < d) (roundUp : Bool) :
    rounded n d roundUp = if roundUp then ceilDiv n d else n / d := by
  rw [rounded, ceilDiv_eq_ceil n hd, Nat.floor_div_eq_div]

/-- The rounded product over `2 ^ 64`. -/
theorem roundShr64_eq (n : Nat) (roundUp : Bool) : roundShr64 n roundUp = rounded n (2 ^ 64) roundUp := by
  rw [rounded_eq n (by norm_num)]
  rfl

/-- **`u128_mul_shr64` is exact**, and refuses only what has bits above 128. -/
theorem mulShr64_exact (a b : BitVec 128) (roundUp : Bool) :
    u128MulShr64 a.toNat b.toNat roundUp =
      if rounded (a.toNat * b.toNat) (2 ^ 64) false < 2 ^ 64
      then some (rounded (a.toNat * b.toNat) (2 ^ 64) roundUp) else none := by
  have hfloor : rounded (a.toNat * b.toNat) (2 ^ 64) false = a.toNat * b.toNat / 2 ^ 64 :=
    rounded_eq _ (by norm_num) false
  rw [u128MulShr64_eq a.isLt b.isLt, roundShr64_eq, hfloor]

/-- A numerator below `2 ^ 64` leaves room for the quotient rounded up. -/
theorem rounded_fits {num den : Nat} (hnum : num < 2 ^ 64) (hden : 0 < den) (roundUp : Bool) :
    rounded (num * 2 ^ 64) den roundUp ≤ (2 ^ 64 - 1) * 2 ^ 64 := by
  have hle : num * 2 ^ 64 ≤ (2 ^ 64 - 1) * 2 ^ 64 := Nat.mul_le_mul_right _ (by omega)
  refine le_trans ?_ hle
  rw [rounded_eq _ hden]
  split
  · exact ceilDiv_le_of hden (Nat.le_mul_of_pos_right _ hden)
  · exact Nat.div_le_self _ _

/-- **`u128_shl64_div` is exact**, and refuses only a zero denominator and a
numerator that is shifted out. -/
theorem shl64Div_exact (num den : BitVec 128) (roundUp : Bool) :
    u128Shl64Div num.toNat den.toNat roundUp =
      if den.toNat ≠ 0 ∧ num.toNat < 2 ^ 64 ∧ rounded (num.toNat * 2 ^ 64) den.toNat roundUp < 2 ^ 128
      then some (rounded (num.toNat * 2 ^ 64) den.toNat roundUp) else none := by
  rw [u128Shl64Div_eq]
  by_cases hbad : den.toNat = 0 ∨ 2 ^ 64 ≤ num.toNat
  · rw [if_pos hbad, if_neg]
    rintro ⟨hden, hnum, -⟩
    omega
  · have hden : 0 < den.toNat := by omega
    have hnum : num.toNat < 2 ^ 64 := by omega
    have hfits := rounded_fits hnum hden roundUp
    have hok : den.toNat ≠ 0 ∧ num.toNat < 2 ^ 64 ∧
        rounded (num.toNat * 2 ^ 64) den.toNat roundUp < 2 ^ 128 := ⟨by omega, hnum, by omega⟩
    rw [if_neg hbad, if_pos hok, rounded_eq _ hden]
    cases roundUp with
    | false => rfl
    | true =>
      -- the quotient is never the largest number, so the round up has room
      have hquot : num.toNat * 2 ^ 64 / den.toNat ≤ num.toNat * 2 ^ 64 := Nat.div_le_self _ _
      rw [if_pos rfl, if_pos rfl, if_neg]
      rintro ⟨-, hmax⟩
      omega

/-- **The 128-bit kernels are exact**: for all operands and both roundings. -/
theorem kernels_exact (a b : BitVec 128) (roundUp : Bool) :
    u128MulShr64 a.toNat b.toNat roundUp =
      (if ⌊(a.toNat * b.toNat / 2 ^ 64 : ℚ)⌋₊ < 2 ^ 64
        then some (rounded (a.toNat * b.toNat) (2 ^ 64) roundUp) else none) ∧
    u128Shl64Div a.toNat b.toNat roundUp =
      (if b.toNat ≠ 0 ∧ a.toNat < 2 ^ 64 ∧ rounded (a.toNat * 2 ^ 64) b.toNat roundUp < 2 ^ 128
        then some (rounded (a.toNat * 2 ^ 64) b.toNat roundUp) else none) := by
  have hfloor : rounded (a.toNat * b.toNat) (2 ^ 64) false
      = ⌊(a.toNat * b.toNat / 2 ^ 64 : ℚ)⌋₊ := by
    rw [rounded, if_neg Bool.false_ne_true]
    push_cast
    rfl
  rw [← hfloor]
  exact ⟨mulShr64_exact a b roundUp, shl64Div_exact a b roundUp⟩

end ShredArb.Dlmm
