/-
  ShredArb.Lib.TruncPow — powers of a fraction, TRUNCATED after every product.

  A fraction `s / D` is raised to a power by squaring and multiplying, from the
  lowest bit of the exponent up; every product is cut to a multiple of `1 / D`.
  The cuts differ from one exponent to the next, yet the power of a fraction
  that is at most 1 never grows with the exponent.

  `e` and `e + 1` differ in a run of low ones.  Where the run ends, `e` has
  multiplied the squares below, `e + 1` takes the next square ALONE, and that is
  the square of the last factor: no product of the run is smaller.

  Main results:
    * `truncPow_succ_le` — one step, by induction over the bits,
    * `truncPow_antitone`.
-/
import Mathlib.Order.Monotone.Basic
import Mathlib.Tactic

namespace ShredArb.TruncPow

/-! ## §1. The power. -/

/-- `acc * (s / D) ^ e`, over the `n` lowest bits of `e`. -/
def truncPow (D : Nat) : (n s e acc : Nat) → Nat
  | 0, _, _, acc => acc
  | n + 1, s, e, acc => truncPow D n (s * s / D) (e / 2) (if e % 2 = 1 then acc * s / D else acc)

variable {D : Nat}

theorem truncPow_zero (n s acc : Nat) : truncPow D n s 0 acc = acc := by
  induction n generalizing s acc with
  | zero => rfl
  | succ n ih =>
    show truncPow D n (s * s / D) 0 acc = acc
    exact ih (s * s / D) acc

theorem truncPow_one (hD : 0 < D) (n s : Nat) : truncPow D (n + 1) s 1 D = s := by
  show truncPow D n (s * s / D) 0 (D * s / D) = s
  rw [truncPow_zero, Nat.mul_div_cancel_left s hD]

/-- A larger start gives a larger power. -/
theorem truncPow_mono (n s e : Nat) {a b : Nat} (h : a ≤ b) :
    truncPow D n s e a ≤ truncPow D n s e b := by
  induction n generalizing s e a b with
  | zero => exact h
  | succ n ih =>
    show truncPow D n _ _ _ ≤ truncPow D n _ _ _
    refine ih (s * s / D) (e / 2) ?_
    split
    · exact Nat.div_le_div_right (Nat.mul_le_mul_right s h)
    · exact h

/-! ## §2. The exponent. -/

/-- One more in the exponent.  `b` is what the ones below have left of `D`: at
least the square that the carry takes. -/
theorem truncPow_succ_le (hD : 0 < D) (n : Nat) : ∀ (s e b : Nat), s ≤ b → e + 1 < 2 ^ n →
    truncPow D n s (e + 1) D ≤ truncPow D n s e b := by
  induction n with
  | zero =>
    intro s e b hb he
    omega
  | succ n ih =>
    intro s e b hb he
    show truncPow D n _ _ _ ≤ truncPow D n _ _ _
    rw [pow_succ] at he
    rcases Nat.mod_two_eq_zero_or_one e with heven | hodd
    · -- the carry ends here
      have hhalf : (e + 1) / 2 = e / 2 := by omega
      rw [if_pos (by omega), if_neg (by omega), hhalf, Nat.mul_div_cancel_left s hD]
      exact truncPow_mono n (s * s / D) (e / 2) hb
    · -- a one of the run: `e` multiplies, the carry goes on
      have hhalf : (e + 1) / 2 = e / 2 + 1 := by omega
      rw [if_neg (by omega), if_pos hodd, hhalf]
      have hnext : s * s / D ≤ b * s / D := Nat.div_le_div_right (Nat.mul_le_mul_right s hb)
      exact ih (s * s / D) (e / 2) (b * s / D) hnext (by omega)

/-- **The truncated power of a fraction that is at most 1 does not grow with the
exponent.** -/
theorem truncPow_antitone (hD : 0 < D) {n s : Nat} (hs : s ≤ D) {e e' : Nat} (hle : e ≤ e')
    (he' : e' < 2 ^ n) : truncPow D n s e' D ≤ truncPow D n s e D := by
  induction e', hle using Nat.le_induction with
  | base => exact le_refl _
  | succ k hk ih => exact (truncPow_succ_le hD n s k D hs he').trans (ih (by omega))

end ShredArb.TruncPow
