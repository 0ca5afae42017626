/-
  ShredArb.Lib.Residue — residues just below the modulus.

  A multiple `x * M` of a bounded `x` comes within `Y` below a multiple of `N`
  only if `(x, y)` with `N ∣ x * M + y` lies in the box `X × Y`.  ONE vector of
  the lattice of such pairs settles that: a vector across the box shows that the
  box is empty, a vector along it that all its points lie on a line.

  Main results:
    * `residue_gap` — the box is empty,
    * `residue_line` — the box is a line.
-/
import Mathlib.Tactic

namespace ShredArb.Residue

variable {N M X Y x y v u : Nat}

/-- What is missing from the residue to the modulus. -/
theorem dvd_add_missing (hN : 0 < N) (n : Nat) : N ∣ n + (N - n % N) := by
  have hle : n % N ≤ N := (Nat.mod_lt n hN).le
  have hdiv := Nat.div_add_mod n N
  refine ⟨n / N + 1, ?_⟩
  rw [Nat.mul_add, Nat.mul_one]
  omega

/-- **No point of the box**: `v` times the multiplier is a small residue, so
that a point would give a multiple of `N` between 0 and `N`. -/
theorem residue_gap (hv : 0 < v) (hcert : X * (v * M % N) + Y * v < N) (hx : x ≤ X) (hy : y ≤ Y)
    (hpos : 0 < y) : ¬ N ∣ x * M + y := by
  intro hdvd
  have hmod : x * (v * M % N) + y * v ≡ (x * M + y) * v [MOD N] := by
    have hstep : x * (v * M % N) ≡ x * (v * M) [MOD N] := (Nat.mod_modEq (v * M) N).mul_left x
    calc x * (v * M % N) + y * v ≡ x * (v * M) + y * v [MOD N] := hstep.add_right (y * v)
      _ = (x * M + y) * v := by ring
  have hdvd' : N ∣ x * (v * M % N) + y * v :=
    (Nat.modEq_zero_iff_dvd).mp (hmod.trans ((Nat.modEq_zero_iff_dvd).mpr (hdvd.mul_right v)))
  have hsmall : x * (v * M % N) + y * v ≤ X * (v * M % N) + Y * v :=
    Nat.add_le_add (Nat.mul_le_mul_right _ hx) (Nat.mul_le_mul_right _ hy)
  have hbig := Nat.le_of_dvd (Nat.add_pos_right _ (Nat.mul_pos hpos hv)) hdvd'
  omega

/-- **The box is a line**: its points are proportional to the vector `(v, u)`. -/
theorem residue_line (hline : N ∣ v * M + u) (hX : X * u < N) (hY : Y * v < N) (hx : x ≤ X)
    (hy : y ≤ Y) (hdvd : N ∣ x * M + y) : x * u = y * v := by
  have hxu : x * u < N := lt_of_le_of_lt (Nat.mul_le_mul_right u hx) hX
  have hyv : y * v < N := lt_of_le_of_lt (Nat.mul_le_mul_right v hy) hY
  have hzero : x * v * M + x * u ≡ x * v * M + y * v [MOD N] := by
    have hleft : N ∣ x * v * M + x * u := by
      have h := hline.mul_left x
      rwa [Nat.mul_add, ← Nat.mul_assoc] at h
    have hright : N ∣ x * v * M + y * v := by
      have h := hdvd.mul_right v
      rwa [Nat.add_mul, Nat.mul_right_comm] at h
    exact ((Nat.modEq_zero_iff_dvd).mpr hleft).trans ((Nat.modEq_zero_iff_dvd).mpr hright).symm
  exact (Nat.ModEq.add_left_cancel' (x * v * M) hzero).eq_of_lt_of_lt hxu hyv

/-- A primitive vector: the points are its multiples. -/
theorem residue_multiple (hv : 0 < v) (hcop : Nat.Coprime v u) (hline : N ∣ v * M + u)
    (hX : X * u < N) (hY : Y * v < N) (hx : x ≤ X) (hy : y ≤ Y) (hdvd : N ∣ x * M + y) :
    ∃ k, x = k * v ∧ y = k * u := by
  have hprop := residue_line hline hX hY hx hy hdvd
  have hvx : v ∣ x * u := ⟨y, by rw [hprop, Nat.mul_comm]⟩
  obtain ⟨k, hk⟩ := hcop.dvd_of_dvd_mul_right hvx
  have hyk : v * y = v * (k * u) := by
    rw [Nat.mul_comm v y, ← hprop, hk, Nat.mul_assoc]
  exact ⟨k, by rw [hk, Nat.mul_comm], Nat.eq_of_mul_eq_mul_left hv hyk⟩

end ShredArb.Residue
