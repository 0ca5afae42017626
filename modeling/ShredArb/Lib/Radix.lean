/-
  ShredArb.Lib.Radix — a number read in one base and kept in another.

  The number stands as its digits, lowest first, in a buffer of bounded length.
  To read one more digit of the other base every digit is multiplied IN PLACE,
  a carry runs along, and what is left of the carry is written behind.

  The buffer holds Mathlib's `Nat.digits` at every moment, so how long it is and
  which digit stands on top are facts about the number alone.

  Main results:
    * `mulAdd_digits` — one digit read, or no room,
    * `convert_digits` — a whole numeral,
    * `horner_digits` — reading the digits of a number gives the number.
-/
import Mathlib.Data.Nat.Digits.Lemmas
import Mathlib.Tactic

namespace ShredArb.Radix

/-! ## §1. Multiply and add in place. -/

/-- The pass over the digits in place; what is carried out comes last. -/
def mulRow (b m : Nat) : (carry : Nat) → List Nat → List Nat × Nat
  | carry, [] => ([], carry)
  | carry, d :: ds =>
    let sum := carry + m * d
    ((sum % b) :: (mulRow b m (sum / b) ds).1, (mulRow b m (sum / b) ds).2)

/-- The digits of what is carried out, into the room behind. -/
def spill (b : Nat) : (room carry : Nat) → Option (List Nat)
  | 0, carry => if carry > 0 then none else some []
  | room + 1, carry =>
    if carry > 0 then (spill b room (carry / b)).map (carry % b :: ·) else some []

/-- `m` times the buffer and a digit more. -/
def mulAdd (b cap m : Nat) (ds : List Nat) (digit : Nat) : Option (List Nat) :=
  let row := mulRow b m digit ds
  (spill b (cap - ds.length) row.2).map (row.1 ++ ·)

theorem length_mulRow (b m : Nat) (ds : List Nat) :
    ∀ carry, (mulRow b m carry ds).1.length = ds.length := by
  induction ds with
  | nil => exact fun _ => rfl
  | cons d ds ih => exact fun carry => congrArg (· + 1) (ih _)

/-- **The digits in place and those of the carry are the digits of the number.** -/
theorem mulRow_digits {b m : Nat} (hb : 1 < b) (hm : 0 < m) (v : Nat) :
    ∀ carry, (mulRow b m carry (b.digits v)).1 ++ b.digits (mulRow b m carry (b.digits v)).2
      = b.digits (m * v + carry) := by
  induction v using Nat.strongRecOn with
  | _ v ih =>
    intro carry
    rcases Nat.eq_zero_or_pos v with rfl | hv
    · rw [Nat.digits_zero, Nat.mul_zero, Nat.zero_add]
      rfl
    · -- the lowest digit of both sides, and the rest by the smaller number
      have hsum : m * v + carry = b * (m * (v / b)) + (carry + m * (v % b)) := by
        conv_lhs => rw [← Nat.div_add_mod v b]
        ring
      have hdiv : (m * v + carry) / b = m * (v / b) + (carry + m * (v % b)) / b := by
        rw [hsum, Nat.mul_add_div (by omega)]
      have hmod : (m * v + carry) % b = (carry + m * (v % b)) % b := by
        rw [hsum, Nat.mul_add_mod]
      have hpos : 0 < m * v + carry := Nat.add_pos_left (Nat.mul_pos hm hv) _
      rw [Nat.digits_def' hb hv, Nat.digits_def' hb hpos, hdiv, hmod,
        ← ih (v / b) (Nat.div_lt_self hv hb)]
      rfl

/-- The carry goes behind if its digits do. -/
theorem spill_eq {b : Nat} (hb : 1 < b) (room : Nat) : ∀ carry,
    spill b room carry = if (b.digits carry).length ≤ room then some (b.digits carry) else none := by
  induction room with
  | zero =>
    intro carry
    rcases Nat.eq_zero_or_pos carry with rfl | hpos
    · rw [Nat.digits_zero]
      rfl
    · rw [spill, if_pos hpos, Nat.digits_def' hb hpos, if_neg (by simp)]
  | succ room ih =>
    intro carry
    rcases Nat.eq_zero_or_pos carry with rfl | hpos
    · rw [Nat.digits_zero]
      rfl
    · rw [spill, if_pos hpos, ih, Nat.digits_def' hb hpos, List.length_cons]
      simp only [Nat.add_le_add_iff_right]
      split <;> rfl

/-- **One digit read.** -/
theorem mulAdd_digits {b m : Nat} (hb : 1 < b) (hm : 0 < m) {cap v : Nat} (digit : Nat)
    (hfit : (b.digits v).length ≤ cap) :
    mulAdd b cap m (b.digits v) digit =
      if (b.digits (m * v + digit)).length ≤ cap then some (b.digits (m * v + digit)) else none := by
  have hrow := mulRow_digits hb hm v digit
  have hlen := length_mulRow b m (b.digits v) digit
  simp only [mulAdd]
  rw [spill_eq hb, ← hrow, List.length_append, hlen]
  -- the room behind is the room less what stands there
  by_cases hroom : (b.digits (mulRow b m digit (b.digits v)).2).length ≤ cap - (b.digits v).length
  · rw [if_pos hroom, if_pos (by omega)]
    rfl
  · rw [if_neg hroom, if_neg (by omega)]
    rfl

/-! ## §2. A whole numeral. -/

/-- The number of a numeral, highest digit first. -/
def horner (m : Nat) (v : Nat) (xs : List Nat) : Nat := xs.foldl (fun v x => m * v + x) v

/-- A numeral read into the buffer. -/
def convert (b cap m : Nat) (ds xs : List Nat) : Option (List Nat) :=
  xs.foldlM (mulAdd b cap m) ds

theorem horner_cons (m v x : Nat) (xs : List Nat) :
    horner m v (x :: xs) = horner m (m * v + x) xs := rfl

/-- Reading on, the number does not get smaller. -/
theorem le_horner {m : Nat} (hm : 0 < m) (xs : List Nat) : ∀ v, v ≤ horner m v xs := by
  induction xs with
  | nil => exact fun v => le_rfl
  | cons x xs ih =>
    intro v
    have hstep : v ≤ m * v + x := (Nat.le_mul_of_pos_left v hm).trans (Nat.le_add_right _ _)
    exact hstep.trans (ih (m * v + x))

/-- **A numeral is read if and only if its number has room.** -/
theorem convert_digits {b m : Nat} (hb : 1 < b) (hm : 0 < m) {cap : Nat} (xs : List Nat) :
    ∀ v, (b.digits v).length ≤ cap →
      convert b cap m (b.digits v) xs =
        if (b.digits (horner m v xs)).length ≤ cap then some (b.digits (horner m v xs)) else none := by
  induction xs with
  | nil => exact fun v hv => (if_pos hv).symm
  | cons x xs ih =>
    intro v hv
    show (mulAdd b cap m (b.digits v) x).bind (fun ds => convert b cap m ds xs) = _
    rw [mulAdd_digits hb hm x hv, horner_cons]
    by_cases hroom : (b.digits (m * v + x)).length ≤ cap
    · rw [if_pos hroom]
      exact ih (m * v + x) hroom
    · -- a number that has no room is not smaller at the end
      have hle := Nat.le_length_digits_le b _ _ (le_horner hm xs (m * v + x))
      rw [if_neg hroom, if_neg (by omega)]
      rfl

theorem horner_eq_ofDigits (m : Nat) (xs : List Nat) :
    horner m 0 xs = Nat.ofDigits m xs.reverse := by
  rw [Nat.ofDigits_eq_foldr, List.foldr_reverse, horner]
  simp only [Nat.cast_id, Nat.add_comm]

/-- **Reading the digits of a number gives the number.** -/
theorem horner_digits (m v : Nat) : horner m 0 (m.digits v).reverse = v := by
  rw [horner_eq_ofDigits, List.reverse_reverse, Nat.ofDigits_digits]

/-- The digit on top counts. -/
theorem top_digit_ne_zero (b : Nat) {v d : Nat} (h : (b.digits v).reverse.head? = some d) :
    d ≠ 0 := by
  have hne : b.digits v ≠ [] := by
    intro hnil
    rw [hnil] at h
    exact absurd h (by simp)
  have hv : v ≠ 0 := Nat.digits_ne_nil_iff_ne_zero.mp hne
  rw [List.head?_reverse, List.getLast?_eq_some_getLast hne, Option.some.injEq] at h
  exact h ▸ Nat.getLast_digit_ne_zero b hv

/-- A numeral that does not start with a zero is the digits of its number. -/
theorem digits_horner {m : Nat} (hm : 1 < m) {xs : List Nat} (hlt : ∀ x ∈ xs, x < m)
    (hhead : ∀ x, xs.head? = some x → x ≠ 0) : m.digits (horner m 0 xs) = xs.reverse := by
  rw [horner_eq_ofDigits]
  refine Nat.digits_ofDigits m hm _ (fun x hx => hlt x (List.mem_reverse.mp hx)) (fun hne => ?_)
  refine hhead _ ?_
  rw [← List.getLast?_reverse, List.getLast?_eq_some_getLast hne]

theorem horner_lt {m : Nat} (hm : 1 < m) {xs : List Nat} (hlt : ∀ x ∈ xs, x < m) :
    horner m 0 xs < m ^ xs.length := by
  rw [horner_eq_ofDigits, ← List.length_reverse]
  exact Nat.ofDigits_lt_base_pow_length hm fun x hx => hlt x (List.mem_reverse.mp hx)

end ShredArb.Radix
