/-
  ShredArb.Lib.Checked — unsigned arithmetic that STOPS where a machine wraps.

  A branch of a program is written a second time over these operations; a run
  that does not stop on a wrap or a division by zero is one in which the machine
  computed the exact values.  A refusal of the program (its own error return)
  is told apart from both.
-/
import Mathlib.Tactic

namespace ShredArb.Checked

/-! ## §1. Operations. -/

/-- Why a computation stops. -/
inductive Stop
  /-- the program's own error return -/
  | refuse
  /-- an unsigned operation leaves its width -/
  | wrap
  /-- a division by zero -/
  | divZero
  deriving DecidableEq, Repr

/-- Addition of `w`-bit words. -/
def add (w a b : Nat) : Except Stop Nat :=
  if a + b < 2 ^ w then .ok (a + b) else .error .wrap

/-- Multiplication of `w`-bit words. -/
def mul (w a b : Nat) : Except Stop Nat :=
  if a * b < 2 ^ w then .ok (a * b) else .error .wrap

/-- Subtraction. -/
def sub (a b : Nat) : Except Stop Nat :=
  if b ≤ a then .ok (a - b) else .error .wrap

/-- Division. -/
def div (a b : Nat) : Except Stop Nat :=
  if b = 0 then .error .divZero else .ok (a / b)

/-- The error return under `p`. -/
def refuseIf (p : Prop) [Decidable p] : Except Stop Unit :=
  if p then .error .refuse else .ok ()

/-- The result of a program that only refuses. -/
def ofOption {α : Type} : Option α → Except Stop α
  | none => .error .refuse
  | some a => .ok a

/-! ## §2. Where they are exact. -/

theorem add_ok {w a b : Nat} (h : a + b < 2 ^ w) : add w a b = .ok (a + b) :=
  if_pos h

theorem mul_ok {w a b : Nat} (h : a * b < 2 ^ w) : mul w a b = .ok (a * b) :=
  if_pos h

theorem sub_ok {a b : Nat} (h : b ≤ a) : sub a b = .ok (a - b) :=
  if_pos h

theorem sub_wrap {a b : Nat} (h : a < b) : sub a b = .error .wrap :=
  if_neg (not_le.mpr h)

theorem div_ok {a b : Nat} (h : 0 < b) : div a b = .ok (a / b) :=
  if_neg (Nat.pos_iff_ne_zero.mp h)

theorem refuseIf_pos {p : Prop} [Decidable p] (h : p) : refuseIf p = .error .refuse :=
  if_pos h

theorem refuseIf_neg {p : Prop} [Decidable p] (h : ¬ p) : refuseIf p = .ok () :=
  if_neg h

/-! ## §3. Sequencing. -/

@[simp] theorem ok_bind {α β : Type} (a : α) (f : α → Except Stop β) :
    (Except.ok a >>= f) = f a :=
  rfl

@[simp] theorem error_bind {α β : Type} (e : Stop) (f : α → Except Stop β) :
    (Except.error e >>= f) = .error e :=
  rfl

/-- A program that only refuses does not stop otherwise. -/
theorem ofOption_stop {α : Type} {x : Option α} {e : Stop} (h : ofOption x = .error e) :
    e = .refuse := by
  cases x with
  | none => exact (Except.error.inj h).symm
  | some a => cases h

end ShredArb.Checked
