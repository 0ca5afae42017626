/-
  ShredArb.Lib.Parse — step parsers over byte strings.

  A parser takes what it reads off the front and returns the REST.  `Reads p bs x`
  says that `p` turns the bytes `bs`, whatever follows them, into `x`; reading
  composes along concatenation, so a format is read part by part.

  Main results:
    * `Reads.andThen` — one part after another,
    * `reads_times` — a fixed number of items,
    * `Extends.cut` — what is read to its end is not read when cut short,
    * `fields_eq` — fields of fixed widths: all of them, or none.
-/
import ShredArb.Lib.Bytes

namespace ShredArb.Parse

/-! ## §1. Parsers. -/

/-- The value read and what is left. -/
abbrev Parser (α : Type) := List UInt8 → Option (α × List UInt8)

variable {α β : Type}

/-- Read nothing. -/
def done (x : α) : Parser α := fun bs => some (x, bs)

/-- Read nothing, ever. -/
def fail : Parser α := fun _ => none

/-- One parser after another. -/
def andThen (p : Parser α) (f : α → Parser β) : Parser β := fun bs =>
  (p bs).bind fun r => f r.1 r.2

/-- One byte. -/
def byte : Parser UInt8
  | [] => none
  | b :: bs => some (b, bs)

/-- A fixed number of bytes. -/
def exactly (n : Nat) : Parser (List UInt8) := fun bs =>
  if bs.length < n then none else some (bs.take n, bs.drop n)

/-- A fixed number of items. -/
def times (p : Parser α) : Nat → Parser (List α)
  | 0 => done []
  | n + 1 => andThen p fun x => andThen (times p n) fun xs => done (x :: xs)

/-- Read to the end. -/
def whole (p : Parser α) (bs : List UInt8) : Option α :=
  (p bs).bind fun r => if r.2 = [] then some r.1 else none

theorem andThen_eq_some {p : Parser α} {f : α → Parser β} {bs : List UInt8} {r : β × List UInt8} :
    andThen p f bs = some r ↔ ∃ x rest, p bs = some (x, rest) ∧ f x rest = some r := by
  rw [andThen, Option.bind_eq_some_iff, Prod.exists]

theorem andThen_assoc {γ : Type} (p : Parser α) (f : α → Parser β) (g : β → Parser γ) :
    andThen (andThen p f) g = andThen p fun x => andThen (f x) g := by
  funext bs
  unfold andThen
  rw [Option.bind_assoc]

theorem done_andThen (x : α) (f : α → Parser β) : andThen (done x) f = f x := rfl

/-- Bytes one by one. -/
theorem times_byte : ∀ n, times byte n = exactly n := by
  intro n
  induction n with
  | zero =>
    funext bs
    simp [times, done, exactly]
  | succ n ih =>
    funext bs
    rw [times, ih]
    cases bs with
    | nil => simp [andThen, byte, exactly]
    | cons b bs =>
      simp only [andThen, byte, exactly, Option.bind_some, List.length_cons, List.take_succ_cons,
        List.drop_succ_cons]
      by_cases h : bs.length < n
      · rw [if_pos h, if_pos (by omega), Option.bind_none]
      · rw [if_neg h, if_neg (by omega), Option.bind_some]
        rfl

theorem exactly_eq_some {n : Nat} {bs xs rest : List UInt8} :
    exactly n bs = some (xs, rest) ↔ n ≤ bs.length ∧ xs = bs.take n ∧ rest = bs.drop n := by
  unfold exactly
  split
  · rename_i hlt
    exact ⟨fun h => absurd h (by simp), fun h => absurd h.1 (by omega)⟩
  · rename_i hge
    constructor
    · intro h
      obtain ⟨rfl, rfl⟩ := Prod.mk.inj (Option.some.inj h)
      exact ⟨by omega, rfl, rfl⟩
    · rintro ⟨-, rfl, rfl⟩
      rfl

/-! ## §2. Reading. -/

/-- The parser turns the bytes into the value and leaves the rest alone. -/
def Reads (p : Parser α) (bs : List UInt8) (x : α) : Prop :=
  ∀ rest, p (bs ++ rest) = some (x, rest)

theorem reads_done (x : α) : Reads (done x) [] x := fun _ => rfl

theorem Reads.andThen {p : Parser α} {f : α → Parser β} {bs cs : List UInt8} {x : α} {y : β}
    (hp : Reads p bs x) (hf : Reads (f x) cs y) : Reads (Parse.andThen p f) (bs ++ cs) y := by
  intro rest
  rw [Parse.andThen, List.append_assoc, hp, Option.bind_some]
  exact hf rest

/-- A parser that ends with a value. -/
theorem Reads.map {p : Parser α} {g : α → β} {bs : List UInt8} {x : α} (hp : Reads p bs x) :
    Reads (Parse.andThen p fun x => done (g x)) bs (g x) := by
  have h := hp.andThen (f := fun x => done (g x)) (reads_done (g x))
  rwa [List.append_nil] at h

theorem reads_byte (b : UInt8) : Reads byte [b] b := fun _ => rfl

theorem reads_exactly {n : Nat} {bs : List UInt8} (h : bs.length = n) : Reads (exactly n) bs bs := by
  intro rest
  have hlen : ¬ (bs ++ rest).length < n := by
    rw [List.length_append]
    omega
  rw [exactly, if_neg hlen, List.take_left' h, List.drop_left' h]

theorem reads_times {p : Parser α} {enc : α → List UInt8} (xs : List α)
    (h : ∀ x ∈ xs, Reads p (enc x) x) : Reads (times p xs.length) (xs.flatMap enc) xs := by
  induction xs with
  | nil => exact reads_done []
  | cons x xs ih =>
    have hrest := ih fun y hy => h y (List.mem_cons_of_mem _ hy)
    rw [List.flatMap_cons]
    exact (h x List.mem_cons_self).andThen hrest.map

theorem Reads.whole {p : Parser α} {bs : List UInt8} {x : α} (h : Reads p bs x) :
    Parse.whole p bs = some x := by
  have hnil := h []
  rw [List.append_nil] at hnil
  rw [Parse.whole, hnil, Option.bind_some, if_pos rfl]

/-! ## §3. Input cut short. -/

/-- What follows the bytes read does not change what is read. -/
def Extends (p : Parser α) : Prop :=
  ∀ bs x rest, p bs = some (x, rest) → ∀ t, p (bs ++ t) = some (x, rest ++ t)

theorem extends_done (x : α) : Extends (done x) := by
  intro bs y rest h t
  obtain ⟨rfl, rfl⟩ := Prod.mk.inj (Option.some.inj h)
  rfl

theorem extends_fail : Extends (fail : Parser α) := by
  intro bs x rest h
  exact absurd h (by simp [fail])

theorem extends_exactly (n : Nat) : Extends (exactly n) := by
  intro bs x rest h t
  obtain ⟨hn, rfl, rfl⟩ := exactly_eq_some.mp h
  refine exactly_eq_some.mpr ⟨by rw [List.length_append]; omega, ?_, ?_⟩
  · rw [List.take_append_of_le_length hn]
  · rw [List.drop_append_of_le_length hn]

theorem Extends.andThen {p : Parser α} {f : α → Parser β} (hp : Extends p)
    (hf : ∀ x, Extends (f x)) : Extends (Parse.andThen p f) := by
  intro bs y rest h t
  obtain ⟨x, mid, hx, hy⟩ := andThen_eq_some.mp h
  exact andThen_eq_some.mpr ⟨x, mid ++ t, hp bs x mid hx t, hf x mid y rest hy t⟩

theorem Extends.times {p : Parser α} (hp : Extends p) : ∀ n, Extends (Parse.times p n)
  | 0 => extends_done []
  | n + 1 => hp.andThen fun x => (Extends.times hp n).andThen fun xs => extends_done (x :: xs)

theorem Extends.cut {p : Parser α} (hp : Extends p) {bs t : List UInt8} {x : α}
    (h : whole p (bs ++ t) = some x) (ht : t ≠ []) : whole p bs = none := by
  cases hbs : p bs with
  | none => rw [Parse.whole, hbs, Option.bind_none]
  | some r =>
    -- the longer input would leave `t` behind
    have hlong : whole p (bs ++ t) = none := by
      rw [Parse.whole, hp bs r.1 r.2 hbs t, Option.bind_some, if_neg]
      simp [ht]
    exact absurd (h.symm.trans hlong) (by simp)

/-! ## §4. Fields of fixed widths. -/

/-- Fields of the given widths, one after another. -/
def fields : List Nat → Parser (List (List UInt8))
  | [] => done []
  | n :: ns => andThen (exactly n) fun x => andThen (fields ns) fun xs => done (x :: xs)

/-- The bytes cut at the widths. -/
def cutAt : List Nat → List UInt8 → List (List UInt8)
  | [], _ => []
  | n :: ns, bs => bs.take n :: cutAt ns (bs.drop n)

/-- **All the fields are read, or the input is too short.** -/
theorem fields_eq (ns : List Nat) (bs : List UInt8) :
    fields ns bs = if ns.sum ≤ bs.length then some (cutAt ns bs, bs.drop ns.sum) else none := by
  induction ns generalizing bs with
  | nil => simp [fields, done, cutAt]
  | cons n ns ih =>
    rw [fields, andThen, exactly, List.sum_cons]
    by_cases hn : bs.length < n
    · rw [if_pos hn, Option.bind_none, if_neg (by omega)]
    · rw [if_neg hn, Option.bind_some, andThen, ih, List.length_drop]
      by_cases hns : ns.sum ≤ bs.length - n
      · rw [if_pos hns, Option.bind_some, if_pos (by omega), done, cutAt, List.drop_drop]
      · rw [if_neg hns, Option.bind_none, if_neg (by omega)]

/-- What was written field by field is read field by field. -/
theorem reads_fields (parts : List (List UInt8)) :
    Reads (fields (parts.map List.length)) parts.flatten parts := by
  induction parts with
  | nil => exact reads_done []
  | cons x parts ih =>
    rw [List.flatten_cons]
    exact (reads_exactly rfl).andThen ih.map

end ShredArb.Parse
