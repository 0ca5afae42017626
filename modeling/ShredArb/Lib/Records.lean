/-
  ShredArb.Lib.Records — files of records that follow each other.

  A reader looks at the front of what is left: it finds the end, something it
  cannot read, or one record and the rest.  It goes on until the end or until it
  cannot read on; what it has read up to there it keeps.

  A record that is read back from its own encoding, whatever follows, is read
  back from any file it was appended to.

  Main results:
    * `readAll_flatMap_append` — records first, anything behind them,
    * `readAll_flatMap` — records only.
-/
import Mathlib.Tactic

namespace ShredArb.Records

variable {α β γ : Type}

/-- What stands at the front. -/
inductive Read (β γ : Type) where
  | eof
  | bad
  | item (c : γ) (rest : List β)

/-- Records up to the end (`true`) or to something that cannot be read.  Every
record takes at least one element, so the length bounds the records. -/
def readLoop (next : List β → Read β γ) : (fuel : Nat) → List β → List γ × Bool
  | 0, _ => ([], true)
  | fuel + 1, bs =>
    match next bs with
    | .eof => ([], true)
    | .bad => ([], false)
    | .item c rest => (c :: (readLoop next fuel rest).1, (readLoop next fuel rest).2)

def readAll (next : List β → Read β γ) (bs : List β) : List γ × Bool :=
  readLoop next (bs.length + 1) bs

/-- A reader that takes something for every record. -/
def Consumes (next : List β → Read β γ) : Prop :=
  ∀ bs c rest, next bs = .item c rest → rest.length < bs.length

/-- More fuel than elements changes nothing. -/
theorem readLoop_eq {next : List β → Read β γ} (h : Consumes next) (fuel : Nat) :
    ∀ (bs : List β) (more : Nat), bs.length < fuel →
      readLoop next (fuel + more) bs = readLoop next fuel bs := by
  induction fuel with
  | zero => exact fun bs _ hlt => absurd hlt (Nat.not_lt_zero _)
  | succ fuel ih =>
    intro bs more hlt
    rw [Nat.succ_add, readLoop, readLoop]
    cases hnext : next bs with
    | eof => rfl
    | bad => rfl
    | item c rest =>
      have hrest := h bs c rest hnext
      simp only [ih rest more (by omega)]

theorem readAll_item {next : List β → Read β γ} (h : Consumes next) {bs rest : List β} {c : γ}
    (hnext : next bs = .item c rest) :
    readAll next bs = (c :: (readAll next rest).1, (readAll next rest).2) := by
  have hlt := h bs c rest hnext
  have hfuel : readLoop next bs.length rest = readAll next rest := by
    rw [readAll, ← readLoop_eq h (rest.length + 1) rest (bs.length - (rest.length + 1)) (by omega)]
    congr 1
    omega
  rw [readAll, readLoop, hnext]
  simp only [hfuel]

/-- **Records first, anything behind them.** -/
theorem readAll_flatMap_append {next : List β → Read β γ} (h : Consumes next) {enc : α → List β}
    {f : α → γ} (tail : List β) : ∀ as : List α,
      (∀ a ∈ as, ∀ rest, next (enc a ++ rest) = .item (f a) rest) →
      readAll next (as.flatMap enc ++ tail)
        = (as.map f ++ (readAll next tail).1, (readAll next tail).2) := by
  intro as
  induction as with
  | nil => exact fun _ => rfl
  | cons a as ih =>
    intro hread
    have hrest := ih fun b hb => hread b (List.mem_cons_of_mem _ hb)
    rw [List.flatMap_cons, List.append_assoc,
      readAll_item h (hread a List.mem_cons_self (as.flatMap enc ++ tail)), hrest]
    rfl

/-- **Records only.** -/
theorem readAll_flatMap {next : List β → Read β γ} (h : Consumes next) {enc : α → List β}
    {f : α → γ} (heof : next [] = .eof) {as : List α}
    (hread : ∀ a ∈ as, ∀ rest, next (enc a ++ rest) = .item (f a) rest) :
    readAll next (as.flatMap enc) = (as.map f, true) := by
  have hnil : readAll next [] = ([], true) := by rw [readAll, List.length_nil, readLoop, heof]
  have := readAll_flatMap_append h [] as hread
  rwa [List.append_nil, hnil, List.append_nil] at this

end ShredArb.Records
