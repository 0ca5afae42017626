/-
  ShredArb.Lib.Spsc — a ring between ONE writer and ONE reader.

  Neither side takes a lock.  The writer fills the slot at `head` piece by piece
  and only then moves `head`; the reader copies the slot at `tail` piece by piece
  and only then moves `tail`.  Any step of one side may fall between any two of
  the other.

  The counters are never reduced: slot `k` is slot `k % n` of the array, and the
  writer starts a slot only while fewer than `n` are unread.  So the slot the
  writer is in is never one that the reader may copy, and every copy is whole.

  Main results:
    * `inv_step` — what every step keeps,
    * `inv_run` — and so what every run keeps: the reader has taken exactly the
      first `tail` slots the writer handed over, in order and untorn.
-/
import Mathlib.Logic.Function.Basic
import Mathlib.Tactic
import ShredArb.Lib.Run

namespace ShredArb.Spsc

variable {σ W R : Type}

/-! ## §1. Slots and sides. -/

/-- How a slot is filled and copied: `put` writes one piece, `copy` takes one
piece of the shared slot over, and the pieces of `all` are the whole slot. -/
structure Pieces (σ W R : Type) where
  put : W → σ → σ
  copy : R → σ → σ → σ
  all : List R
  copy_all : ∀ v o, all.foldl (fun o r => copy r v o) o = v

/-- A ring and what its two sides are at.  `sent` and `got` are what the writer
has handed over and the reader has taken, from the start. -/
structure State (σ W R : Type) where
  cells : Nat → σ
  head : Nat
  tail : Nat
  writing : Option (List W)
  reading : Option (List R × σ)
  sent : List σ
  got : List σ

inductive Act (σ W : Type) where
  | begin (ws : List W)
  | put
  | publish
  | take (o : σ)
  | copy
  | release

/-- One step of one side. -/
def step (p : Pieces σ W R) (n : Nat) (s : State σ W R) : Act σ W → Option (State σ W R)
  | .begin ws =>
    if s.writing = none ∧ s.head - s.tail < n then some { s with writing := some ws } else none
  | .put =>
    match s.writing with
    | some (w :: ws) =>
      some { s with
        cells := Function.update s.cells (s.head % n) (p.put w (s.cells (s.head % n)))
        writing := some ws }
    | _ => none
  | .publish =>
    match s.writing with
    | some [] =>
      some { s with
        head := s.head + 1, writing := none, sent := s.sent ++ [s.cells (s.head % n)] }
    | _ => none
  | .take o =>
    if s.reading = none ∧ s.tail < s.head then some { s with reading := some (p.all, o) } else none
  | .copy =>
    match s.reading with
    | some (r :: rs, o) =>
      some { s with reading := some (rs, p.copy r (s.cells (s.tail % n)) o) }
    | _ => none
  | .release =>
    match s.reading with
    | some ([], o) => some { s with tail := s.tail + 1, reading := none, got := s.got ++ [o] }
    | _ => none

/-- An empty ring. -/
def init (cells : Nat → σ) : State σ W R := ⟨cells, 0, 0, none, none, [], []⟩

/-! ## §2. The invariant. -/

/-- What holds between any two steps. -/
structure Inv (p : Pieces σ W R) (n : Nat) (s : State σ W R) : Prop where
  le : s.tail ≤ s.head
  room : s.head ≤ s.tail + n
  sent : s.sent.length = s.head
  got : s.got = s.sent.take s.tail
  unread : ∀ k, s.tail ≤ k → k < s.head → s.sent[k]? = some (s.cells (k % n))
  writing : s.writing ≠ none → s.head < s.tail + n
  reading : ∀ rs o, s.reading = some (rs, o) → s.tail < s.head ∧
    rs.foldl (fun o r => p.copy r (s.cells (s.tail % n)) o) o = s.cells (s.tail % n)

theorem inv_init (p : Pieces σ W R) (n : Nat) (cells : Nat → σ) : Inv p n (init cells) where
  le := le_rfl
  room := Nat.zero_le _
  sent := rfl
  got := rfl
  unread := fun k _ hk => absurd hk (Nat.not_lt_zero k)
  writing := fun h => absurd rfl h
  reading := fun rs o h => absurd h (by simp [init])

/-- The writer's slot is none of the unread ones. -/
theorem slot_ne {n head tail k : Nat} (hroom : head < tail + n) (hk : tail ≤ k) (hlt : k < head) :
    k % n ≠ head % n := by
  intro heq
  have hdvd : n ∣ head - k := (Nat.modEq_iff_dvd' hlt.le).mp heq
  have hle := Nat.le_of_dvd (by omega) hdvd
  omega

/-- **What every step keeps.** -/
theorem inv_step {p : Pieces σ W R} {n : Nat} {s s' : State σ W R} {a : Act σ W}
    (h : Inv p n s) (hstep : step p n s a = some s') : Inv p n s' := by
  cases a with
  | begin ws =>
    rw [step] at hstep
    split at hstep
    · rename_i hfree
      cases hstep
      obtain ⟨-, hfree⟩ := hfree
      have hle := h.le
      exact { h with
        writing := fun _ => by
          show s.head < s.tail + n
          omega }
    · exact absurd hstep (by simp)
  | put =>
    rw [step] at hstep
    split at hstep
    · rename_i w ws hwriting
      cases hstep
      have hroom := h.writing (by rw [hwriting]; simp)
      generalize hcells : Function.update s.cells (s.head % n) (p.put w (s.cells (s.head % n)))
        = cells
      -- the slots in between stay as they are
      have hkeep : ∀ k, s.tail ≤ k → k < s.head → cells (k % n) = s.cells (k % n) := by
        intro k hk hlt
        rw [← hcells]
        exact Function.update_of_ne (slot_ne hroom hk hlt) _ s.cells
      exact { h with
        unread := fun k hk hlt => by
          show s.sent[k]? = some (cells (k % n))
          rw [hkeep k hk hlt]
          exact h.unread k hk hlt
        writing := fun _ => hroom
        reading := fun rs o hrs => by
          obtain ⟨hlt, hcopy⟩ := h.reading rs o hrs
          refine ⟨hlt, ?_⟩
          show rs.foldl (fun o r => p.copy r (cells (s.tail % n)) o) o = cells (s.tail % n)
          rw [hkeep s.tail le_rfl hlt]
          exact hcopy }
    · exact absurd hstep (by simp)
  | publish =>
    rw [step] at hstep
    split at hstep
    · rename_i hwriting
      cases hstep
      have hroom := h.writing (by rw [hwriting]; simp)
      have hsent := h.sent
      have hle := h.le
      refine ⟨Nat.le_succ_of_le hle, hroom, ?_, ?_, ?_, ?_, ?_⟩
      · show (s.sent ++ [_]).length = s.head + 1
        rw [List.length_append, hsent]
        rfl
      · show s.got = (s.sent ++ [_]).take s.tail
        rw [List.take_append_of_le_length (by omega)]
        exact h.got
      · intro k hk hlt
        show (s.sent ++ [_])[k]? = _
        have hlt' : k < s.head + 1 := hlt
        rcases Nat.lt_or_eq_of_le (Nat.lt_succ_iff.mp hlt') with hold | rfl
        · rw [List.getElem?_append_left (by omega)]
          exact h.unread k hk hold
        · rw [List.getElem?_append_right (by omega), hsent, Nat.sub_self]
          rfl
      · exact fun hne => absurd rfl hne
      · intro rs o hrs
        obtain ⟨hlt, hcopy⟩ := h.reading rs o hrs
        exact ⟨Nat.lt_succ_of_lt hlt, hcopy⟩
    · exact absurd hstep (by simp)
  | take o =>
    rw [step] at hstep
    split at hstep
    · rename_i hfree
      cases hstep
      exact { h with
        reading := fun rs o' hrs => by
          simp only [Option.some.injEq, Prod.mk.injEq] at hrs
          obtain ⟨rfl, rfl⟩ := hrs
          exact ⟨hfree.2, p.copy_all _ _⟩ }
    · exact absurd hstep (by simp)
  | copy =>
    rw [step] at hstep
    split at hstep
    · rename_i r rs o hreading
      cases hstep
      obtain ⟨hlt, hcopy⟩ := h.reading (r :: rs) o hreading
      exact { h with
        reading := fun rs' o' hrs => by
          simp only [Option.some.injEq, Prod.mk.injEq] at hrs
          obtain ⟨rfl, rfl⟩ := hrs
          exact ⟨hlt, hcopy⟩ }
    · exact absurd hstep (by simp)
  | release =>
    rw [step] at hstep
    split at hstep
    · rename_i o hreading
      cases hstep
      obtain ⟨hlt, hcopy⟩ := h.reading [] o hreading
      have hroom := h.room
      have hwhole : s.sent[s.tail]? = some o := by
        rw [h.unread s.tail le_rfl hlt]
        exact congrArg some hcopy.symm
      refine ⟨hlt, ?_, h.sent, ?_, ?_, ?_, ?_⟩
      · show s.head ≤ s.tail + 1 + n
        omega
      · show s.got ++ [o] = s.sent.take (s.tail + 1)
        rw [List.take_add_one, hwhole, h.got]
        rfl
      · exact fun k hk hk' => h.unread k (Nat.le_of_succ_le hk) hk'
      · intro hne
        have := h.writing hne
        show s.head < s.tail + 1 + n
        omega
      · exact fun rs o' hrs => absurd hrs (by simp)
    · exact absurd hstep (by simp)

/-- **What every run keeps.** -/
theorem inv_run {p : Pieces σ W R} {n : Nat} {s s' : State σ W R} (as : List (Act σ W))
    (h : Inv p n s) (hrun : as.foldlM (step p n) s = some s') : Inv p n s' :=
  Run.foldlM_preserves (fun _ _ _ hi hs => inv_step hi hs) as h hrun

end ShredArb.Spsc
