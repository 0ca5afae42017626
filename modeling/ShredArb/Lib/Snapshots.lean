/-
  ShredArb.Lib.Snapshots — a log of keyed writes and of snapshots of the store.

  A store keeps the last write of every key, and a snapshot shows some of its
  keys.  Whoever reads an OLD snapshot sees every write that was logged before
  it, or a later one of the same key; what it misses was logged since.

  Main results:
    * `lastWrite_at` — the last write of a key is the one in hand or newer.
    * `shown_of_since` — a write that was not logged since a snapshot is shown,
    * `not_shown_of_since` — one that was is not.
-/
import Mathlib.Data.List.Basic

namespace ShredArb.Snapshots

/-- An entry of the log. -/
inductive Mark (ω π : Type*) where
  | wrote (w : ω)
  | took (p : π)

variable {κ ω π : Type*}

/-! ## §1. The last write. -/

section LastWrite

variable [DecidableEq κ] (key : ω → κ)

/-- The last write of a key, in a log that stands newest first. -/
def lastWrite (k : κ) : List (Mark ω π) → Option ω
  | [] => none
  | .wrote w :: log => if key w = k then some w else lastWrite k log
  | .took _ :: log => lastWrite k log

variable {key}

theorem lastWrite_key {k : κ} {w : ω} {log : List (Mark ω π)} (h : lastWrite key k log = some w) :
    key w = k := by
  induction log with
  | nil => exact absurd h (by simp [lastWrite])
  | cons m log ih =>
    cases m with
    | wrote v =>
      rw [lastWrite] at h
      split at h
      · obtain rfl := Option.some.inj h
        assumption
      · exact ih h
    | took _ => exact ih h

theorem exists_lastWrite {w : ω} {log : List (Mark ω π)} (h : .wrote w ∈ log) :
    ∃ w', lastWrite key (key w) log = some w' := by
  induction log with
  | nil => exact absurd h List.not_mem_nil
  | cons m log ih =>
    cases m with
    | wrote v =>
      rw [lastWrite]
      split
      · exact ⟨v, rfl⟩
      · rename_i hne
        rcases List.mem_cons.mp h with heq | h
        · obtain rfl := Mark.wrote.inj heq
          exact absurd rfl hne
        · exact ih h
    | took _ =>
      rcases List.mem_cons.mp h with heq | h
      · exact absurd heq (by simp)
      · exact ih h

/-- The last write of the key of an entry is that entry or a newer one. -/
theorem lastWrite_at {w w' : ω} {log : List (Mark ω π)} {k : Nat}
    (hat : log[k]? = some (.wrote w)) (hlast : lastWrite key (key w) log = some w') :
    w' = w ∨ .wrote w' ∈ log.take k := by
  induction log generalizing k with
  | nil => exact absurd hat (by simp)
  | cons m log ih =>
    cases k with
    | zero =>
      obtain rfl := Option.some.inj hat
      rw [lastWrite, if_pos rfl] at hlast
      exact Or.inl (Option.some.inj hlast).symm
    | succ k =>
      rw [List.take_succ_cons]
      cases m with
      | wrote v =>
        rw [lastWrite] at hlast
        split at hlast
        · obtain rfl := Option.some.inj hlast
          exact Or.inr List.mem_cons_self
        · exact (ih hat hlast).imp_right (List.mem_cons_of_mem _)
      | took _ => exact (ih hat hlast).imp_right (List.mem_cons_of_mem _)

end LastWrite

/-! ## §2. Since a snapshot. -/

/-- What was logged since the newest snapshot that `isP` picks. -/
def since (isP : π → Bool) : List (Mark ω π) → List (Mark ω π)
  | [] => []
  | .wrote w :: log => .wrote w :: since isP log
  | .took p :: log => if isP p then [] else .took p :: since isP log

/-- A write since a snapshot has no such snapshot above it. -/
theorem exists_of_mem_since {isP : π → Bool} {w : ω} {log : List (Mark ω π)}
    (h : .wrote w ∈ since isP log) :
    ∃ k, log[k]? = some (.wrote w) ∧ ∀ p, .took p ∈ log.take k → isP p = false := by
  induction log with
  | nil => exact absurd h List.not_mem_nil
  | cons m log ih =>
    cases m with
    | wrote v =>
      rcases List.mem_cons.mp h with heq | h
      · exact ⟨0, congrArg some heq.symm, fun p hp => absurd hp List.not_mem_nil⟩
      · obtain ⟨k, hat, hnone⟩ := ih h
        refine ⟨k + 1, hat, fun p hp => ?_⟩
        rw [List.take_succ_cons] at hp
        rcases List.mem_cons.mp hp with heq | hp
        · exact absurd heq (by simp)
        · exact hnone p hp
    | took q =>
      rw [since] at h
      split at h
      · exact absurd h List.not_mem_nil
      · rename_i hq
        rcases List.mem_cons.mp h with heq | h
        · exact absurd heq (by simp)
        · obtain ⟨k, hat, hnone⟩ := ih h
          refine ⟨k + 1, hat, fun p hp => ?_⟩
          rw [List.take_succ_cons] at hp
          rcases List.mem_cons.mp hp with heq | hp
          · obtain rfl := Mark.took.inj heq
            exact Bool.not_eq_true _ ▸ hq
          · exact hnone p hp

section Shown

variable [DecidableEq κ] (key : ω → κ) (covers shows : π → ω → Prop)

/-- Every snapshot shows the store as it was: of each write before it that it
covers, the last one of that key. -/
def Sound : List (Mark ω π) → Prop
  | [] => True
  | .wrote _ :: log => Sound log
  | .took p :: log =>
    (∀ w, .wrote w ∈ log → covers p w → ∃ w', lastWrite key (key w) log = some w' ∧ shows p w') ∧
      Sound log

/-- Among the entries `newer` than `w`, a snapshot that `isP` picks shows `w`, or
a write of its key that is newer still. -/
def Shown (isP : π → Bool) (newer : List (Mark ω π)) (w : ω) : Prop :=
  ∃ p w', .took p ∈ newer ∧ isP p = true ∧ shows p w' ∧ key w' = key w ∧
    (w' = w ∨ .wrote w' ∈ newer)

variable {key covers shows}

omit [DecidableEq κ] in
theorem Shown.cons {isP : π → Bool} {newer : List (Mark ω π)} {w : ω}
    (h : Shown key shows isP newer w) (m : Mark ω π) : Shown key shows isP (m :: newer) w := by
  obtain ⟨p, w', hp, his, hshow, hkey, hw⟩ := h
  exact ⟨p, w', List.mem_cons_of_mem _ hp, his, hshow, hkey, hw.imp_right (List.mem_cons_of_mem _)⟩

/-- **What was not logged since a snapshot is shown by it.**  `D` is the writes
one asks about. -/
theorem shown_of_since {isP : π → Bool} {D : ω → Prop}
    (hcov : ∀ p w, isP p = true → D w → covers p w) {log : List (Mark ω π)}
    (hsound : Sound key covers shows log) (hnone : ∀ w, .wrote w ∈ since isP log → ¬ D w)
    {k : Nat} {w : ω} (hat : log[k]? = some (.wrote w)) (hD : D w) :
    Shown key shows isP (log.take k) w := by
  induction log generalizing k with
  | nil => exact absurd hat (by simp)
  | cons m log ih =>
    cases k with
    | zero =>
      obtain rfl := Option.some.inj hat
      exact absurd hD (hnone w List.mem_cons_self)
    | succ k =>
      rw [List.take_succ_cons]
      cases m with
      | wrote v => exact (ih hsound (fun w hw => hnone w (List.mem_cons_of_mem _ hw)) hat).cons _
      | took p =>
        rw [since] at hnone
        cases hp : isP p with
        | true =>
          -- the snapshot itself: it shows the last write of the key at that time
          have hlog : log[k]? = some (.wrote w) := hat
          have hmem := List.mem_of_getElem? hlog
          obtain ⟨w', hlast, hshow⟩ := hsound.1 w hmem (hcov p w hp hD)
          have hnew := lastWrite_at hlog hlast
          exact ⟨p, w', List.mem_cons_self, hp, hshow, lastWrite_key hlast,
            hnew.imp_right (List.mem_cons_of_mem _)⟩
        | false =>
          rw [hp] at hnone
          exact (ih hsound.2 (fun w hw => hnone w (List.mem_cons_of_mem _ hw)) hat).cons _

omit [DecidableEq κ] in
/-- And what was logged since is not. -/
theorem not_shown_of_since {isP : π → Bool} {w : ω} {log : List (Mark ω π)}
    (h : .wrote w ∈ since isP log) :
    ∃ k, log[k]? = some (.wrote w) ∧ ¬ Shown key shows isP (log.take k) w := by
  obtain ⟨k, hat, hnone⟩ := exists_of_mem_since h
  refine ⟨k, hat, ?_⟩
  rintro ⟨p, w', hp, his, -⟩
  rw [hnone p hp] at his
  exact absurd his Bool.false_ne_true

end Shown

end ShredArb.Snapshots
