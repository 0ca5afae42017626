/-
  ShredArb.Lib.Intern — collecting items under indices, each item once.

  An item that is already there keeps its index; a new one is appended while
  there is room.  The indices handed out stay valid, since the collection only
  grows at its end, and two items get one index exactly when they are equal.

  Main results:
    * `intern_spec` — one item,
    * `internAll_mapped` — a run over items, with the table of their indices,
    * `Mapped.index_lt_iff` — the indices of an earlier stage.
-/
import Mathlib.Data.List.Nodup

namespace ShredArb.Intern

variable {α : Type}

/-! ## §1. One item. -/

theorem getElem?_grown {xs ys : List α} (h : xs <+: ys) {i : Nat} (hi : i < xs.length) :
    ys[i]? = xs[i]? := by
  obtain ⟨t, rfl⟩ := h
  exact List.getElem?_append_left hi

section One

variable [DecidableEq α]

/-- The index of `x`, appended where it is new. -/
def intern (cap : Nat) (xs : List α) (x : α) : Option (List α × Nat) :=
  match xs.findIdx? (· == x) with
  | some i => some (xs, i)
  | none => if xs.length ≥ cap then none else some (xs ++ [x], xs.length)

/-- **One item**: it stands at its index, and what was there stays. -/
theorem intern_spec {cap : Nat} {xs ys : List α} {x : α} {i : Nat}
    (h : intern cap xs x = some (ys, i)) :
    ys[i]? = some x ∧ xs <+: ys ∧ (∀ y ∈ ys, y ∈ xs ∨ y = x) ∧ (xs.Nodup → ys.Nodup) := by
  unfold intern at h
  split at h
  · rename_i j hfind
    obtain ⟨rfl, rfl⟩ := Prod.mk.inj (Option.some.inj h)
    obtain ⟨hj, hx, -⟩ := List.findIdx?_eq_some_iff_getElem.mp hfind
    refine ⟨?_, List.prefix_refl xs, fun y hy => Or.inl hy, id⟩
    rw [List.getElem?_eq_getElem hj, eq_of_beq hx]
  · rename_i hfind
    obtain ⟨-, h⟩ := Option.ite_none_left_eq_some.mp h
    obtain ⟨rfl, rfl⟩ := Prod.mk.inj (Option.some.inj h)
    have hnew : x ∉ xs := by
      intro hmem
      have := List.findIdx?_eq_none_iff.mp hfind x hmem
      simp at this
    refine ⟨by simp, List.prefix_append xs [x], fun y hy => ?_, fun hnd => ?_⟩
    · rcases List.mem_append.mp hy with hy | hy
      · exact Or.inl hy
      · exact Or.inr (List.mem_singleton.mp hy)
    · refine List.nodup_append.mpr ⟨hnd, List.nodup_singleton x, ?_⟩
      intro a ha b hb
      rw [List.mem_singleton.mp hb]
      exact fun hc => hnew (hc ▸ ha)

end One

/-! ## §2. A run. -/

/-- The items met so far and the table of indices. -/
abbrev Interned (α : Type) := List α × List Nat

/-- Intern item number `i` and note its index. -/
def internAt [DecidableEq α] (cap : Nat) (item : Nat → α) (st : Interned α) (i : Nat) : Option (Interned α) :=
  (intern cap st.1 (item i)).map fun (xs, j) => (xs, st.2.set i j)

/-- One item after another. -/
def internAll [DecidableEq α] (cap : Nat) (item : Nat → α) (st : Interned α) (is : List Nat) : Option (Interned α) :=
  is.foldlM (internAt cap item) st

/-- The table is right about the items that are done, and nothing else is
collected. -/
structure Mapped (item : Nat → α) (size : Nat) (done : List Nat) (st : Interned α) : Prop where
  nodup : st.1.Nodup
  length : st.2.length = size
  index : ∀ i ∈ done, st.1[st.2.getD i 0]? = some (item i)
  origin : ∀ x ∈ st.1, ∃ i ∈ done, item i = x

theorem mapped_nil (item : Nat → α) (size : Nat) : Mapped item size [] ([], List.replicate size 0) where
  nodup := List.nodup_nil
  length := List.length_replicate
  index := fun i hi => absurd hi (by simp)
  origin := fun x hx => absurd hx (by simp)

section Runs

variable [DecidableEq α] {cap size : Nat} {item : Nat → α} {done : List Nat} {st st' : Interned α}

/-- What one item more leaves. -/
theorem internAt_mapped (h : Mapped item size done st) {i : Nat} (hi : i < size)
    (hstep : internAt cap item st i = some st') :
    Mapped item size (done ++ [i]) st' ∧ st.1 <+: st'.1 ∧
      ∀ j, j ≠ i → st'.2.getD j 0 = st.2.getD j 0 := by
  obtain ⟨⟨xs, k⟩, hget, rfl⟩ := Option.map_eq_some_iff.mp hstep
  obtain ⟨hk, hpre, hmem, hnd⟩ := intern_spec hget
  have hself : (st.2.set i k).getD i 0 = k := by
    rw [List.getD_eq_getElem?_getD, List.getElem?_set_self (by rw [h.length]; exact hi), Option.getD_some]
  have hother : ∀ j, j ≠ i → (st.2.set i k).getD j 0 = st.2.getD j 0 := by
    intro j hj
    rw [List.getD_eq_getElem?_getD, List.getElem?_set_ne (Ne.symm hj), ← List.getD_eq_getElem?_getD]
  refine ⟨⟨hnd h.nodup, by rw [List.length_set, h.length], ?_, ?_⟩, hpre, hother⟩
  · intro j hj
    by_cases hji : j = i
    · subst hji
      show xs[(st.2.set j k).getD j 0]? = some (item j)
      rw [hself, hk]
    · -- an index handed out before
      have hold := h.index j ((List.mem_append.mp hj).resolve_right fun hc =>
        hji (List.mem_singleton.mp hc))
      show xs[(st.2.set i k).getD j 0]? = some (item j)
      rw [hother j hji]
      rw [getElem?_grown hpre (List.getElem?_eq_some_iff.mp hold).1, hold]
  · intro x hx
    rcases hmem x hx with hx | rfl
    · obtain ⟨j, hj, rfl⟩ := h.origin x hx
      exact ⟨j, List.mem_append_left _ hj, rfl⟩
    · exact ⟨i, List.mem_append_right _ (List.mem_singleton_self i), rfl⟩

/-- **A run keeps the table right.** -/
theorem internAll_mapped : ∀ (is : List Nat) {done : List Nat} {st : Interned α},
    Mapped item size done st → (∀ i ∈ is, i < size) → internAll cap item st is = some st' →
    Mapped item size (done ++ is) st' ∧ st.1 <+: st'.1 ∧
      ∀ j, j ∉ is → st'.2.getD j 0 = st.2.getD j 0 := by
  intro is
  induction is with
  | nil =>
    intro done st h _ hrun
    obtain rfl := Option.some.inj hrun
    rw [List.append_nil]
    exact ⟨h, List.prefix_refl st.1, fun j _ => rfl⟩
  | cons i is ih =>
    intro done st h his hrun
    obtain ⟨st1, hstep, hrest⟩ := Option.bind_eq_some_iff.mp hrun
    obtain ⟨h1, hpre1, hkeep1⟩ := internAt_mapped h (his i List.mem_cons_self) hstep
    obtain ⟨h2, hpre2, hkeep2⟩ := ih h1 (fun j hj => his j (List.mem_cons_of_mem i hj)) hrest
    rw [List.append_assoc] at h2
    refine ⟨h2, hpre1.trans hpre2, fun j hj => ?_⟩
    rw [hkeep2 j fun hc => hj (List.mem_cons_of_mem i hc), hkeep1 j fun hc => hj (hc ▸ List.mem_cons_self)]

end Runs

/-- **The indices of an earlier stage**: an item has one of them exactly when the
stage had met it. -/
theorem Mapped.index_lt_iff {size : Nat} {item : Nat → α} {done done' : List Nat}
    {st st' : Interned α} (h : Mapped item size done st)
    (h' : Mapped item size done' st') (hpre : st.1 <+: st'.1) (hsub : ∀ i ∈ done, i ∈ done')
    (hkeep : ∀ i ∈ done, st'.2.getD i 0 = st.2.getD i 0) {i : Nat} (hi : i ∈ done') :
    st'.2.getD i 0 < st.1.length ↔ ∃ j ∈ done, item j = item i := by
  have hat := h'.index i hi
  constructor
  · intro hlt
    have hold : st.1[st'.2.getD i 0]? = some (item i) := (getElem?_grown hpre hlt).symm.trans hat
    exact h.origin (item i) (List.mem_of_getElem? hold)
  · rintro ⟨j, hj, hsame⟩
    have hjat := h'.index j (hsub j hj)
    rw [hsame] at hjat
    -- a collection without repetition has the item at one place
    have hidx : st'.2.getD j 0 = st'.2.getD i 0 :=
      (List.getElem?_inj (List.getElem?_eq_some_iff.mp hjat).1 h'.nodup).mp (hjat.trans hat.symm)
    rw [← hidx, hkeep j hj]
    exact (List.getElem?_eq_some_iff.mp (h.index j hj)).1

end ShredArb.Intern
