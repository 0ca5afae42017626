/-
  ShredArb.Lib.Slots — an array of keyed slots, searched and written by the
  FIRST slot with a key.

  A C search loop returns a pointer into an array, and the code then writes
  through it.  Over a list that is `findSlot` and `setSlot`: the first slot
  with the key is found, and the first slot with the key of the new value is
  replaced.  Keys may repeat; only the first counts.

  Main results:
    * `findSlot_setSlot` — what a search finds after a write.
    * `sum_setSlot` — what a write does to a sum over the array.
    * `forall₂_setSlot` — a relation between the slot found and the slot
      written extends to the array.
    * `map_setSlot` — a view that keeps the keys commutes with a write.
-/
import Mathlib.Algebra.Order.BigOperators.Group.List
import Mathlib.Algebra.Order.Ring.Nat
import Mathlib.Data.List.Forall2

namespace ShredArb.Slots

variable {α β κ : Type*} [DecidableEq κ]

/-! ## §1. Search and write. -/

/-- The first slot with the key. -/
def findSlot (key : α → κ) (l : List α) (k : κ) : Option α := l.find? fun a => key a = k

/-- The first slot with the key of `b` becomes `b`. -/
def setSlot (key : α → κ) : List α → α → List α
  | [], _ => []
  | c :: cs, b => if key c = key b then b :: cs else c :: setSlot key cs b

variable {key : α → κ}

theorem findSlot_key {l : List α} {k : κ} {a : α} (h : findSlot key l k = some a) :
    key a = k := by
  have hp := List.find?_some h
  simpa using hp

theorem mem_of_findSlot {l : List α} {k : κ} {a : α} (h : findSlot key l k = some a) :
    a ∈ l := List.mem_of_find?_eq_some h

theorem findSlot_cons_eq {c : α} {cs : List α} {k : κ} (h : key c = k) :
    findSlot key (c :: cs) k = some c := by
  simp [findSlot, h]

theorem findSlot_cons_ne {c : α} {cs : List α} {k : κ} (h : key c ≠ k) :
    findSlot key (c :: cs) k = findSlot key cs k := by
  simp [findSlot, h]

theorem setSlot_cons_eq {c b : α} {cs : List α} (h : key c = key b) :
    setSlot key (c :: cs) b = b :: cs := if_pos h

theorem setSlot_cons_ne {c b : α} {cs : List α} (h : key c ≠ key b) :
    setSlot key (c :: cs) b = c :: setSlot key cs b := if_neg h

/-! ## §2. What a write changes. -/

/-- A write leaves the keys as they are. -/
theorem setSlot_keys (l : List α) (b : α) : (setSlot key l b).map key = l.map key := by
  induction l with
  | nil => rfl
  | cons c cs ih =>
    by_cases hc : key c = key b
    · simp [setSlot_cons_eq hc, hc]
    · simp [setSlot_cons_ne hc, ih]

/-- The second of two writes to one key is the one that stands. -/
theorem setSlot_setSlot (l : List α) {b b' : α} (h : key b' = key b) :
    setSlot key (setSlot key l b) b' = setSlot key l b' := by
  induction l with
  | nil => rfl
  | cons c cs ih =>
    by_cases hc : key c = key b
    · rw [setSlot_cons_eq hc, setSlot_cons_eq h.symm, setSlot_cons_eq (hc.trans h.symm)]
    · have hc' : key c ≠ key b' := fun h' => hc (h'.trans h)
      rw [setSlot_cons_ne hc, setSlot_cons_ne hc', setSlot_cons_ne hc', ih]

/-- To write back what was found changes nothing. -/
theorem setSlot_found {l : List α} {b : α} (h : findSlot key l (key b) = some b) :
    setSlot key l b = l := by
  induction l with
  | nil => rfl
  | cons c cs ih =>
    by_cases hc : key c = key b
    · rw [findSlot_cons_eq hc] at h
      rw [setSlot_cons_eq hc, Option.some.inj h]
    · rw [findSlot_cons_ne hc] at h
      rw [setSlot_cons_ne hc, ih h]

/-- **A search after a write**: the value written, if there was a slot with its
key, and else what was there. -/
theorem findSlot_setSlot (l : List α) (b : α) (k : κ) :
    findSlot key (setSlot key l b) k
      = if key b = k then (findSlot key l k).map fun _ => b else findSlot key l k := by
  induction l with
  | nil => simp [setSlot, findSlot]
  | cons c cs ih =>
    by_cases hc : key c = key b
    · rw [setSlot_cons_eq hc]
      by_cases hk : key b = k
      · rw [findSlot_cons_eq hk, if_pos hk, findSlot_cons_eq (hc.trans hk), Option.map_some]
      · have hck : key c ≠ k := fun h => hk (hc.symm.trans h)
        rw [findSlot_cons_ne hk, if_neg hk, findSlot_cons_ne hck]
    · rw [setSlot_cons_ne hc]
      by_cases hck : key c = k
      · have hbk : key b ≠ k := fun h => hc (hck.trans h.symm)
        rw [findSlot_cons_eq hck, findSlot_cons_eq hck, if_neg hbk]
      · rw [findSlot_cons_ne hck, findSlot_cons_ne hck, ih]

theorem findSlot_setSlot_ne {l : List α} {b : α} {k : κ} (h : key b ≠ k) :
    findSlot key (setSlot key l b) k = findSlot key l k := by
  rw [findSlot_setSlot, if_neg h]

theorem mem_of_mem_setSlot {l : List α} {b c : α} (h : c ∈ setSlot key l b) :
    c = b ∨ c ∈ l := by
  induction l with
  | nil => cases h
  | cons d ds ih =>
    by_cases hd : key d = key b
    · rw [setSlot_cons_eq hd] at h
      rcases List.mem_cons.mp h with rfl | h
      · exact Or.inl rfl
      · exact Or.inr (List.mem_cons_of_mem _ h)
    · rw [setSlot_cons_ne hd] at h
      rcases List.mem_cons.mp h with rfl | h
      · exact Or.inr List.mem_cons_self
      · exact (ih h).imp id (List.mem_cons_of_mem _)

/-- With distinct keys, a write changes the one slot it names. -/
theorem mem_setSlot_nodup {l : List α} {b c : α} (hnd : (l.map key).Nodup)
    (h : c ∈ setSlot key l b) : c = b ∨ (c ∈ l ∧ key c ≠ key b) := by
  induction l with
  | nil => cases h
  | cons d ds ih =>
    rw [List.map_cons, List.nodup_cons] at hnd
    by_cases hd : key d = key b
    · rw [setSlot_cons_eq hd] at h
      rcases List.mem_cons.mp h with rfl | h
      · exact Or.inl rfl
      · refine Or.inr ⟨List.mem_cons_of_mem _ h, fun hc => ?_⟩
        exact hnd.1 (List.mem_map.mpr ⟨c, h, hc.trans hd.symm⟩)
    · rw [setSlot_cons_ne hd] at h
      rcases List.mem_cons.mp h with rfl | h
      · exact Or.inr ⟨List.mem_cons_self, hd⟩
      · rcases ih hnd.2 h with rfl | ⟨hmem, hne⟩
        · exact Or.inl rfl
        · exact Or.inr ⟨List.mem_cons_of_mem _ hmem, hne⟩

/-! ## §3. Sums, relations and views over the array. -/

/-- A write replaces the share of the slot found in any sum over the array. -/
theorem sum_setSlot (g : α → Nat) {l : List α} {b b' : α}
    (h : findSlot key l (key b') = some b) :
    ((setSlot key l b').map g).sum + g b = (l.map g).sum + g b' := by
  induction l with
  | nil => cases h
  | cons c cs ih =>
    by_cases hc : key c = key b'
    · rw [findSlot_cons_eq hc] at h
      obtain rfl := Option.some.inj h
      rw [setSlot_cons_eq hc, List.map_cons, List.map_cons, List.sum_cons, List.sum_cons]
      omega
    · rw [findSlot_cons_ne hc] at h
      have hrest := ih h
      rw [setSlot_cons_ne hc, List.map_cons, List.map_cons, List.sum_cons, List.sum_cons]
      omega

/-- The share of the slot found is within the sum. -/
theorem le_sum_of_findSlot (g : α → Nat) {l : List α} {k : κ} {b : α}
    (h : findSlot key l k = some b) : g b ≤ (l.map g).sum :=
  List.single_le_sum (fun _ _ => Nat.zero_le _) _ (List.mem_map_of_mem (mem_of_findSlot h))

/-- A reflexive relation between the slot found and the slot written extends to
the whole array, position by position. -/
theorem forall₂_setSlot {R : α → α → Prop} (hrefl : ∀ a, R a a) {l : List α} {b b' : α}
    (h : findSlot key l (key b') = some b) (hR : R b b') :
    List.Forall₂ R l (setSlot key l b') := by
  induction l with
  | nil => cases h
  | cons c cs ih =>
    by_cases hc : key c = key b'
    · rw [findSlot_cons_eq hc] at h
      obtain rfl := Option.some.inj h
      rw [setSlot_cons_eq hc]
      exact List.Forall₂.cons hR (List.forall₂_same.mpr fun a _ => hrefl a)
    · rw [findSlot_cons_ne hc] at h
      rw [setSlot_cons_ne hc]
      exact List.Forall₂.cons (hrefl c) (ih h)

/-- A transitive relation is transitive position by position. -/
theorem forall₂_trans {R : α → α → Prop} (htrans : ∀ a b c, R a b → R b c → R a c)
    {l l' l'' : List α} (h : List.Forall₂ R l l') (h' : List.Forall₂ R l' l'') :
    List.Forall₂ R l l'' := by
  induction h generalizing l'' with
  | nil =>
    cases h'
    exact List.Forall₂.nil
  | cons hab _ ih =>
    cases h' with
    | cons hbc h' => exact List.Forall₂.cons (htrans _ _ _ hab hbc) (ih h')

variable {key' : β → κ} {f : α → β}

/-- A search in a view that keeps the keys. -/
theorem findSlot_map (hf : ∀ a, key' (f a) = key a) (l : List α) (k : κ) :
    findSlot key' (l.map f) k = (findSlot key l k).map f := by
  induction l with
  | nil => rfl
  | cons c cs ih =>
    rw [List.map_cons]
    by_cases hc : key c = k
    · rw [findSlot_cons_eq hc, findSlot_cons_eq ((hf c).trans hc), Option.map_some]
    · rw [findSlot_cons_ne hc, findSlot_cons_ne (fun h => hc ((hf c).symm.trans h)), ih]

/-- A write in a view that keeps the keys. -/
theorem map_setSlot (hf : ∀ a, key' (f a) = key a) (l : List α) (b : α) :
    (setSlot key l b).map f = setSlot key' (l.map f) (f b) := by
  induction l with
  | nil => rfl
  | cons c cs ih =>
    by_cases hc : key c = key b
    · rw [setSlot_cons_eq hc, List.map_cons, List.map_cons,
        setSlot_cons_eq (by rw [hf, hf, hc])]
    · have hne : key' (f c) ≠ key' (f b) := by rw [hf, hf]; exact hc
      rw [setSlot_cons_ne hc, List.map_cons, List.map_cons, setSlot_cons_ne hne, ih]

end ShredArb.Slots
