/-
  ShredArb.Lib.Probe — linear probing in an open-addressing table.

  A table is a list of slots; `key` reads the key of a slot, `none` for a free
  one.  A search walks from its start until a free slot or the key, so its
  outcome depends on the slots it passes only, and those are in use: a table
  that keeps every slot in use gives every earlier search the same outcome.

  `Table` is a table all of whose keys are found by their own search, so that
  it means a partial function from keys to slots.

  Main results:
    * `probe_stable` — later insertions do not move a key,
    * `Table.find_store_self`, `Table.find_store_ne` — a write is a function update,
    * `loop_eq_of_probe` — a loop that takes the turns of a search ends where it does,
    * `Table.exists_store` — a table with a free slot takes every key,
    * `Table.entries_store_of_free` — and then has one entry more.
-/
import Mathlib.Data.List.Basic

namespace ShredArb.Probe

variable {σ κ : Type*}

/-- The key at a position, if the slot is in use. -/
def keyAt (key : σ → Option κ) (T : List σ) (j : Nat) : Option κ := (T[j]?).bind key

theorem keyAt_set {key : σ → Option κ} {T : List σ} {i : Nat} {s : σ} (hi : i < T.length) (j : Nat) :
    keyAt key (T.set i s) j = if i = j then key s else keyAt key T j := by
  unfold keyAt
  rw [List.getElem?_set]
  split <;> rfl

section Search

variable [DecidableEq κ] (key : σ → Option κ)

/-- The first position from `j` on, within `fuel` steps, that is free or holds
`k`. -/
def probe (T : List σ) (k : κ) : (fuel j : Nat) → Option Nat
  | 0, _ => none
  | fuel + 1, j =>
      match keyAt key T j with
      | none => some j
      | some k' => if k' = k then some j else probe T k fuel ((j + 1) % T.length)

variable {key}

theorem probe_succ_of_free {T : List σ} {k : κ} {fuel j : Nat} (h : keyAt key T j = none) :
    probe key T k (fuel + 1) j = some j := by
  rw [probe, h]

theorem probe_succ_of_key {T : List σ} {k : κ} {fuel j : Nat} (h : keyAt key T j = some k) :
    probe key T k (fuel + 1) j = some j := by
  rw [probe, h]
  exact if_pos rfl

theorem probe_succ_of_other {T : List σ} {k k' : κ} {fuel j : Nat}
    (h : keyAt key T j = some k') (hne : k' ≠ k) :
    probe key T k (fuel + 1) j = probe key T k fuel ((j + 1) % T.length) := by
  rw [probe, h]
  exact if_neg hne

/-- A search ends on a free slot or on its key. -/
theorem keyAt_of_probe {T : List σ} {k : κ} : ∀ {fuel j i : Nat},
    probe key T k fuel j = some i → keyAt key T i = none ∨ keyAt key T i = some k := by
  intro fuel
  induction fuel with
  | zero =>
    intro j i h
    exact absurd h (by simp [probe])
  | succ fuel ih =>
    intro j i h
    cases hk : keyAt key T j with
    | none =>
      rw [probe_succ_of_free hk, Option.some.injEq] at h
      exact Or.inl (h ▸ hk)
    | some k' =>
      by_cases hkk : k' = k
      · subst hkk
        rw [probe_succ_of_key hk, Option.some.injEq] at h
        exact Or.inr (h ▸ hk)
      · rw [probe_succ_of_other hk hkk] at h
        exact ih h

/-- **Slots in use stay, so searches do**: a later table in which the slot
found is still free or holds the key gives the same outcome. -/
theorem probe_stable {T T' : List σ} {k : κ} (hlen : T'.length = T.length)
    (hkeep : ∀ i k', keyAt key T i = some k' → keyAt key T' i = some k') :
    ∀ {fuel j i : Nat}, probe key T k fuel j = some i →
      (keyAt key T' i = none ∨ keyAt key T' i = some k) →
      probe key T' k fuel j = some i := by
  intro fuel
  induction fuel with
  | zero =>
    intro j i h _
    exact absurd h (by simp [probe])
  | succ fuel ih =>
    intro j i h hi
    cases hk : keyAt key T j with
    | none =>
      rw [probe_succ_of_free hk, Option.some.injEq] at h
      subst h
      rcases hi with hi | hi
      · exact probe_succ_of_free hi
      · exact probe_succ_of_key hi
    | some k' =>
      by_cases hkk : k' = k
      · subst hkk
        rw [probe_succ_of_key hk, Option.some.injEq] at h
        subst h
        exact probe_succ_of_key (hkeep _ _ hk)
      · rw [probe_succ_of_other hk hkk] at h
        rw [probe_succ_of_other (hkeep _ _ hk) hkk, hlen]
        exact ih h hi

theorem probe_lt {T : List σ} {k : κ} : ∀ {fuel j i : Nat}, j < T.length →
    probe key T k fuel j = some i → i < T.length := by
  intro fuel
  induction fuel with
  | zero =>
    intro j i _ h
    exact absurd h (by simp [probe])
  | succ fuel ih =>
    intro j i hj h
    cases hk : keyAt key T j with
    | none =>
      rw [probe_succ_of_free hk, Option.some.injEq] at h
      exact h ▸ hj
    | some k' =>
      by_cases hkk : k' = k
      · subst hkk
        rw [probe_succ_of_key hk, Option.some.injEq] at h
        exact h ▸ hj
      · rw [probe_succ_of_other hk hkk] at h
        exact ih (Nat.mod_lt _ (by omega)) h

/-- A search that finds nothing has passed slots in use only. -/
theorem keyAt_of_probe_none {T : List σ} {k : κ} : ∀ {fuel j : Nat}, j < T.length →
    probe key T k fuel j = none → ∀ d < fuel, keyAt key T ((j + d) % T.length) ≠ none := by
  intro fuel
  induction fuel with
  | zero =>
    intro j _ _ d hd
    exact absurd hd (Nat.not_lt_zero d)
  | succ fuel ih =>
    intro j hj h d hd
    cases hk : keyAt key T j with
    | none =>
      rw [probe_succ_of_free hk] at h
      exact absurd h (by simp)
    | some k' =>
      by_cases hkk : k' = k
      · rw [probe_succ_of_key (hkk ▸ hk)] at h
        exact absurd h (by simp)
      · rw [probe_succ_of_other hk hkk] at h
        cases d with
        | zero =>
          rw [Nat.add_zero, Nat.mod_eq_of_lt hj, hk]
          simp
        | succ d =>
          have hd' := ih (Nat.mod_lt _ (by omega)) h d (by omega)
          rw [Nat.mod_add_mod] at hd'
          rwa [show j + (d + 1) = j + 1 + d by omega]

/-- A loop that goes on as a search does, and has turns enough, ends where the
search ends. -/
theorem loop_eq_of_probe {α : Type*} {T : List σ} {k : κ} (loop : (turns j : Nat) → α)
    (out : Nat → α)
    (hfree : ∀ turns j, j < T.length → keyAt key T j = none → loop (turns + 1) j = out j)
    (hkey : ∀ turns j, j < T.length → keyAt key T j = some k → loop (turns + 1) j = out j)
    (hother : ∀ turns j k', j < T.length → keyAt key T j = some k' → k' ≠ k →
      loop (turns + 1) j = loop turns ((j + 1) % T.length)) :
    ∀ {fuel turns j i : Nat}, probe key T k fuel j = some i → fuel ≤ turns → j < T.length →
      loop turns j = out i := by
  intro fuel
  induction fuel with
  | zero =>
    intro turns j i h _ _
    exact absurd h (by simp [probe])
  | succ fuel ih =>
    intro turns j i h hturns hj
    obtain ⟨turns, rfl⟩ : ∃ m, turns = m + 1 := ⟨turns - 1, by omega⟩
    cases hk : keyAt key T j with
    | none =>
      rw [probe_succ_of_free hk, Option.some.injEq] at h
      exact h ▸ hfree turns j hj hk
    | some k' =>
      by_cases hkk : k' = k
      · subst hkk
        rw [probe_succ_of_key hk, Option.some.injEq] at h
        exact h ▸ hkey turns j hj hk
      · rw [probe_succ_of_other hk hkk] at h
        rw [hother turns j k' hj hk hkk]
        exact ih h (by omega) (Nat.mod_lt _ (by omega))

end Search

/-! ## Tables. -/

section Tables

variable [DecidableEq κ] (key : σ → Option κ) (hash : κ → Nat)

/-- Where the search for a key ends: a whole turn from the key's own slot. -/
def place (T : List σ) (k : κ) : Option Nat := probe key T k T.length (hash k % T.length)

/-- A table whose keys are all found. -/
structure Table where
  slots : List σ
  found : ∀ j k, keyAt key slots j = some k → place key hash slots k = some j

variable {key hash}

theorem place_lt {T : List σ} {k : κ} {i : Nat} (h : place key hash T k = some i) : i < T.length := by
  by_cases hT : T.length = 0
  · unfold place at h
    rw [hT, probe] at h
    exact absurd h (by simp)
  · exact probe_lt (Nat.mod_lt _ (Nat.pos_of_ne_zero hT)) h

/-- Writing a key's slot keeps every key where it is. -/
theorem keyAt_set_keeps {T : List σ} {k : κ} {i : Nat} {s : σ} (hi : place key hash T k = some i)
    (hs : key s = some k) {j : Nat} {k' : κ} (h : keyAt key T j = some k') :
    keyAt key (T.set i s) j = some k' := by
  rw [keyAt_set (place_lt hi)]
  split
  · rename_i hij
    subst hij
    rcases keyAt_of_probe hi with hfree | hkey
    · exact absurd (h.symm.trans hfree) (by simp)
    · rw [hs, ← hkey, h]
  · exact h

/-- Writing a key's slot keeps the searches that ended elsewhere, and its own. -/
theorem place_set {T : List σ} {k : κ} {i : Nat} {s : σ} (hi : place key hash T k = some i)
    (hs : key s = some k) {j : Nat} {k' : κ} (hj : place key hash T k' = some j)
    (hij : i ≠ j ∨ k' = k) : place key hash (T.set i s) k' = some j := by
  have hlen : (T.set i s).length = T.length := List.length_set
  unfold place at hj ⊢
  rw [hlen]
  refine probe_stable hlen (fun _ _ h => keyAt_set_keeps hi hs h) hj ?_
  rw [keyAt_set (place_lt hi)]
  split
  · rename_i he
    rcases hij with hne | rfl
    · exact absurd he hne
    · exact Or.inr hs
  · exact keyAt_of_probe hj

namespace Table

variable (T : Table key hash)

/-- The slot of a key. -/
def find (k : κ) : Option σ :=
  (place key hash T.slots k).bind fun i => (T.slots[i]?).filter fun s => decide (key s = some k)

theorem found_set {k : κ} {i : Nat} {s : σ} (hi : place key hash T.slots k = some i)
    (hs : key s = some k) :
    ∀ j k', keyAt key (T.slots.set i s) j = some k' →
      place key hash (T.slots.set i s) k' = some j := by
  intro j k' h
  rw [keyAt_set (place_lt hi)] at h
  split at h
  · rename_i hij
    subst hij
    obtain rfl : k = k' := Option.some.inj (hs.symm.trans h)
    exact place_set hi hs hi (Or.inr rfl)
  · rename_i hij
    exact place_set hi hs (T.found j k' h) (Or.inl hij)

/-- Write the slot of a key. -/
def store (k : κ) (s : σ) (hs : key s = some k) : Option (Table key hash) :=
  match hi : place key hash T.slots k with
  | none => none
  | some i => some ⟨T.slots.set i s, T.found_set hi hs⟩

variable {T}

theorem store_eq_some {T' : Table key hash} {k : κ} {s : σ} {hs : key s = some k}
    (h : T.store k s hs = some T') :
    ∃ i, place key hash T.slots k = some i ∧ T'.slots = T.slots.set i s := by
  unfold store at h
  split at h
  · exact absurd h (by simp)
  · rename_i i hi
    exact ⟨i, hi, by rw [← Option.some.inj h]⟩

theorem place_of_find {k : κ} {s : σ} (h : T.find k = some s) :
    ∃ i, place key hash T.slots k = some i ∧ T.slots[i]? = some s ∧ key s = some k := by
  obtain ⟨i, hi, hf⟩ := Option.bind_eq_some_iff.mp h
  obtain ⟨hget, hkey⟩ := Option.filter_eq_some_iff.mp hf
  exact ⟨i, hi, hget, of_decide_eq_true hkey⟩

/-- The table is a partial function: a key has the one slot that holds it. -/
theorem find_eq_some_iff {k : κ} {s : σ} : T.find k = some s ↔ s ∈ T.slots ∧ key s = some k := by
  constructor
  · intro h
    obtain ⟨i, -, hget, hkey⟩ := place_of_find h
    exact ⟨List.mem_of_getElem? hget, hkey⟩
  · rintro ⟨hmem, hkey⟩
    obtain ⟨i, hget⟩ := List.mem_iff_getElem?.mp hmem
    have hat : keyAt key T.slots i = some k := by
      rw [keyAt, hget]
      exact hkey
    rw [find, T.found i k hat, Option.bind_some, hget, Option.filter_some, if_pos]
    exact decide_eq_true hkey

theorem find_store_self {T' : Table key hash} {k : κ} {s : σ} {hs : key s = some k}
    (h : T.store k s hs = some T') : T'.find k = some s := by
  obtain ⟨i, hi, hslots⟩ := store_eq_some h
  refine find_eq_some_iff.mpr ⟨?_, hs⟩
  rw [hslots]
  exact List.mem_set (place_lt hi) s

theorem find_store_ne {T' : Table key hash} {k k' : κ} {s : σ} {hs : key s = some k}
    (h : T.store k s hs = some T') (hne : k' ≠ k) : T'.find k' = T.find k' := by
  obtain ⟨i, hi, hslots⟩ := store_eq_some h
  refine Option.ext fun x => ?_
  rw [find_eq_some_iff, find_eq_some_iff, hslots]
  refine and_congr_left fun hx => ⟨fun hmem => ?_, fun hmem => ?_⟩
  · rcases List.mem_or_eq_of_mem_set hmem with hmem | rfl
    · exact hmem
    · exact absurd (Option.some.inj (hx.symm.trans hs)) hne
  · obtain ⟨j, hj⟩ := List.mem_iff_getElem?.mp hmem
    have hat : keyAt key T.slots j = some k' := by
      rw [keyAt, hj]
      exact hx
    have hij : i ≠ j := by
      rintro rfl
      rcases keyAt_of_probe hi with hfree | hkey
      · exact absurd (hat.symm.trans hfree) (by simp)
      · exact hne (Option.some.inj (hat.symm.trans hkey))
    exact List.mem_of_getElem? ((List.getElem?_set_ne hij).trans hj)

/-- The slots in use. -/
def used (T : Table key hash) : Nat := T.slots.countP fun s => (key s).isSome

/-- A table with a free slot takes every key. -/
theorem exists_store {k : κ} {s : σ} (hs : key s = some k) (hfree : T.used < T.slots.length) :
    ∃ T', T.store k s hs = some T' := by
  unfold store
  split
  · rename_i hnone
    have hall : ∀ x ∈ T.slots, (key x).isSome = true := by
      intro x hx
      obtain ⟨i, hi, rfl⟩ := List.mem_iff_getElem.mp hx
      have hpos : 0 < T.slots.length := by omega
      have hstart := Nat.mod_lt (hash k) hpos
      -- slot `i` is met after the rest of the turn
      have h := keyAt_of_probe_none hstart hnone
        ((i + T.slots.length - hash k % T.slots.length) % T.slots.length) (Nat.mod_lt _ hpos)
      rw [Nat.add_mod_mod, show hash k % T.slots.length + (i + T.slots.length
        - hash k % T.slots.length) = i + T.slots.length by omega, Nat.add_mod_right,
        Nat.mod_eq_of_lt hi, keyAt, List.getElem?_eq_getElem hi] at h
      exact Option.isSome_iff_ne_none.mpr h
    exact absurd (List.countP_eq_length.mpr hall) (Nat.ne_of_lt hfree)
  · exact ⟨_, rfl⟩

/-- A write takes at most one slot. -/
theorem used_store_le {T' : Table key hash} {k : κ} {s : σ} {hs : key s = some k}
    (h : T.store k s hs = some T') : T'.used ≤ T.used + 1 := by
  obtain ⟨i, hi, hslots⟩ := store_eq_some h
  rw [used, used, hslots, List.countP_set (place_lt hi)]
  split <;> split <;> omega

/-- The slot of a key in use can be written again. -/
theorem exists_store_of_find {k : κ} {s s' : σ} (hs : key s = some k) (h : T.find k = some s') :
    ∃ T', T.store k s hs = some T' := by
  obtain ⟨i, hi, -⟩ := place_of_find h
  unfold store
  split
  · rename_i hnone
    exact absurd (hnone.symm.trans hi) (by simp)
  · exact ⟨_, rfl⟩

theorem used_store_of_find {T' : Table key hash} {k : κ} {s s' : σ} {hs : key s = some k}
    (h : T.store k s hs = some T') (hfind : T.find k = some s') : T'.used = T.used := by
  obtain ⟨i, hi, hslots⟩ := store_eq_some h
  obtain ⟨j, hj, hget, hkey⟩ := place_of_find hfind
  obtain rfl : i = j := Option.some.inj (hi.symm.trans hj)
  have hlt := place_lt hi
  have hget' : T.slots[i] = s' := Option.some.inj ((List.getElem?_eq_getElem hlt).symm.trans hget)
  have hpos : 0 < T.slots.countP fun s => (key s).isSome :=
    List.countP_pos_iff.mpr ⟨s', List.mem_of_getElem? hget, by simp [hkey]⟩
  rw [used, used, hslots, List.countP_set hlt, hget', hkey, hs]
  simp only [Option.isSome_some, if_true]
  omega

/-- The entries: the slots in use, in table order. -/
def entries (T : Table key hash) : List σ := T.slots.filter fun s => (key s).isSome

theorem used_eq_length_entries : T.used = T.entries.length := List.countP_eq_length_filter

/-- A write where the search met a free slot adds that entry. -/
theorem entries_store_of_free {T' : Table key hash} {k : κ} {s : σ} {hs : key s = some k} {i : Nat}
    (h : T.store k s hs = some T') (hi : place key hash T.slots k = some i)
    (hfree : keyAt key T.slots i = none) : T'.entries.Perm (s :: T.entries) := by
  obtain ⟨j, hj, hslots⟩ := store_eq_some h
  obtain rfl : i = j := Option.some.inj (hi.symm.trans hj)
  have hlt := place_lt hi
  have hnone : key T.slots[i] = none := by
    rwa [keyAt, List.getElem?_eq_getElem hlt] at hfree
  -- the slot and what stands before and after it
  have hsplit : T.slots = T.slots.take i ++ T.slots[i] :: T.slots.drop (i + 1) := by
    rw [List.getElem_cons_drop, List.take_append_drop]
  have hset : T.slots.set i s = T.slots.take i ++ s :: T.slots.drop (i + 1) :=
    List.set_eq_take_append_cons_drop ▸ if_pos hlt
  have hold : T.entries = (T.slots.take i).filter (fun s => (key s).isSome)
      ++ (T.slots.drop (i + 1)).filter (fun s => (key s).isSome) := by
    rw [entries]
    conv_lhs => rw [hsplit]
    rw [List.filter_append, List.filter_cons_of_neg (by rw [hnone]; simp)]
  have hnew : T'.entries = (T.slots.take i).filter (fun s => (key s).isSome)
      ++ s :: (T.slots.drop (i + 1)).filter (fun s => (key s).isSome) := by
    rw [entries, hslots, hset, List.filter_append, List.filter_cons_of_pos (by rw [hs]; rfl)]
  rw [hnew, hold]
  exact List.perm_middle

/-- A write where the search met a free slot takes that slot. -/
theorem used_store_of_free {T' : Table key hash} {k : κ} {s : σ} {hs : key s = some k} {i : Nat}
    (h : T.store k s hs = some T') (hi : place key hash T.slots k = some i)
    (hfree : keyAt key T.slots i = none) : T'.used = T.used + 1 := by
  rw [used_eq_length_entries, used_eq_length_entries,
    (entries_store_of_free h hi hfree).length_eq, List.length_cons]

/-- A search that meets a free slot is for a key the table does not have. -/
theorem not_mem_of_free {k : κ} {i : Nat} (hi : place key hash T.slots k = some i)
    (hfree : keyAt key T.slots i = none) {s : σ} (hs : s ∈ T.slots) : key s ≠ some k := by
  intro hkey
  obtain ⟨j, hj⟩ := List.mem_iff_getElem?.mp hs
  have hat : keyAt key T.slots j = some k := by
    rw [keyAt, hj]
    exact hkey
  obtain rfl : i = j := Option.some.inj (hi.symm.trans (T.found j k hat))
  exact absurd (hat.symm.trans hfree) (by simp)

theorem length_store {T' : Table key hash} {k : κ} {s : σ} {hs : key s = some k}
    (h : T.store k s hs = some T') : T'.slots.length = T.slots.length := by
  obtain ⟨i, -, hslots⟩ := store_eq_some h
  rw [hslots, List.length_set]

/-- A write brings in its own slot only. -/
theorem mem_store {T' : Table key hash} {k : κ} {s x : σ} {hs : key s = some k}
    (h : T.store k s hs = some T') (hx : x ∈ T'.slots) : x ∈ T.slots ∨ x = s := by
  obtain ⟨i, -, hslots⟩ := store_eq_some h
  rw [hslots] at hx
  exact List.mem_or_eq_of_mem_set hx

/-- No two slots hold one key. -/
theorem keys_nodup (T : Table key hash) : (T.slots.filterMap key).Nodup := by
  refine List.Pairwise.filterMap key (R := fun s t => ∀ k, key s = some k → key t ≠ some k) ?_ ?_
  · intro s t h k hk k' hk' hkk
    subst hkk
    exact h k hk hk'
  · refine List.pairwise_iff_getElem.mpr fun i j hi hj hij k hk hk' => ?_
    have hati : keyAt key T.slots i = some k := by rwa [keyAt, List.getElem?_eq_getElem hi]
    have hatj : keyAt key T.slots j = some k := by rwa [keyAt, List.getElem?_eq_getElem hj]
    have hsame := (T.found i k hati).symm.trans (T.found j k hatj)
    exact Nat.ne_of_lt hij (Option.some.inj hsame)

/-- The table of free slots. -/
def empty (n : Nat) (free : σ) (hfree : key free = none) : Table key hash where
  slots := List.replicate n free
  found := by
    intro j k h
    obtain ⟨x, hx, hk⟩ := Option.bind_eq_some_iff.mp h
    rw [List.eq_of_mem_replicate (List.mem_of_getElem? hx), hfree] at hk
    exact absurd hk (by simp)

end Table

end Tables

end ShredArb.Probe
