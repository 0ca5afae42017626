/-
  ShredArb.Pools.Map — the pool table is a map, as long as it can be doubled.

  The slots are a probing table (`ShredArb.Lib.Probe`) whose entries are the
  keys put, each with its number.  Growing and loading enter the same slots
  again, in another order, so the invariant speaks of them up to PERMUTATION.

  `cap * 2` of 2³¹ slots is 0 in 32 bits, for which `next_pow2` gives 8: the
  slots are then moved into a table of 8, and the search for a free one never
  ends.

  Main results:
    * `insertSlot_spec`, `grow_spec` — entries go in one by one, and all of them move,
    * `poolTablePut_spec`, `poolTableGet_spec`, `poolTableLoad_spec` — the three calls,
    * `poolTable_isMap_iff` — when the table is a map.
-/
import ShredArb.Lib.Word
import ShredArb.Pools.Kernel

namespace ShredArb.Pools

open ShredArb.Univ ShredArb.Bytes ShredArb.Parse ShredArb.Tx ShredArb.Probe

/-! ## §1. The map a run of puts stands for. -/

local instance : LawfulBEq Mint := inferInstance

/-- Keys with their protocols, numbered by their place. -/
abbrev Keys := List (Mint × UInt8)

/-- A put that is not refused enters its key, if it is new. -/
def enter (ks : Keys) (p : Mint × UInt8) : Keys :=
  if p.2 = protoNone ∨ p.1 ∈ ks.map Prod.fst then ks else ks ++ [p]

/-- The keys of a run, in the order in which they came. -/
def entered (ps : Keys) : Keys := ps.foldl enter []

/-- The answer to a put. -/
def putAnswer (ks : Keys) (p : Mint × UInt8) : PutAnswer :=
  if p.2 = protoNone then .refused else if p.1 ∈ ks.map Prod.fst then .present else .stored

/-- The answer to a get. -/
def entry (ks : Keys) (key : Mint) : Option AffectedPool :=
  (ks.zipIdx.find? fun q => q.1.1 = key).map fun q => ⟨q.1.2, UInt32.ofNat q.2⟩

/-- Each key is always put with the same protocol. -/
def Consistent (ps : Keys) : Prop := ∀ p ∈ ps, ∀ q ∈ ps, p.1 = q.1 → p.2 = q.2

/-- The table answers as the map of the puts made does, and so does the table
saved and loaded again: to gets, and to puts made after that. -/
structure AnswersAsMap (t : PoolTable) (ps : Keys) : Prop where
  get : ∀ key, poolTableGet t key = some (entry (entered ps) key)
  load : ∃ t', poolTableLoad (poolTableSave t) = some (some t') ∧
    (∀ key, poolTableGet t' key = poolTableGet t key) ∧
    ∀ qs, Consistent (ps ++ qs) →
      (poolTablePuts t' qs).map Prod.fst = (poolTablePuts t qs).map Prod.fst

/-- After every put of the run the calls have ended with the answers of a map. -/
def IsMap (minCap : UInt32) (ps : Keys) : Prop :=
  ∀ made, made <+: ps → ∃ t,
    poolTablePuts (poolTableInit minCap) made
      = some (made.mapIdx fun i p => putAnswer (entered (made.take i)) p, t) ∧
    AnswersAsMap t made

/-! ## §2. Sizes. -/

/-- A table's array. -/
structure Sized (t : PoolTable) : Prop where
  pow : ∃ k, 3 ≤ k ∧ k ≤ 31 ∧ t.cap.toNat = 2 ^ k
  length : t.slot.length = t.cap.toNat

theorem Sized.pos {t : PoolTable} (h : Sized t) : 0 < t.slot.length := by
  obtain ⟨k, -, -, hk⟩ := h.pow
  rw [h.length, hk]
  exact Nat.two_pow_pos k

theorem Sized.le {t : PoolTable} (h : Sized t) : t.cap.toNat ≤ 2 ^ 31 := by
  obtain ⟨k, -, hle, hk⟩ := h.pow
  rw [hk]
  exact Nat.pow_le_pow_right (by decide) hle

/-- The mask of the source is the remainder by the length. -/
theorem Sized.and_mask {t : PoolTable} (h : Sized t) (x : Nat) : x &&& t.mask = x % t.slot.length := by
  obtain ⟨k, -, -, hk⟩ := h.pow
  have hpos := h.pos
  have hone : (1 : UInt32) ≤ t.cap := by
    rw [UInt32.le_iff_toNat_le]
    show 1 ≤ t.cap.toNat
    rw [← h.length]
    exact hpos
  rw [PoolTable.mask, UInt32.toNat_sub_of_le _ _ hone, h.length, hk]
  exact Nat.and_two_pow_sub_one_eq_mod x k

theorem nextPow2_of_lt {n : UInt32} (h : n < 8) : nextPow2 n = 8 := if_pos h

/-- `next_pow2` is one past the bits of `n - 1`, copied down. -/
theorem toNat_nextPow2 {n : UInt32} (h : 8 ≤ n.toNat) :
    (nextPow2 n).toNat = 2 ^ ((n.toNat - 1).log2 + 1) % 2 ^ 32 := by
  have hn : ¬ n < 8 := by
    rw [UInt32.lt_iff_toNat_lt]
    exact Nat.not_lt.mpr h
  have hsub : (n - 1).toNat = n.toNat - 1 := by
    refine UInt32.toNat_sub_of_le _ _ ?_
    rw [UInt32.le_iff_toNat_le]
    exact Nat.le_trans (by decide) h
  have hlt := n.toNat_lt
  have hcopied := Word.copyDown32 (x := n.toNat - 1) (by omega) (by omega)
  have hpos := Nat.two_pow_pos ((n.toNat - 1).log2 + 1)
  rw [nextPow2, if_neg hn, UInt32.toNat_add]
  simp only [UInt32.toNat_or, UInt32.toNat_shiftRight, hsub]
  simp only at hcopied
  rw [show (1 : UInt32).toNat % 32 = 1 from rfl, show (2 : UInt32).toNat % 32 = 2 from rfl,
    show (4 : UInt32).toNat % 32 = 4 from rfl, show (8 : UInt32).toNat % 32 = 8 from rfl,
    show (16 : UInt32).toNat % 32 = 16 from rfl, hcopied]
  show (2 ^ ((n.toNat - 1).log2 + 1) - 1 + 1) % 2 ^ 32 = _
  rw [Nat.sub_add_cancel hpos]

/-- Up to 2³¹ it is a power of two, and enough. -/
theorem nextPow2_spec {n : UInt32} (h : n.toNat ≤ 2 ^ 31) :
    ∃ k, 3 ≤ k ∧ k ≤ 31 ∧ (nextPow2 n).toNat = 2 ^ k ∧ n.toNat ≤ 2 ^ k := by
  rcases Nat.lt_or_ge n.toNat 8 with hlt | hge
  · refine ⟨3, le_refl _, by omega, ?_, by omega⟩
    rw [nextPow2_of_lt (UInt32.lt_iff_toNat_lt.mpr hlt)]
    rfl
  · have hne : n.toNat - 1 ≠ 0 := by omega
    have hlog := (Nat.log2_lt (k := 31) hne).mpr (by omega)
    have hthree := (Nat.le_log2 (k := 2) hne).mpr (by omega)
    have hself := Nat.lt_log2_self (n := n.toNat - 1)
    refine ⟨(n.toNat - 1).log2 + 1, by omega, by omega, ?_, by omega⟩
    rw [toNat_nextPow2 hge]
    exact Nat.mod_eq_of_lt (Nat.pow_lt_pow_right (by decide) (by omega))

/-- From there on it is zero. -/
theorem nextPow2_of_gt {n : UInt32} (h : 2 ^ 31 < n.toNat) : nextPow2 n = 0 := by
  have hlt := n.toNat_lt
  have hne : n.toNat - 1 ≠ 0 := by omega
  have hlog := (Nat.le_log2 (k := 31) hne).mpr (by omega)
  have hlog' := (Nat.log2_lt (k := 32) hne).mpr (by omega)
  refine UInt32.toNat_inj.mp ?_
  rw [toNat_nextPow2 (by omega), show (n.toNat - 1).log2 = 31 by omega]
  rfl

/-- A power of two is its own next one. -/
theorem nextPow2_pow {n : UInt32} {k : Nat} (hk : 3 ≤ k) (h : n.toNat = 2 ^ k) : nextPow2 n = n := by
  have hlt := n.toNat_lt
  have hk32 : k < 32 := (Nat.pow_lt_pow_iff_right (by decide)).mp (h ▸ hlt)
  have height : 2 ^ 3 ≤ 2 ^ k := Nat.pow_le_pow_right (by decide) hk
  have hne : n.toNat - 1 ≠ 0 := by omega
  have hlog : (n.toNat - 1).log2 + 1 = k := by
    have hupper := (Nat.log2_lt (k := k) hne).mpr (by omega)
    have hhalf : 2 ^ k = 2 * 2 ^ (k - 1) := by
      rw [← Nat.pow_succ', Nat.succ_eq_add_one, Nat.sub_add_cancel (by omega)]
    have hlower := (Nat.le_log2 (k := k - 1) hne).mpr (by omega)
    omega
  refine UInt32.toNat_inj.mp ?_
  rw [toNat_nextPow2 (by omega), hlog, ← h]
  exact Nat.mod_eq_of_lt hlt

/-! ## §3. The entries of a table. -/

/-- The key of a slot in use. -/
def PoolSlot.used (s : PoolSlot) : Option Mint :=
  if s.protocol = protoNone then none else some s.key

theorem PoolSlot.used_eq_none {s : PoolSlot} : s.used = none ↔ s.protocol = protoNone := by
  unfold PoolSlot.used
  split <;> simp_all

theorem PoolSlot.used_eq_some {s : PoolSlot} {k : Mint} :
    s.used = some k ↔ s.protocol ≠ protoNone ∧ s.key = k := by
  unfold PoolSlot.used
  split <;> simp_all

/-- The table holds the slots `xs`, in some order, and finds each. -/
structure Holds (t : PoolTable) (xs : List PoolSlot) : Prop extends Sized t where
  found : ∀ j k, keyAt PoolSlot.used t.slot j = some k →
    place PoolSlot.used keyHash t.slot k = some j
  entries : (t.slot.filter fun s => s.used.isSome).Perm xs
  count : t.n.toNat = xs.length

variable {t : PoolTable} {xs : List PoolSlot}

/-- The probing table. -/
def Holds.table (h : Holds t xs) : Table PoolSlot.used keyHash := ⟨t.slot, h.found⟩

theorem Holds.perm (h : Holds t xs) {ys : List PoolSlot} (hp : xs.Perm ys) : Holds t ys :=
  { h with
    entries := h.entries.trans hp
    count := h.count.trans hp.length_eq }

theorem Holds.mem_iff (h : Holds t xs) {s : PoolSlot} :
    s ∈ xs ↔ s ∈ t.slot ∧ s.protocol ≠ protoNone := by
  rw [← h.entries.mem_iff, List.mem_filter, Option.isSome_iff_ne_none, ne_eq, PoolSlot.used_eq_none]

/-- No two entries have one key. -/
theorem Holds.nodup (h : Holds t xs) : (xs.map PoolSlot.key).Nodup := by
  have hkeys : ∀ ss : List PoolSlot,
      ss.filterMap PoolSlot.used = (ss.filter fun s => s.used.isSome).map PoolSlot.key := by
    intro ss
    induction ss with
    | nil => rfl
    | cons s ss ih =>
      cases hs : s.used with
      | none => rw [List.filterMap_cons_none hs, List.filter_cons_of_neg (by simp [hs]), ih]
      | some k =>
        rw [List.filterMap_cons_some hs, List.filter_cons_of_pos (by simp [hs]), List.map_cons, ih,
          (PoolSlot.used_eq_some.mp hs).2]
  have hnodup := Table.keys_nodup h.table
  rw [show h.table.slots = t.slot from rfl, hkeys] at hnodup
  exact (h.entries.map PoolSlot.key).nodup_iff.mp hnodup

theorem Holds.used_eq (h : Holds t xs) : h.table.used = xs.length :=
  Table.used_eq_length_entries.trans h.entries.length_eq

/-- Entries are slots. -/
theorem Holds.length_le (h : Holds t xs) : xs.length ≤ t.cap.toNat := by
  rw [← h.length, ← h.entries.length_eq]
  exact List.length_filter_le _ _

/-- A table of free slots. -/
theorem holds_init {minCap : UInt32} (h : minCap.toNat ≤ 2 ^ 31) : Holds (poolTableInit minCap) [] := by
  obtain ⟨k, hk3, hk31, hcap, -⟩ := nextPow2_spec h
  exact
    { pow := ⟨k, hk3, hk31, hcap⟩
      length := List.length_replicate
      found := (Table.empty (nextPow2 minCap).toNat PoolSlot.free rfl : Table PoolSlot.used keyHash).found
      entries := by
        rw [List.filter_eq_nil_iff.mpr]
        intro s hs
        rw [List.eq_of_mem_replicate hs]
        simp [PoolSlot.used, PoolSlot.free]
      count := rfl }

/-! ## §4. The loops over the slots. -/

/-- A loop of the source takes the turns of a search for a key. -/
theorem Holds.loop_eq {α : Type} (h : Holds t xs) {k : Mint} (loop : Nat → Nat → Option α)
    (out : PoolSlot → Nat → Option α)
    (hstop : ∀ turns j s, t.slot[j]? = some s → s.protocol = protoNone ∨ s.key = k →
      loop (turns + 1) j = out s j)
    (hgo : ∀ turns j s, t.slot[j]? = some s → s.protocol ≠ protoNone → s.key ≠ k →
      loop (turns + 1) j = loop turns ((j + 1) &&& t.mask))
    {i : Nat} (hi : place PoolSlot.used keyHash t.slot k = some i) :
    ∃ s, t.slot[i]? = some s ∧ loop loopTurns (keyHash k &&& t.mask) = out s i := by
  have hlt := place_lt hi
  have hget : t.slot[i]? = some t.slot[i] := List.getElem?_eq_getElem hlt
  have hfuel : t.slot.length ≤ loopTurns := by
    have hle := h.le
    rw [h.length]
    exact Nat.le_trans hle (by decide)
  refine ⟨t.slot[i], hget, ?_⟩
  rw [h.and_mask]
  -- the loop ends where the search ends, with what `out` says of the slot there
  have hends := loop_eq_of_probe (T := t.slot) (k := k) loop
    (fun j => (t.slot[j]?).bind fun s => out s j) ?_ ?_ ?_ hi hfuel (Nat.mod_lt _ h.pos)
  · rwa [hget] at hends
  · intro turns j hj hfree
    have hslot := List.getElem?_eq_getElem hj
    rw [keyAt, hslot, Option.bind_some, PoolSlot.used_eq_none] at hfree
    rw [hstop turns j _ hslot (Or.inl hfree), hslot]
    rfl
  · intro turns j hj hkey
    have hslot := List.getElem?_eq_getElem hj
    rw [keyAt, hslot, Option.bind_some, PoolSlot.used_eq_some] at hkey
    rw [hstop turns j _ hslot (Or.inr hkey.2), hslot]
    rfl
  · intro turns j k' hj hkey hne
    have hslot := List.getElem?_eq_getElem hj
    rw [keyAt, hslot, Option.bind_some, PoolSlot.used_eq_some] at hkey
    rw [hgo turns j _ hslot hkey.1 (hkey.2 ▸ hne), h.and_mask]

/-- A table with a free slot has a place for every key. -/
theorem Holds.exists_place (h : Holds t xs) (hroom : xs.length < t.cap.toNat) (k : Mint) :
    ∃ i, place PoolSlot.used keyHash t.slot k = some i := by
  have hs : (⟨k, 1, 0⟩ : PoolSlot).used = some k := rfl
  obtain ⟨T', hstore⟩ := h.table.exists_store hs (by
    rw [h.used_eq]
    exact Nat.lt_of_lt_of_eq hroom h.length.symm)
  obtain ⟨i, hi, -⟩ := Table.store_eq_some hstore
  exact ⟨i, hi⟩

/-- A slot written at the free place of its key is one entry more. -/
theorem Holds.set (h : Holds t xs) (hroom : xs.length < t.cap.toNat) {s x : PoolSlot} {i : Nat}
    (hs : s.protocol ≠ protoNone) (hi : place PoolSlot.used keyHash t.slot s.key = some i)
    (hx : t.slot[i]? = some x) (hfree : x.protocol = protoNone) :
    Holds { t with slot := t.slot.set i s, n := t.n + 1 } (s :: xs) := by
  have hused : s.used = some s.key := PoolSlot.used_eq_some.mpr ⟨hs, rfl⟩
  have hfree' : keyAt PoolSlot.used t.slot i = none := by
    rw [keyAt, hx]
    exact PoolSlot.used_eq_none.mpr hfree
  obtain ⟨T', hstore⟩ := h.table.exists_store hused (by
    rw [h.used_eq]
    exact Nat.lt_of_lt_of_eq hroom h.length.symm)
  obtain ⟨j, hj, hslots⟩ := Table.store_eq_some hstore
  obtain rfl : i = j := Option.some.inj (hi.symm.trans hj)
  have hentries := Table.entries_store_of_free hstore hi hfree'
  have hfound := T'.found
  rw [Table.entries, hslots] at hentries
  rw [hslots] at hfound
  exact
    { pow := h.pow
      length := List.length_set.trans h.length
      found := hfound
      entries := hentries.trans (h.entries.cons s)
      count := by
        have hle := h.le
        show (t.n + 1).toNat = xs.length + 1
        rw [UInt32.toNat_add, h.count]
        exact Nat.mod_eq_of_lt (by
          show xs.length + 1 < 2 ^ 32
          omega) }

/-- A free place is that of a key the table does not hold. -/
theorem Holds.not_mem_of_free (h : Holds t xs) {k : Mint} {i : Nat} {x : PoolSlot}
    (hi : place PoolSlot.used keyHash t.slot k = some i) (hx : t.slot[i]? = some x)
    (hfree : x.protocol = protoNone) : k ∉ xs.map PoolSlot.key := by
  intro hmem
  obtain ⟨s, hs, rfl⟩ := List.mem_map.mp hmem
  obtain ⟨hslot, hprotocol⟩ := h.mem_iff.mp hs
  refine Table.not_mem_of_free (T := h.table) hi ?_ hslot (PoolSlot.used_eq_some.mpr ⟨hprotocol, rfl⟩)
  show keyAt PoolSlot.used t.slot i = none
  rw [keyAt, hx]
  exact PoolSlot.used_eq_none.mpr hfree

/-- A place in use is the entry of its key. -/
theorem Holds.mem_of_used (h : Holds t xs) {k : Mint} {i : Nat} {x : PoolSlot}
    (hi : place PoolSlot.used keyHash t.slot k = some i) (hx : t.slot[i]? = some x)
    (hprotocol : x.protocol ≠ protoNone) : x ∈ xs ∧ x.key = k := by
  have hplace := keyAt_of_probe hi
  rw [keyAt, hx, Option.bind_some, PoolSlot.used_eq_none, PoolSlot.used_eq_some] at hplace
  exact ⟨h.mem_iff.mpr ⟨List.mem_of_getElem? hx, hprotocol⟩, (hplace.resolve_left hprotocol).2⟩

/-! ## §5. Entering slots, and growing. -/

/-- **A slot with a new key goes in** where there is a free one. -/
theorem insertSlot_spec (h : Holds t xs) (hroom : xs.length < t.cap.toNat) {s : PoolSlot}
    (hs : s.protocol ≠ protoNone) (hnew : s.key ∉ xs.map PoolSlot.key) :
    ∃ t', insertSlot t s = some t' ∧ Holds t' (s :: xs) ∧ t'.cap = t.cap := by
  obtain ⟨i, hi⟩ := h.exists_place hroom s.key
  -- the loop compares no keys, and none of those it passes is the new one
  obtain ⟨x, hx, hloop⟩ := h.loop_eq (freeSlot t.slot t.mask)
    (fun x j => if x.protocol = protoNone then some j else none)
    (by
      intro turns j y hy hstop
      rw [freeSlot, hy, Option.bind_some]
      rcases hstop with hfree | hkey
      · rw [if_pos hfree, if_pos hfree]
      · by_cases hfree : y.protocol = protoNone
        · rw [if_pos hfree, if_pos hfree]
        · exact absurd (List.mem_map.mpr
            ⟨y, h.mem_iff.mpr ⟨List.mem_of_getElem? hy, hfree⟩, hkey⟩) hnew)
    (by
      intro turns j y hy hprotocol _
      rw [freeSlot, hy, Option.bind_some, if_neg hprotocol]) hi
  have hfree : x.protocol = protoNone := by
    by_contra hprotocol
    obtain ⟨hmem, hkey⟩ := h.mem_of_used hi hx hprotocol
    exact hnew (List.mem_map.mpr ⟨x, hmem, hkey⟩)
  rw [if_pos hfree] at hloop
  refine ⟨{ t with slot := t.slot.set i s, n := t.n + 1 }, ?_, h.set hroom hs hi hx hfree, rfl⟩
  rw [insertSlot, hloop]
  rfl

/-- The loop of `grow`: every slot in use goes in. -/
theorem moveAll_spec : ∀ (ss : List PoolSlot) (t : PoolTable) (xs : List PoolSlot), Holds t xs →
    (((ss.filter fun s => s.used.isSome) ++ xs).map PoolSlot.key).Nodup →
    ss.length + xs.length ≤ t.cap.toNat →
    ∃ t', ss.foldlM (fun ntbl s => if s.protocol = protoNone then some ntbl else insertSlot ntbl s) t
        = some t' ∧
      Holds t' ((ss.filter fun s => s.used.isSome).reverse ++ xs) ∧ t'.cap = t.cap := by
  intro ss
  induction ss with
  | nil =>
    intro t xs h _ _
    exact ⟨t, rfl, h, rfl⟩
  | cons s ss ih =>
    intro t xs h hnodup hroom
    rw [List.length_cons] at hroom
    rw [List.foldlM_cons]
    by_cases hs : s.protocol = protoNone
    · have hunused : ¬ s.used.isSome = true := by
        rw [PoolSlot.used_eq_none.mpr hs]
        simp
      rw [List.filter_cons_of_neg (p := fun s : PoolSlot => s.used.isSome) hunused] at hnodup ⊢
      rw [if_pos hs]
      exact ih t xs h hnodup (by omega)
    · have hused : s.used.isSome = true := by
        rw [PoolSlot.used_eq_some.mpr ⟨hs, rfl⟩]
        rfl
      rw [List.filter_cons_of_pos (p := fun s : PoolSlot => s.used.isSome) hused] at hnodup ⊢
      rw [List.cons_append, List.map_cons, List.nodup_cons] at hnodup
      have hnew : s.key ∉ xs.map PoolSlot.key := by
        intro hmem
        refine hnodup.1 ?_
        rw [List.map_append]
        exact List.mem_append_right _ hmem
      obtain ⟨t₁, hinsert, h₁, hcap⟩ := insertSlot_spec h (by omega) hs hnew
      have hmiddle : (((ss.filter fun s => s.used.isSome) ++ s :: xs).map PoolSlot.key).Nodup := by
        refine (List.perm_middle.map PoolSlot.key).nodup_iff.mpr ?_
        rw [List.map_cons, List.nodup_cons]
        exact hnodup
      obtain ⟨t', hrest, h', hcap'⟩ := ih t₁ (s :: xs) h₁ hmiddle (by
        rw [List.length_cons, hcap]
        omega)
      refine ⟨t', ?_, ?_, hcap'.trans hcap⟩
      · rw [if_neg hs, hinsert]
        exact hrest
      · rwa [List.reverse_cons, List.append_assoc]

/-- **A table that can be doubled keeps its entries.** -/
theorem grow_spec (h : Holds t xs) (hcap : t.cap.toNat < 2 ^ 31) :
    ∃ t', grow t = some t' ∧ Holds t' xs ∧ t'.cap.toNat = 2 * t.cap.toNat := by
  obtain ⟨k, hk3, hk31, hpow⟩ := h.pow
  have hk : k < 31 := by
    rw [hpow] at hcap
    exact (Nat.pow_lt_pow_iff_right (by decide)).mp hcap
  have htwice : 2 ^ (k + 1) = t.cap.toNat * 2 := by rw [Nat.pow_succ, hpow]
  have hdouble : (t.cap * 2).toNat = 2 ^ (k + 1) := by
    rw [UInt32.toNat_mul, htwice]
    exact Nat.mod_eq_of_lt (by
      show t.cap.toNat * 2 < 2 ^ 32
      omega)
  have hnext : nextPow2 (t.cap * 2) = t.cap * 2 := nextPow2_pow (by omega) hdouble
  have hinit : Holds (poolTableInit (t.cap * 2)) [] := holds_init (by
    rw [hdouble]
    exact Nat.pow_le_pow_right (by decide) hk)
  have hcap' : (poolTableInit (t.cap * 2)).cap.toNat = 2 * t.cap.toNat := by
    show (nextPow2 (t.cap * 2)).toNat = _
    rw [hnext, hdouble, htwice, Nat.mul_comm]
  obtain ⟨t', hmove, h', hsame⟩ := moveAll_spec t.slot _ [] hinit
    (by
      rw [List.append_nil]
      exact (h.entries.map PoolSlot.key).nodup_iff.mpr h.nodup)
    (by
      rw [hcap', h.length]
      show t.cap.toNat + 0 ≤ _
      omega)
  rw [List.append_nil] at h'
  exact ⟨t', hmove, h'.perm ((List.reverse_perm _).trans h.entries), hsame ▸ hcap'⟩

/-- A table at rest: at most half full; or the array of no slots, which an
initial size above 2³¹ gives. -/
def AtRest (t : PoolTable) (xs : List PoolSlot) : Prop :=
  Holds t xs ∧ 2 * xs.length ≤ t.cap.toNat ∨ t = ⟨[], 0, 0⟩ ∧ xs = []

/-- The number of entries, doubled as the source does. -/
theorem Holds.toNat_twice (h : Holds t xs) (hle : 2 * xs.length ≤ t.cap.toNat) :
    (t.n * 2).toNat = 2 * xs.length := by
  have hcap := h.le
  rw [UInt32.toNat_mul, h.count, Nat.mul_comm]
  exact Nat.mod_eq_of_lt (by
    show 2 * xs.length < 2 ^ 32
    omega)

/-- Below 2³⁰ keys there is room for the next one. -/
theorem room_spec (h : AtRest t xs) (hxs : xs.length < 2 ^ 30) :
    ∃ t', t.room = some t' ∧ Holds t' xs ∧ 2 * xs.length < t'.cap.toNat := by
  rcases h with ⟨h, hle⟩ | ⟨rfl, rfl⟩
  · have htwice := h.toNat_twice hle
    unfold PoolTable.room
    split
    · rename_i hfull
      rw [ge_iff_le, UInt32.le_iff_toNat_le, htwice] at hfull
      obtain ⟨t', hgrow, h', hcap⟩ := grow_spec h (by omega)
      have hpos := h.pos
      rw [h.length] at hpos
      exact ⟨t', hgrow, h', by omega⟩
    · rename_i hfull
      rw [ge_iff_le, UInt32.le_iff_toNat_le, htwice] at hfull
      exact ⟨t, rfl, h, by omega⟩
  · exact ⟨poolTableInit 0, rfl, holds_init (by decide), by decide⟩

/-- With no slot free the search goes on for ever. -/
theorem freeSlot_full {slot : List PoolSlot} (hfull : ∀ s ∈ slot, s.protocol ≠ protoNone) (mask : Nat) :
    ∀ turns j, freeSlot slot mask turns j = none := by
  intro turns
  induction turns with
  | zero => exact fun _ => rfl
  | succ turns ih =>
    intro j
    rw [freeSlot]
    cases hj : slot[j]? with
    | none => rfl
    | some s =>
      rw [Option.bind_some, if_neg (hfull s (List.mem_of_getElem? hj))]
      exact ih _

/-- A slot moved in takes a free one. -/
theorem freeSlot_free {slot : List PoolSlot} {mask : Nat} : ∀ {turns j i : Nat},
    freeSlot slot mask turns j = some i → ∃ s, slot[i]? = some s ∧ s.used = none := by
  intro turns
  induction turns with
  | zero =>
    intro j i h
    exact absurd h (by simp [freeSlot])
  | succ turns ih =>
    intro j i h
    rw [freeSlot, Option.bind_eq_some_iff] at h
    obtain ⟨s, hs, h⟩ := h
    split at h
    · rename_i hfree
      exact ⟨s, Option.some.inj h ▸ hs, PoolSlot.used_eq_none.mpr hfree⟩
    · exact ih h

/-- As many slots are in use as were moved in. -/
theorem moveAll_used : ∀ {ss : List PoolSlot} {t t' : PoolTable},
    ss.foldlM (fun ntbl s => if s.protocol = protoNone then some ntbl else insertSlot ntbl s) t
      = some t' →
    t'.slot.length = t.slot.length ∧
    t'.slot.countP (fun s => s.used.isSome)
      = t.slot.countP (fun s => s.used.isSome) + ss.countP fun s => s.used.isSome := by
  intro ss
  induction ss with
  | nil =>
    intro t t' h
    obtain rfl : t = t' := Option.some.inj h
    exact ⟨rfl, rfl⟩
  | cons s ss ih =>
    intro t t' h
    rw [List.foldlM_cons] at h
    obtain ⟨t₁, hone, hrest⟩ := Option.bind_eq_some_iff.mp h
    obtain ⟨hlen, hcount⟩ := ih hrest
    split at hone
    · rename_i hs
      obtain rfl : t = t₁ := Option.some.inj hone
      rw [List.countP_cons_of_neg (by simp [PoolSlot.used_eq_none.mpr hs])]
      exact ⟨hlen, hcount⟩
    · rename_i hs
      have hused : s.used.isSome = true := by
        rw [PoolSlot.used_eq_some.mpr ⟨hs, rfl⟩]
        rfl
      obtain ⟨i, hi, rfl⟩ := Option.map_eq_some_iff.mp hone
      obtain ⟨x, hx, hfree⟩ := freeSlot_free hi
      obtain ⟨hlt, hget⟩ := List.getElem?_eq_some_iff.mp hx
      have hset : (t.slot.set i s).countP (fun s => s.used.isSome)
          = t.slot.countP (fun s => s.used.isSome) + 1 := by
        rw [List.countP_set hlt, hget, hused, hfree]
        simp
      refine ⟨hlen.trans List.length_set, ?_⟩
      rw [hcount, List.countP_cons_of_pos (p := fun s : PoolSlot => s.used.isSome) hused]
      show (t.slot.set i s).countP (fun s => s.used.isSome) + _ = _
      omega

/-- **The largest table cannot be doubled**: the size wraps, and more than 8
entries do not fit into the table of 8. -/
theorem grow_largest (h : Holds t xs) (hcap : t.cap.toNat = 2 ^ 31) (hxs : 8 < xs.length) :
    grow t = none := by
  have hwrap : t.cap * 2 = 0 := by
    refine UInt32.toNat_inj.mp ?_
    rw [UInt32.toNat_mul, hcap]
    rfl
  cases hgrow : grow t with
  | none => rfl
  | some t' =>
    exfalso
    rw [grow, hwrap] at hgrow
    obtain ⟨hlen, hcount⟩ := moveAll_used hgrow
    have hall : t.slot.countP (fun s => s.used.isSome) = xs.length := by
      rw [List.countP_eq_length_filter]
      exact h.entries.length_eq
    have hempty : (poolTableInit 0).slot.countP (fun s => s.used.isSome) = 0 := by decide
    have height : (poolTableInit 0).slot.length = 8 := by decide
    have hle := List.countP_le_length (p := fun s : PoolSlot => s.used.isSome) (l := t'.slot)
    omega

/-! ## §6. Puts and gets. -/

/-- The slots of numbered keys. -/
def slotsOf (ks : Keys) : List PoolSlot := ks.zipIdx.map fun q => ⟨q.1.1, q.1.2, UInt32.ofNat q.2⟩

@[simp] theorem length_slotsOf (ks : Keys) : (slotsOf ks).length = ks.length := by
  rw [slotsOf, List.length_map, List.length_zipIdx]

theorem slotsOf_concat (ks : Keys) (p : Mint × UInt8) :
    slotsOf (ks ++ [p]) = slotsOf ks ++ [⟨p.1, p.2, UInt32.ofNat ks.length⟩] := by
  simp [slotsOf, List.zipIdx_append]

theorem map_key_slotsOf (ks : Keys) : (slotsOf ks).map PoolSlot.key = ks.map Prod.fst := by
  rw [slotsOf, List.map_map]
  conv_rhs => rw [← List.zipIdx_map_fst 0 ks, List.map_map]
  rfl

theorem mem_of_mem_slotsOf {ks : Keys} {s : PoolSlot} (h : s ∈ slotsOf ks) :
    (s.key, s.protocol) ∈ ks := by
  obtain ⟨q, hq, rfl⟩ := List.mem_map.mp h
  exact List.fst_mem_of_mem_zipIdx hq

/-- The entry of a key is what its slot says. -/
theorem entry_eq (ks : Keys) (key : Mint) :
    entry ks key = ((slotsOf ks).find? fun s => s.key = key).map fun s => ⟨s.protocol, s.idx⟩ := by
  rw [entry, slotsOf, List.find?_map, Option.map_map]
  rfl

/-- The table of the keys `ks`. -/
structure Tabled (t : PoolTable) (ks : Keys) : Prop where
  holds : Holds t (slotsOf ks)
  half : 2 * ks.length ≤ t.cap.toNat

theorem Tabled.free {ks : Keys} (h : Tabled t ks) : (slotsOf ks).length < t.cap.toNat := by
  have hpos := h.holds.pos
  have hhalf := h.half
  rw [h.holds.length] at hpos
  rw [length_slotsOf]
  omega

/-- **A get answers with the entry of its key.** -/
theorem poolTableGet_spec {ks : Keys} (h : Tabled t ks) (key : Mint) :
    poolTableGet t key = some (entry ks key) := by
  obtain ⟨i, hi⟩ := h.holds.exists_place h.free key
  obtain ⟨x, hx, hloop⟩ := h.holds.loop_eq (getLoop t key)
    (fun x _ => if x.protocol = protoNone then some none else some (some ⟨x.protocol, x.idx⟩))
    (by
      intro turns j y hy hstop
      rw [getLoop, hy, Option.bind_some]
      by_cases hfree : y.protocol = protoNone
      · rw [if_pos hfree, if_pos hfree]
      · rw [if_neg hfree, if_neg hfree, if_pos (hstop.resolve_left hfree)])
    (by
      intro turns j y hy hprotocol hkey
      rw [getLoop, hy, Option.bind_some, if_neg hprotocol, if_neg hkey]) hi
  rw [poolTableGet, hloop, entry_eq]
  split
  · rename_i hfree
    have hnew := h.holds.not_mem_of_free hi hx hfree
    rw [List.find?_eq_none.mpr]
    · rfl
    · intro s hs hkey
      exact hnew (List.mem_map.mpr ⟨s, hs, of_decide_eq_true hkey⟩)
  · rename_i hprotocol
    obtain ⟨hmem, hkey⟩ := h.holds.mem_of_used hi hx hprotocol
    -- keys are distinct, so the first slot with the key is this one
    have hfind : (slotsOf ks).find? (fun s => s.key = key) = some x := by
      cases hf : (slotsOf ks).find? (fun s => s.key = key) with
      | none => exact absurd (decide_eq_true hkey) (List.find?_eq_none.mp hf x hmem)
      | some y =>
        have hfound := List.find?_some hf
        have hy : y.key = x.key := (of_decide_eq_true hfound).trans hkey.symm
        rw [List.inj_on_of_nodup_map h.holds.nodup (List.mem_of_find?_eq_some hf) hmem hy]
    rw [hfind]
    rfl

/-- **A put with room enough answers as the map does** and enters its key. -/
theorem poolTablePut_spec {ks : Keys} (h : Tabled t ks) (hks : ks.length < 2 ^ 30)
    {p : Mint × UInt8} (hprotocol : p.2 ≠ protoNone) (hsame : ∀ q ∈ ks, q.1 = p.1 → q.2 = p.2) :
    ∃ t', poolTablePut t p.1 p.2 = some (putAnswer ks p, t') ∧ Tabled t' (enter ks p) := by
  obtain ⟨t₁, hroom, h₁, hhalf⟩ := room_spec (Or.inl ⟨h.holds, by
    rw [length_slotsOf]
    exact h.half⟩) (by rwa [length_slotsOf])
  rw [length_slotsOf] at hhalf
  have hfree : (slotsOf ks).length < t₁.cap.toNat := by
    rw [length_slotsOf]
    omega
  obtain ⟨i, hi⟩ := h₁.exists_place hfree p.1
  have hput : poolTablePut t p.1 p.2
      = putLoop t₁ p.1 p.2 loopTurns (keyHash p.1 &&& t₁.mask) := by
    rw [poolTablePut, if_neg hprotocol, hroom]
    rfl
  obtain ⟨x, hx, hloop⟩ := h₁.loop_eq (putLoop t₁ p.1 p.2)
    (fun x j =>
      if x.protocol = protoNone then
        some (.stored, { t₁ with slot := t₁.slot.set j ⟨p.1, p.2, t₁.n⟩, n := t₁.n + 1 })
      else some (.present, t₁))
    (by
      intro turns j y hy hstop
      rw [putLoop, hy, Option.bind_some]
      by_cases hunused : y.protocol = protoNone
      · rw [if_pos hunused, if_pos hunused]
      · -- a slot with the key has the protocol too
        have hkey := hstop.resolve_left hunused
        have hmem := mem_of_mem_slotsOf
          (h₁.mem_iff.mpr ⟨List.mem_of_getElem? hy, hunused⟩)
        rw [if_neg hunused, if_neg hunused, if_pos ⟨hsame _ hmem hkey, hkey⟩])
    (by
      intro turns j y hy hused hkey
      rw [putLoop, hy, Option.bind_some, if_neg hused, if_neg fun hboth => hkey hboth.2]) hi
  rw [hput, hloop, putAnswer, if_neg hprotocol, enter]
  split
  · rename_i hunused
    have hnew : p.1 ∉ ks.map Prod.fst := by
      rw [← map_key_slotsOf]
      exact h₁.not_mem_of_free hi hx hunused
    rw [if_neg hnew, if_neg (not_or.mpr ⟨hprotocol, hnew⟩)]
    refine ⟨_, rfl, ?_, ?_⟩
    · have hset := h₁.set hfree (s := ⟨p.1, p.2, t₁.n⟩) hprotocol hi hx hunused
      have hidx : t₁.n = UInt32.ofNat ks.length := by
        rw [← length_slotsOf, ← h₁.count, UInt32.ofNat_toNat]
      rw [slotsOf_concat, ← hidx]
      exact hset.perm (List.perm_append_singleton _ _).symm
    · obtain ⟨k, hk3, -, hpow⟩ := h₁.pow
      have heven : 2 ^ k = 2 * 2 ^ (k - 1) := by
        rw [← Nat.pow_succ', Nat.succ_eq_add_one, Nat.sub_add_cancel (by omega)]
      rw [List.length_append, List.length_singleton]
      show 2 * (ks.length + 1) ≤ t₁.cap.toNat
      omega
  · rename_i hused
    obtain ⟨hmem, hkey⟩ := h₁.mem_of_used hi hx hused
    have hin : p.1 ∈ ks.map Prod.fst := by
      rw [← map_key_slotsOf]
      exact List.mem_map.mpr ⟨x, hmem, hkey⟩
    rw [if_pos hin, if_pos (Or.inr hin)]
    exact ⟨t₁, rfl, h₁, by omega⟩

/-- A put that finds 2³⁰ keys never ends. -/
theorem poolTablePut_full {ks : Keys} (h : Tabled t ks) (hks : 2 ^ 30 ≤ ks.length)
    {p : Mint × UInt8} (hprotocol : p.2 ≠ protoNone) : poolTablePut t p.1 p.2 = none := by
  have hcap : t.cap.toNat = 2 ^ 31 := Nat.le_antisymm h.holds.le (by
    have hhalf := h.half
    omega)
  have htwice := h.holds.toNat_twice (by
    rw [length_slotsOf]
    exact h.half)
  rw [length_slotsOf] at htwice
  have hfull : t.n * 2 ≥ t.cap := by
    rw [ge_iff_le, UInt32.le_iff_toNat_le, htwice, hcap]
    omega
  have hgrow := grow_largest h.holds hcap (by
    rw [length_slotsOf]
    omega)
  rw [poolTablePut, if_neg hprotocol, PoolTable.room, if_pos hfull, hgrow]
  rfl

/-! ## §7. Files. -/

theorem reads_readU32 (n : UInt32) : Reads readU32 (leBytes 4 n.toNat) n := by
  have hn : UInt32.ofNat (leNat (leBytes 4 n.toNat)) = n := by
    rw [leNat_leBytes, show 256 ^ 4 = 2 ^ 32 by decide, Nat.mod_eq_of_lt n.toNat_lt,
      UInt32.ofNat_toNat]
  have h := (reads_exactly (length_leBytes 4 n.toNat)).map (g := fun bs => UInt32.ofNat (leNat bs))
  rwa [hn] at h

theorem reads_readSlot (s : PoolSlot) : Reads readSlot (slotBytes s) s :=
  (reads_byte s.protocol).andThen ((reads_readU32 s.idx).andThen (reads_key s.key).map)

theorem reads_readHead (n : UInt32) : Reads readHead (poolMagic ++ leBytes 4 n.toNat) n := by
  refine (reads_exactly (show poolMagic.length = 8 from rfl)).andThen ?_
  rw [if_neg (not_not.mpr rfl)]
  exact reads_readU32 n

/-- The loop over the records enters them all. -/
theorem loadSlots_spec : ∀ (ss : List PoolSlot) (t : PoolTable) (xs : List PoolSlot), AtRest t xs →
    ((ss ++ xs).map PoolSlot.key).Nodup → (∀ s ∈ ss, s.protocol ≠ protoNone) →
    ss.length + xs.length ≤ 2 ^ 30 →
    ∃ t', loadSlots ss.length t (ss.flatMap slotBytes) = some (some t') ∧
      AtRest t' (ss.reverse ++ xs) := by
  intro ss
  induction ss with
  | nil =>
    intro t xs h _ _ _
    exact ⟨t, rfl, h⟩
  | cons s ss ih =>
    intro t xs h hnodup hused hroom
    rw [List.length_cons] at hroom
    obtain ⟨t₁, hgrown, h₁, hhalf⟩ := room_spec h (by omega)
    rw [List.cons_append, List.map_cons, List.nodup_cons] at hnodup
    have hnew : s.key ∉ xs.map PoolSlot.key := by
      intro hmem
      refine hnodup.1 ?_
      rw [List.map_append]
      exact List.mem_append_right _ hmem
    have hs := hused s List.mem_cons_self
    obtain ⟨t₂, hinsert, h₂, hcap⟩ := insertSlot_spec h₁ (by omega) hs hnew
    have hrest : AtRest t₂ (s :: xs) := by
      obtain ⟨k, hk3, -, hpow⟩ := h₂.pow
      have heven : 2 ^ k = 2 * 2 ^ (k - 1) := by
        rw [← Nat.pow_succ', Nat.succ_eq_add_one, Nat.sub_add_cancel (by omega)]
      rw [← hcap] at hhalf
      refine Or.inl ⟨h₂, ?_⟩
      rw [List.length_cons]
      omega
    obtain ⟨t', hload, h'⟩ := ih t₂ (s :: xs) hrest (by
        refine (List.perm_middle.map PoolSlot.key).nodup_iff.mpr ?_
        rw [List.map_cons, List.nodup_cons]
        exact hnodup) (fun x hx => hused x (List.mem_cons_of_mem _ hx)) (by
        rw [List.length_cons]
        omega)
    refine ⟨t', ?_, ?_⟩
    · rw [List.length_cons, List.flatMap_cons, loadSlots, reads_readSlot]
      show (if s.protocol = protoNone then _ else _) = _
      rw [if_neg hs, hgrown, Option.bind_some, hinsert]
      exact hload
    · rwa [List.reverse_cons, List.append_assoc]

/-- **A table loaded from a saved one has its keys**, in some order of its own. -/
theorem poolTableLoad_spec {ks : Keys} (h : Tabled t ks) :
    ∃ t', poolTableLoad (poolTableSave t) = some (some t') ∧ Tabled t' ks := by
  have hle : ks.length ≤ 2 ^ 30 := by
    have hcap := h.holds.le
    have hhalf := h.half
    omega
  have hcount := h.holds.count
  rw [length_slotsOf] at hcount
  -- the records are the entries, in table order
  let ss := t.slot.filter fun s => s.protocol ≠ protoNone
  have hperm : ss.Perm (slotsOf ks) := by
    have hsame : ss = t.slot.filter fun s => s.used.isSome := by
      refine List.filter_congr fun s _ => ?_
      rw [Bool.eq_iff_iff, decide_eq_true_eq, Option.isSome_iff_ne_none, ne_eq, ne_eq,
        PoolSlot.used_eq_none]
    rw [hsame]
    exact h.holds.entries
  have hlen : ss.length = t.n.toNat := by rw [hperm.length_eq, length_slotsOf, hcount]
  have hfile : poolTableSave t = (poolMagic ++ leBytes 4 t.n.toNat) ++ ss.flatMap slotBytes := by
    rw [poolTableSave, List.append_assoc, ← hlen]
    show _ ++ (_ ++ (ss.take ss.length).flatMap slotBytes) = _
    rw [List.take_length]
  have hmin : (t.n * 2 + 8).toNat = 2 * ks.length + 8 := by
    rw [UInt32.toNat_add, UInt32.toNat_mul, hcount]
    show (ks.length * 2 % 2 ^ 32 + 8) % 2 ^ 32 = _
    omega
  have hinit : AtRest (poolTableInit (t.n * 2 + 8)) [] := by
    rcases Nat.lt_or_ge (2 ^ 31) (2 * ks.length + 8) with hgt | hle'
    · right
      rw [poolTableInit, nextPow2_of_gt (by rw [hmin]; exact hgt)]
      exact ⟨rfl, rfl⟩
    · exact Or.inl ⟨holds_init (by rw [hmin]; exact hle'), Nat.zero_le _⟩
  obtain ⟨t', hload, h'⟩ := loadSlots_spec ss _ [] hinit
    (by
      rw [List.append_nil]
      exact (hperm.map PoolSlot.key).nodup_iff.mpr h.holds.nodup)
    (fun s hs => of_decide_eq_true (List.mem_filter.mp hs).2)
    (by
      rw [hlen, hcount]
      exact hle)
  rw [List.append_nil] at h'
  refine ⟨t', ?_, ?_⟩
  · rw [poolTableLoad, hfile, reads_readHead]
    show loadSlots t.n.toNat _ _ = _
    rw [← hlen]
    exact hload
  · have hback := (List.reverse_perm ss).trans hperm
    rcases h' with ⟨hholds, hhalf⟩ | ⟨rfl, hnil⟩
    · refine ⟨hholds.perm hback, ?_⟩
      rwa [hback.length_eq, length_slotsOf] at hhalf
    · -- no record was read, and then the table is one of 8 free slots
      exfalso
      have hzero : ss.length = 0 := by rw [List.reverse_eq_nil_iff.mp hnil, List.length_nil]
      have hn : t.n = 0 := UInt32.toNat_inj.mp (hlen.symm.trans hzero)
      rw [hzero, hn] at hload
      exact absurd (congrArg PoolTable.cap (Option.some.inj (Option.some.inj hload))) (by decide)

/-! ## §8. Runs. -/

/-- Every put that is not refused finds fewer than 2³⁰ keys. -/
def Rooms (ks ps : Keys) : Prop :=
  ∀ made p rest, ps = made ++ p :: rest → p.2 ≠ protoNone → (made.foldl enter ks).length < 2 ^ 30

theorem rooms_nil (ks : Keys) : Rooms ks [] := by
  intro made p rest h
  exact absurd h.symm (List.append_ne_nil_of_right_ne_nil _ (List.cons_ne_nil p rest))

theorem rooms_cons {ks ps : Keys} {p : Mint × UInt8} :
    Rooms ks (p :: ps) ↔ (p.2 ≠ protoNone → ks.length < 2 ^ 30) ∧ Rooms (enter ks p) ps := by
  constructor
  · intro h
    refine ⟨h [] p ps rfl, fun made q rest hps => ?_⟩
    exact h (p :: made) q rest (by rw [hps, List.cons_append])
  · rintro ⟨hfirst, hrest⟩ made q rest hps
    cases made with
    | nil =>
      obtain ⟨rfl, -⟩ := List.cons.inj hps
      exact hfirst
    | cons p' made =>
      obtain ⟨rfl, hps'⟩ := List.cons.inj hps
      exact hrest made q rest hps'

theorem Rooms.of_prefix {ks ps qs : Keys} (h : Rooms ks ps) (hq : qs <+: ps) : Rooms ks qs := by
  obtain ⟨tail, rfl⟩ := hq
  intro made p rest hqs
  exact h made p (rest ++ tail) (by rw [hqs, List.append_assoc, List.cons_append])

theorem subset_enter (ks : Keys) (p : Mint × UInt8) : enter ks p ⊆ ks ++ [p] := by
  unfold enter
  split
  · exact List.subset_append_left ks [p]
  · exact List.Subset.refl _

/-- What was entered was put. -/
theorem subset_entered : ∀ (ps ks : Keys), ps.foldl enter ks ⊆ ks ++ ps := by
  intro ps
  induction ps with
  | nil =>
    intro ks
    exact List.subset_append_left ks []
  | cons p ps ih =>
    intro ks q hq
    have hmem := ih (enter ks p) hq
    rcases List.mem_append.mp hmem with h | h
    · rcases List.mem_append.mp (subset_enter ks p h) with h | h
      · exact List.mem_append_left _ h
      · exact List.mem_append_right _ (List.mem_singleton.mp h ▸ List.mem_cons_self)
    · exact List.mem_append_right _ (List.mem_cons_of_mem p h)

theorem Consistent.of_subset {ps qs : Keys} (h : Consistent ps) (hq : qs ⊆ ps) : Consistent qs :=
  fun p hp q hq' => h p (hq hp) q (hq hq')

/-- **A run of puts** answers as the map does and leaves its table, or does not
end, which is decided by the keys each put finds. -/
theorem poolTablePuts_spec : ∀ (ps ks : Keys) (t : PoolTable), Tabled t ks → Consistent (ks ++ ps) →
    Rooms ks ps ∧ (∃ t', poolTablePuts t ps
        = some (ps.mapIdx fun i p => putAnswer ((ps.take i).foldl enter ks) p, t') ∧
      Tabled t' (ps.foldl enter ks)) ∨
    ¬ Rooms ks ps ∧ poolTablePuts t ps = none := by
  intro ps
  induction ps with
  | nil =>
    intro ks t h _
    exact Or.inl ⟨rooms_nil ks, t, rfl, h⟩
  | cons p ps ih =>
    intro ks t h hsame
    have hone : (p.2 ≠ protoNone → ks.length < 2 ^ 30) ∧ (∃ t₁,
          poolTablePut t p.1 p.2 = some (putAnswer ks p, t₁) ∧ Tabled t₁ (enter ks p)) ∨
        ¬ (p.2 ≠ protoNone → ks.length < 2 ^ 30) ∧ poolTablePut t p.1 p.2 = none := by
      by_cases hp : p.2 = protoNone
      · refine Or.inl ⟨fun hne => absurd hp hne, t, ?_, ?_⟩
        · rw [poolTablePut, if_pos hp, putAnswer, if_pos hp]
        · rwa [enter, if_pos (Or.inl hp)]
      · rcases Nat.lt_or_ge ks.length (2 ^ 30) with hlt | hge
        · exact Or.inl ⟨fun _ => hlt, poolTablePut_spec h hlt hp fun q hq hkey =>
            hsame q (List.mem_append_left _ hq) p
              (List.mem_append_right _ List.mem_cons_self) hkey⟩
        · exact Or.inr ⟨fun hlt => absurd (hlt hp) (Nat.not_lt.mpr hge),
            poolTablePut_full h hge hp⟩
    rw [rooms_cons, poolTablePuts]
    rcases hone with ⟨hroom, t₁, hput, h₁⟩ | ⟨hfull, hput⟩
    · have hsame' : Consistent (enter ks p ++ ps) := by
        refine hsame.of_subset fun q hq => ?_
        rcases List.mem_append.mp hq with hq | hq
        · have hsub := subset_enter ks p hq
          rw [List.append_cons]
          exact List.mem_append_left ps hsub
        · exact List.mem_append_right _ (List.mem_cons_of_mem p hq)
      rcases ih (enter ks p) t₁ h₁ hsame' with ⟨hrooms, t', hputs, h'⟩ | ⟨hrooms, hputs⟩
      · refine Or.inl ⟨⟨hroom, hrooms⟩, t', ?_, h'⟩
        rw [hput, Option.bind_some, hputs, Option.map_some, List.mapIdx_cons]
        rfl
      · refine Or.inr ⟨fun h => hrooms h.2, ?_⟩
        rw [hput, Option.bind_some, hputs]
        rfl
    · refine Or.inr ⟨fun h => hfull h.1, ?_⟩
      rw [hput]
      rfl

/-- Two tables of the same keys answer the same puts alike. -/
theorem poolTablePuts_same {t' : PoolTable} {ks qs : Keys} (h : Tabled t ks) (h' : Tabled t' ks)
    (hsame : Consistent (ks ++ qs)) :
    (poolTablePuts t' qs).map Prod.fst = (poolTablePuts t qs).map Prod.fst := by
  rcases poolTablePuts_spec qs ks t h hsame with ⟨hrooms, s, hputs, -⟩ | ⟨hrooms, hputs⟩
  · rcases poolTablePuts_spec qs ks t' h' hsame with ⟨-, s', hputs', -⟩ | ⟨hno, -⟩
    · rw [hputs, hputs']
      rfl
    · exact absurd hrooms hno
  · rcases poolTablePuts_spec qs ks t' h' hsame with ⟨hyes, -⟩ | ⟨-, hputs'⟩
    · exact absurd hyes hrooms
    · rw [hputs, hputs']

theorem tabled_init {minCap : UInt32} (h : minCap.toNat ≤ 2 ^ 31) : Tabled (poolTableInit minCap) [] :=
  ⟨holds_init h, Nat.zero_le _⟩

/-- A table of some keys answers as their map. -/
theorem Tabled.answersAsMap {ps : Keys} (h : Tabled t (entered ps)) : AnswersAsMap t ps where
  get := poolTableGet_spec h
  load := by
    obtain ⟨t', hload, h'⟩ := poolTableLoad_spec h
    refine ⟨t', hload, fun key => ?_, fun qs hsame => ?_⟩
    · rw [poolTableGet_spec h' key, poolTableGet_spec h key]
    · refine poolTablePuts_same h h' (hsame.of_subset fun q hq => ?_)
      rcases List.mem_append.mp hq with hq | hq
      · exact List.mem_append_left _ (subset_entered ps [] hq)
      · exact List.mem_append_right _ hq

/-- In no slots nothing is found. -/
theorem getLoop_nil {cap n : UInt32} (key : Mint) :
    ∀ turns i, getLoop ⟨[], cap, n⟩ key turns i = none := by
  intro turns i
  cases turns with
  | zero => rfl
  | succ turns => rfl

/-! ## §9. When the table is a map. -/

/-- A get ends in a table of some slots only. -/
theorem IsMap.minCap_le {minCap : UInt32} {ps : Keys} (h : IsMap minCap ps) :
    minCap.toNat ≤ 2 ^ 31 := by
  by_contra hgt
  obtain ⟨t, hputs, hanswers⟩ := h [] List.nil_prefix
  have ht : poolTableInit minCap = t := congrArg Prod.snd (Option.some.inj hputs)
  have hget := hanswers.get 0
  rw [← ht, poolTableInit, nextPow2_of_gt (Nat.lt_of_not_le hgt)] at hget
  have hnone : poolTableGet ⟨List.replicate (0 : UInt32).toNat .free, 0, 0⟩ 0 = none :=
    getLoop_nil 0 loopTurns _
  rw [hnone] at hget
  exact absurd hget (by simp)

theorem IsMap.rooms {minCap : UInt32} {ps : Keys} (h : IsMap minCap ps) (hsame : Consistent ps) :
    Rooms [] ps := by
  obtain ⟨t, hputs, -⟩ := h ps (List.prefix_refl ps)
  rcases poolTablePuts_spec ps [] _ (tabled_init h.minCap_le) hsame with ⟨hrooms, -⟩ | ⟨-, hnone⟩
  · exact hrooms
  · exact absurd (hputs.symm.trans hnone) (by simp)

/-- **The table is a map** exactly when it is made for at most 2³¹ slots and no
put that is not refused finds 2³⁰ keys: until then every call ends, with the
answer of the map, and after it one does not. -/
theorem poolTable_isMap_iff {minCap : UInt32} {ps : Keys} (hsame : Consistent ps) :
    IsMap minCap ps ↔ minCap.toNat ≤ 2 ^ 31 ∧
      ∀ made p rest, ps = made ++ p :: rest → p.2 ≠ protoNone → (entered made).length < 2 ^ 30 := by
  constructor
  · exact fun h => ⟨h.minCap_le, h.rooms hsame⟩
  · rintro ⟨hcap, hrooms⟩ made hmade
    have hconsistent : Consistent ([] ++ made) := hsame.of_subset hmade.subset
    rcases poolTablePuts_spec made [] _ (tabled_init hcap) hconsistent with
      ⟨-, t, hputs, h⟩ | ⟨hno, -⟩
    · exact ⟨t, hputs, Tabled.answersAsMap h⟩
    · exact absurd (Rooms.of_prefix hrooms hmade) hno

/-- Two keys, one of them put again. -/
theorem poolTable_isMap_iff_demo :
    Consistent [(1, 1), (2, 3), (1, 1)] ∧
      (IsMap 8 [(1, 1), (2, 3), (1, 1)] ↔ (8 : UInt32).toNat ≤ 2 ^ 31 ∧
        ∀ made p rest, [(1, 1), (2, 3), (1, 1)] = made ++ p :: rest → p.2 ≠ protoNone →
          (entered made).length < 2 ^ 30) := by
  have hsame : Consistent [(1, 1), (2, 3), (1, 1)] := by
    intro p hp q hq hkey
    simp only [List.mem_cons, List.not_mem_nil, or_false] at hp hq
    rcases hp with rfl | rfl | rfl <;> rcases hq with rfl | rfl | rfl <;> simp_all
  exact ⟨hsame, poolTable_isMap_iff hsame⟩

/-- `n` keys. -/
def manyKeys (n : Nat) : Keys := (List.range n).map fun i => (BitVec.ofNat 256 i, 1)

theorem entered_of_nodup : ∀ (ps ks : Keys), ((ks ++ ps).map Prod.fst).Nodup →
    (∀ p ∈ ps, p.2 ≠ protoNone) → ps.foldl enter ks = ks ++ ps := by
  intro ps
  induction ps with
  | nil => exact fun ks _ _ => (List.append_nil ks).symm
  | cons p ps ih =>
    intro ks hnodup hps
    have hnew : p.1 ∉ ks.map Prod.fst := by
      rw [List.map_append, List.map_cons, List.nodup_middle, List.nodup_cons] at hnodup
      exact fun hmem => hnodup.1 (List.mem_append_left _ hmem)
    have hp := hps p List.mem_cons_self
    rw [List.foldl_cons, enter, if_neg (not_or.mpr ⟨hp, hnew⟩),
      ih (ks ++ [p]) (by rwa [← List.append_cons]) fun q hq => hps q (List.mem_cons_of_mem p hq),
      ← List.append_cons]

theorem entered_manyKeys {n : Nat} (hn : n ≤ 2 ^ 256) : entered (manyKeys n) = manyKeys n := by
  refine entered_of_nodup (manyKeys n) [] ?_ ?_
  · rw [List.nil_append, manyKeys, List.map_map]
    refine List.Nodup.map_on ?_ List.nodup_range
    intro i hi j hj hij
    have hmod := congrArg BitVec.toNat hij
    rw [List.mem_range] at hi hj
    simp only [Function.comp_apply, BitVec.toNat_ofNat] at hmod
    rwa [Nat.mod_eq_of_lt (Nat.lt_of_lt_of_le hi hn),
      Nat.mod_eq_of_lt (Nat.lt_of_lt_of_le hj hn)] at hmod
  · intro p hp
    obtain ⟨i, -, rfl⟩ := List.mem_map.mp hp
    show (1 : UInt8) ≠ 0
    decide

theorem manyKeys_succ (n : Nat) : manyKeys (n + 1) = manyKeys n ++ [(BitVec.ofNat 256 n, 1)] := by
  rw [manyKeys, List.range_succ, List.map_append]
  rfl

/-- 2³⁰ keys go in, and the next put does not end. -/
theorem poolTable_not_isMap :
    ¬ ∀ (minCap : UInt32) (ps : Keys), Consistent ps → IsMap minCap ps := by
  intro h
  have hsame : Consistent (manyKeys (2 ^ 30 + 1)) := by
    intro p hp q hq _
    obtain ⟨i, -, rfl⟩ := List.mem_map.mp hp
    obtain ⟨j, -, rfl⟩ := List.mem_map.mp hq
    rfl
  have hrooms : (entered (manyKeys (2 ^ 30))).length < 2 ^ 30 :=
    (h 8 _ hsame).rooms hsame (manyKeys (2 ^ 30)) _ [] (manyKeys_succ (2 ^ 30)) (by
      show (1 : UInt8) ≠ 0
      decide)
  have hlen : (manyKeys (2 ^ 30)).length = 2 ^ 30 := by
    rw [manyKeys, List.length_map, List.length_range]
  rw [entered_manyKeys (Nat.pow_le_pow_right (by decide) (by decide)), hlen] at hrooms
  exact Nat.lt_irrefl _ hrooms

end ShredArb.Pools
