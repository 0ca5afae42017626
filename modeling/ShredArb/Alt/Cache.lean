/-
  ShredArb.Alt.Cache — the cache of address lookup tables
  (`arb-core/src/alt_cache.c`, `arb-core/include/alt_cache.h`).

  A table's entry holds its addresses and the METADATA of the snapshot they
  came from.  A snapshot that contradicts the one before it QUARANTINES the
  entry; `alt_cache_check` answers, for a bank, how many of the addresses may
  be used.

  Conventions:
    • a return of −1 is `none` and leaves the cache as it was; allocation is
      assumed to succeed, and the cache is one `alt_cache_init` has set up,
    • `addr[0 .. n)` is the list `addrs`, and what the array holds beyond `n` is
      never read; a free slot is `none` and has zero flags and metadata,
    • a 32-byte key or hash is a `BitVec 256`, so `memcmp` is equality.

  Main results:
    * `altCachePut_entry`, `altCachePutMeta_entry` — a write is an update of the
      function from keys to entries.
-/
import ShredArb.Univ.Kernel

namespace ShredArb.Alt

open ShredArb.Univ ShredArb.Probe

/-! ## §1. The data model (`alt_cache.h`). -/

abbrev altCacheCap : Nat := 1024
abbrev altAddrMax : Nat := 256
abbrev altPendMax : Nat := 256

abbrev altHasMeta : UInt16 := 1
abbrev altFinalized : UInt16 := 2
abbrev altHasHash : UInt16 := 4
abbrev altQuarantined : UInt16 := 8

abbrev uint64Max : UInt64 := 0xffffffffffffffff

/-- `alt_meta_t`. -/
structure AltMeta where
  observedSlot : UInt64
  lastExtendedSlot : UInt64
  deactivationSlot : UInt64
  startIndex : UInt8
  hasAuthority : UInt8
  reserved : BitVec 48
  observedBankHash : Mint
  authority : Mint
  accountHash : Mint
  receivedUnixNs : UInt64
  deriving DecidableEq, Repr

/-- Metadata after `memset`. -/
def AltMeta.zero : AltMeta := ⟨0, 0, 0, 0, 0, 0, 0, 0, 0, 0⟩

/-- `alt_ent_t` of a slot in use. -/
structure AltEnt where
  pk : Mint
  addrs : List Mint
  flags : UInt16
  metadata : AltMeta
  deriving DecidableEq, Repr

/-- What `alt_cache_put_meta` and `alt_cache_put` let into a slot. -/
structure AltEnt.Valid (e : AltEnt) : Prop where
  addrs : e.addrs.length ≤ altAddrMax
  flags : e.flags &&& ~~~15 = 0
  start : e.metadata.startIndex.toNat ≤ e.addrs.length
  authority : e.metadata.hasAuthority ≤ 1
  slots : e.flags &&& altHasMeta ≠ 0 → e.metadata.lastExtendedSlot ≤ e.metadata.observedSlot ∧
    (e.metadata.deactivationSlot = uint64Max ∨
      e.metadata.deactivationSlot ≤ e.metadata.observedSlot)

/-- `alt_slot_hash_t`. -/
structure AltSlotHash where
  slot : UInt64
  hash : Mint
  deriving DecidableEq, Repr

/-- `alt_bank_t`; `slotHashesNull` is the test of the pointer. -/
structure AltBank where
  slot : UInt64
  bankHash : Mint
  slotHashes : List AltSlotHash
  slotHashesNull : Bool
  slotHashesComplete : Bool
  deriving DecidableEq, Repr

/-- `ALT_VALID` and the refusals. -/
inductive AltStatus where
  | valid
  | missing
  | metaUnknown
  | bankUnproven
  | futureObservation
  | deactivated
  | conflict
  | indexUnavailable
  deriving DecidableEq, Repr

/-- The key of a slot. -/
def entKey (s : Option AltEnt) : Option Mint := s.map AltEnt.pk

theorem entKey_some (e : AltEnt) : entKey (some e) = some e.pk := rfl

/-- The four bytes `h32` reads. -/
def h32 (pk : Mint) : Nat := pk.toNat % 2 ^ 32

/-- `alt_cache_t` as the operations build it. -/
structure AltCache where
  ent : Table entKey h32
  cap : ent.slots.length = altCacheCap
  valid : ∀ e, some e ∈ ent.slots → e.Valid
  n : UInt32
  hit : UInt64
  miss : UInt64
  put : UInt64
  pend : List Mint
  unique : UInt64

/-- `alt_cache_init`. -/
def altCacheInit : AltCache where
  ent := Table.empty altCacheCap none rfl
  cap := List.length_replicate
  valid := by
    intro e he
    exact absurd (List.eq_of_mem_replicate he) (by simp)
  n := 0
  hit := 0
  miss := 0
  put := 0
  pend := []
  unique := 0

/-- `entry`. -/
def entry (c : AltCache) (pk : Mint) : Option AltEnt := (c.ent.find pk).join

/-! ## §2. Writing (`alt_cache_put`, `alt_cache_put_meta`). -/

/-- `conflict`: a snapshot against the one it follows. -/
def conflict (old next : AltEnt) : Bool :=
  if old.flags &&& altQuarantined ≠ 0 then true
  else if old.addrs.take (min old.addrs.length next.addrs.length)
      ≠ next.addrs.take (min old.addrs.length next.addrs.length) then true
  else if old.flags &&& next.flags &&& altHasMeta = 0 then false
  else
    let o := old.metadata
    let n := next.metadata
    decide (next.addrs.length < old.addrs.length)
    || decide (n.lastExtendedSlot < o.lastExtendedSlot)
    || (o.deactivationSlot != uint64Max && o.deactivationSlot != n.deactivationSlot)
    || (n.hasAuthority != 0 && (o.hasAuthority == 0 || o.authority != n.authority))
    || (o.observedSlot == n.observedSlot
      && (o.accountHash != n.accountHash
        || (old.flags &&& next.flags &&& altHasHash != 0
          && o.observedBankHash != n.observedBankHash)))
    || (o.lastExtendedSlot == n.lastExtendedSlot && o.startIndex != n.startIndex)

/-- `e->flags |= ALT_QUARANTINED`. -/
def AltEnt.quarantine (e : AltEnt) : AltEnt := { e with flags := e.flags ||| altQuarantined }

/-- The entry, quarantined when it contradicts the one before it. -/
def AltEnt.after (e : AltEnt) : Option AltEnt → AltEnt
  | none => e
  | some old => if conflict old e then e.quarantine else e

/-- Write the entry of its key; a slot not in use is counted. -/
def AltCache.store (c : AltCache) (e : AltEnt) (he : e.Valid) : Option AltCache :=
  match hs : c.ent.store e.pk (some e) rfl with
  | none => none
  | some ent =>
    let new := (entry c e.pk).isNone
    some { c with
      ent := ent
      cap := (Table.length_store hs).trans c.cap
      valid := by
        intro x hx
        rcases Table.mem_store hs hx with hold | hnew
        · exact c.valid x hold
        · exact Option.some.inj hnew ▸ he
      n := if new then c.n + 1 else c.n
      put := if new then c.put + 1 else c.put }

/-- An entry without metadata. -/
def bareEnt (pk : Mint) (addrs : List Mint) : AltEnt := ⟨pk, addrs, 0, .zero⟩

theorem bareEnt_valid (pk : Mint) {addrs : List Mint} (h : addrs.length ≤ altAddrMax) :
    (bareEnt pk addrs).Valid where
  addrs := h
  flags := show (0 : UInt16) &&& ~~~15 = 0 by decide
  start := Nat.zero_le _
  authority := show (0 : UInt8) ≤ 1 by decide
  slots := fun hm => absurd (show (0 : UInt16) &&& altHasMeta = 0 by decide) hm

/-- `alt_cache_put`: the metadata and the flags are cleared. -/
def altCachePut (c : AltCache) (pk : Mint) (addrs : List Mint) : Option AltCache :=
  if h : addrs.length ≤ altAddrMax then c.store (bareEnt pk addrs) (bareEnt_valid pk h) else none

/-- The argument check of `alt_cache_put_meta`. -/
def metaOk (n : Nat) (md : AltMeta) (flags : UInt16) : Bool :=
  flags &&& ~~~15 == 0 && decide (md.startIndex.toNat ≤ n) && decide (md.hasAuthority ≤ 1)
    && !(flags &&& altHasMeta != 0 && (decide (md.lastExtendedSlot > md.observedSlot)
      || (md.deactivationSlot != uint64Max && decide (md.deactivationSlot > md.observedSlot))))

theorem metaOk_iff {pk : Mint} {addrs : List Mint} {md : AltMeta} {flags : UInt16} :
    (addrs.length ≤ altAddrMax ∧ metaOk addrs.length md flags = true) ↔
      (⟨pk, addrs, flags, md⟩ : AltEnt).Valid := by
  have hslots : (!(flags &&& altHasMeta != 0 && (decide (md.lastExtendedSlot > md.observedSlot)
      || (md.deactivationSlot != uint64Max && decide (md.deactivationSlot > md.observedSlot)))))
        = true ↔ (flags &&& altHasMeta ≠ 0 → md.lastExtendedSlot ≤ md.observedSlot ∧
          (md.deactivationSlot = uint64Max ∨ md.deactivationSlot ≤ md.observedSlot)) := by
    by_cases hm : flags &&& altHasMeta = 0
    · simp [hm]
    · by_cases hd : md.deactivationSlot = uint64Max <;> simp [hm, hd]
  constructor
  · rintro ⟨haddrs, hok⟩
    simp only [metaOk, Bool.and_eq_true, beq_iff_eq, decide_eq_true_eq] at hok
    exact ⟨haddrs, hok.1.1.1, hok.1.1.2, hok.1.2, hslots.mp hok.2⟩
  · rintro ⟨haddrs, hflags, hstart, hauth, hsl⟩
    refine ⟨haddrs, ?_⟩
    simp only [metaOk, Bool.and_eq_true, beq_iff_eq, decide_eq_true_eq]
    exact ⟨⟨⟨hflags, hstart⟩, hauth⟩, hslots.mpr hsl⟩

theorem or_flag_and (f g m : UInt16) : (f ||| g) &&& m = (f &&& m) ||| (g &&& m) := by
  refine UInt16.toBitVec_inj.mp ?_
  exact BitVec.and_or_distrib_right

theorem AltEnt.Valid.quarantine {e : AltEnt} (h : e.Valid) : e.quarantine.Valid where
  addrs := h.addrs
  flags := by
    have hor := or_flag_and e.flags altQuarantined (~~~15)
    rw [h.flags] at hor
    exact hor.trans (by decide)
  start := h.start
  authority := h.authority
  slots := by
    intro hm
    refine h.slots fun h0 => hm ?_
    have hor := or_flag_and e.flags altQuarantined altHasMeta
    rw [h0] at hor
    exact hor.trans (by decide)

/-- Quarantine touches the flags only. -/
theorem AltEnt.after_cases (e : AltEnt) (old : Option AltEnt) :
    e.after old = e ∨ e.after old = e.quarantine := by
  cases old with
  | none => exact Or.inl rfl
  | some old =>
    unfold AltEnt.after
    dsimp only
    split
    · exact Or.inr rfl
    · exact Or.inl rfl

theorem AltEnt.Valid.after {e : AltEnt} (h : e.Valid) (old : Option AltEnt) : (e.after old).Valid := by
  rcases e.after_cases old with hafter | hafter <;> rw [hafter]
  · exact h
  · exact h.quarantine

/-- `alt_cache_put_meta`: `alt_cache_put`, then the metadata and the flags. -/
def altCachePutMeta (c : AltCache) (pk : Mint) (addrs : List Mint) (md : AltMeta)
    (flags : UInt16) : Option AltCache :=
  if hm : metaOk addrs.length md flags = true then
    if hn : addrs.length ≤ altAddrMax then
      (altCachePut c pk addrs).bind fun c1 =>
        c1.store (AltEnt.after ⟨pk, addrs, flags, md⟩ (entry c pk))
          ((metaOk_iff.mp ⟨hn, hm⟩).after _)
    else none
  else none

/-! ## §3. Reading (`alt_cache_check`, `alt_cache_get`, `alt_cache_note_miss`). -/

/-- The loop of `alt_cache_check`: the hashes must descend from the bank;
whether the observed bank and the deactivation slot are among them. -/
def scanHashes (bank : UInt64) (md : AltMeta) :
    (prev : Option UInt64) → (ancestor deactivation : Bool) → List AltSlotHash → Option (Bool × Bool)
  | _, ancestor, deactivation, [] => some (ancestor, deactivation)
  | prev, ancestor, deactivation, s :: ss =>
    if s.slot ≥ bank ∨ prev.any (fun p => decide (p ≤ s.slot)) = true then none
    else scanHashes bank md (some s.slot)
      (ancestor || (s.slot == md.observedSlot && s.hash == md.observedBankHash))
      (deactivation || s.slot == md.deactivationSlot) ss

/-- `alt_cache_check`: the verdict and `active_n`. -/
def altCacheCheck (c : AltCache) (pk : Mint) (bank : Option AltBank) : AltStatus × Nat :=
  match entry c pk with
  | none => (.missing, 0)
  | some e =>
    if e.flags &&& altQuarantined ≠ 0 then (.conflict, 0)
    else if e.flags &&& 7 ≠ 7 then (.metaUnknown, 0)
    else match bank with
    | none => (.bankUnproven, 0)
    | some b =>
      if b.slotHashesComplete = false ∨ (b.slotHashes ≠ [] ∧ b.slotHashesNull = true) then
        (.bankUnproven, 0)
      else if e.metadata.observedSlot > b.slot then (.futureObservation, 0)
      else match scanHashes b.slot e.metadata none
          (e.metadata.observedSlot == b.slot && e.metadata.observedBankHash == b.bankHash) false
          b.slotHashes with
        | none => (.bankUnproven, 0)
        | some (ancestor, deactivation) =>
          if ancestor = false then (.bankUnproven, 0)
          else if e.metadata.deactivationSlot ≠ uint64Max ∧ e.metadata.deactivationSlot ≠ b.slot
              ∧ deactivation = false then (.deactivated, 0)
          else (.valid, if b.slot > e.metadata.lastExtendedSlot then e.addrs.length
            else e.metadata.startIndex.toNat)

/-- `alt_cache_get`: the addresses of a hit; hits and misses are counted. -/
def altCacheGet (c : AltCache) (pk : Mint) : Option (List Mint) × AltCache :=
  match entry c pk with
  | none => (none, { c with miss := c.miss + 1 })
  | some e => (some e.addrs, { c with hit := c.hit + 1 })

/-- `alt_cache_note_miss`: the result code and the cache. -/
def altCacheNoteMiss (c : AltCache) (pk : Mint) : Int × AltCache :=
  let (got, c) := altCacheGet c pk
  if got.isSome then (1, c)
  else if pk ∈ c.pend then (1, c)
  else if c.pend.length ≥ altPendMax then (-1, c)
  else (0, { c with pend := c.pend ++ [pk], unique := c.unique + 1 })

/-! ## §4. The cache as a function. -/

theorem entry_eq_some_iff {c : AltCache} {pk : Mint} {e : AltEnt} :
    entry c pk = some e ↔ some e ∈ c.ent.slots ∧ e.pk = pk := by
  unfold entry
  rw [Option.join_eq_some_iff, Table.find_eq_some_iff]
  refine and_congr_right fun _ => ?_
  exact Option.some_inj

theorem entry_pk {c : AltCache} {pk : Mint} {e : AltEnt} (h : entry c pk = some e) : e.pk = pk :=
  (entry_eq_some_iff.mp h).2

theorem entry_valid {c : AltCache} {pk : Mint} {e : AltEnt} (h : entry c pk = some e) : e.Valid :=
  c.valid e (entry_eq_some_iff.mp h).1

theorem entry_init (pk : Mint) : entry altCacheInit pk = none := by
  cases h : entry altCacheInit pk with
  | none => rfl
  | some e =>
    have hmem := (entry_eq_some_iff.mp h).1
    exact absurd (List.eq_of_mem_replicate hmem) (by simp)

/-- The entry says everything `alt_cache_get` and `alt_cache_check` read. -/
theorem get_eq_of_entry {c c' : AltCache} {k : Mint} (h : entry c' k = entry c k) :
    (altCacheGet c' k).1 = (altCacheGet c k).1 := by
  unfold altCacheGet
  rw [h]
  cases entry c k <;> rfl

theorem check_eq_of_entry {c c' : AltCache} {k : Mint} (h : entry c' k = entry c k)
    (bank : Option AltBank) : altCacheCheck c' k bank = altCacheCheck c k bank := by
  unfold altCacheCheck
  rw [h]

/-- Counting a hit or a miss leaves the entries alone. -/
theorem altCacheGet_entry (c : AltCache) (pk k : Mint) :
    entry (altCacheGet c pk).2 k = entry c k := by
  unfold altCacheGet
  split <;> rfl

/-- What a write to the table leaves behind. -/
theorem store_ent {c c' : AltCache} {e : AltEnt} {he : e.Valid} (h : c.store e he = some c') :
    c.ent.store e.pk (some e) rfl = some c'.ent := by
  unfold AltCache.store at h
  split at h
  · exact absurd h (by simp)
  · rename_i ent hs
    rw [← Option.some.inj h]
    exact hs

theorem entry_store_self {c c' : AltCache} {e : AltEnt} {he : e.Valid}
    (h : c.store e he = some c') : entry c' e.pk = some e := by
  rw [entry, Table.find_store_self (store_ent h)]
  rfl

theorem entry_store_ne {c c' : AltCache} {e : AltEnt} {he : e.Valid} {pk : Mint}
    (h : c.store e he = some c') (hne : pk ≠ e.pk) : entry c' pk = entry c pk := by
  rw [entry, Table.find_store_ne (store_ent h) hne]
  rfl

theorem exists_cacheStore {c : AltCache} {e : AltEnt} (he : e.Valid)
    (h : ∃ ent, c.ent.store e.pk (some e) rfl = some ent) : ∃ c', c.store e he = some c' := by
  obtain ⟨ent, hent⟩ := h
  unfold AltCache.store
  split
  · rename_i hnone
    exact absurd (hnone.symm.trans hent) (by simp)
  · exact ⟨_, rfl⟩

/-- The entry of a key in use can be written again, in its own slot. -/
theorem store_again {c : AltCache} {e e' : AltEnt} (he : e.Valid) (h : entry c e.pk = some e') :
    ∃ c', c.store e he = some c' ∧ c'.ent.used = c.ent.used := by
  have hfind : c.ent.find e.pk = some (some e') := Option.join_eq_some_iff.mp h
  obtain ⟨c', hc'⟩ := exists_cacheStore he (Table.exists_store_of_find (entKey_some e) hfind)
  exact ⟨c', hc', Table.used_store_of_find (store_ent hc') hfind⟩

/-- A cache with a free slot takes every entry. -/
theorem store_new {c : AltCache} {e : AltEnt} (he : e.Valid) (hfree : c.ent.used < altCacheCap) :
    ∃ c', c.store e he = some c' ∧ c'.ent.used ≤ c.ent.used + 1 := by
  have hfree' : c.ent.used < c.ent.slots.length := c.cap.symm ▸ hfree
  obtain ⟨c', hc'⟩ := exists_cacheStore he (Table.exists_store (entKey_some e) hfree')
  exact ⟨c', hc', Table.used_store_le (store_ent hc')⟩

/-- `alt_cache_put` sets the key's entry to the bare addresses. -/
theorem altCachePut_entry {c c' : AltCache} {pk : Mint} {addrs : List Mint}
    (h : altCachePut c pk addrs = some c') (k : Mint) :
    entry c' k = if k = pk then some (bareEnt pk addrs) else entry c k := by
  unfold altCachePut at h
  split at h
  · split
    · rename_i hk
      subst hk
      exact entry_store_self h
    · rename_i hk
      exact entry_store_ne h hk
  · exact absurd h (by simp)

theorem AltEnt.after_pk (e : AltEnt) (old : Option AltEnt) : (e.after old).pk = e.pk := by
  rcases e.after_cases old with h | h
  · rw [h]
  · rw [h]
    rfl

theorem AltEnt.after_addrs (e : AltEnt) (old : Option AltEnt) : (e.after old).addrs = e.addrs := by
  rcases e.after_cases old with h | h
  · rw [h]
  · rw [h]
    rfl

theorem AltEnt.after_metadata (e : AltEnt) (old : Option AltEnt) :
    (e.after old).metadata = e.metadata := by
  rcases e.after_cases old with h | h
  · rw [h]
  · rw [h]
    rfl

/-- `alt_cache_put_meta` sets the key's entry to the snapshot, quarantined when
it contradicts the entry before. -/
theorem altCachePutMeta_entry {c c' : AltCache} {pk : Mint} {addrs : List Mint} {md : AltMeta}
    {flags : UInt16} (h : altCachePutMeta c pk addrs md flags = some c') (k : Mint) :
    entry c' k = if k = pk then some (AltEnt.after ⟨pk, addrs, flags, md⟩ (entry c pk))
      else entry c k := by
  unfold altCachePutMeta at h
  split at h
  · split at h
    · obtain ⟨c1, hput, hst⟩ := Option.bind_eq_some_iff.mp h
      have hpk := AltEnt.after_pk ⟨pk, addrs, flags, md⟩ (entry c pk)
      split
      · rename_i hk
        subst hk
        have hself := entry_store_self hst
        rwa [hpk] at hself
      · rename_i hk
        rw [entry_store_ne hst (by rwa [hpk]), altCachePut_entry hput k, if_neg hk]
    · exact absurd h (by simp)
  · exact absurd h (by simp)

/-- `alt_cache_put_meta` of valid arguments succeeds when its `alt_cache_put` does. -/
theorem exists_putMeta_of_put {c c1 : AltCache} {e : AltEnt} (he : e.Valid)
    (hput : altCachePut c e.pk e.addrs = some c1) :
    ∃ c', altCachePutMeta c e.pk e.addrs e.metadata e.flags = some c' ∧
      c'.ent.used = c1.ent.used := by
  obtain ⟨hn, hm⟩ := metaOk_iff.mpr (show (⟨e.pk, e.addrs, e.flags, e.metadata⟩ : AltEnt).Valid from he)
  have hbare : entry c1 e.pk = some (bareEnt e.pk e.addrs) := by
    rw [altCachePut_entry hput, if_pos rfl]
  have hpk : (e.after (entry c e.pk)).pk = e.pk := AltEnt.after_pk e _
  obtain ⟨c2, hst, hused⟩ := store_again (he.after (entry c e.pk)) (hpk.symm ▸ hbare)
  refine ⟨c2, ?_, hused⟩
  rw [altCachePutMeta, dif_pos hm, dif_pos hn, hput, Option.bind_some]
  exact hst

/-- While a slot is free, `alt_cache_put_meta` of valid arguments succeeds. -/
theorem exists_putMeta {c : AltCache} {e : AltEnt} (he : e.Valid)
    (hfree : c.ent.used < altCacheCap) :
    ∃ c', altCachePutMeta c e.pk e.addrs e.metadata e.flags = some c' ∧
      c'.ent.used ≤ c.ent.used + 1 := by
  obtain ⟨c1, hst, hused⟩ := store_new (bareEnt_valid e.pk he.addrs) hfree
  have hput : altCachePut c e.pk e.addrs = some c1 := by
    rw [altCachePut, dif_pos he.addrs]
    exact hst
  obtain ⟨c2, hc2, hused2⟩ := exists_putMeta_of_put he hput
  exact ⟨c2, hc2, hused2.trans_le hused⟩

end ShredArb.Alt
