/-
  ShredArb.Alt.Persist — the cache on disk (`alt_cache_save`, `alt_cache_load`
  of `arb-core/src/alt_cache.c`).

  A file is a magic, a count, and that many records.  Loading fills a FRESH
  cache, each record through `alt_cache_put_meta` and then against the live
  cache's own entry, and replaces the live cache only when every byte of the
  file was taken.

  Conventions:
    • a file is its bytes; the calls to open, write and close it succeed,
    • the result code of a load comes with the cache it leaves.

  Main results:
    * `loadEnts_reads` — the records of a save are read back, one by one,
    * `altCache_persists` — loading a save gives the cache that was saved, and a
      load that fails leaves the cache as it was.
-/
import ShredArb.Alt.Cache
import ShredArb.Tx.Wire
import Mathlib.Data.List.ReduceOption

namespace ShredArb.Alt

open ShredArb.Univ ShredArb.Probe ShredArb.Bytes ShredArb.Parse ShredArb.Tx

/-! ## §1. The format. -/

abbrev altMagic : Nat := 0x31544c41
abbrev altMagicV2 : Nat := 0x32544c41

/-- The 136 bytes of `alt_meta_t`. -/
def metaBytes (md : AltMeta) : List UInt8 :=
  u64le md.observedSlot ++ (u64le md.lastExtendedSlot ++ (u64le md.deactivationSlot ++
    ([md.startIndex] ++ ([md.hasAuthority] ++ (leBytes 6 md.reserved.toNat ++
      (keyBytes md.observedBankHash ++ (keyBytes md.authority ++ (keyBytes md.accountHash ++
        u64le md.receivedUnixNs))))))))

/-- A record of version 2. -/
def entBytes (e : AltEnt) : List UInt8 :=
  keyBytes e.pk ++ (leBytes 2 e.addrs.length ++ ((leBytes 2 e.flags.toNat ++ metaBytes e.metadata) ++
    e.addrs.flatMap keyBytes))

/-- The slots in use, in slot order. -/
def AltCache.ents (c : AltCache) : List AltEnt := c.ent.slots.reduceOption

/-- `alt_cache_save`. -/
def altCacheSave (c : AltCache) : List UInt8 :=
  leBytes 4 altMagicV2 ++ (leBytes 4 c.ents.length ++ c.ents.flatMap entBytes)

/-- A little-endian number of `k` bytes. -/
def word (k : Nat) : Parser Nat := andThen (exactly k) fun bs => done (leNat bs)

def readU64 : Parser UInt64 := andThen (exactly 8) fun bs => done (loadU64 bs)

def readMeta : Parser AltMeta :=
  andThen readU64 fun observedSlot => andThen readU64 fun lastExtendedSlot =>
  andThen readU64 fun deactivationSlot => andThen byte fun startIndex =>
  andThen byte fun hasAuthority => andThen (word 6) fun reserved =>
  andThen key fun observedBankHash => andThen key fun authority => andThen key fun accountHash =>
  andThen readU64 fun receivedUnixNs =>
    done ⟨observedSlot, lastExtendedSlot, deactivationSlot, startIndex, hasAuthority,
      BitVec.ofNat 48 reserved, observedBankHash, authority, accountHash, receivedUnixNs⟩

/-- What a record of version 2 has over one of version 1. -/
def readFlags (v2 : Bool) : Parser (UInt16 × AltMeta) :=
  if v2 then andThen (word 2) fun flags => andThen readMeta fun md => done (UInt16.ofNat flags, md)
  else done (0, .zero)

/-- One record. -/
def readEnt (v2 : Bool) : Parser AltEnt :=
  andThen key fun pk => andThen (word 2) fun an =>
    if an > altAddrMax then fail
    else andThen (readFlags v2) fun fm => andThen (times key an) fun addrs =>
      done ⟨pk, addrs, fm.1, fm.2⟩

/-! ## §2. Loading. -/

/-- A record into the fresh cache `next`: refused when its key is there
already, and quarantined when it contradicts the live cache's entry. -/
def stageEntry (c next : AltCache) (e : AltEnt) : Option AltCache :=
  if (entry next e.pk).isSome then none
  else
    (altCachePutMeta next e.pk e.addrs e.metadata e.flags).bind fun next1 =>
      match h : entry next1 e.pk with
      | none => none
      | some e1 => next1.store (e1.after (entry c e.pk)) ((entry_valid h).after _)

/-- The loop over the records. -/
def loadEnts (c : AltCache) (v2 : Bool) : Nat → AltCache → Parser AltCache
  | 0, next => done next
  | n + 1, next => andThen (readEnt v2) fun e =>
      match stageEntry c next e with
      | none => fail
      | some next1 => loadEnts c v2 n next1

/-- The file up to its last record. -/
def loadFile (c : AltCache) : Parser AltCache :=
  andThen (word 4) fun magic =>
    if magic ≠ altMagic ∧ magic ≠ altMagicV2 then fail
    else andThen (word 4) fun n =>
      if n > altCacheCap then fail
      else loadEnts c (magic == altMagicV2) n altCacheInit

/-- `alt_cache_load`: the result code and the cache. -/
def altCacheLoad (c : AltCache) (file : List UInt8) : Int × AltCache :=
  match whole (loadFile c) file with
  | none => (-1, c)
  | some next => (0, { next with hit := c.hit, miss := c.miss })

/-! ## §3. Reading back. -/

theorem reads_word {k n : Nat} (h : n < 256 ^ k) : Reads (word k) (leBytes k n) n := by
  have hread := (reads_exactly (length_leBytes k n)).map (g := leNat)
  rwa [leNat_leBytes, Nat.mod_eq_of_lt h] at hread

theorem reads_u64 (x : UInt64) : Reads readU64 (u64le x) x := by
  have hread := (reads_exactly (length_u64le x)).map (g := loadU64)
  rwa [loadU64_u64le] at hread

theorem reads_meta (md : AltMeta) : Reads readMeta (metaBytes md) md := by
  have hres : md.reserved.toNat < 256 ^ 6 := Nat.lt_of_lt_of_eq md.reserved.isLt (by decide)
  have hword : BitVec.ofNat 48 md.reserved.toNat = md.reserved := by
    rw [BitVec.ofNat_toNat, BitVec.setWidth_eq]
  unfold readMeta metaBytes
  refine (reads_u64 md.observedSlot).andThen ?_
  refine (reads_u64 md.lastExtendedSlot).andThen ?_
  refine (reads_u64 md.deactivationSlot).andThen ?_
  refine (reads_byte md.startIndex).andThen ?_
  refine (reads_byte md.hasAuthority).andThen ?_
  refine (reads_word hres).andThen ?_
  refine (reads_key md.observedBankHash).andThen ?_
  refine (reads_key md.authority).andThen ?_
  refine (reads_key md.accountHash).andThen ?_
  rw [hword]
  exact (reads_u64 md.receivedUnixNs).map

theorem reads_flags (e : AltEnt) :
    Reads (readFlags true) (leBytes 2 e.flags.toNat ++ metaBytes e.metadata) (e.flags, e.metadata) := by
  have hflags : e.flags.toNat < 256 ^ 2 := Nat.lt_of_lt_of_eq e.flags.toNat_lt (by decide)
  have hword : UInt16.ofNat e.flags.toNat = e.flags := UInt16.ofNat_toNat
  rw [readFlags, if_pos rfl]
  refine (reads_word hflags).andThen ?_
  rw [hword]
  exact (reads_meta e.metadata).map

theorem reads_ent {e : AltEnt} (he : e.Valid) : Reads (readEnt true) (entBytes e) e := by
  have hn : e.addrs.length < 256 ^ 2 := Nat.lt_of_le_of_lt he.addrs (by decide)
  unfold readEnt entBytes
  refine (reads_key e.pk).andThen ?_
  refine (reads_word hn).andThen ?_
  rw [if_neg (Nat.not_lt.mpr he.addrs)]
  refine (reads_flags e).andThen ?_
  exact (reads_times e.addrs fun k _ => reads_key k).map

/-- A record let in becomes its key's entry, after the live cache's own. -/
theorem stageEntry_entry {c next next1 : AltCache} {e : AltEnt} (h : stageEntry c next e = some next1)
    (k : Mint) :
    entry next1 k = if k = e.pk then some (e.after (entry c e.pk)) else entry next k := by
  unfold stageEntry at h
  split at h
  · exact absurd h (by simp)
  · rename_i hnew
    have hnone : entry next e.pk = none := by simpa using hnew
    obtain ⟨n1, hput, hst⟩ := Option.bind_eq_some_iff.mp h
    have hview := altCachePutMeta_entry hput
    rw [hnone] at hview
    split at hst
    · exact absurd hst (by simp)
    · rename_i e1 h1
      obtain rfl : e = e1 := by
        rw [hview, if_pos rfl] at h1
        exact Option.some.inj h1
      have hpk : (e.after (entry c e.pk)).pk = e.pk := AltEnt.after_pk e _
      split
      · rename_i hk
        subst hk
        have hfin := entry_store_self hst
        rwa [hpk] at hfin
      · rename_i hk
        rw [entry_store_ne hst (hpk.symm ▸ hk), hview, if_neg hk]

/-- A record of a new key is let in while a slot is free. -/
theorem exists_stageEntry (c : AltCache) {next : AltCache} {e : AltEnt} (he : e.Valid)
    (hnew : entry next e.pk = none) (hfree : next.ent.used < altCacheCap) :
    ∃ next1, stageEntry c next e = some next1 ∧ next1.ent.used ≤ next.ent.used + 1 := by
  obtain ⟨n1, hput, hused⟩ := exists_putMeta he hfree
  have hself : entry n1 e.pk = some e := by
    rw [altCachePutMeta_entry hput, if_pos rfl, hnew]
    rfl
  have hpk : (e.after (entry c e.pk)).pk = e.pk := AltEnt.after_pk e _
  obtain ⟨n2, hst, hused2⟩ := store_again (he.after (entry c e.pk)) (hpk.symm ▸ hself)
  refine ⟨n2, ?_, hused2.trans_le hused⟩
  rw [stageEntry, hnew, Option.isSome_none, if_neg (by simp), hput, Option.bind_some]
  split
  · rename_i hnone
    exact absurd (hself.symm.trans hnone) (by simp)
  · rename_i e1 h1
    obtain rfl : e = e1 := Option.some.inj (hself.symm.trans h1)
    exact hst

/-- **The records of a save are read back**, whatever follows them: the fresh
cache then holds what it held and the records. -/
theorem loadEnts_reads (c : AltCache) : ∀ (es : List AltEnt) (next : AltCache),
    (es.map AltEnt.pk).Nodup → (∀ e ∈ es, e.Valid) → (∀ e ∈ es, entry next e.pk = none) →
    (∀ e ∈ es, e.after (entry c e.pk) = e) → next.ent.used + es.length ≤ altCacheCap →
    ∃ next1, Reads (loadEnts c true es.length next) (es.flatMap entBytes) next1 ∧
      ∀ k e, entry next1 k = some e ↔ (e ∈ es ∧ e.pk = k) ∨ entry next k = some e := by
  intro es
  induction es with
  | nil =>
    intro next _ _ _ _ _
    exact ⟨next, reads_done next, fun k e => by simp⟩
  | cons x xs ih =>
    intro next hnodup hvalid hfresh hold hroom
    obtain ⟨hx, hxs⟩ := List.nodup_cons.mp hnodup
    rw [List.length_cons] at hroom
    obtain ⟨n1, hstaged, hused⟩ := exists_stageEntry c (hvalid x List.mem_cons_self)
      (hfresh x List.mem_cons_self) (by omega)
    have hview := stageEntry_entry hstaged
    rw [hold x List.mem_cons_self] at hview
    -- the other records' keys are still free
    have hfresh1 : ∀ e ∈ xs, entry n1 e.pk = none := by
      intro e he
      have hne : e.pk ≠ x.pk := fun h => hx (h ▸ List.mem_map_of_mem he)
      rw [hview, if_neg hne]
      exact hfresh e (List.mem_cons_of_mem _ he)
    obtain ⟨n2, hreads, hentry⟩ := ih n1 hxs (fun e he => hvalid e (List.mem_cons_of_mem _ he)) hfresh1
      (fun e he => hold e (List.mem_cons_of_mem _ he)) (by omega)
    refine ⟨n2, ?_, fun k e => ?_⟩
    · rw [List.flatMap_cons]
      refine (reads_ent (hvalid x List.mem_cons_self)).andThen ?_
      rw [hstaged]
      exact hreads
    · rw [hentry, hview]
      by_cases hk : k = x.pk
      · subst hk
        rw [if_pos rfl, hfresh x List.mem_cons_self]
        constructor
        · rintro (⟨he, hpk⟩ | hself)
          · exact Or.inl ⟨List.mem_cons_of_mem _ he, hpk⟩
          · exact Or.inl ⟨Option.some.inj hself ▸ List.mem_cons_self, by rw [← Option.some.inj hself]⟩
        · rintro (⟨he, hpk⟩ | hnone)
          · rcases List.mem_cons.mp he with rfl | he
            · exact Or.inr rfl
            · exact Or.inl ⟨he, hpk⟩
          · exact absurd hnone (by simp)
      · rw [if_neg hk]
        refine or_congr_left ⟨fun h => ⟨List.mem_cons_of_mem _ h.1, h.2⟩, ?_⟩
        rintro ⟨he, hpk⟩
        rcases List.mem_cons.mp he with rfl | he
        · exact absurd hpk.symm hk
        · exact ⟨he, hpk⟩

/-- A load that fails leaves the cache as it was. -/
theorem load_failed {t : AltCache} {file : List UInt8} (h : (altCacheLoad t file).1 ≠ 0) :
    altCacheLoad t file = (-1, t) := by
  unfold altCacheLoad at h ⊢
  cases hf : whole (loadFile t) file with
  | none => rfl
  | some next =>
    rw [hf] at h
    exact absurd rfl h

/-- What the loop keeps at every record, it keeps to the end. -/
theorem loadEnts_inv {c : AltCache} {v2 : Bool} {P : AltCache → Prop}
    (hstep : ∀ next e next1, stageEntry c next e = some next1 → P next → P next1) :
    ∀ (n : Nat) (next : AltCache) {bs rest : List UInt8} {r : AltCache}, P next →
      loadEnts c v2 n next bs = some (r, rest) → P r := by
  intro n
  induction n with
  | zero =>
    intro next bs rest r hP h
    exact (Prod.mk.inj (Option.some.inj h)).1 ▸ hP
  | succ n ih =>
    intro next bs rest r hP h
    obtain ⟨e, mid, -, hmid⟩ := andThen_eq_some.mp h
    cases hstaged : stageEntry c next e with
    | none =>
      simp only [hstaged] at hmid
      exact absurd hmid (by simp [fail])
    | some next1 =>
      simp only [hstaged] at hmid
      exact ih next1 (hstep next e next1 hstaged hP) hmid

/-- Every entry a load brings in is a record, after the live cache's entry. -/
theorem load_entry {c c' : AltCache} {file : List UInt8} (h : altCacheLoad c file = (0, c'))
    {k : Mint} {e : AltEnt} (he : entry c' k = some e) : ∃ x : AltEnt, e = x.after (entry c k) := by
  unfold altCacheLoad at h
  split at h
  · exact absurd (congrArg Prod.fst h) (by simp)
  · rename_i next hnext
    obtain ⟨r, hr, hrest⟩ := Option.bind_eq_some_iff.mp hnext
    split at hrest
    · obtain ⟨magic, bs1, -, h1⟩ := andThen_eq_some.mp hr
      split at h1
      · exact absurd h1 (by simp [fail])
      · obtain ⟨n, bs2, -, h2⟩ := andThen_eq_some.mp h1
        split at h2
        · exact absurd h2 (by simp [fail])
        · have hP := loadEnts_inv (c := c)
            (P := fun next => ∀ k e, entry next k = some e → ∃ x : AltEnt, e = x.after (entry c k))
            (fun next x next1 hstaged hP k e hk => by
              rw [stageEntry_entry hstaged] at hk
              split at hk
              · rename_i hkx
                subst hkx
                exact ⟨x, (Option.some.inj hk).symm⟩
              · exact hP k e hk)
            n altCacheInit (fun k e hk => absurd (hk.symm.trans (entry_init k)) (by simp)) h2
          have hview : entry next k = entry c' k := by
            rw [← (Prod.mk.inj h).2]
            rfl
          refine hP k e ?_
          rw [Option.some.inj hrest, hview, he]
    · exact absurd hrest (by simp)

/-! ## §4. Round trips. -/

theorem mem_ents {c : AltCache} {e : AltEnt} : e ∈ c.ents ↔ entry c e.pk = some e := by
  rw [entry_eq_some_iff, AltCache.ents, List.reduceOption_mem_iff]
  exact ⟨fun h => ⟨h, rfl⟩, fun h => h.1⟩

theorem ents_nodup (c : AltCache) : (c.ents.map AltEnt.pk).Nodup := by
  have h := c.ent.keys_nodup
  have heq : c.ent.slots.filterMap entKey = c.ents.map AltEnt.pk := by
    rw [AltCache.ents, List.reduceOption, List.map_filterMap]
    rfl
  rwa [heq] at h

theorem length_ents_le (c : AltCache) : c.ents.length ≤ altCacheCap := by
  rw [← c.cap]
  exact List.reduceOption_length_le _

/-- A flag that is set stays as it is when set again. -/
theorem or_quarantined {f : UInt16} (h : f &&& altQuarantined ≠ 0) : f ||| altQuarantined = f := by
  have hmask : ∀ i, altQuarantined.toNat.testBit i = decide (3 = i) := by
    intro i
    rw [show altQuarantined.toNat = 2 ^ 3 from rfl, Nat.testBit_two_pow]
  have hbit : f.toNat.testBit 3 = true := by
    by_contra hclear
    refine h (UInt16.toNat_inj.mp (Nat.eq_of_testBit_eq fun i => ?_))
    rw [UInt16.toNat_and, Nat.testBit_and, hmask]
    by_cases hi : 3 = i
    · subst hi
      rw [Bool.eq_false_of_not_eq_true hclear, Bool.false_and]
      rfl
    · simp [hi]
  refine UInt16.toNat_inj.mp (Nat.eq_of_testBit_eq fun i => ?_)
  rw [UInt16.toNat_or, Nat.testBit_or, hmask]
  by_cases hi : 3 = i
  · subst hi
    rw [hbit, Bool.true_or]
  · rw [decide_eq_false hi, Bool.or_false]

/-- An entry does not contradict itself. -/
theorem conflict_self {e : AltEnt} (hq : e.flags &&& altQuarantined = 0) : conflict e e = false := by
  simp [conflict, hq]

theorem after_self (e : AltEnt) : e.after (some e) = e := by
  unfold AltEnt.after
  dsimp only
  by_cases hq : e.flags &&& altQuarantined = 0
  · rw [conflict_self hq, if_neg (by simp)]
  · split
    · rw [AltEnt.quarantine, or_quarantined hq]
    · rfl

/-- Loading a save into a cache that contradicts none of its records. -/
theorem load_save {c t : AltCache} (hold : ∀ e ∈ c.ents, e.after (entry t e.pk) = e) :
    ∃ c', altCacheLoad t (altCacheSave c) = (0, c') ∧ ∀ k, entry c' k = entry c k := by
  have hinit : ∀ e ∈ c.ents, entry altCacheInit e.pk = none := fun e _ => entry_init e.pk
  have hused : altCacheInit.ent.used = 0 := by
    refine List.countP_eq_zero.mpr fun s hs => ?_
    rw [List.eq_of_mem_replicate hs]
    exact Bool.false_ne_true
  have hlen := length_ents_le c
  obtain ⟨next, hreads, hview⟩ := loadEnts_reads t c.ents altCacheInit (ents_nodup c)
    (fun e he => entry_valid (mem_ents.mp he)) hinit hold (by omega)
  have hfile : Reads (loadFile t) (altCacheSave c) next := by
    unfold loadFile altCacheSave
    refine (reads_word (by decide)).andThen ?_
    rw [if_neg (by decide)]
    refine (reads_word (Nat.lt_of_le_of_lt hlen (by decide))).andThen ?_
    rw [if_neg (by omega)]
    exact hreads
  refine ⟨{ next with hit := t.hit, miss := t.miss }, ?_, fun k => Option.ext fun e => ?_⟩
  · rw [altCacheLoad, hfile.whole]
  · have hnext := hview k e
    rw [entry_init] at hnext
    refine hnext.trans ⟨?_, fun h => ?_⟩
    · rintro (⟨he, rfl⟩ | hnone)
      · exact mem_ents.mp he
      · exact absurd hnone (by simp)
    · have hpk := entry_pk h
      subst hpk
      exact Or.inl ⟨mem_ents.mpr h, rfl⟩

/-! ## §5. Files cut short. -/

theorem extends_byte : Extends byte := by
  intro bs x rest h t
  cases bs with
  | nil => exact absurd h (by simp [byte])
  | cons b bs =>
    obtain ⟨rfl, rfl⟩ := Prod.mk.inj (Option.some.inj h)
    rfl

theorem extends_word (k : Nat) : Extends (word k) :=
  (extends_exactly k).andThen fun _ => extends_done _

theorem extends_u64 : Extends readU64 := (extends_exactly 8).andThen fun _ => extends_done _

theorem extends_key : Extends key := (extends_exactly 32).andThen fun _ => extends_done _

theorem extends_meta : Extends readMeta :=
  extends_u64.andThen fun _ => extends_u64.andThen fun _ => extends_u64.andThen fun _ =>
  extends_byte.andThen fun _ => extends_byte.andThen fun _ => (extends_word 6).andThen fun _ =>
  extends_key.andThen fun _ => extends_key.andThen fun _ => extends_key.andThen fun _ =>
  extends_u64.andThen fun _ => extends_done _

theorem extends_flags (v2 : Bool) : Extends (readFlags v2) := by
  cases v2 with
  | false => exact extends_done _
  | true =>
    rw [readFlags, if_pos rfl]
    exact (extends_word 2).andThen fun _ => extends_meta.andThen fun _ => extends_done _

theorem extends_ent (v2 : Bool) : Extends (readEnt v2) := by
  refine extends_key.andThen fun _ => (extends_word 2).andThen fun an => ?_
  split
  · exact extends_fail
  · exact (extends_flags v2).andThen fun _ => (extends_key.times an).andThen fun _ => extends_done _

theorem extends_loadEnts (c : AltCache) (v2 : Bool) : ∀ n next, Extends (loadEnts c v2 n next) := by
  intro n
  induction n with
  | zero =>
    intro next
    exact extends_done next
  | succ n ih =>
    intro next
    refine (extends_ent v2).andThen fun e => ?_
    split
    · exact extends_fail
    · exact ih _

theorem extends_loadFile (c : AltCache) : Extends (loadFile c) := by
  refine (extends_word 4).andThen fun magic => ?_
  split
  · exact extends_fail
  · refine (extends_word 4).andThen fun n => ?_
    split
    · exact extends_fail
    · exact extends_loadEnts c _ n altCacheInit

/-- A file that is cut short of one that loads does not load. -/
theorem load_cut {c : AltCache} {file t : List UInt8} (h : (altCacheLoad c (file ++ t)).1 = 0)
    (ht : t ≠ []) : (altCacheLoad c file).1 = -1 := by
  unfold altCacheLoad at h ⊢
  cases hlong : whole (loadFile c) (file ++ t) with
  | none =>
    rw [hlong] at h
    exact absurd h (by simp)
  | some next =>
    rw [(extends_loadFile c).cut hlong ht]

/-! ## §6. Persistence. -/

/-- An entry with the quarantine flag. -/
def Quarantined (c : AltCache) (k : Mint) : Prop :=
  ∃ e, entry c k = some e ∧ e.flags &&& altQuarantined ≠ 0

/-- **Saving and loading**: a cache that is loaded with the save of `c`, when it is
empty or `c` itself, answers like `c` for every key and every bank, with nothing
newly quarantined; a load that fails leaves the cache as it was, and every file
that loads fails when it is cut short. -/
theorem altCache_persists (c : AltCache) :
    (∀ t : AltCache, (∀ k, entry t k = none) ∨ t = c →
      ∃ c', altCacheLoad t (altCacheSave c) = (0, c') ∧
        ∀ k, (altCacheGet c' k).1 = (altCacheGet c k).1 ∧
          (∀ bank, altCacheCheck c' k bank = altCacheCheck c k bank) ∧
          (Quarantined c' k ↔ Quarantined c k)) ∧
    (∀ (t : AltCache) (file : List UInt8),
      (altCacheLoad t file).1 ≠ 0 → altCacheLoad t file = (-1, t)) ∧
    (∀ (t : AltCache) (file : List UInt8) (cut : Nat), (altCacheLoad t file).1 = 0 →
      cut < file.length → altCacheLoad t (file.take cut) = (-1, t)) := by
  refine ⟨fun t ht => ?_, fun t file => load_failed, fun t file cut hload hcut => ?_⟩
  · have hold : ∀ e ∈ c.ents, e.after (entry t e.pk) = e := by
      intro e he
      rcases ht with hempty | rfl
      · rw [hempty]
        rfl
      · rw [mem_ents.mp he]
        exact after_self e
    obtain ⟨c', hload, hview⟩ := load_save hold
    refine ⟨c', hload, fun k => ⟨get_eq_of_entry (hview k), check_eq_of_entry (hview k), ?_⟩⟩
    unfold Quarantined
    rw [hview k]
  · rw [← List.take_append_drop cut file] at hload
    have hrest : file.drop cut ≠ [] := by
      rw [ne_eq, List.drop_eq_nil_iff]
      omega
    refine load_failed ?_
    rw [load_cut hload hrest]
    decide

end ShredArb.Alt
