/-
  ShredArb.Alt.Quarantine — what becomes of a quarantined entry
  (`alt_cache_put`, `alt_cache_put_meta` and `alt_cache_load` of
  `arb-core/src/alt_cache.c`).

  `alt_cache_put_meta` and `alt_cache_load` hold what they write against the
  entry they replace, and `conflict` with a quarantined entry is a conflict:
  the flag stays.  `alt_cache_put` CLEARS the flags without looking, and the
  next snapshot starts afresh.

  Main results:
    * `quarantine_sticky` — without an `alt_cache_put` of its key, a quarantined
      entry is never valid again,
    * `quarantine_lifted` — after one, a single snapshot makes it valid.
-/
import ShredArb.Alt.Persist

namespace ShredArb.Alt

open ShredArb.Univ

/-! ## §1. Runs. -/

/-- A write to the cache. -/
inductive AltOp where
  | put (pk : Mint) (addrs : List Mint)
  | putMeta (pk : Mint) (addrs : List Mint) (md : AltMeta) (flags : UInt16)
  | load (file : List UInt8)

/-- The cache after a write; one that fails changes nothing. -/
def altStep (c : AltCache) : AltOp → AltCache
  | .put pk addrs => (altCachePut c pk addrs).getD c
  | .putMeta pk addrs md flags => (altCachePutMeta c pk addrs md flags).getD c
  | .load file => (altCacheLoad c file).2

/-- The cache after a run. -/
def altRun (c : AltCache) (ops : List AltOp) : AltCache := ops.foldl altStep c

/-- `P` holds of every cache of the run, the first and the last included. -/
def Throughout (P : AltCache → Prop) : AltCache → List AltOp → Prop
  | c, [] => P c
  | c, op :: ops => P c ∧ Throughout P (altStep c op) ops

theorem Throughout.head {P : AltCache → Prop} {c : AltCache} {ops : List AltOp}
    (h : Throughout P c ops) : P c := by
  cases ops with
  | nil => exact h
  | cons op ops => exact h.1

/-- The key has an entry. -/
def HasKey (k : Mint) (c : AltCache) : Prop := (entry c k).isSome = true

/-- `alt_cache_check` answers `ALT_VALID` in no bank. -/
def NeverValid (k : Mint) (c : AltCache) : Prop := ∀ bank, (altCacheCheck c k bank).1 ≠ .valid

/-- An `alt_cache_put` of the key that passes the argument check. -/
def AltOp.Resets (k : Mint) : AltOp → Prop
  | .put pk addrs => pk = k ∧ addrs.length ≤ altAddrMax
  | _ => False

/-! ## §2. One write. -/

/-- Whatever follows a quarantined entry is quarantined. -/
theorem after_quarantined {old : AltEnt} (hq : old.flags &&& altQuarantined ≠ 0) (x : AltEnt) :
    (x.after (some old)).flags &&& altQuarantined ≠ 0 := by
  have hconf : conflict old x = true := by
    unfold conflict
    rw [if_pos hq]
  have hafter : x.after (some old) = x.quarantine := by
    unfold AltEnt.after
    dsimp only
    rw [if_pos hconf]
  rw [hafter]
  show (x.flags ||| altQuarantined) &&& altQuarantined ≠ 0
  intro h0
  have hself : altQuarantined &&& altQuarantined = 0 := by
    rw [or_flag_and] at h0
    exact (UInt16.or_eq_zero_iff.mp h0).2
  exact absurd hself (by decide)

theorem quarantined_of_entry {c c' : AltCache} {k : Mint} (h : Quarantined c k)
    (he : entry c' k = entry c k) : Quarantined c' k := by
  obtain ⟨e, hk, hq⟩ := h
  exact ⟨e, he.trans hk, hq⟩

theorem altStep_put {c : AltCache} {k pk : Mint} {addrs : List Mint} (hq : Quarantined c k)
    (hno : ¬ (AltOp.put pk addrs).Resets k) : Quarantined (altStep c (.put pk addrs)) k := by
  refine quarantined_of_entry hq ?_
  show entry ((altCachePut c pk addrs).getD c) k = entry c k
  cases hput : altCachePut c pk addrs with
  | none => rfl
  | some c' =>
    have hn : addrs.length ≤ altAddrMax := by
      unfold altCachePut at hput
      split at hput
      · assumption
      · exact absurd hput (by simp)
    have hne : k ≠ pk := fun hk => hno ⟨hk.symm, hn⟩
    rw [Option.getD_some, altCachePut_entry hput, if_neg hne]

theorem altStep_putMeta {c : AltCache} {k pk : Mint} {addrs : List Mint} {md : AltMeta}
    {flags : UInt16} (hq : Quarantined c k) :
    Quarantined (altStep c (.putMeta pk addrs md flags)) k := by
  show Quarantined ((altCachePutMeta c pk addrs md flags).getD c) k
  cases hput : altCachePutMeta c pk addrs md flags with
  | none => exact hq
  | some c' =>
    have hview := altCachePutMeta_entry hput k
    by_cases hk : k = pk
    · subst hk
      obtain ⟨old, hold, hflag⟩ := hq
      rw [if_pos rfl, hold] at hview
      exact ⟨_, hview, after_quarantined hflag _⟩
    · rw [if_neg hk] at hview
      exact quarantined_of_entry hq hview

theorem altStep_load {c : AltCache} {k : Mint} {file : List UInt8} (hq : Quarantined c k)
    (hkeep : HasKey k (altStep c (.load file))) : Quarantined (altStep c (.load file)) k := by
  obtain ⟨e, he⟩ := Option.isSome_iff_exists.mp hkeep
  by_cases hload : (altCacheLoad c file).1 = 0
  · obtain ⟨old, hold, hflag⟩ := hq
    obtain ⟨x, hx⟩ := load_entry (Prod.ext hload rfl) he
    rw [hold] at hx
    exact ⟨e, he, hx ▸ after_quarantined hflag x⟩
  · have hsame : altStep c (.load file) = c := congrArg Prod.snd (load_failed hload)
    exact hsame.symm ▸ hq

/-- A write that keeps the key keeps its quarantine, an `alt_cache_put` of the
key apart. -/
theorem altStep_quarantined {c : AltCache} {k : Mint} {op : AltOp} (hq : Quarantined c k)
    (hno : ¬ op.Resets k) (hkeep : HasKey k (altStep c op)) : Quarantined (altStep c op) k := by
  cases op with
  | put pk addrs => exact altStep_put hq hno
  | putMeta pk addrs md flags => exact altStep_putMeta hq
  | load file => exact altStep_load hq hkeep

theorem Quarantined.neverValid {c : AltCache} {k : Mint} (h : Quarantined c k) : NeverValid k c := by
  intro bank
  obtain ⟨e, he, hq⟩ := h
  have hcheck : altCacheCheck c k bank = (.conflict, 0) := by
    unfold altCacheCheck
    rw [he]
    exact if_pos hq
  rw [hcheck]
  decide

/-! ## §3. Runs without a reset. -/

/-- **Quarantine sticks** along every run that keeps the key and has no
`alt_cache_put` of it. -/
theorem quarantine_sticky {c : AltCache} {k : Mint} {ops : List AltOp} (hq : Quarantined c k)
    (hkeep : Throughout (HasKey k) c ops) (hno : ∀ op ∈ ops, ¬ op.Resets k) :
    Throughout (NeverValid k) c ops := by
  induction ops generalizing c with
  | nil => exact hq.neverValid
  | cons op ops ih =>
    have hnext := altStep_quarantined hq (hno op List.mem_cons_self) hkeep.2.head
    exact ⟨hq.neverValid, ih hnext hkeep.2 fun x hx => hno x (List.mem_cons_of_mem _ hx)⟩

/-! ## §4. The reset. -/

/-- A snapshot of slot 100. -/
def snapMeta : AltMeta := ⟨100, 90, uint64Max, 0, 1, 0, 0x11, 0, 0, 0⟩

/-- The bank the snapshot is from. -/
def snapBank : AltBank := ⟨100, 0x11, [], false, true⟩

/-- After an `alt_cache_put` of the key a single snapshot makes it valid. -/
theorem quarantine_lifted (c : AltCache) {k : Mint} {addrs : List Mint} (hk : HasKey k c)
    (hn : addrs.length ≤ altAddrMax) :
    (altCacheCheck (altStep (altStep c (.put k addrs)) (.putMeta k addrs snapMeta 7)) k
      (some snapBank)).1 = .valid := by
  obtain ⟨e, he⟩ := Option.isSome_iff_exists.mp hk
  obtain ⟨c1, hst, -⟩ := store_again (e := bareEnt k addrs) (bareEnt_valid k hn) he
  have hput : altCachePut c k addrs = some c1 := by
    rw [altCachePut, dif_pos hn]
    exact hst
  have hbare : entry c1 k = some (bareEnt k addrs) := entry_store_self hst
  have hflags : (7 : UInt16) &&& ~~~15 = 0 := by decide
  have hvalid : AltEnt.Valid ⟨k, addrs, 7, snapMeta⟩ :=
    metaOk_iff.mp ⟨hn, by simp [metaOk, snapMeta, hflags]⟩
  obtain ⟨c1', hst', -⟩ := store_again (e := bareEnt k addrs) (bareEnt_valid k hn) hbare
  have hput' : altCachePut c1 k addrs = some c1' := by
    rw [altCachePut, dif_pos hn]
    exact hst'
  obtain ⟨c2, hc2, -⟩ := exists_putMeta_of_put hvalid hput'
  -- the bare entry has no metadata to contradict
  have hconf : conflict (bareEnt k addrs) ⟨k, addrs, 7, snapMeta⟩ = false := by
    simp [conflict, bareEnt]
  have hview : entry c2 k = some ⟨k, addrs, 7, snapMeta⟩ := by
    rw [altCachePutMeta_entry hc2, if_pos rfl, hbare, AltEnt.after, hconf, if_neg (by simp)]
  have hrun : altStep (altStep c (.put k addrs)) (.putMeta k addrs snapMeta 7) = c2 := by
    rw [altStep, altStep, hput, Option.getD_some, hc2, Option.getD_some]
  have hflag : (7 : UInt16) &&& altQuarantined = 0 := by decide
  rw [hrun]
  simp [altCacheCheck, hview, hflag, snapMeta, snapBank, scanHashes]

/-- A table stored with one address and then, in the same slot, with another. -/
def contradicted : AltCache :=
  altRun altCacheInit [.putMeta 1 [2] snapMeta 7, .putMeta 1 [3] snapMeta 7]

/-- A put and a snapshot of the same addresses. -/
def putAgain : List AltOp := [.put 1 [3], .putMeta 1 [3] snapMeta 7]

/-- A quarantined entry, kept in the cache, that is valid again. -/
theorem quarantine_reset :
    Quarantined contradicted 1 ∧ Throughout (HasKey 1) contradicted putAgain ∧
      ¬ Throughout (NeverValid 1) contradicted putAgain := by
  have hentry : entry contradicted 1 = some ⟨1, [3], 15, snapMeta⟩ := by decide +kernel
  have hkey : HasKey 1 contradicted := by
    unfold HasKey
    rw [hentry]
    rfl
  have hput : HasKey 1 (altStep contradicted (.put 1 [3])) := by
    unfold HasKey
    decide +kernel
  have hagain : HasKey 1 (altStep (altStep contradicted (.put 1 [3])) (.putMeta 1 [3] snapMeta 7)) := by
    unfold HasKey
    decide +kernel
  refine ⟨⟨_, hentry, by decide⟩, ⟨hkey, hput, hagain⟩, fun h => ?_⟩
  exact h.2.2 (some snapBank) (quarantine_lifted contradicted hkey (by decide))

/-- The flag survives a second contradicting snapshot. -/
theorem quarantine_sticky_demo :
    Throughout (NeverValid 1) contradicted [.putMeta 1 [2] snapMeta 7] := by
  have hentry : entry contradicted 1 = some ⟨1, [3], 15, snapMeta⟩ := by decide +kernel
  refine quarantine_sticky ⟨_, hentry, by decide⟩ ⟨?_, ?_⟩ ?_
  · show (entry contradicted 1).isSome = true
    rw [hentry]
    rfl
  · show (entry (altStep contradicted (.putMeta 1 [2] snapMeta 7)) 1).isSome = true
    decide +kernel
  · intro op hop
    rw [List.mem_singleton.mp hop]
    exact id

end ShredArb.Alt
