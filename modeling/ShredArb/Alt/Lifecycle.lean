/-
  ShredArb.Alt.Lifecycle — the cache against the chain
  (`alt_cache_put_meta`, `alt_cache_check` of `arb-core/src/alt_cache.c`).

  On chain a lookup table only grows, until it is deactivated.  Addresses added
  in the slot of a bank cannot be used in that bank; a deactivated table can be
  used while its deactivation slot is the bank's own or still in SlotHashes.
  The cache holds ONE snapshot of this and judges later banks by it.

  §1 says what a history of a table is and what a bank resolves; it names
  nothing of the cache.  §2 says what a snapshot and a target bank are.

  Main results:
    * `before_addrs` — the fields of a table tell which addresses are older than
      a slot,
    * `altCacheCheck_sound` — every index the check lets through resolves, in the
      target bank, to the cached address.
-/
import ShredArb.Alt.Cache

namespace ShredArb.Alt

open ShredArb.Univ

/-! ## §1. Tables on chain. -/

/-- What an instruction does to a table. -/
inductive TableChange where
  | extend (new : List Mint)
  | deactivate
  deriving DecidableEq, Repr

/-- A change and the slot it happens in. -/
structure TableEvent where
  slot : Nat
  change : TableChange
  deriving DecidableEq, Repr

/-- A lookup table. -/
structure LookupTable where
  addrs : List Mint
  lastExt : Nat
  startIdx : Nat
  deact : Option Nat
  deriving DecidableEq, Repr

/-- A new table. -/
def LookupTable.new : LookupTable := ⟨[], 0, 0, none⟩

/-- A change to a table; a deactivated one takes no more. -/
def LookupTable.apply (t : LookupTable) (ev : TableEvent) : LookupTable :=
  if t.deact.isSome then t
  else match ev.change with
    | .extend new =>
      { t with
        addrs := t.addrs ++ new
        lastExt := ev.slot
        startIdx := if t.lastExt = ev.slot then t.startIdx else t.addrs.length }
    | .deactivate => { t with deact := some ev.slot }

/-- The table after a history. -/
def tableAt (h : List TableEvent) : LookupTable := h.foldl LookupTable.apply .new

/-- The part of a history that is older than a slot. -/
def before (slot : Nat) (h : List TableEvent) : List TableEvent :=
  h.filter fun ev => decide (ev.slot < slot)

/-- A history runs forward. -/
def Forward (h : List TableEvent) : Prop := h.Pairwise fun a b => a.slot ≤ b.slot

/-- A table can be used in a bank. -/
def Usable (t : LookupTable) (bank : Nat) (slotHashes : List Nat) : Prop :=
  ∀ d, t.deact = some d → d = bank ∨ d ∈ slotHashes

instance (t : LookupTable) (bank : Nat) (slotHashes : List Nat) :
    Decidable (Usable t bank slotHashes) :=
  match h : t.deact with
  | none => isTrue fun d hd => absurd (hd.symm.trans h) (by simp)
  | some d =>
    if hd : d = bank ∨ d ∈ slotHashes then
      isTrue fun d' hd' => Option.some.inj (hd'.symm.trans h) ▸ hd
    else isFalse fun hu => hd (hu d h)

/-- What an index of a table resolves to in a bank. -/
def resolveAt (h : List TableEvent) (bank : Nat) (slotHashes : List Nat) (i : Nat) : Option Mint :=
  if Usable (tableAt h) bank slotHashes then (tableAt (before bank h)).addrs[i]? else none

theorem tableAt_append (h g : List TableEvent) :
    tableAt (h ++ g) = g.foldl LookupTable.apply (tableAt h) := by
  unfold tableAt
  rw [List.foldl_append]

theorem tableAt_snoc (h : List TableEvent) (ev : TableEvent) :
    tableAt (h ++ [ev]) = (tableAt h).apply ev := tableAt_append h [ev]

/-- The address list only grows. -/
theorem apply_addrs (t : LookupTable) (ev : TableEvent) : t.addrs <+: (t.apply ev).addrs := by
  unfold LookupTable.apply
  split
  · exact List.prefix_refl _
  · cases ev.change with
    | extend new => exact List.prefix_append _ _
    | deactivate => exact List.prefix_refl _

theorem foldl_addrs (g : List TableEvent) : ∀ t : LookupTable,
    t.addrs <+: (g.foldl LookupTable.apply t).addrs := by
  induction g with
  | nil => exact fun t => List.prefix_refl _
  | cons ev g ih => exact fun t => (apply_addrs t ev).trans (ih (t.apply ev))

/-- The deactivation is the old one or a later event's. -/
theorem foldl_deact (g : List TableEvent) : ∀ {t : LookupTable} {d : Nat},
    (g.foldl LookupTable.apply t).deact = some d → t.deact = some d ∨ ∃ ev ∈ g, ev.slot = d := by
  induction g with
  | nil => exact fun h => Or.inl h
  | cons ev g ih =>
    intro t d h
    rcases ih h with hd | ⟨ev', hev', hslot⟩
    · unfold LookupTable.apply at hd
      split at hd
      · exact Or.inl hd
      · cases hc : ev.change with
        | extend new =>
          rw [hc] at hd
          exact Or.inl hd
        | deactivate =>
          rw [hc] at hd
          exact Or.inr ⟨ev, List.mem_cons_self, Option.some.inj hd⟩
    · exact Or.inr ⟨ev', List.mem_cons_of_mem _ hev', hslot⟩

theorem lastExt_le {h : List TableEvent} {s : Nat} (hs : ∀ ev ∈ h, ev.slot ≤ s) :
    (tableAt h).lastExt ≤ s := by
  induction h using List.reverseRecOn with
  | nil => exact Nat.zero_le s
  | append_singleton h ev ih =>
    have hold := ih fun x hx => hs x (List.mem_append_left _ hx)
    rw [tableAt_snoc]
    unfold LookupTable.apply
    split
    · exact hold
    · cases ev.change with
      | extend new => exact hs ev (List.mem_append_right _ List.mem_cons_self)
      | deactivate => exact hold

theorem startIdx_le (h : List TableEvent) : (tableAt h).startIdx ≤ (tableAt h).addrs.length := by
  induction h using List.reverseRecOn with
  | nil => exact Nat.le_refl 0
  | append_singleton h ev ih =>
    rw [tableAt_snoc]
    unfold LookupTable.apply
    split
    · exact ih
    · cases ev.change with
      | extend new =>
        simp only [List.length_append]
        split <;> omega
      | deactivate => exact ih

/-- How many addresses of a table are older than a slot, by the table's own
fields. -/
def LookupTable.activeLen (t : LookupTable) (slot : Nat) : Nat :=
  if slot > t.lastExt then t.addrs.length else t.startIdx

theorem activeLen_le (h : List TableEvent) (slot : Nat) :
    (tableAt h).activeLen slot ≤ (tableAt h).addrs.length := by
  unfold LookupTable.activeLen
  split
  · exact Nat.le_refl _
  · exact startIdx_le h

/-- A history that is older than the slot has nothing to lose. -/
theorem before_eq_self {slot : Nat} {h : List TableEvent} (hs : ∀ ev ∈ h, ev.slot < slot) :
    before slot h = h :=
  List.filter_eq_self.mpr fun ev hev => decide_eq_true (hs ev hev)

theorem before_append (slot : Nat) (h g : List TableEvent) :
    before slot (h ++ g) = before slot h ++ before slot g := List.filter_append h g

/-- **The fields of a table tell its older addresses**: of a history that does not
pass the slot, those added before it are the first `activeLen`. -/
theorem before_addrs {h : List TableEvent} {slot : Nat} (hfwd : Forward h)
    (hs : ∀ ev ∈ h, ev.slot ≤ slot) :
    (tableAt (before slot h)).addrs = (tableAt h).addrs.take ((tableAt h).activeLen slot) := by
  induction h using List.reverseRecOn with
  | nil => exact List.take_nil.symm
  | append_singleton h ev ih =>
    have hlast : ev.slot ≤ slot := hs ev (List.mem_append_right _ List.mem_cons_self)
    have hold : ∀ x ∈ h, x.slot ≤ ev.slot := fun x hx =>
      (List.pairwise_append.mp hfwd).2.2 x hx ev List.mem_cons_self
    rcases Nat.lt_or_eq_of_le hlast with hlt | heq
    · -- the whole history is older
      have hall : ∀ x ∈ h ++ [ev], x.slot ≤ ev.slot := by
        intro x hx
        rcases List.mem_append.mp hx with hx | hx
        · exact hold x hx
        · rw [List.mem_singleton.mp hx]
      have hact : (tableAt (h ++ [ev])).activeLen slot = (tableAt (h ++ [ev])).addrs.length :=
        if_pos (Nat.lt_of_le_of_lt (lastExt_le hall) hlt)
      rw [hact, List.take_length, before_eq_self fun x hx => Nat.lt_of_le_of_lt (hall x hx) hlt]
    · -- the last change is in the slot itself
      have hprev := ih (List.pairwise_append.mp hfwd).1 fun x hx => (hold x hx).trans hlast
      have hdrop : before slot (h ++ [ev]) = before slot h := by
        rw [before_append]
        simp [before, heq]
      have hle := lastExt_le (h := h) (s := slot) fun x hx => (hold x hx).trans hlast
      rw [hdrop, hprev, tableAt_snoc]
      unfold LookupTable.apply
      split
      · rfl
      · cases ev.change with
        | deactivate => rfl
        | extend new =>
          unfold LookupTable.activeLen
          simp only [heq, Nat.lt_irrefl, gt_iff_lt, if_false]
          by_cases hext : (tableAt h).lastExt = slot
          · rw [if_neg (by omega), if_pos hext, List.take_append_of_le_length (startIdx_le h)]
          · rw [if_pos (by omega), if_neg hext, List.take_left, List.take_length]

/-! ## §2. Snapshots and banks. -/

/-- `deactivation_slot` as the account has it. -/
def deactWord : Option Nat → UInt64
  | none => uint64Max
  | some d => UInt64.ofNat d

/-- The metadata and addresses of a table, seen in the observed slot. -/
structure Snapshot (h : List TableEvent) (addrs : List Mint) (md : AltMeta) : Prop where
  addrs : addrs = (tableAt h).addrs
  lastExt : md.lastExtendedSlot.toNat = (tableAt h).lastExt
  start : md.startIndex.toNat = (tableAt h).startIdx
  deact : md.deactivationSlot = deactWord (tableAt h).deact
  seen : ∀ ev ∈ h, ev.slot ≤ md.observedSlot.toNat

/-- The bank of a fork: its ancestors, newest first, of which SlotHashes holds the
newest; the table's changes happen in the banks of the fork. -/
structure OnFork (bank : AltBank) (ancestors : List AltSlotHash) (h : List TableEvent) : Prop where
  forward : Forward h
  below : ∀ a ∈ ancestors, a.slot < bank.slot
  descending : ancestors.Pairwise fun a b => b.slot < a.slot
  recent : bank.slotHashesComplete = true → bank.slotHashes <+: ancestors
  events : ∀ ev ∈ h, ev.slot = bank.slot.toNat ∨ ∃ a ∈ ancestors, a.slot.toNat = ev.slot

/-- The slots SlotHashes holds. -/
def hashSlots (bank : AltBank) : List Nat := bank.slotHashes.map fun s => s.slot.toNat

/-- What the loop over the hashes has found. -/
theorem scanHashes_sound {bank : UInt64} {md : AltMeta} : ∀ (ss : List AltSlotHash)
    {prev : Option UInt64} {a d a' d' : Bool}, scanHashes bank md prev a d ss = some (a', d') →
    (a' = true → a = true ∨ ∃ s ∈ ss, s.slot = md.observedSlot) ∧
    (d' = true → d = true ∨ ∃ s ∈ ss, s.slot = md.deactivationSlot) := by
  intro ss
  induction ss with
  | nil =>
    intro prev a d a' d' h
    obtain ⟨rfl, rfl⟩ := Prod.mk.inj (Option.some.inj h)
    exact ⟨Or.inl, Or.inl⟩
  | cons s ss ih =>
    intro prev a d a' d' h
    unfold scanHashes at h
    split at h
    · exact absurd h (by simp)
    · obtain ⟨hanc, hdeact⟩ := ih h
      refine ⟨fun ha => ?_, fun hd => ?_⟩
      · rcases hanc ha with ha | ⟨x, hx, hslot⟩
        · rcases Bool.or_eq_true_iff.mp ha with ha | hs
          · exact Or.inl ha
          · exact Or.inr ⟨s, List.mem_cons_self, beq_iff_eq.mp (Bool.and_eq_true_iff.mp hs).1⟩
        · exact Or.inr ⟨x, List.mem_cons_of_mem _ hx, hslot⟩
      · rcases hdeact hd with hd | ⟨x, hx, hslot⟩
        · rcases Bool.or_eq_true_iff.mp hd with hd | hs
          · exact Or.inl hd
          · exact Or.inr ⟨s, List.mem_cons_self, beq_iff_eq.mp hs⟩
        · exact Or.inr ⟨x, List.mem_cons_of_mem _ hx, hslot⟩

/-- What `ALT_VALID` says of the entry and the bank. -/
structure Certified (md : AltMeta) (addrs : List Mint) (bank : AltBank) (n : Nat) : Prop where
  complete : bank.slotHashesComplete = true
  observed : md.observedSlot ≤ bank.slot
  ancestor : md.observedSlot = bank.slot ∨ ∃ s ∈ bank.slotHashes, s.slot = md.observedSlot
  deact : md.deactivationSlot = uint64Max ∨ md.deactivationSlot = bank.slot ∨
    ∃ s ∈ bank.slotHashes, s.slot = md.deactivationSlot
  active : n = if bank.slot > md.lastExtendedSlot then addrs.length else md.startIndex.toNat

theorem certified_of_valid {c : AltCache} {pk : Mint} {bank : AltBank} {e : AltEnt} {n : Nat}
    (he : entry c pk = some e) (h : altCacheCheck c pk (some bank) = (.valid, n)) :
    Certified e.metadata e.addrs bank n := by
  unfold altCacheCheck at h
  simp only [he] at h
  split at h
  · exact absurd (congrArg Prod.fst h) (by simp)
  · split at h
    · exact absurd (congrArg Prod.fst h) (by simp)
    · split at h
      · exact absurd (congrArg Prod.fst h) (by simp)
      · rename_i hcomplete
        split at h
        · exact absurd (congrArg Prod.fst h) (by simp)
        · rename_i hobs
          split at h
          · exact absurd (congrArg Prod.fst h) (by simp)
          · rename_i anc deact hscan
            obtain ⟨hanc, hdeact⟩ := scanHashes_sound _ hscan
            split at h
            · exact absurd (congrArg Prod.fst h) (by simp)
            · rename_i hanc1
              split at h
              · exact absurd (congrArg Prod.fst h) (by simp)
              · rename_i hd
                refine ⟨?_, UInt64.not_lt.mp hobs, ?_, ?_, (congrArg Prod.snd h).symm⟩
                · simpa using (not_or.mp hcomplete).1
                · rcases hanc (Bool.eq_true_of_not_eq_false hanc1) with h0 | hs
                  · exact Or.inl (beq_iff_eq.mp (Bool.and_eq_true_iff.mp h0).1)
                  · exact Or.inr hs
                · by_cases h1 : e.metadata.deactivationSlot = uint64Max
                  · exact Or.inl h1
                  · by_cases h2 : e.metadata.deactivationSlot = bank.slot
                    · exact Or.inr (Or.inl h2)
                    · have h3 : deact = true := by
                        by_contra hne
                        exact hd ⟨h1, h2, Bool.eq_false_of_not_eq_true hne⟩
                      rcases hdeact h3 with h4 | h4
                      · exact absurd h4 (by simp)
                      · exact Or.inr (Or.inr h4)

/-! ## §3. The check against the chain. -/

section Target

variable {past later : List TableEvent} {addrs : List Mint} {md : AltMeta} {bank : AltBank}
  {ancestors : List AltSlotHash} {n : Nat}

/-- A slot of the fork that is not older than the observed bank is the bank's own
or still in SlotHashes. -/
theorem recent_slot (hfork : OnFork bank ancestors (past ++ later))
    (hcert : Certified md addrs bank n) {a : AltSlotHash} (ha : a ∈ ancestors)
    (hobs : md.observedSlot ≤ a.slot) : a ∈ bank.slotHashes := by
  obtain ⟨older, holder⟩ := hfork.recent hcert.complete
  rcases hcert.ancestor with heq | ⟨s, hs, hslot⟩
  · exact absurd (hfork.below a ha) (UInt64.not_lt.mpr (heq ▸ hobs))
  · rw [← holder] at ha
    rcases List.mem_append.mp ha with ha | ha
    · exact ha
    · -- everything past SlotHashes is older than what it holds
      have hdesc := hfork.descending
      rw [← holder] at hdesc
      have hlt := (List.pairwise_append.mp hdesc).2.2 s hs a ha
      exact absurd hlt (UInt64.not_lt.mpr (hslot ▸ hobs))

theorem mem_hashSlots {s : AltSlotHash} (h : s ∈ bank.slotHashes) : s.slot.toNat ∈ hashSlots bank :=
  List.mem_map_of_mem h

/-- A deactivation that the snapshot has already. -/
theorem usable_seen (hsnap : Snapshot past addrs md) (hcert : Certified md addrs bank n) {d : Nat}
    (hd : (tableAt past).deact = some d) : d = bank.slot.toNat ∨ d ∈ hashSlots bank := by
  have hseen : d ≤ md.observedSlot.toNat := by
    rcases foldl_deact past hd with hnew | ⟨ev, hev, rfl⟩
    · exact absurd hnew (by simp [LookupTable.new])
    · exact hsnap.seen ev hev
  have hobs : md.observedSlot.toNat ≤ bank.slot.toNat := UInt64.le_iff_toNat_le.mp hcert.observed
  have hbank := bank.slot.toNat_lt
  have hword : md.deactivationSlot.toNat = d := by
    rw [hsnap.deact, hd, deactWord, UInt64.toNat_ofNat']
    exact Nat.mod_eq_of_lt (by omega)
  rcases hcert.deact with hmax | heq | ⟨s, hs, hslot⟩
  · -- the word of an active table: only the last slot of all looks like that
    have hlast : d = uint64Max.toNat := by rw [← hword, hmax]
    have hval : uint64Max.toNat = 2 ^ 64 - 1 := by decide
    exact Or.inl (by omega)
  · exact Or.inl (by rw [← hword, heq])
  · refine Or.inr ?_
    rw [← hword, ← hslot]
    exact mem_hashSlots hs

/-- The table can be used in the target bank. -/
theorem usable_target (hsnap : Snapshot past addrs md) (hcert : Certified md addrs bank n)
    (hlater : ∀ ev ∈ later, md.observedSlot.toNat ≤ ev.slot)
    (hfork : OnFork bank ancestors (past ++ later)) :
    Usable (tableAt (past ++ later)) bank.slot.toNat (hashSlots bank) := by
  intro d hd
  rw [tableAt_append] at hd
  rcases foldl_deact later hd with hpast | ⟨ev, hev, rfl⟩
  · exact usable_seen hsnap hcert hpast
  · rcases hfork.events ev (List.mem_append_right _ hev) with heq | ⟨a, ha, hslot⟩
    · exact Or.inl heq
    · have hobs : md.observedSlot ≤ a.slot := by
        rw [UInt64.le_iff_toNat_le, hslot]
        exact hlater ev hev
      exact Or.inr (hslot ▸ mem_hashSlots (recent_slot hfork hcert ha hobs))

/-- The active addresses of the snapshot are those older than the target bank. -/
theorem active_eq (hsnap : Snapshot past addrs md) (hcert : Certified md addrs bank n) :
    n = (tableAt past).activeLen bank.slot.toNat := by
  unfold LookupTable.activeLen
  rw [hcert.active, hsnap.addrs, ← hsnap.lastExt, ← hsnap.start]
  exact if_congr UInt64.lt_iff_toNat_lt rfl rfl

/-- **The check is sound**: a snapshot that `alt_cache_put_meta` has stored and
`alt_cache_check` finds valid in a bank of the same fork, at or after the
observed slot, gives for every index below `active_n` the address the bank
resolves it to, whatever has happened to the table since. -/
theorem altCacheCheck_sound {c stored now : AltCache} {pk : Mint} {flags : UInt16}
    (hput : altCachePutMeta c pk addrs md flags = some stored) (hkept : entry now pk = entry stored pk)
    (hsnap : Snapshot past addrs md) (hlater : ∀ ev ∈ later, md.observedSlot.toNat ≤ ev.slot)
    (hfork : OnFork bank ancestors (past ++ later))
    (hcheck : altCacheCheck now pk (some bank) = (.valid, n)) :
    ∀ i < n, ∃ cached a, (altCacheGet now pk).1 = some cached ∧ cached[i]? = some a ∧
      resolveAt (past ++ later) bank.slot.toNat (hashSlots bank) i = some a := by
  intro i hi
  obtain ⟨e, he, haddrs, hmd⟩ : ∃ e, entry now pk = some e ∧ e.addrs = addrs ∧ e.metadata = md := by
    refine ⟨_, hkept.trans ((altCachePutMeta_entry hput pk).trans (if_pos rfl)), ?_, ?_⟩
    · exact AltEnt.after_addrs _ _
    · exact AltEnt.after_metadata _ _
  have hcert := certified_of_valid he hcheck
  rw [haddrs, hmd] at hcert
  have hget : (altCacheGet now pk).1 = some addrs := by
    unfold altCacheGet
    rw [he, ← haddrs]
  -- the older part of the past is where the cached address comes from
  have hseen : ∀ ev ∈ past, ev.slot ≤ bank.slot.toNat := fun ev hev =>
    (hsnap.seen ev hev).trans (UInt64.le_iff_toNat_le.mp hcert.observed)
  have hpast := before_addrs (List.pairwise_append.mp hfork.forward).1 hseen
  rw [← active_eq hsnap hcert, ← hsnap.addrs] at hpast
  have hn : n ≤ addrs.length := by
    rw [active_eq hsnap hcert, hsnap.addrs]
    exact activeLen_le past _
  have hgrow : addrs.take n <+: (tableAt (before bank.slot.toNat (past ++ later))).addrs := by
    rw [before_append, tableAt_append, ← hpast]
    exact foldl_addrs _ _
  have hlt : i < addrs.length := by omega
  refine ⟨addrs, addrs[i], hget, List.getElem?_eq_getElem hlt, ?_⟩
  rw [resolveAt, if_pos (usable_target hsnap hcert hlater hfork)]
  obtain ⟨more, hmore⟩ := hgrow
  have htake : i < (addrs.take n).length := by
    rw [List.length_take]
    omega
  rw [← hmore, List.getElem?_append_left htake, List.getElem?_take_of_lt hi,
    List.getElem?_eq_getElem hlt]

end Target

/-- Two addresses in slot 90 and one in slot 100, where the table is seen. -/
def demoPast : List TableEvent := [⟨90, .extend [5, 6]⟩, ⟨100, .extend [7]⟩]

/-- One more address and the deactivation, both after the snapshot. -/
def demoLater : List TableEvent := [⟨101, .extend [8]⟩, ⟨102, .deactivate⟩]

def demoMeta : AltMeta := ⟨100, 100, uint64Max, 2, 0, 0, 0x11, 0, 0, 0⟩

def demoBank : AltBank := ⟨103, 0x44, [⟨102, 0x33⟩, ⟨101, 0x22⟩, ⟨100, 0x11⟩], false, true⟩

def demoAncestors : List AltSlotHash := [⟨102, 0x33⟩, ⟨101, 0x22⟩, ⟨100, 0x11⟩, ⟨90, 0x10⟩]

/-- The three cached addresses are right three slots on, in the cooldown. -/
theorem altCacheCheck_sound_demo : ∃ stored,
    altCachePutMeta altCacheInit 1 [5, 6, 7] demoMeta 7 = some stored ∧
      ∀ i < 3, ∃ cached a, (altCacheGet stored 1).1 = some cached ∧ cached[i]? = some a ∧
        resolveAt (demoPast ++ demoLater) 103 (hashSlots demoBank) i = some a := by
  have hsome : (altCachePutMeta altCacheInit 1 [5, 6, 7] demoMeta 7).isSome = true := by
    decide +kernel
  obtain ⟨stored, hstored⟩ := Option.isSome_iff_exists.mp hsome
  have hentry : entry stored 1 = some ⟨1, [5, 6, 7], 7, demoMeta⟩ := by
    rw [altCachePutMeta_entry hstored, if_pos rfl, entry_init]
    rfl
  have hcheck : altCacheCheck stored 1 (some demoBank) = (.valid, 3) := by
    unfold altCacheCheck
    rw [hentry]
    decide
  have hsnap : Snapshot demoPast [5, 6, 7] demoMeta :=
    ⟨by decide, by decide, by decide, by decide, by decide⟩
  have hfork : OnFork demoBank demoAncestors (demoPast ++ demoLater) := by
    refine ⟨?_, by decide, ?_, fun _ => ⟨[⟨90, 0x10⟩], rfl⟩, by decide⟩
    · unfold Forward
      decide
    · decide
  exact ⟨stored, hstored, altCacheCheck_sound hstored rfl hsnap (by decide) hfork hcheck⟩

end ShredArb.Alt
