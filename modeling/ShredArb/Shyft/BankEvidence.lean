/-
  ShredArb.Shyft.BankEvidence — what an available bank context stands for.

  The row of a key is the fold of the events of that key in the current
  generation.  The conflict flag only ever rises, so a row without it has passed
  every check at EVERY event.

  Main results:
    * `get_run` — a row is the fold of its events,
    * `Clean.record` — one event against a row without conflict,
    * `context_available_sound` — an available context is unanimous evidence of the
      current generation.
-/
import ShredArb.Shyft.BankJournal
import Mathlib.Data.List.Dedup

namespace ShredArb.Bank

open ShredArb.Bytes ShredArb.Dict ShredArb.Hex

/-! ## §1. The fields of a row. -/

section Fields

variable (row : Row)

@[simp]
theorem noteStatus_parent (s : Nat) : (row.noteStatus s).parent = row.parent := by
  unfold Row.noteStatus
  split <;> rfl

@[simp]
theorem noteStatus_hashes (s : Nat) : (row.noteStatus s).hashes = row.hashes := by
  unfold Row.noteStatus
  split <;> rfl

@[simp]
theorem noteStatus_conflict (s : Nat) : (row.noteStatus s).conflict = row.conflict := by
  unfold Row.noteStatus
  split <;> rfl

@[simp]
theorem noteStatus_slot (s : Nat) : (row.noteStatus s).slot = row.slot := by
  unfold Row.noteStatus
  split <;> rfl

@[simp]
theorem noteStatus_lastRx (s : Nat) : (row.noteStatus s).lastRx = row.lastRx := by
  unfold Row.noteStatus
  split <;> rfl

theorem mem_noteStatus {s t : Nat} : t ∈ (row.noteStatus s).statuses ↔ t ∈ row.statuses ∨ t = s := by
  unfold Row.noteStatus
  split
  · rename_i hs
    constructor
    · exact Or.inl
    · rintro (h | rfl)
      · exact h
      · exact hs
  · simp

@[simp]
theorem checkParent_parent : row.checkParent.parent = row.parent := by
  unfold Row.checkParent
  split <;> rfl

@[simp]
theorem checkParent_hashes : row.checkParent.hashes = row.hashes := by
  unfold Row.checkParent
  split <;> rfl

@[simp]
theorem checkParent_slot : row.checkParent.slot = row.slot := by
  unfold Row.checkParent
  split <;> rfl

@[simp]
theorem checkParent_lastRx : row.checkParent.lastRx = row.lastRx := by
  unfold Row.checkParent
  split <;> rfl

@[simp]
theorem checkParent_statuses : row.checkParent.statuses = row.statuses := by
  unfold Row.checkParent
  split <;> rfl

/-- The last check passed. -/
theorem checkParent_clean (h : row.checkParent.conflict = false) :
    row.conflict = false ∧ ∀ a ∈ row.hashes.bind List.head?, ∀ p ∈ row.parent, a.1 = p := by
  unfold Row.checkParent at h
  split at h
  · rename_i a p ha hp
    obtain ⟨hc, hne⟩ := Bool.or_eq_false_iff.mp h
    refine ⟨hc, fun a' ha' p' hp' => ?_⟩
    rw [ha] at ha'
    rw [hp] at hp'
    obtain rfl := Option.some.inj ha'
    obtain rfl := Option.some.inj hp'
    simpa using hne
  · rename_i hno
    exact ⟨h, fun a ha p hp => absurd hp (hno a p ha)⟩

/-- The parent agreed. -/
theorem noteParent_clean {p : Nat} (h : (row.noteParent p).conflict = false) :
    row.conflict = false ∧ p < row.slot ∧ ∀ q ∈ row.parent, q = p := by
  unfold Row.noteParent at h
  simp only [Bool.or_eq_false_iff, decide_eq_false_iff_not, Nat.not_le] at h
  obtain ⟨⟨hc, hlt⟩, hany⟩ := h
  refine ⟨hc, hlt, fun q hq => ?_⟩
  rw [Option.mem_def.mp hq] at hany
  simpa using hany

/-- The payload agreed. -/
theorem noteHashes_clean {rx : Nat} {sha : String} {hashes : List (Nat × String)}
    (h : (row.noteHashes rx sha hashes).conflict = false) :
    row.conflict = false ∧ ∀ old ∈ row.hashes, old = hashes := by
  unfold Row.noteHashes at h
  simp only [Bool.or_eq_false_iff] at h
  obtain ⟨⟨hc, -⟩, hany⟩ := h
  refine ⟨hc, fun old hold => ?_⟩
  rw [Option.mem_def.mp hold] at hany
  simpa using hany

end Fields

/-! ## §2. One event. -/

/-- A report that passed every check of its row. -/
def Report.Agrees (r : Report) (row : Row) : Prop :=
  match r with
  | .slot parent status => (∀ p ∈ parent, row.parent = some p ∧ p < row.slot) ∧ status ∈ row.statuses
  | .account startup owner dataHex => startup = false ∧ owner = some sysvarOwner ∧
      ∃ data hashes, decode dataHex = some (data, hashes) ∧ row.hashes = some hashes

/-- The row is what the events of its key agree on. -/
structure Clean (key : Nat × Nat) (events : List BankEvent) (row : Row) : Prop where
  slot : row.slot = key.1
  ordered : (events.map BankEvent.rx).Pairwise (· ≤ ·)
  last : ∀ e ∈ events, e.rx ≤ row.lastRx
  agrees : ∀ e ∈ events, e.report.Agrees row
  parent : ∀ p, row.parent = some p → ∃ e ∈ events, ∃ status, e.report = .slot (some p) status
  hashes : ∀ hs, row.hashes = some hs → ∃ e ∈ events, ∃ startup owner dataHex data,
    e.report = .account startup owner dataHex ∧ decode dataHex = some (data, hs)
  newest : ∀ a ∈ row.hashes.bind List.head?, ∀ p ∈ row.parent, a.1 = p

/-- A row that forgets nothing keeps what agreed. -/
theorem Report.Agrees.mono {r : Report} {row row' : Row} (h : r.Agrees row)
    (hslot : row'.slot = row.slot) (hparent : ∀ p, row.parent = some p → row'.parent = some p)
    (hstatus : ∀ t ∈ row.statuses, t ∈ row'.statuses)
    (hhashes : ∀ hs, row.hashes = some hs → row'.hashes = some hs) : r.Agrees row' := by
  cases r with
  | slot parent status =>
    refine ⟨fun p hp => ⟨hparent p (h.1 p hp).1, ?_⟩, hstatus _ h.2⟩
    rw [hslot]
    exact (h.1 p hp).2
  | account startup owner dataHex =>
    obtain ⟨hs, ho, data, hashes, hd, hh⟩ := h
    exact ⟨hs, ho, data, hashes, hd, hhashes hashes hh⟩

theorem Clean.extend {key : Nat × Nat} {events : List BankEvent} {row row' : Row} {e : BankEvent}
    (h : Clean key events row) (hrx : row.lastRx ≤ e.rx) (hslot : row'.slot = row.slot)
    (hlast : row'.lastRx = e.rx) (hkeep : ∀ r : Report, r.Agrees row → r.Agrees row')
    (hnew : e.report.Agrees row')
    (hparent : ∀ p, row'.parent = some p → row.parent = some p ∨ ∃ s, e.report = .slot (some p) s)
    (hhashes : ∀ hs, row'.hashes = some hs → row.hashes = some hs ∨ ∃ startup owner dataHex data,
      e.report = .account startup owner dataHex ∧ decode dataHex = some (data, hs))
    (hnewest : ∀ a ∈ row'.hashes.bind List.head?, ∀ p ∈ row'.parent, a.1 = p) :
    Clean key (events ++ [e]) row' where
  slot := hslot.trans h.slot
  ordered := by
    rw [List.map_append, List.map_singleton, List.pairwise_append]
    refine ⟨h.ordered, List.pairwise_singleton _ _, ?_⟩
    intro rx hrx' rx' hmem
    obtain ⟨e', he', rfl⟩ := List.mem_map.mp hrx'
    rw [List.mem_singleton.mp hmem]
    exact (h.last e' he').trans hrx
  last := by
    intro e' he'
    rw [hlast]
    rcases List.mem_append.mp he' with hold | hnew
    · exact (h.last e' hold).trans hrx
    · rw [List.mem_singleton.mp hnew]
  agrees := by
    intro e' he'
    rcases List.mem_append.mp he' with hold | hlast
    · exact hkeep _ (h.agrees e' hold)
    · rw [List.mem_singleton.mp hlast]
      exact hnew
  parent := by
    intro p hp
    rcases hparent p hp with hold | ⟨s, hs⟩
    · obtain ⟨e', he', hrep⟩ := h.parent p hold
      exact ⟨e', List.mem_append_left _ he', hrep⟩
    · exact ⟨e, List.mem_append_right _ List.mem_cons_self, s, hs⟩
  hashes := by
    intro hs hh
    rcases hhashes hs hh with hold | hrep
    · obtain ⟨e', he', hrep⟩ := h.hashes hs hold
      exact ⟨e', List.mem_append_left _ he', hrep⟩
    · exact ⟨e, List.mem_append_right _ List.mem_cons_self, hrep⟩
  newest := hnewest

section Record

variable (sha256 : List UInt8 → String)

theorem record_slot {row : Row} {e : BankEvent} {parent : Option Nat} {status : Nat}
    (hr : e.report = .slot parent status) (hrx : ¬ e.rx < row.lastRx) :
    (row.record sha256 e).1 = ((parent.elim { row with lastRx := e.rx }
      (Row.noteParent { row with lastRx := e.rx })).noteStatus status).checkParent := by
  unfold Row.record
  rw [if_neg hrx, hr]
  cases parent <;> rfl

theorem record_account {row : Row} {e : BankEvent} {startup : Bool} {owner : Option String}
    {dataHex : Option (List Char)}
    {data : List UInt8} {hashes : List (Nat × String)} (hr : e.report = .account startup owner dataHex)
    (hrx : ¬ e.rx < row.lastRx) (hprov : ¬ (startup = true ∨ owner ≠ some sysvarOwner))
    (hd : decode dataHex = some (data, hashes)) :
    (row.record sha256 e).1
      = (Row.noteHashes { row with lastRx := e.rx } e.rx (sha256 data) hashes).checkParent := by
  unfold Row.record
  rw [if_neg hrx, hr]
  simp only [if_neg hprov, hd]

/-- **One event against a row: without a conflict it agrees, and there was none before.** -/
theorem Clean.record {key : Nat × Nat} {events : List BankEvent} {row : Row} {e : BankEvent}
    (h : row.conflict = false → Clean key events row)
    (hc : (row.record sha256 e).1.conflict = false) :
    Clean key (events ++ [e]) (row.record sha256 e).1 := by
  by_cases hrx : e.rx < row.lastRx
  · have hbad : (row.record sha256 e).1.conflict = true := by rw [Row.record, if_pos hrx]
    rw [hbad] at hc
    exact absurd hc (by simp)
  cases hr : e.report with
  | slot parent status =>
    rw [record_slot sha256 hr hrx] at hc ⊢
    obtain ⟨hc1, hnewest⟩ := checkParent_clean _ hc
    rw [noteStatus_conflict] at hc1
    cases parent with
    | none =>
      have hclean := h hc1
      refine hclean.extend (Nat.not_lt.mp hrx) (by simp) (by simp) (fun r ha => ?_) ?_ ?_ ?_ (by simpa using hnewest)
      · exact ha.mono (by simp) (by simp) (fun t ht => by simp [mem_noteStatus, ht]) (by simp)
      · rw [hr]
        exact ⟨by simp, by simp [mem_noteStatus]⟩
      · exact fun p hp => Or.inl (by simpa using hp)
      · exact fun hs hh => Or.inl (by simpa using hh)
    | some p =>
      obtain ⟨hc2, hlt, heq⟩ := noteParent_clean _ hc1
      have hclean := h hc2
      refine hclean.extend (Nat.not_lt.mp hrx) (by simp [Row.noteParent]) (by simp [Row.noteParent])
        (fun r ha => ?_) ?_ ?_ ?_ (by simpa using hnewest)
      · refine ha.mono (by simp [Row.noteParent]) (fun q hq => ?_)
          (fun t ht => by simp [mem_noteStatus, Row.noteParent, ht]) (by simp [Row.noteParent])
        rw [heq q hq]
        simp [Row.noteParent]
      · rw [hr]
        refine ⟨fun q hq => ?_, by simp [mem_noteStatus]⟩
        obtain rfl := Option.some.inj hq
        exact ⟨by simp [Row.noteParent], by simpa [Row.noteParent] using hlt⟩
      · intro q hq
        right
        have hqp : p = q := by simpa [Row.noteParent] using hq
        rw [hr, hqp]
        exact ⟨status, rfl⟩
      · exact fun hs hh => Or.inl (by simpa [Row.noteParent] using hh)
  | account startup owner dataHex =>
    have hbad : ∀ o : Outcome, row.record sha256 e = ({ row with lastRx := e.rx, conflict := true }, o) →
        False := by
      intro o ho
      rw [ho] at hc
      exact absurd hc (by simp)
    by_cases hprov : startup = true ∨ owner ≠ some sysvarOwner
    · refine (hbad .invalidSysvarProvenance ?_).elim
      unfold Row.record
      rw [if_neg hrx, hr]
      simp only [if_pos hprov]
    cases hd : decode dataHex with
    | none =>
      refine (hbad .invalidSysvarBytes ?_).elim
      unfold Row.record
      rw [if_neg hrx, hr]
      simp only [if_neg hprov, hd]
    | some dh =>
      obtain ⟨data, hashes⟩ := dh
      rw [record_account sha256 hr hrx hprov hd] at hc ⊢
      obtain ⟨hc1, hnewest⟩ := checkParent_clean _ hc
      obtain ⟨hc2, heq⟩ := noteHashes_clean _ hc1
      obtain ⟨hstart, howner⟩ := not_or.mp hprov
      have hclean := h hc2
      refine hclean.extend (Nat.not_lt.mp hrx) (by simp [Row.noteHashes]) (by simp [Row.noteHashes])
        (fun r ha => ?_) ?_ ?_ ?_ (by simpa using hnewest)
      · refine ha.mono (by simp [Row.noteHashes]) (by simp [Row.noteHashes])
          (by simp [Row.noteHashes]) (fun hs hh => ?_)
        rw [heq hs hh]
        simp [Row.noteHashes]
      · rw [hr]
        exact ⟨by simpa using hstart, not_not.mp howner, data, hashes, hd, by simp [Row.noteHashes]⟩
      · exact fun p hp => Or.inl (by simpa [Row.noteHashes] using hp)
      · intro hs hh
        right
        have hsame : hashes = hs := by simpa [Row.noteHashes] using hh
        rw [hr, ← hsame]
        exact ⟨startup, owner, dataHex, data, rfl, hd⟩

/-! ## §3. The events of a key. -/

/-- The row the events of a key make. -/
def rowOf (key : Nat × Nat) (events : List BankEvent) : Option Row :=
  events.foldl (fun row e => some ((row.getD (Row.new key.1 key.2 e.rx)).record sha256 e).1) none

theorem rowOf_append (key : Nat × Nat) (events : List BankEvent) (e : BankEvent) :
    rowOf sha256 key (events ++ [e])
      = some (((rowOf sha256 key events).getD (Row.new key.1 key.2 e.rx)).record sha256 e).1 := by
  rw [rowOf, List.foldl_append]
  rfl

theorem clean_new (key : Nat × Nat) (rx : Nat) : Clean key [] (Row.new key.1 key.2 rx) where
  slot := rfl
  ordered := List.Pairwise.nil
  last := by simp
  agrees := by simp
  parent := by simp [Row.new]
  hashes := by simp [Row.new]
  newest := by simp [Row.new]

/-- **A row without conflict is what its events agree on.** -/
theorem clean_rowOf {key : Nat × Nat} {events : List BankEvent} {row : Row}
    (h : rowOf sha256 key events = some row) (hc : row.conflict = false) : Clean key events row := by
  have hall : ∀ (events : List BankEvent) (rx : Nat),
      ((rowOf sha256 key events).getD (Row.new key.1 key.2 rx)).conflict = false →
      Clean key events ((rowOf sha256 key events).getD (Row.new key.1 key.2 rx)) := by
    intro events
    induction events using List.reverseRecOn with
    | nil => exact fun rx _ => clean_new key rx
    | append_singleton events e ih =>
      intro rx
      rw [rowOf_append, Option.getD_some]
      exact Clean.record sha256 (ih e.rx)
  have hrow := hall events 0
  rw [h, Option.getD_some] at hrow
  exact hrow hc

/-! ## §4. Runs. -/

/-- The journal holds the live events, key by key. -/
structure Holds (j : BankJournal) (l : Live) : Prop where
  generation : j.generation = l.generation
  nodup : NodupKeys j.records
  keys : ∀ key ∈ j.records.map Prod.fst, key ∈ l.events.filterMap BankEvent.key
  rows : ∀ key, get j.records key = rowOf sha256 key (eventsOf l.events key)

theorem Holds.empty (capacity : Nat) (g : Option String) :
    Holds sha256 ⟨capacity, g, []⟩ ⟨g, []⟩ :=
  ⟨rfl, List.nodup_nil, by simp, fun _ => rfl⟩

theorem eventsOf_append_none {events : List BankEvent} {e : BankEvent} {key : Nat × Nat}
    (h : e.key ≠ some key) : eventsOf (events ++ [e]) key = eventsOf events key := by
  rw [eventsOf, List.filter_append, List.filter_cons_of_neg (by simpa using h), List.filter_nil,
    List.append_nil, eventsOf]

theorem eventsOf_append_some {events : List BankEvent} {e : BankEvent} {key : Nat × Nat}
    (h : e.key = some key) : eventsOf (events ++ [e]) key = eventsOf events key ++ [e] := by
  rw [eventsOf, List.filter_append, List.filter_cons_of_pos (by simpa using h), List.filter_nil,
    eventsOf]

/-- A bank event is recorded under its key, and nothing is evicted within the capacity. -/
theorem applyBank_holds {j : BankJournal} {l : Live} {e : BankEvent} {b : Nat}
    (h : Holds sha256 j l) (hb : e.bankId = some b)
    (hcap : ((l.events ++ [e]).filterMap BankEvent.key).dedup.length ≤ j.capacity) :
    Holds sha256 (j.applyBank sha256 e b).1 { l with events := l.events ++ [e] } := by
  have hkey : e.key = some (e.slot, b) := by rw [BankEvent.key, hb, Option.map_some]
  have hfilter : (l.events ++ [e]).filterMap BankEvent.key
      = l.events.filterMap BankEvent.key ++ [(e.slot, b)] := by
    rw [List.filterMap_append, List.filterMap_cons_some hkey, List.filterMap_nil]
  have hsub : ∀ row key, key ∈ (set j.records (e.slot, b) row).map Prod.fst →
      key ∈ (l.events ++ [e]).filterMap BankEvent.key := by
    intro row key hmem
    rw [hfilter]
    rw [keys_set] at hmem
    split at hmem
    · exact List.mem_append_left _ (h.keys key hmem)
    · rcases List.mem_append.mp hmem with hold | hnew
      · exact List.mem_append_left _ (h.keys key hold)
      · exact List.mem_append_right _ hnew
  have hinsert : ∀ row, j.insertRow (e.slot, b) row = set j.records (e.slot, b) row := by
    intro row
    have hlen : (set j.records (e.slot, b) row).length ≤ j.capacity := by
      have hperm : List.Subperm ((set j.records (e.slot, b) row).map Prod.fst)
          ((l.events ++ [e]).filterMap BankEvent.key).dedup :=
        List.Nodup.subperm (h.nodup.set (e.slot, b) row)
          fun key hmem => List.mem_dedup.mpr (hsub row key hmem)
      have hle := hperm.length_le
      rw [List.length_map] at hle
      exact hle.trans hcap
    rw [BankJournal.insertRow]
    exact if_neg (Nat.not_lt.mpr hlen)
  have hpresent : ∀ row, (get (set j.records (e.slot, b) row) (e.slot, b)).isSome = true := by
    intro row
    rw [get_set, if_pos rfl]
    rfl
  simp only [BankJournal.applyBank, hinsert, hpresent, if_true]
  refine ⟨h.generation, (h.nodup.set _ _).set _ _, ?_, ?_⟩
  · intro key hmem
    simp only at hmem ⊢
    rw [keys_set] at hmem
    split at hmem
    · exact hsub _ key hmem
    · rcases List.mem_append.mp hmem with hold | hnew
      · exact hsub _ key hold
      · rw [hfilter]
        exact List.mem_append_right _ hnew
  · intro key
    simp only
    rw [get_set, get_set]
    by_cases hk : (e.slot, b) = key
    · subst hk
      rw [if_pos rfl, eventsOf_append_some hkey, rowOf_append, ← h.rows]
    · rw [if_neg hk, if_neg hk, h.rows, eventsOf_append_none]
      rw [hkey]
      exact fun hc => hk (Option.some.inj hc)

theorem apply_capacity (j : BankJournal) (ev : Event) : (j.apply sha256 ev).1.capacity = j.capacity := by
  unfold BankJournal.apply
  split
  · rfl
  · split <;> rfl
  · split
    · rfl
    · split <;> rfl

/-- **One event keeps the journal in step with the live events.** -/
theorem Holds.apply {j : BankJournal} {l : Live} (h : Holds sha256 j l) (ev : Event)
    (hcap : ((l.step ev).events.filterMap BankEvent.key).dedup.length ≤ j.capacity) :
    Holds sha256 (j.apply sha256 ev).1 (l.step ev) := by
  cases ev with
  | bankGeneration g => exact Holds.empty sha256 j.capacity g
  | bankDisconnect g =>
    simp only [BankJournal.apply, Live.step, h.generation]
    split
    · exact h
    · exact Holds.empty sha256 j.capacity none
  | bank e =>
    simp only [BankJournal.apply, Live.step, h.generation] at hcap ⊢
    split
    · exact h
    · rename_i hlive
      rw [if_neg hlive] at hcap
      cases hb : e.bankId with
      | none =>
        have hkey : e.key = none := by rw [BankEvent.key, hb, Option.map_none]
        refine ⟨h.generation, h.nodup, ?_, ?_⟩
        · intro key hmem
          simp only
          rw [List.filterMap_append]
          exact List.mem_append_left _ (h.keys key hmem)
        · intro key
          simp only
          rw [eventsOf_append_none (by rw [hkey]; simp)]
          exact h.rows key
      | some b => exact applyBank_holds sha256 h hb hcap

theorem WithinCapacity.init {capacity : Nat} {events : List Event} {ev : Event}
    (h : WithinCapacity capacity (events ++ [ev])) : WithinCapacity capacity events := by
  intro n
  have hn := h (min n events.length)
  rwa [List.take_append_of_le_length (Nat.min_le_right _ _), List.take_eq_take_min.symm] at hn

theorem WithinCapacity.all {capacity : Nat} {events : List Event} (h : WithinCapacity capacity events) :
    ((live events).events.filterMap BankEvent.key).dedup.length ≤ capacity := by
  have hn := h events.length
  rwa [List.take_length] at hn

/-- **Every run keeps the rows of the current generation, and nothing else.** -/
theorem holds_run {capacity : Nat} {events : List Event} (h : WithinCapacity capacity events) :
    Holds sha256 ((BankJournal.new capacity).run sha256 events) (live events) ∧
      ((BankJournal.new capacity).run sha256 events).capacity = capacity := by
  induction events using List.reverseRecOn with
  | nil => exact ⟨Holds.empty sha256 capacity none, rfl⟩
  | append_singleton events ev ih =>
    obtain ⟨hold, hcap⟩ := ih h.init
    have hrun : (BankJournal.new capacity).run sha256 (events ++ [ev])
        = (((BankJournal.new capacity).run sha256 events).apply sha256 ev).1 := by
      rw [BankJournal.run, List.foldl_append]
      rfl
    have hlive : live (events ++ [ev]) = (live events).step ev := by
      rw [live, List.foldl_append]
      rfl
    have hall := h.all
    rw [hlive] at hall
    rw [hrun, hlive]
    refine ⟨hold.apply sha256 ev (by rw [hcap]; exact hall), ?_⟩
    rw [apply_capacity, hcap]

end Record

/-! ## §5. The payload is descending. -/

theorem descending_of_inOrder {α : Type} : ∀ {values : List (Nat × α)}, outOfOrder values = false →
    (values.map Prod.fst).Pairwise (· > ·) := by
  intro values h
  rw [← List.isChain_iff_pairwise]
  induction values with
  | nil => exact List.isChain_nil
  | cons a values ih =>
    cases values with
    | nil => exact List.isChain_singleton _
    | cons b values =>
      unfold outOfOrder at h
      rw [List.tail_cons, List.zip_cons_cons, List.any_cons, Bool.or_eq_false_iff,
        decide_eq_false_iff_not, Nat.not_le] at h
      exact List.IsChain.cons_cons h.1 (ih h.2)

theorem decode_descending {dataHex : Option (List Char)} {data : List UInt8} {hashes : List (Nat × String)}
    (h : decode dataHex = some (data, hashes)) : (hashes.map Prod.fst).Pairwise (· > ·) := by
  unfold decode at h
  simp only [Option.bind_eq_bind, Option.bind_eq_some_iff, Option.some.injEq, Prod.mk.injEq] at h
  obtain ⟨_, -, _, -, _, hparse, -, rfl⟩ := h
  unfold parseSlotHashes at hparse
  split at hparse
  · exact absurd hparse (by simp)
  simp only at hparse
  split at hparse
  · exact absurd hparse (by simp)
  split at hparse
  · exact absurd hparse (by simp)
  rename_i horder
  obtain rfl := Option.some.inj hparse
  rw [List.map_map]
  exact descending_of_inOrder (by simpa using horder)

/-! ## §6. An available context. -/

/-- The events of a bank agree on one parent below it and one payload. -/
structure Unanimous (events : List BankEvent) (slot deadline : Nat) : Prop where
  ordered : (events.map BankEvent.rx).Pairwise (· ≤ ·)
  inTime : ∀ e ∈ events, e.rx ≤ deadline
  evidence : ∃ parent hashes, parent < slot ∧ (hashes.map Prod.fst).Pairwise (· > ·) ∧
    hashes.head?.map Prod.fst = some parent ∧
    (∃ e ∈ events, ∃ status, e.report = .slot (some parent) status) ∧
    (∃ e ∈ events, ∃ startup owner dataHex, e.report = .account startup owner dataHex) ∧
    ∀ e ∈ events, match e.report with
      | .slot reported status => (∀ p ∈ reported, p = parent) ∧ status ≠ 6
      | .account startup owner dataHex => startup = false ∧ owner = some sysvarOwner ∧
          ∃ data, decode dataHex = some (data, hashes)

theorem Clean.unanimous {slot b deadline : Nat} {events : List BankEvent} {row : Row}
    (h : Clean (slot, b) events row) (hrx : row.lastRx ≤ deadline) (hdead : 6 ∉ row.statuses)
    (hparent : row.parent ≠ none) (hhashes : row.hashes.getD [] ≠ []) :
    Unanimous events slot deadline := by
  obtain ⟨parent, hp⟩ := Option.ne_none_iff_exists'.mp hparent
  obtain ⟨hashes, hh⟩ : ∃ hashes, row.hashes = some hashes := by
    cases hrow : row.hashes with
    | none => exact absurd (by rw [hrow]; rfl) hhashes
    | some hashes => exact ⟨hashes, rfl⟩
  rw [hh, Option.getD_some] at hhashes
  obtain ⟨first, rest, rfl⟩ := List.exists_cons_of_ne_nil hhashes
  obtain ⟨ep, hep, status, hrep⟩ := h.parent parent hp
  obtain ⟨ea, hea, startup, owner, dataHex, data, hacc, hdec⟩ := h.hashes _ hh
  have hlt : parent < slot := by
    have hag := h.agrees ep hep
    rw [hrep] at hag
    have hbelow := (hag.1 parent rfl).2
    rwa [h.slot] at hbelow
  have hfirst : first.1 = parent := h.newest first (by rw [hh]; rfl) parent hp
  refine ⟨h.ordered, fun e he => (h.last e he).trans hrx, parent, first :: rest, hlt,
    decode_descending hdec, by rw [List.head?_cons, Option.map_some, hfirst],
    ⟨ep, hep, status, hrep⟩, ⟨ea, hea, startup, owner, dataHex, hacc⟩, ?_⟩
  intro e he
  have hag := h.agrees e he
  cases hr : e.report with
  | slot reported status =>
    rw [hr] at hag
    refine ⟨fun p hq => ?_, fun hsix => hdead (hsix ▸ hag.2)⟩
    have hsame := (hag.1 p hq).1
    rw [hp] at hsame
    exact (Option.some.inj hsame).symm
  | account startup owner dataHex =>
    rw [hr] at hag
    obtain ⟨hs, ho, data, hashes, hd, hsame⟩ := hag
    rw [hh] at hsame
    obtain rfl := Option.some.inj hsame
    exact ⟨hs, ho, data, hd⟩

theorem context_eq_available {j : BankJournal} {slot : Nat} {bankId : Option Nat}
    {generation : Option String} {deadline : Nat} {row : Option Row}
    (h : j.context slot bankId generation deadline = (.available, row)) :
    ∃ b r, bankId = some b ∧ generation = j.generation ∧ generation ≠ none ∧
      get j.records (slot, b) = some r ∧ row = some r ∧ r.reason deadline = .available := by
  unfold BankJournal.context at h
  split at h
  · exact absurd h (by simp)
  rename_i hgen
  obtain ⟨hnone, heq⟩ := not_or.mp hgen
  cases bankId with
  | none => exact absurd h (by simp)
  | some b =>
    cases hget : get j.records (slot, b) with
    | none => simp [hget] at h
    | some r =>
      simp only [hget] at h
      split at h
      · rename_i hreason
        exact ⟨b, r, rfl, not_not.mp heq, hnone, hget, (Prod.mk.inj h).2.symm, hreason⟩
      · rename_i hreason
        exact absurd (Prod.mk.inj h).1 hreason

theorem reason_available {row : Row} {deadline : Nat} (h : row.reason deadline = .available) :
    row.lastRx ≤ deadline ∧ row.conflict = false ∧ 6 ∉ row.statuses ∧ row.parent ≠ none ∧
      row.hashes.getD [] ≠ [] := by
  unfold Row.reason at h
  split at h
  · exact absurd h (by simp)
  split at h
  · exact absurd h (by simp)
  split at h
  · exact absurd h (by simp)
  split at h
  · exact absurd h (by simp)
  rename_i hrx hconf hdead hinc
  obtain ⟨hp, hh⟩ := not_or.mp hinc
  exact ⟨Nat.not_lt.mp hrx, by simpa using hconf, hdead, hp, hh⟩

theorem foldl_live (l : Live) (events : List Event) : ∀ pre : List Event,
    (pre ++ events).foldl Live.step l = events.foldl Live.step (pre.foldl Live.step l) :=
  fun _ => List.foldl_append

/-- **An available context is unanimous evidence of the current generation.**  The row
    is the fold of the events of that generation and bank alone; what came before the
    last `bank_generation`, or before a `bank_disconnect` of the generation that was
    current, is not among them. -/
theorem context_available_sound (sha256 : List UInt8 → String) {capacity : Nat} {events : List Event}
    (hcap : WithinCapacity capacity events) :
    (∀ slot bankId generation deadline row,
      ((BankJournal.new capacity).run sha256 events).context slot bankId generation deadline
        = (.available, row) →
      ∃ b r, bankId = some b ∧ generation = (live events).generation ∧ row = some r ∧
        rowOf sha256 (slot, b) (eventsOf (live events).events (slot, b)) = some r ∧
        Unanimous (eventsOf (live events).events (slot, b)) slot deadline) ∧
    (∀ pre g post, events = pre ++ .bankGeneration g :: post →
      live events = live (.bankGeneration g :: post)) ∧
    ∀ pre g post, events = pre ++ .bankDisconnect g :: post → g ≠ none →
      g = (live pre).generation → live events = live post := by
  refine ⟨?_, ?_, ?_⟩
  · intro slot bankId generation deadline row h
    obtain ⟨hold, -⟩ := holds_run sha256 hcap
    obtain ⟨b, r, rfl, hgen, -, hget, rfl, hreason⟩ := context_eq_available h
    obtain ⟨hrx, hconf, hdead, hparent, hhashes⟩ := reason_available hreason
    rw [hold.rows] at hget
    have hclean := clean_rowOf sha256 hget hconf
    exact ⟨b, r, rfl, hgen.trans hold.generation, rfl, hget,
      hclean.unanimous hrx hdead hparent hhashes⟩
  · rintro pre g post rfl
    rw [live, foldl_live]
    rfl
  · rintro pre g post rfl hg hcur
    rw [live, foldl_live, List.foldl_cons]
    have hstep : (live pre).step (.bankDisconnect g) = ⟨none, []⟩ := by
      simp only [Live.step]
      rw [if_neg]
      rintro (hne | hnone)
      · exact hne hcur
      · exact hg hnone
    show post.foldl Live.step ((live pre).step (.bankDisconnect g)) = _
    rw [hstep]
    rfl

/-! ## §7. A stale disconnect. -/

/-- One ancestor: slot 100, a zero hash. -/
def demoPayload : List Char :=
  ['0', '1'] ++ List.replicate 14 '0' ++ ['6', '4'] ++ List.replicate 78 '0'

/-- Evidence of connection "b" about bank 7 of slot 101. -/
def demoEvents : List Event :=
  [.bankGeneration (some "b"),
    .bank ⟨some "b", 101, some 7, 2, .account false (some sysvarOwner) (some demoPayload)⟩,
    .bank ⟨some "b", 101, some 7, 3, .slot (some 100) 0⟩]

theorem length_live_le (events : List Event) : (live events).events.length ≤ events.length := by
  induction events using List.reverseRecOn with
  | nil => exact Nat.le_refl 0
  | append_singleton events ev ih =>
    rw [live, List.foldl_append, List.foldl_cons, List.foldl_nil, List.length_append,
      List.length_singleton]
    show ((live events).step ev).events.length ≤ _
    cases ev with
    | bankGeneration g => exact Nat.zero_le _
    | bankDisconnect g =>
      simp only [Live.step]
      split
      · exact ih.trans (Nat.le_succ _)
      · exact Nat.zero_le _
    | bank e =>
      simp only [Live.step]
      split
      · exact ih.trans (Nat.le_succ _)
      · rw [List.length_append, List.length_singleton]
        exact Nat.succ_le_succ ih

/-- Fewer events than the capacity cannot mention more keys. -/
theorem withinCapacity_of_length {capacity : Nat} {events : List Event}
    (h : events.length ≤ capacity) : WithinCapacity capacity events := by
  intro n
  calc ((live (events.take n)).events.filterMap BankEvent.key).dedup.length
      ≤ ((live (events.take n)).events.filterMap BankEvent.key).length :=
        (List.dedup_sublist _).length_le
    _ ≤ (live (events.take n)).events.length := List.length_filterMap_le _ _
    _ ≤ (events.take n).length := length_live_le _
    _ ≤ events.length := List.length_take_le' n events
    _ ≤ capacity := h

/-- The disconnect of another connection is ignored: what came before it still counts. -/
theorem stale_disconnect_keeps_evidence :
    (((BankJournal.new 2048).run (fun _ => "") (demoEvents ++ [.bankDisconnect (some "a")])).context
        101 (some 7) (some "b") 10).1 = .available ∧
      (((BankJournal.new 2048).run (fun _ => "") [.bankDisconnect (some "a")]).context
        101 (some 7) (some "b") 10).1 = .generationUnbound := by
  constructor <;> decide +kernel

theorem context_available_sound_demo :
    Unanimous (eventsOf (live demoEvents).events (101, 7)) 101 10 ∧
      (((BankJournal.new 2048).run (fun _ => "") demoEvents).context 101 (some 7) (some "b") 10).1
        = .available := by
  have hctx : (((BankJournal.new 2048).run (fun _ => "") demoEvents).context
      101 (some 7) (some "b") 10).1 = .available := by decide +kernel
  have hcap : WithinCapacity 2048 demoEvents := withinCapacity_of_length (by decide)
  have hpair : ∀ x : Reason × Option Row, x.1 = .available → x = (.available, x.2) :=
    fun x h => Prod.ext h rfl
  obtain ⟨b, r, hb, -, -, -, hun⟩ := (context_available_sound (fun _ => "") hcap).1 101 (some 7)
    (some "b") 10 _ (hpair _ hctx)
  obtain rfl := Option.some.inj hb
  exact ⟨hun, hctx⟩

end ShredArb.Bank
