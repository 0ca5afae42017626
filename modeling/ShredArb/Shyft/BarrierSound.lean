/-
  ShredArb.Shyft.BarrierSound — what an available snapshot stands for, and in
  which order its evidence may arrive.

  An entry is the fold of what touched it since it was created, whatever the
  other signatures did meanwhile.  Its fields are then properties of that log, and
  all of them but the versions are properties of its ELEMENTS.

  Main results:
    * `spec_run` — an entry is the fold of its log,
    * `snapshot_sound` — what `available` certifies, and that the order of the
      calls does not matter.
-/
import ShredArb.Shyft.Barrier

namespace ShredArb.Barrier

open ShredArb.Dict ShredArb.Hex

/-! ## §1. One call. -/

/-- Touches one after another. -/
def applyTouches (cur : Option Entry) (ts : List Touch) : Option Entry :=
  ts.foldl (fun e t => some (touch e t)) cur

/-- The entry a log makes. -/
def entryOf (log : List Touch) : Option Entry := applyTouches none log

theorem applyTouches_append (cur : Option Entry) (ts ts' : List Touch) :
    applyTouches cur (ts ++ ts') = applyTouches (applyTouches cur ts) ts' :=
  List.foldl_append

theorem spec_set (b : TxBarrier) (s : String) (row : Entries Int Entry) (sig : String) (idx : Int) :
    spec (set b s row) sig idx = if s = sig then get row idx else spec b sig idx := by
  unfold spec
  rw [get_set]
  split
  · rw [Option.bind_some]
  · rfl

theorem spec_evict {b : TxBarrier} (hb : NodupKeys b) (sig : String) (idx : Int) :
    spec (evict b) sig idx = none ∨ spec (evict b) sig idx = spec b sig idx := by
  unfold spec evict
  rcases get_drop hb (b.length - sigCap) sig with hnone | hsame
  · left
    rw [hnone, Option.bind_none]
  · right
    rw [hsame]

/-- The loop of `note_tx` over one pool. -/
theorem get_foldl_shape (slot : Int) (idx : Int) : ∀ (specs : List (Int × List String))
    (row : Entries Int Entry),
    get (specs.foldl (fun row spec => set row spec.1 (touch (get row spec.1) (.shape slot spec.2)))
        row) idx
      = applyTouches (get row idx)
          ((specs.filter fun spec => spec.1 = idx).map fun spec => .shape slot spec.2) := by
  intro specs
  induction specs with
  | nil => exact fun row => rfl
  | cons sp specs ih =>
    intro row
    rw [List.foldl_cons, ih, get_set]
    by_cases h : sp.1 = idx
    · rw [if_pos h, List.filter_cons_of_pos (by simpa using h), h]
      rfl
    · rw [if_neg h, List.filter_cons_of_neg (by simpa using h)]

theorem spec_erase (b : TxBarrier) (s sig : String) (idx : Int) :
    spec (erase b s) sig idx = none ∨ spec (erase b s) sig idx = spec b sig idx := by
  unfold spec
  rw [get_erase]
  split
  · exact Or.inl rfl
  · exact Or.inr rfl

theorem spec_drop (b : TxBarrier) (s : String) (poolIdx : Option Int) (sig : String) (idx : Int) :
    spec (drop b s poolIdx) sig idx = none ∨ spec (drop b s poolIdx) sig idx = spec b sig idx := by
  cases poolIdx with
  | none => exact spec_erase b s sig idx
  | some i =>
    cases hrow : get b s with
    | none => exact Or.inr (by simp only [drop, hrow])
    | some row =>
      simp only [drop, hrow]
      split
      · exact Or.inr rfl
      split
      · exact spec_erase b s sig idx
      · unfold spec
        rw [get_set]
        by_cases hs : s = sig
        · rw [if_pos hs, Option.bind_some, get_erase, ← hs, hrow, Option.bind_some]
          split
          · exact Or.inl rfl
          · exact Or.inr rfl
        · rw [if_neg hs]
          exact Or.inr rfl

/-- The signature a call is for. -/
def Call.sig : Call → String
  | .noteTx sig _ _ => sig
  | .noteWrite sig _ _ _ _ => sig
  | .drop sig _ => sig

/-- What a call does: nothing, a new row under its signature, or a drop. -/
theorem step_cases (b : TxBarrier) (c : Call) :
    (step b c = b ∧ ∀ sig idx, c.touches sig idx = []) ∨
      (∃ row, step b c = evict (set b c.sig row) ∧
        (∀ idx, get row idx = applyTouches (spec b c.sig idx) (c.touches c.sig idx)) ∧
        ∀ sig idx, c.sig ≠ sig → c.touches sig idx = []) ∨
      ∃ s i, c = .drop s i := by
  cases c with
  | noteTx s slot specs =>
    by_cases hskip : s = "" ∨ specs = []
    · refine Or.inl ⟨by simp only [step, noteTx, if_pos hskip], fun sig idx => ?_⟩
      simp only [Call.touches]
      rcases hskip with hs | hnil
      · rw [if_neg fun h => h.2 hs]
      · rw [hnil]
        split <;> rfl
    · have hne : s ≠ "" := fun h => hskip (Or.inl h)
      refine Or.inr (Or.inl ⟨_, if_neg hskip, fun idx => ?_,
        fun sig idx hs => ?_⟩)
      · rw [get_foldl_shape]
        simp only [Call.touches, Call.sig, spec, true_and, ne_eq, hne, not_false_eq_true, if_true]
        cases get b s <;> rfl
      · exact if_neg fun h => hs h.1
  | noteWrite s slot i pk version =>
    by_cases hskip : s = "" ∨ pk = ""
    · refine Or.inl ⟨by simp only [step, noteWrite, if_pos hskip], fun sig idx => ?_⟩
      refine if_neg ?_
      rintro ⟨-, hs, hpk, -⟩
      exact hskip.elim hs hpk
    · have hne : s ≠ "" ∧ pk ≠ "" := not_or.mp hskip
      refine Or.inr (Or.inl ⟨_, if_neg hskip, fun idx => ?_,
        fun sig idx hs => ?_⟩)
      · rw [get_set]
        simp only [Call.touches, Call.sig, spec]
        by_cases hi : i = idx
        · rw [if_pos hi, if_pos ⟨trivial, hne.1, hne.2, hi⟩, hi]
          cases get b s <;> rfl
        · rw [if_neg hi, if_neg fun h => hi h.2.2.2]
          cases get b s <;> rfl
      · exact if_neg fun h => hs h.1
  | drop s i => exact Or.inr (Or.inr ⟨s, i, rfl⟩)

theorem spec_set_row {b : TxBarrier} {c : Call} {row : Entries Int Entry}
    (hrow : ∀ idx, get row idx = applyTouches (spec b c.sig idx) (c.touches c.sig idx))
    (hother : ∀ sig idx, c.sig ≠ sig → c.touches sig idx = []) (sig : String) (idx : Int) :
    spec (set b c.sig row) sig idx = applyTouches (spec b sig idx) (c.touches sig idx) := by
  rw [spec_set]
  by_cases hs : c.sig = sig
  · rw [if_pos hs, hrow, hs]
  · rw [if_neg hs, hother sig idx hs]
    rfl

/-- **A call removes an entry or touches it; it does nothing else to it.** -/
theorem spec_step {b : TxBarrier} (hb : NodupKeys b) (c : Call) (sig : String) (idx : Int) :
    spec (step b c) sig idx = none ∨
      spec (step b c) sig idx = applyTouches (spec b sig idx) (c.touches sig idx) := by
  rcases step_cases b c with ⟨hsame, hnone⟩ | ⟨row, hstep, hrow, hother⟩ | ⟨s, i, rfl⟩
  · right
    rw [hsame, hnone]
    rfl
  · rw [hstep, ← spec_set_row hrow hother sig idx]
    exact spec_evict (hb.set _ _) sig idx
  · exact spec_drop b s i sig idx

theorem NodupKeys.step {b : TxBarrier} (hb : NodupKeys b) (c : Call) : NodupKeys (step b c) := by
  cases c with
  | noteTx s slot specs =>
    simp only [Barrier.step, noteTx]
    split
    · exact hb
    · exact (hb.set _ _).drop _
  | noteWrite s slot i pk version =>
    simp only [Barrier.step, noteWrite]
    split
    · exact hb
    · exact (hb.set _ _).drop _
  | drop s poolIdx =>
    cases poolIdx with
    | none => exact hb.erase s
    | some i =>
      simp only [Barrier.step, drop]
      cases get b s with
      | none => exact hb
      | some row =>
        simp only
        split
        · exact hb
        · split
          · exact hb.erase s
          · exact hb.set _ _

/-! ## §2. A run. -/

/-- **An entry is the fold of what touched it since it was created.** -/
theorem spec_run (sig : String) (idx : Int) : ∀ (calls : List Call) {b : TxBarrier} {log : List Touch},
    NodupKeys b → spec b sig idx = entryOf log →
    spec (run b calls) sig idx = entryOf (sinceCreated sig idx b log calls) := by
  intro calls
  induction calls with
  | nil => exact fun _ h => h
  | cons c calls ih =>
    intro b log hb h
    rw [sinceCreated]
    refine ih (NodupKeys.step hb c) ?_
    rcases spec_step hb c sig idx with hnone | hsame
    · rw [hnone]
      rfl
    · split
      · rename_i hgone
        rw [Option.isNone_iff_eq_none.mp hgone]
        rfl
      · rw [hsame, h, entryOf, entryOf, applyTouches_append]

/-! ## §3. What a log says. -/

/-- A notice names the account. -/
def Expected (log : List Touch) (pk : String) : Prop := ∃ slot ks, .shape slot ks ∈ log ∧ pk ∈ ks

/-- The account was written. -/
def Received (log : List Touch) (pk : String) : Prop := ∃ slot v, .write slot pk v ∈ log

/-- The account was written under a version. -/
def Versioned (log : List Touch) (pk : String) (r : Row) : Prop := ∃ slot, .write slot pk (some r) ∈ log

/-- An account has two identities. -/
def Conflicting (log : List Touch) : Prop :=
  ∃ pk r r', Versioned log pk r ∧ Versioned log pk r' ∧ writeIdentity r ≠ writeIdentity r'

/-- The entry holds what the log says. -/
structure Records (log : List Touch) (e : Entry) : Prop where
  expected : ∀ pk, pk ∈ e.expected ↔ Expected log pk
  received : ∀ pk, pk ∈ e.received ↔ Received log pk
  conflict : e.versionConflict = true ↔ Conflicting log
  latest : ∀ pk i, e.versions pk = some i → ∃ r, Versioned log pk r ∧ writeIdentity r = i
  noted : ∀ pk r, Versioned log pk r → (e.versions pk).isSome = true

theorem records_new (slot : Int) : Records [] (Entry.new slot) where
  expected := by simp [Entry.new, Expected]
  received := by simp [Entry.new, Received]
  conflict := by simp [Entry.new, Conflicting, Versioned]
  latest := by simp [Entry.new]
  noted := by simp [Versioned]

theorem versioned_append {log : List Touch} {t : Touch} {pk : String} {r : Row} :
    Versioned (log ++ [t]) pk r ↔ Versioned log pk r ∨ ∃ slot, t = .write slot pk (some r) := by
  unfold Versioned
  simp only [List.mem_append, List.mem_singleton]
  constructor
  · rintro ⟨slot, h | h⟩
    · exact Or.inl ⟨slot, h⟩
    · exact Or.inr ⟨slot, h.symm⟩
  · rintro (⟨slot, h⟩ | ⟨slot, h⟩)
    · exact ⟨slot, Or.inl h⟩
    · exact ⟨slot, Or.inr h.symm⟩

theorem received_append {log : List Touch} {t : Touch} {pk : String} :
    Received (log ++ [t]) pk ↔ Received log pk ∨ ∃ slot v, t = .write slot pk v := by
  unfold Received
  simp only [List.mem_append, List.mem_singleton]
  constructor
  · rintro ⟨slot, v, h | h⟩
    · exact Or.inl ⟨slot, v, h⟩
    · exact Or.inr ⟨slot, v, h.symm⟩
  · rintro (⟨slot, v, h⟩ | ⟨slot, v, h⟩)
    · exact ⟨slot, v, Or.inl h⟩
    · exact ⟨slot, v, Or.inr h.symm⟩

theorem expected_append {log : List Touch} {t : Touch} {pk : String} :
    Expected (log ++ [t]) pk ↔ Expected log pk ∨ ∃ slot ks, t = .shape slot ks ∧ pk ∈ ks := by
  unfold Expected
  simp only [List.mem_append, List.mem_singleton]
  constructor
  · rintro ⟨slot, ks, h | h, hpk⟩
    · exact Or.inl ⟨slot, ks, h, hpk⟩
    · exact Or.inr ⟨slot, ks, h.symm, hpk⟩
  · rintro (⟨slot, ks, h, hpk⟩ | ⟨slot, ks, h, hpk⟩)
    · exact ⟨slot, ks, Or.inl h, hpk⟩
    · exact ⟨slot, ks, Or.inr h.symm, hpk⟩

/-- A touch without a version leaves the versions alone. -/
theorem Records.unversioned {log : List Touch} {e e' : Entry} {t : Touch} (h : Records log e)
    (ht : ∀ slot pk r, t ≠ .write slot pk (some r))
    (hexp : ∀ pk, pk ∈ e'.expected ↔ Expected (log ++ [t]) pk)
    (hrec : ∀ pk, pk ∈ e'.received ↔ Received (log ++ [t]) pk)
    (hv : e'.versions = e.versions) (hc : e'.versionConflict = e.versionConflict) :
    Records (log ++ [t]) e' := by
  have hsame : ∀ pk r, Versioned (log ++ [t]) pk r ↔ Versioned log pk r := by
    intro pk r
    rw [versioned_append]
    exact ⟨fun h => h.resolve_right fun ⟨slot, hw⟩ => ht slot pk r hw, Or.inl⟩
  refine ⟨hexp, hrec, ?_, ?_, ?_⟩
  · rw [hc, h.conflict]
    simp only [Conflicting, hsame]
  · intro pk i hi
    rw [hv] at hi
    simp only [hsame]
    exact h.latest pk i hi
  · intro pk r hr
    rw [hv]
    exact h.noted pk r ((hsame pk r).mp hr)

theorem received_insert {log : List Touch} {e : Entry} {slot : Int} {pk : String}
    {version : Option Row} (h : Records log e) (k : String) :
    k ∈ insert pk e.received ↔ Received (log ++ [.write slot pk version]) k := by
  rw [received_append, Finset.mem_insert, h.received k]
  constructor
  · rintro (rfl | h)
    · exact Or.inr ⟨slot, version, rfl⟩
    · exact Or.inl h
  · rintro (h | ⟨slot', v', h⟩)
    · exact Or.inr h
    · exact Or.inl (Touch.write.inj h).2.1.symm

/-- A versioned write: the newest identity stands, an older one that differs is a conflict. -/
theorem Records.version {log : List Touch} {e : Entry} {slot : Int} {pk : String} {v : Row}
    (h : Records log e) :
    Records (log ++ [.write slot pk (some v)])
      (Entry.noteVersion { e with received := insert pk e.received } pk v) := by
  have hlast : Versioned (log ++ [.write slot pk (some v)]) pk v :=
    versioned_append.mpr (Or.inr ⟨slot, rfl⟩)
  have hver : ∀ pk' r, Versioned (log ++ [.write slot pk (some v)]) pk' r ↔
      Versioned log pk' r ∨ (pk = pk' ∧ v = r) := by
    intro pk' r
    rw [versioned_append]
    constructor
    · rintro (h | ⟨slot', h⟩)
      · exact Or.inl h
      · obtain ⟨-, rfl, hr⟩ := Touch.write.inj h
        exact Or.inr ⟨rfl, Option.some.inj hr⟩
    · rintro (h | ⟨rfl, rfl⟩)
      · exact Or.inl h
      · exact Or.inr ⟨slot, rfl⟩
  refine ⟨?_, ?_, ?_, ?_, ?_⟩
  · intro k
    rw [expected_append]
    exact (h.expected k).trans ⟨Or.inl, fun h => h.resolve_right (by simp)⟩
  · exact received_insert h
  · show (e.versionConflict || ((e.versions pk).any fun old => old != writeIdentity v)) = true ↔ _
    rw [Bool.or_eq_true, h.conflict]
    constructor
    · rintro (⟨k, r, r', hr, hr', hne⟩ | hany)
      · exact ⟨k, r, r', (hver k r).mpr (Or.inl hr), (hver k r').mpr (Or.inl hr'), hne⟩
      · obtain ⟨old, hold, hne⟩ := (Option.any_eq_true _ _).mp hany
        obtain ⟨r, hr, rfl⟩ := h.latest pk old hold
        exact ⟨pk, r, v, (hver pk r).mpr (Or.inl hr), hlast, by simpa using hne⟩
    · -- one of two identities may be the new one; then the entry's own is the other
      have hold : ∀ r, Versioned log pk r → writeIdentity r ≠ writeIdentity v →
          Conflicting log ∨ ((e.versions pk).any fun old => old != writeIdentity v) = true := by
        intro r hr hne
        obtain ⟨i, hi⟩ := Option.isSome_iff_exists.mp (h.noted pk r hr)
        obtain ⟨r'', hr'', rfl⟩ := h.latest pk i hi
        by_cases heq : writeIdentity r'' = writeIdentity v
        · exact Or.inl ⟨pk, r, r'', hr, hr'', heq ▸ hne⟩
        · exact Or.inr ((Option.any_eq_true _ _).mpr ⟨_, hi, by simpa using heq⟩)
      rintro ⟨k, r, r', hr, hr', hne⟩
      rcases (hver k r).mp hr with hr | ⟨rfl, rfl⟩
      · rcases (hver k r').mp hr' with hr' | ⟨rfl, rfl⟩
        · exact Or.inl ⟨k, r, r', hr, hr', hne⟩
        · exact hold r hr hne
      · rcases (hver pk r').mp hr' with hr' | ⟨-, rfl⟩
        · exact hold r' hr' hne.symm
        · exact absurd rfl hne
  · intro k i hi
    have hupd : Function.update e.versions pk (some (writeIdentity v)) k = some i := hi
    by_cases hk : k = pk
    · subst hk
      rw [Function.update_self] at hupd
      exact ⟨v, hlast, Option.some.inj hupd⟩
    · rw [Function.update_of_ne hk] at hupd
      obtain ⟨r, hr, hi⟩ := h.latest k i hupd
      exact ⟨r, (hver k r).mpr (Or.inl hr), hi⟩
  · intro k r hr
    show (Function.update e.versions pk (some (writeIdentity v)) k).isSome = true
    by_cases hk : k = pk
    · rw [hk, Function.update_self, Option.isSome_some]
    · rw [Function.update_of_ne hk]
      refine h.noted k r (((hver k r).mp hr).resolve_right ?_)
      exact fun hnew => hk hnew.1.symm

theorem Records.receive {log : List Touch} {e : Entry} {slot : Int} {pk : String} (h : Records log e)
    (version : Option Row) : Records (log ++ [.write slot pk version]) (e.receive pk version) := by
  cases version with
  | some v => exact h.version
  | none =>
    refine h.unversioned (by simp) ?_ (received_insert h) rfl rfl
    intro k
    rw [expected_append]
    exact (h.expected k).trans ⟨Or.inl, fun h => h.resolve_right (by simp)⟩

theorem Records.of_slot {log : List Touch} {e : Entry} (h : Records log e) (slot : Int) :
    Records log { e with slot := slot } :=
  ⟨h.expected, h.received, h.conflict, h.latest, h.noted⟩

/-- A touch records itself. -/
theorem Records.touch {log : List Touch} {cur : Option Entry} (t : Touch)
    (h : ∀ slot, Records log (cur.getD (Entry.new slot))) : Records (log ++ [t]) (Barrier.touch cur t) := by
  cases t with
  | shape slot ks =>
    refine (h slot).unversioned (by simp) ?_ ?_ rfl rfl
    · intro pk
      rw [expected_append]
      show pk ∈ (cur.getD (Entry.new slot)).expected ∪ ks.toFinset ↔ _
      rw [Finset.mem_union, (h slot).expected pk, List.mem_toFinset]
      simp
    · intro pk
      rw [received_append]
      exact ((h slot).received pk).trans ⟨Or.inl, fun h => h.resolve_right (by simp)⟩
  | write slot pk version =>
    have hbase : Records (log ++ [.write slot pk version]) _ := (h slot).receive version
    simp only [Barrier.touch]
    split
    · exact hbase.of_slot slot
    · exact hbase

theorem entryOf_append (log : List Touch) (t : Touch) :
    entryOf (log ++ [t]) = some (touch (entryOf log) t) := by
  rw [entryOf, applyTouches_append]
  rfl

/-- **An entry records its log.** -/
theorem records_entryOf {log : List Touch} {e : Entry} (h : entryOf log = some e) : Records log e := by
  have hall : ∀ (log : List Touch) (slot : Int), Records log ((entryOf log).getD (Entry.new slot)) := by
    intro log
    induction log using List.reverseRecOn with
    | nil => exact records_new
    | append_singleton log t ih =>
      intro slot
      rw [entryOf_append, Option.getD_some]
      exact Records.touch t ih
  have hrec := hall log 0
  rwa [h, Option.getD_some] at hrec

/-! ## §4. The slot of a transaction. -/

/-- The slot a touch carries. -/
def Touch.slot : Touch → Int
  | .shape slot _ => slot
  | .write slot _ _ => slot

/-- The slot of the last notice. -/
def noticeSlot : List Touch → Option Int
  | [] => none
  | .shape slot _ :: log => (noticeSlot log).or (some slot)
  | .write _ _ _ :: log => noticeSlot log

theorem touch_slot_shape (cur : Option Entry) (slot : Int) (ks : List String) :
    (touch cur (.shape slot ks)).slot = slot := rfl

/-- A write leaves a slot that is known. -/
theorem touch_slot_write {cur : Option Entry} {slot : Int} {pk : String} {version : Option Row}
    (h : (cur.getD (Entry.new slot)).slot ≠ 0) :
    (touch cur (.write slot pk version)).slot = (cur.getD (Entry.new slot)).slot := by
  have hkeep : ((cur.getD (Entry.new slot)).receive pk version).slot
      = (cur.getD (Entry.new slot)).slot := by
    cases version <;> rfl
  simp only [touch]
  rw [if_neg (by rw [hkeep]; exact h), hkeep]

theorem noticeSlot_append (log : List Touch) (t : Touch) :
    noticeSlot (log ++ [t]) = match t with
      | .shape slot _ => some slot
      | .write _ _ _ => noticeSlot log := by
  induction log with
  | nil => cases t <;> rfl
  | cons t' log ih =>
    cases t' with
    | shape slot' ks' =>
      rw [List.cons_append, noticeSlot, ih, noticeSlot]
      cases t <;> simp
    | write slot' pk' v' =>
      rw [List.cons_append, noticeSlot, ih, noticeSlot]

/-- A slot that a notice gave stays until the next notice. -/
theorem slot_of_noticeSlot {log : List Touch} : ∀ {e : Entry} {t : Int},
    entryOf log = some e → noticeSlot log = some t → t ≠ 0 → e.slot = t := by
  induction log using List.reverseRecOn with
  | nil => exact fun h => absurd h (by simp [entryOf, applyTouches])
  | append_singleton log u ih =>
    intro e t he ht hne
    rw [entryOf_append] at he
    obtain rfl := Option.some.inj he
    rw [noticeSlot_append] at ht
    cases u with
    | shape slot ks => exact Option.some.inj ht
    | write slot pk version =>
      simp only at ht
      cases hlog : entryOf log with
      | none =>
        -- nothing touched the entry, so no notice did
        have hnil : log = [] := by
          induction log using List.reverseRecOn with
          | nil => rfl
          | append_singleton log t _ => exact absurd hlog (by rw [entryOf_append]; simp)
        rw [hnil] at ht
        exact absurd ht (by simp [noticeSlot])
      | some e =>
        have hslot := ih hlog ht hne
        rw [touch_slot_write (by rw [Option.getD_some, hslot]; exact hne), Option.getD_some, hslot]

/-- One slot in every touch is the entry's. -/
theorem slot_of_uniform {log : List Touch} {s : Int} (hs : s ≠ 0) (h : ∀ t ∈ log, t.slot = s)
    {e : Entry} (he : entryOf log = some e) : e.slot = s := by
  have hall : ∀ log : List Touch, (∀ t ∈ log, t.slot = s) →
      ((entryOf log).getD (Entry.new s)).slot = s := by
    intro log
    induction log using List.reverseRecOn with
    | nil => exact fun _ => rfl
    | append_singleton log t ih =>
      intro h
      have hprev := ih fun u hu => h u (List.mem_append_left _ hu)
      have ht : t.slot = s := h t (List.mem_append_right _ List.mem_cons_self)
      rw [entryOf_append, Option.getD_some]
      cases t with
      | shape slot ks => exact ht
      | write slot pk version =>
        obtain rfl : slot = s := ht
        rw [touch_slot_write (by rw [hprev]; exact hs), hprev]
  have hfin := hall log h
  rwa [he, Option.getD_some] at hfin

/-! ## §5. An available snapshot. -/

/-- The order meets every account of the set. -/
def Enumerates (iter : List String) (accounts : Finset String) : Prop := ∀ pk, pk ∈ iter ↔ pk ∈ accounts

theorem checkPk_eq_none {sp : Entry} {sig : String} {latest : String → Option Row} {pk : String} :
    checkPk sp sig latest pk = none ↔
      sp.versions pk = some (writeIdentity (rowOf latest pk)) ∧
        (rowOf latest pk).slot = some sp.slot ∧ hex ((rowOf latest pk).txnSig.getD []) = sig := by
  unfold checkPk
  cases sp.versions pk with
  | none => simp
  | some captured =>
    simp only
    by_cases hid : captured = writeIdentity (rowOf latest pk)
    · rw [if_neg (by simpa using hid)]
      by_cases hbad : (rowOf latest pk).slot ≠ some sp.slot ∨ hex ((rowOf latest pk).txnSig.getD []) ≠ sig
      · rw [if_pos hbad]
        simp only [reduceCtorEq, false_iff]
        rintro ⟨-, hslot, hsig⟩
        rcases hbad with h | h
        · exact h hslot
        · exact h hsig
      · rw [if_neg hbad]
        obtain ⟨hslot, hsig⟩ := not_or.mp hbad
        exact ⟨fun _ => ⟨congrArg some hid, not_not.mp hslot, not_not.mp hsig⟩, fun _ => rfl⟩
    · rw [if_pos hid]
      simp only [reduceCtorEq, false_iff]
      rintro ⟨h, -⟩
      exact hid (Option.some.inj h)

theorem checkPk_refuses {sp : Entry} {sig : String} {latest : String → Option Row} {pk : String}
    {v : Verdict} (h : checkPk sp sig latest pk = some v) : v.identityRefusal = true := by
  unfold checkPk at h
  cases hv : sp.versions pk with
  | none =>
    rw [hv] at h
    obtain rfl := Option.some.inj h
    rfl
  | some captured =>
    simp only [hv] at h
    split at h
    · obtain rfl := Option.some.inj h
      rfl
    · split at h
      · obtain rfl := Option.some.inj h
        rfl
      · exact absurd h (by simp)

theorem findSome?_refuses {sp : Entry} {sig : String} {latest : String → Option Row}
    {iter : List String} {v : Verdict} (h : iter.findSome? (checkPk sp sig latest) = some v) :
    v.identityRefusal = true := by
  obtain ⟨pk, -, hpk⟩ := List.exists_of_findSome?_eq_some h
  exact checkPk_refuses hpk

/-- Everything the snapshot checks before it hands out the rows. -/
structure Passed (sp : Entry) (sig : String) (required : List String) (latest : String → Option Row)
    (iter : List String) : Prop where
  commit : sp.canCommit = true
  agree : sp.versionConflict = false
  subset : sp.expected ⊆ required.toFinset
  data : ∀ pk ∈ required, (rowOf latest pk).data.getD [] ≠ []
  slots : ∀ pk ∈ required, (rowOf latest pk).slot.getD 0 ≤ sp.slot
  checked : ∀ pk ∈ iter, checkPk sp sig latest pk = none

theorem snapshot_available {b : TxBarrier} {sig : String} {idx : Int} {required : List String}
    {latest : String → Option Row} {iter : List String} {rows : Option (List (String × Row))}
    (h : snapshot b sig idx required latest iter = (.available, rows)) :
    ∃ sp, spec b sig idx = some sp ∧ Passed sp sig required latest iter ∧
      rows = some (required.map fun pk => (pk, rowOf latest pk)) := by
  unfold snapshot at h
  cases hsp : spec b sig idx with
  | none => simp [hsp] at h
  | some sp =>
    simp only [hsp, Entry.snapshot] at h
    split at h
    case isTrue => simp at h
    rename_i hcommit
    split at h
    case isTrue => simp at h
    rename_i hagree
    split at h
    case isTrue => simp at h
    rename_i hsub
    split at h
    case isTrue => simp at h
    rename_i hdata
    split at h
    case isTrue => simp at h
    rename_i hslots
    cases hfind : iter.findSome? (checkPk sp sig latest) with
    | some refusal =>
      -- a refusal of the loop is not `available`
      rw [hfind] at h
      obtain ⟨rfl, -⟩ := Prod.mk.inj h
      exact absurd (findSome?_refuses hfind) (by decide)
    | none =>
      rw [hfind] at h
      refine ⟨sp, rfl, ⟨by simpa using hcommit, by simpa using hagree, not_not.mp hsub, ?_, ?_, ?_⟩,
        (Prod.mk.inj h).2.symm⟩
      · intro pk hpk hnil
        exact hdata (List.any_eq_true.mpr ⟨pk, hpk, by simp [hnil]⟩)
      · intro pk hpk
        by_contra hlt
        exact hslots (List.any_eq_true.mpr ⟨pk, hpk, by simpa using hlt⟩)
      · exact List.findSome?_eq_none_iff.mp hfind

/-! ## §6. Any order. -/

/-- Two entries the snapshot cannot tell apart. -/
structure SameEntry (e e' : Entry) : Prop where
  expected : e.expected = e'.expected
  received : e.received = e'.received
  slot : e.slot = e'.slot
  conflict : e.versionConflict = e'.versionConflict
  versions : e.versionConflict = false → e.versions = e'.versions

/-- Without a conflict the versions are a property of the log's elements. -/
theorem versions_eq {log log' : List Touch} {e e' : Entry} (h : Records log e) (h' : Records log' e')
    (hsame : ∀ pk r, Versioned log pk r ↔ Versioned log' pk r) (hc : e.versionConflict = false) :
    e.versions = e'.versions := by
  have hagree : ∀ pk r r', Versioned log pk r → Versioned log pk r' →
      writeIdentity r = writeIdentity r' := by
    intro pk r r' hr hr'
    by_contra hne
    have := h.conflict.mpr ⟨pk, r, r', hr, hr', hne⟩
    rw [hc] at this
    exact absurd this (by simp)
  funext pk
  cases hv : e.versions pk with
  | none =>
    cases hv' : e'.versions pk with
    | none => rfl
    | some i =>
      obtain ⟨r, hr, -⟩ := h'.latest pk i hv'
      have := h.noted pk r ((hsame pk r).mpr hr)
      rw [hv] at this
      exact absurd this (by simp)
  | some i =>
    obtain ⟨r, hr, rfl⟩ := h.latest pk i hv
    obtain ⟨i', hi'⟩ := Option.isSome_iff_exists.mp (h'.noted pk r ((hsame pk r).mp hr))
    obtain ⟨r', hr', rfl⟩ := h'.latest pk i' hi'
    rw [hi', hagree pk r r' hr ((hsame pk r').mpr hr')]

theorem sameEntry_of_perm {log log' : List Touch} {s : Int} (hs : s ≠ 0) (hp : log.Perm log')
    (hslot : ∀ t ∈ log, t.slot = s) {e e' : Entry} (he : entryOf log = some e)
    (he' : entryOf log' = some e') : SameEntry e e' := by
  have hrec := records_entryOf he
  have hrec' := records_entryOf he'
  have hver : ∀ pk r, Versioned log pk r ↔ Versioned log' pk r := by
    intro pk r
    simp only [Versioned, hp.mem_iff]
  refine ⟨?_, ?_, ?_, ?_, versions_eq hrec hrec' hver⟩
  · ext pk
    rw [hrec.expected, hrec'.expected]
    simp only [Expected, hp.mem_iff]
  · ext pk
    rw [hrec.received, hrec'.received]
    simp only [Received, hp.mem_iff]
  · rw [slot_of_uniform hs hslot he,
      slot_of_uniform hs (fun t ht => hslot t (hp.mem_iff.mpr ht)) he']
  · rw [Bool.eq_iff_iff, hrec.conflict, hrec'.conflict]
    simp only [Conflicting, hver]

theorem entryOf_isNone (log : List Touch) : entryOf log = none ↔ log = [] := by
  induction log using List.reverseRecOn with
  | nil => exact ⟨fun _ => rfl, fun _ => rfl⟩
  | append_singleton log t _ => simp [entryOf_append]

/-- The signature can be noted without an eviction. -/
def Room (b : TxBarrier) (sig : String) : Prop :=
  b.length < sigCap ∨ (sig ∈ b.map Prod.fst ∧ b.length ≤ sigCap)

theorem Room.set {b : TxBarrier} {sig : String} (h : Room b sig) (row : Entries Int Entry) :
    Room (Dict.set b sig row) sig ∧ evict (Dict.set b sig row) = Dict.set b sig row := by
  have hkeys := keys_set b sig row
  have hlen : (Dict.set b sig row).length ≤ sigCap := by
    have hmap := congrArg List.length hkeys
    rw [List.length_map] at hmap
    rw [hmap]
    split
    · rw [List.length_map]
      rcases h with h | ⟨-, h⟩
      · exact h.le
      · exact h
    · rename_i hnew
      rw [List.length_append, List.length_map, List.length_singleton]
      rcases h with h | ⟨hin, -⟩
      · exact h
      · exact absurd hin hnew
  have hmem : sig ∈ (Dict.set b sig row).map Prod.fst := by
    rw [hkeys]
    split
    · assumption
    · exact List.mem_append_right _ List.mem_cons_self
  refine ⟨Or.inr ⟨hmem, hlen⟩, ?_⟩
  rw [evict, Nat.sub_eq_zero_of_le hlen, List.drop_zero]

/-- Notes of one signature, with room: nothing is lost. -/
theorem spec_run_notes {sig : String} : ∀ (calls : List Call) {b : TxBarrier}, NodupKeys b →
    Room b sig → (∀ c ∈ calls, c.sig = sig ∧ ∀ s i, c ≠ .drop s i) → ∀ idx,
    spec (run b calls) sig idx
      = applyTouches (spec b sig idx) (calls.flatMap fun c => c.touches sig idx) := by
  intro calls
  induction calls with
  | nil => exact fun _ _ _ _ => rfl
  | cons c calls ih =>
    intro b hb hroom hcalls idx
    obtain ⟨hsig, hnodrop⟩ := hcalls c List.mem_cons_self
    have hrest := fun c' hc' => hcalls c' (List.mem_cons_of_mem c hc')
    rw [List.flatMap_cons, applyTouches_append]
    rcases step_cases b c with ⟨hsame, hnone⟩ | ⟨row, hstep, hrow, hother⟩ | ⟨s, i, hdrop⟩
    · rw [hnone]
      show spec (run (step b c) calls) sig idx = _
      rw [hsame]
      exact ih hb hroom hrest idx
    · obtain ⟨hroom', hkeep⟩ := (hsig ▸ hroom : Room b c.sig).set row
      rw [hkeep] at hstep
      rw [← spec_set_row hrow hother sig idx, ← hstep]
      refine ih (NodupKeys.step hb c) ?_ hrest idx
      rw [hstep, ← hsig]
      exact hroom'
    · exact absurd hdrop (hnodrop s i)

/-- Two answers that differ at most in which identity check refused. -/
def SameAnswer (x y : Verdict × Option (List (String × Row))) : Prop :=
  x = y ∨ x.2 = none ∧ y.2 = none ∧ x.1.identityRefusal = true ∧ y.1.identityRefusal = true

theorem snapshot_of_same {e e' : Entry} (h : SameEntry e e') (sig : String) (required : List String)
    (latest : String → Option Row) (iter : List String) :
    e.snapshot sig required latest iter = e'.snapshot sig required latest iter := by
  cases hc : e.versionConflict with
  | true =>
    have hcommit : e.canCommit = e'.canCommit := by
      rw [Entry.canCommit, Entry.canCommit, h.expected, h.received]
    have hc' : e'.versionConflict = true := by rw [← h.conflict, hc]
    simp only [Entry.snapshot, hcommit, hc, hc', if_true]
  | false =>
    have heq : e = e' := by
      obtain ⟨exp, rec, slot, ver, con⟩ := e
      obtain ⟨exp', rec', slot', ver', con'⟩ := e'
      obtain ⟨rfl, rfl, rfl, rfl, hver⟩ := h
      obtain rfl := hver hc
      rfl
    rw [heq]

/-- The iteration order of the set shows only in which check refuses. -/
theorem snapshot_iter {e : Entry} {iter iter' : List String} (h : ∀ pk, pk ∈ iter ↔ pk ∈ iter')
    (sig : String) (required : List String) (latest : String → Option Row) :
    SameAnswer (e.snapshot sig required latest iter) (e.snapshot sig required latest iter') := by
  unfold Entry.snapshot
  split
  · exact Or.inl rfl
  split
  · exact Or.inl rfl
  split
  · exact Or.inl rfl
  split
  · exact Or.inl rfl
  split
  · exact Or.inl rfl
  have hnone : iter.findSome? (checkPk e sig latest) = none ↔
      iter'.findSome? (checkPk e sig latest) = none := by
    simp only [List.findSome?_eq_none_iff, h]
  cases hi : iter.findSome? (checkPk e sig latest) with
  | none =>
    rw [hnone.mp hi]
    exact Or.inl rfl
  | some v =>
    cases hi' : iter'.findSome? (checkPk e sig latest) with
    | none => exact absurd (hnone.mpr hi') (by simp [hi])
    | some v' => exact Or.inr ⟨rfl, rfl, findSome?_refuses hi, findSome?_refuses hi'⟩

/-! ## §7. The barrier. -/

/-- A note for the signature that carries the slot. -/
def Call.Carries (sig : String) (slot : Int) : Call → Prop
  | .noteTx s t _ => s = sig ∧ t = slot
  | .noteWrite s t _ _ _ => s = sig ∧ t = slot
  | .drop _ _ => False

theorem Call.Carries.note {sig : String} {slot : Int} {c : Call} (h : c.Carries sig slot) :
    c.sig = sig ∧ ∀ s i, c ≠ .drop s i := by
  cases c with
  | noteTx s t specs => exact ⟨h.1, fun _ _ hc => nomatch hc⟩
  | noteWrite s t i pk v => exact ⟨h.1, fun _ _ hc => nomatch hc⟩
  | drop s i => exact h.elim

theorem Call.Carries.slots {sig : String} {slot : Int} {c : Call} (h : c.Carries sig slot) (idx : Int) :
    ∀ t ∈ c.touches sig idx, t.slot = slot := by
  cases c with
  | noteTx s t specs =>
    intro u hu
    simp only [Call.touches] at hu
    split at hu
    · obtain ⟨sp, -, rfl⟩ := List.mem_map.mp hu
      exact h.2
    · exact absurd hu (by simp)
  | noteWrite s t i pk v =>
    intro u hu
    simp only [Call.touches] at hu
    split at hu
    · rw [List.mem_singleton.mp hu]
      exact h.2
    · exact absurd hu (by simp)
  | drop s i => exact h.elim

/-- Notes of one signature and slot make, in every order, entries that the snapshot
    cannot tell apart. -/
theorem spec_run_perm {b : TxBarrier} {calls calls' : List Call} {sig : String} {slot : Int}
    (hb : NodupKeys b) (hlen : b.length < sigCap) (hnew : get b sig = none)
    (hperm : calls.Perm calls') (hslot : slot ≠ 0) (hcarry : ∀ c ∈ calls, c.Carries sig slot)
    (idx : Int) :
    (spec (run b calls) sig idx = none ∧ spec (run b calls') sig idx = none) ∨
      ∃ e e', spec (run b calls) sig idx = some e ∧ spec (run b calls') sig idx = some e' ∧
        SameEntry e e' := by
  have hcarry' : ∀ c ∈ calls', c.Carries sig slot := fun c hc => hcarry c (hperm.mem_iff.mpr hc)
  have hnone : spec b sig idx = none := by rw [spec, hnew, Option.bind_none]
  have hspec : spec (run b calls) sig idx = entryOf (calls.flatMap fun c => c.touches sig idx) := by
    rw [spec_run_notes calls hb (Or.inl hlen) (fun c hc => (hcarry c hc).note) idx, hnone, entryOf]
  have hspec' : spec (run b calls') sig idx
      = entryOf (calls'.flatMap fun c => c.touches sig idx) := by
    rw [spec_run_notes calls' hb (Or.inl hlen) (fun c hc => (hcarry' c hc).note) idx, hnone, entryOf]
  have hlogs := hperm.flatMap_right fun c => c.touches sig idx
  have hslots : ∀ t ∈ calls.flatMap fun c => c.touches sig idx, t.slot = slot := by
    intro t ht
    obtain ⟨c, hc, ht⟩ := List.mem_flatMap.mp ht
    exact (hcarry c hc).slots idx t ht
  rw [hspec, hspec']
  cases he : entryOf (calls.flatMap fun c => c.touches sig idx) with
  | none =>
    rw [(entryOf_isNone _).mp he] at hlogs
    exact Or.inl ⟨rfl, (entryOf_isNone _).mpr hlogs.nil_eq.symm⟩
  | some e =>
    cases he' : entryOf (calls'.flatMap fun c => c.touches sig idx) with
    | none =>
      rw [(entryOf_isNone _).mp he'] at hlogs
      rw [hlogs.eq_nil] at he
      exact absurd he (by simp [entryOf, applyTouches])
    | some e' => exact Or.inr ⟨e, e', rfl, rfl, sameEntry_of_perm hslot hlogs hslots he he'⟩

/-- What an available snapshot certifies, from what reached the entry since it was
    created. -/
structure Certified (log : List Touch) (sp : Entry) (sig : String) (required : List String)
    (rows : List (String × Row)) : Prop where
  /-- The slot is the one the last notice gave, unless that was zero. -/
  slot : ∀ t, noticeSlot log = some t → t ≠ 0 → sp.slot = t
  /-- Every expected account is required, was written, and its row carries the one
      identity of its writes, the slot and the signature. -/
  written : ∀ pk, Expected log pk → pk ∈ required ∧ Received log pk ∧
    ∃ row, (pk, row) ∈ rows ∧ (∃ r, Versioned log pk r) ∧
      (∀ r, Versioned log pk r → writeIdentity r = writeIdentity row) ∧
      row.slot = some sp.slot ∧ hex (row.txnSig.getD []) = sig
  /-- Every required row has data, and none is from a later slot. -/
  rows : ∀ pk ∈ required, ∃ row, (pk, row) ∈ rows ∧ row.data.getD [] ≠ [] ∧ row.slot.getD 0 ≤ sp.slot

/-- **The barrier.**  After every run, an available snapshot is certified by what
    reached its entry since the entry was created.  And notes of one signature and
    one non-zero slot give, in every order, the same rows and the same verdict — up
    to WHICH identity check refused, which follows the set's own iteration order. -/
theorem snapshot_sound :
    (∀ (calls : List Call) (sig : String) (idx : Int) (required : List String)
      (latest : String → Option Row) (iter : List String) (rows : Option (List (String × Row))),
      (∀ sp, spec (run [] calls) sig idx = some sp → Enumerates iter sp.expected) →
      snapshot (run [] calls) sig idx required latest iter = (.available, rows) →
      ∃ sp rs, spec (run [] calls) sig idx = some sp ∧ rows = some rs ∧
        Certified (sinceCreated sig idx [] [] calls) sp sig required rs) ∧
    (∀ (b : TxBarrier) (calls calls' : List Call) (sig : String) (slot : Int) (idx : Int)
      (required : List String) (latest : String → Option Row) (iter iter' : List String),
      NodupKeys b → b.length < sigCap → get b sig = none → calls.Perm calls' → slot ≠ 0 →
      (∀ c ∈ calls, c.Carries sig slot) →
      (∀ sp, spec (run b calls) sig idx = some sp → Enumerates iter sp.expected) →
      (∀ sp, spec (run b calls') sig idx = some sp → Enumerates iter' sp.expected) →
      SameAnswer (snapshot (run b calls) sig idx required latest iter)
          (snapshot (run b calls') sig idx required latest iter') ∧
        snapshot (run b calls) sig idx required latest iter
          = snapshot (run b calls') sig idx required latest iter) := by
  constructor
  · intro calls sig idx required latest iter rows hiter h
    obtain ⟨sp, hsp, hpass, rfl⟩ := snapshot_available h
    have hlog := spec_run sig idx calls (b := []) List.nodup_nil (show spec [] sig idx = entryOf [] from rfl)
    rw [hsp] at hlog
    have hrec := records_entryOf hlog.symm
    refine ⟨sp, _, hsp, rfl, ?_, ?_, ?_⟩
    · exact fun t ht hne => slot_of_noticeSlot hlog.symm ht hne
    · intro pk hpk
      have hexp := (hrec.expected pk).mpr hpk
      have hreq : pk ∈ required := List.mem_toFinset.mp (hpass.subset hexp)
      have hsub : sp.expected ⊆ sp.received := by
        have hcommit := hpass.commit
        simp only [Entry.canCommit, Bool.and_eq_true, decide_eq_true_eq] at hcommit
        exact hcommit.2
      obtain ⟨hver, hslot, hsig⟩ := checkPk_eq_none.mp (hpass.checked pk ((hiter sp hsp pk).mpr hexp))
      obtain ⟨r, hr, hid⟩ := hrec.latest pk _ hver
      refine ⟨hreq, (hrec.received pk).mp (hsub hexp), rowOf latest pk,
        List.mem_map_of_mem hreq, ⟨r, hr⟩, ?_, hslot, hsig⟩
      intro r' hr'
      by_contra hne
      have hconf := hrec.conflict.mpr ⟨pk, r, r', hr, hr', fun h => hne (h.symm.trans hid)⟩
      rw [hpass.agree] at hconf
      exact absurd hconf (by simp)
    · intro pk hpk
      exact ⟨rowOf latest pk, List.mem_map_of_mem hpk, hpass.data pk hpk, hpass.slots pk hpk⟩
  · intro b calls calls' sig slot idx required latest iter iter' hb hlen hnew hperm hslot hcarry
      hiter hiter'
    rcases spec_run_perm hb hlen hnew hperm hslot hcarry idx with ⟨hn, hn'⟩ | ⟨e, e', he, he', hsame⟩
    · simp only [snapshot, hn, hn']
      exact ⟨Or.inl rfl, trivial⟩
    · have hmem : ∀ pk, pk ∈ iter ↔ pk ∈ iter' := by
        intro pk
        rw [hiter e he pk, hiter' e' he' pk, hsame.expected]
      have hiters := snapshot_iter (e := e) hmem sig required latest
      simp only [snapshot, he, he']
      rw [snapshot_of_same hsame sig required latest iter'] at hiters
      exact ⟨hiters, snapshot_of_same hsame sig required latest iter⟩

/-! ## §8. The order of a set shows. -/

def demoSig : String := hex [17]

/-- A row of the transaction. -/
def demoRow (writeVersion : Int) : Row :=
  ⟨some "feed-a", some 7, some 100, some writeVersion, some [17], none, none, some [1]⟩

/-- Two notices, then a write without a version and one that is superseded. -/
def demoCalls (pk pk' : String) : List Call :=
  [.noteTx demoSig 100 [(1, [pk])], .noteTx demoSig 100 [(1, [pk'])],
    .noteWrite demoSig 100 1 "acct0" none, .noteWrite demoSig 100 1 "acct17" (some (demoRow 9))]

/-- The accounts of a log in the order in which they are first inserted: the order
    in which a set of colliding elements is iterated. -/
def insertionOrder (log : List Touch) : List String :=
  (log.flatMap fun t => match t with
    | .shape _ ks => ks
    | .write _ _ _ => []).eraseDups

/-- The verdict depends on the order of the calls through the order of the set. -/
theorem verdict_follows_set_order :
    (demoCalls "acct0" "acct17").Perm (demoCalls "acct17" "acct0") ∧
    (∀ c ∈ demoCalls "acct0" "acct17", c.Carries demoSig 100) ∧
    (snapshot (run [] (demoCalls "acct0" "acct17")) demoSig 1 ["acct0", "acct17"]
        (fun _ => some (demoRow 10))
        (insertionOrder (sinceCreated demoSig 1 [] [] (demoCalls "acct0" "acct17")))).1
      = .writeIdentityMissing ∧
    (snapshot (run [] (demoCalls "acct17" "acct0")) demoSig 1 ["acct0", "acct17"]
        (fun _ => some (demoRow 10))
        (insertionOrder (sinceCreated demoSig 1 [] [] (demoCalls "acct17" "acct0")))).1
      = .writeSuperseded := by
  refine ⟨List.Perm.swap _ _ _, ?_, by decide, by decide⟩
  intro c hc
  simp only [demoCalls, List.mem_cons, List.not_mem_nil, or_false] at hc
  rcases hc with rfl | rfl | rfl | rfl <;> exact ⟨rfl, rfl⟩

/-- A complete transaction, its writes before and after the notice. -/
def demoWrites (pk pk' : String) : List Call :=
  [.noteWrite demoSig 100 1 pk (some (demoRow 10)), .noteTx demoSig 100 [(1, ["acct0", "acct17"])],
    .noteWrite demoSig 100 1 pk' (some (demoRow 10))]

theorem snapshot_sound_demo :
    (∃ sp rs, Certified (sinceCreated demoSig 1 [] [] (demoWrites "acct0" "acct17")) sp demoSig
      ["acct0", "acct17"] rs) ∧
    snapshot (run [] (demoWrites "acct0" "acct17")) demoSig 1 ["acct0", "acct17"]
        (fun _ => some (demoRow 10)) ["acct0", "acct17"]
      = snapshot (run [] (demoWrites "acct17" "acct0")) demoSig 1 ["acct0", "acct17"]
        (fun _ => some (demoRow 10)) ["acct0", "acct17"] := by
  have henum : ∀ calls, (spec (run [] calls) demoSig 1).map Entry.expected = some {"acct0", "acct17"} →
      ∀ sp, spec (run [] calls) demoSig 1 = some sp → Enumerates ["acct0", "acct17"] sp.expected := by
    intro calls hexp sp hsp pk
    rw [hsp] at hexp
    rw [Option.some.inj hexp]
    simp
  have hperm : (demoWrites "acct0" "acct17").Perm (demoWrites "acct17" "acct0") :=
    (List.Perm.swap _ _ _).trans ((List.Perm.cons _ (List.Perm.swap _ _ _)).trans
      (List.Perm.swap _ _ _))
  have hcarry : ∀ c ∈ demoWrites "acct0" "acct17", c.Carries demoSig 100 := by
    intro c hc
    simp only [demoWrites, List.mem_cons, List.not_mem_nil, or_false] at hc
    rcases hc with rfl | rfl | rfl <;> exact ⟨rfl, rfl⟩
  have hmk := henum (demoWrites "acct0" "acct17") (by decide)
  constructor
  · obtain ⟨sp, rs, -, -, hcert⟩ := snapshot_sound.1 (demoWrites "acct0" "acct17") demoSig 1
      ["acct0", "acct17"] (fun _ => some (demoRow 10)) ["acct0", "acct17"] _ hmk
      (Prod.ext (by decide) rfl)
    exact ⟨sp, rs, hcert⟩
  · exact (snapshot_sound.2 [] _ _ demoSig 100 1 ["acct0", "acct17"] (fun _ => some (demoRow 10))
      ["acct0", "acct17"] ["acct0", "acct17"] List.nodup_nil (by decide) rfl hperm (by decide) hcarry
      hmk (henum _ (by decide))).2

end ShredArb.Barrier
