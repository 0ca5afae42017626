/-
  ShredArb.Orbit.Gap — the publisher and the reader of pool states, composed
  (`arb-state/shyft/state008.py` with `consider_framed`, `install_auth` and
  `recon_drain` of `arb-feed/src/paper_orbit.c`).

  Two channels lead from one process to the other: the AUTH ring, which
  `install_auth` reads when a transaction N is considered, and `recon.bin`, whose
  INVALIDATE records `recon_drain` reads later, before the sync gate.  An install
  clears the flag an earlier record has set.  So what a counted decision misses
  was told in a record that was drained BEFORE the install, or never told, the
  pool having been staging all along; a transaction that was given up as
  incomplete is of the first kind.

  Conventions:
    • a step is one step of the publisher, one `recon_drain` of the idle loop, or
      one `consider_framed`; the steps of the publisher that fall between its
      read of the ring and its drain come with it,
    • the ring's answer for the PARTNER is any answer, at whatever moment it is read,
    • a record is visible as soon as it was flushed.

  Main results:
    * `predEntry_eq`, `drain_file` — the two channels on their bytes,
    * `reflects_iff` — what a decision misses overtook its entry,
    * `window_guarded` — what the publisher's steps keep,
    * `opp_synced_reflects` — runs.
-/
import ShredArb.Auth.Agreement
import ShredArb.Orbit.Fresh
import ShredArb.Shyft.Reflect

namespace ShredArb.Orbit

open ShredArb.Bytes ShredArb.Dict ShredArb.Snapshots ShredArb.Publisher
open ShredArb.Tx ShredArb.Univ ShredArb.State ShredArb.Hot

/-! ## §1. The ring. -/

/-- The publication that stands before N in the ring of a pool. -/
def predEntry (s : State008) (idx : Nat) (slot : UInt64) (sig : Sig) : Option Auth.Published :=
  Auth.predecessor (Auth.candidates poolCap s.calls idx) slot (some (leBytes 64 sig.toNat))

/-- An entry as `install_auth` takes it. -/
def installed (p : Auth.Published) : AuthPub :=
  ⟨p.header.generation, p.header.slot, p.header.ok != 0, p.args.blob⟩

/-- `authpub_pred` on the map the publisher has written answers this entry. -/
theorem predEntry_eq {s : State008} {m : Mem.Memory} {map : Auth.AuthPub}
    (h : Auth.run poolCap m s.calls = some map) (idx : UInt32) (slot : UInt64) (sig : Sig) :
    Auth.authpubPred map.mm (Auth.mapSize poolCap) idx slot (some (leBytes 64 sig.toNat))
      = (predEntry s idx.toNat slot sig).map Auth.Published.decoded := by
  rw [Auth.authpubPred_eq (Auth.Rep.run h) (by decide), predEntry, Auth.candidates]
  split
  · rfl
  · rfl

theorem lt_poolCap_of_predEntry {s : State008} {idx : Nat} {slot : UInt64} {sig : Sig}
    {p : Auth.Published} (h : predEntry s idx slot sig = some p) : idx < poolCap := by
  by_contra hge
  rw [predEntry, Auth.candidates, if_neg hge] at h
  exact absurd h (by simp [Auth.predecessor])

/-! ## §2. The file. -/

/-- The records of a drain, each with the clock reading at its position. -/
def recons (now : Nat → UInt64) : Nat → List Rec → List Recon
  | _, [] => []
  | pos, r :: rs => r.toRecon (now pos) :: recons now (pos + r.bytes.length) rs

theorem processAll_eq (now : Nat → UInt64) (rs : List Rec) : ∀ (pos : Nat) (o : RaceCtx),
    processAll now pos o rs = reconDrain o (recons now pos rs) := by
  induction rs with
  | nil => exact fun _ _ => rfl
  | cons r rs ih => exact fun pos o => ih _ _

theorem complete_all (rs : List Rec) : complete rs (sizeOf rs) = rs.length := by
  induction rs with
  | nil => rfl
  | cons r rs ih =>
    rw [complete, sizeOf_cons, if_pos (Nat.le_add_right _ _), Nat.add_sub_cancel_left, ih,
      List.length_cons]

/-- `recon_drain` on the file, from the end of the `k`-th record, does what the
records from there on do. -/
theorem drain_file {rf : List Rec} (hw : ∀ r ∈ rf, r.Written) (k : Nat) (now : Nat → UInt64)
    (o : RaceCtx) :
    (reconDrainFile now (reconFile rf) o (some (boundary rf k))).1
      = reconDrain o (recons now (boundary rf k) (rf.drop k)) := by
  have hoff := boundary_le_file rf k
  have hdrop : (reconFile rf).drop (boundary rf k)
      = ((rf.drop k).flatMap Rec.bytes).take (sizeOf (rf.drop k)) := by
    rw [drop_boundary, sizeOf, List.take_length]
  have hfuel : ((reconFile rf).drop (boundary rf k)).length < (reconFile rf).length + 1 := by
    rw [List.length_drop]
    omega
  have hloop : drainLoop now (reconFile rf) _ o _ = _ :=
    drainLoop_eq (rf.drop k) (fun r hr => hw r (List.mem_of_mem_drop hr)) hoff hdrop hfuel
  rw [complete_all, List.take_length] at hloop
  rw [← processAll_eq, reconDrainFile, Option.some_or]
  simp only [if_neg (Nat.not_lt.mpr hoff), hloop]

/-! ## §3. The system. -/

structure System where
  pub : State008
  reader : RaceCtx
  /-- `q->recon_off`, in records -/
  seen : Nat

/-- The records the reader has not read. -/
def System.unread (sys : System) (now : Nat → UInt64) (pub : State008) : List Recon :=
  recons now (boundary pub.rf sys.seen) (pub.rf.drop sys.seen)

/-- A step of either process; the steps of the publisher in `window` fall between
the read of the ring and the drain. -/
inductive SysStep where
  | publisher (st : PubStep)
  | drain (now : Nat → UInt64)
  | consider (f : Framed) (window : List PubStep) (now : Nat → UInt64)

/-- A decision that was counted: the publisher at the gate, the entry that was
installed for the triggered pool, and the slot of N. -/
structure Synced where
  pub : State008
  entry : Option Auth.Published
  slot : UInt64
  counted : Counted

/-- The entry `install_auth` finds for the triggered pool. -/
def System.entryFor (sys : System) (f : Framed) : Option Auth.Published :=
  (sys.reader.poolOf f.nix.pool).bind fun hit => predEntry sys.pub hit f.slot f.nix.sig

/-- The transaction with the ring's answer for the triggered pool. -/
def System.answered (sys : System) (f : Framed) : Framed :=
  { f with auth := fun i =>
      if sys.reader.poolOf f.nix.pool = some i then (sys.entryFor f).map installed else f.auth i }

/-- `consider_framed` gets to its drain. -/
def drains (o : RaceCtx) (f : Framed) : Bool :=
  (o.poolOf f.nix.pool).any fun hit =>
    let r := prepare o f hit
    let obs := stateObserve r.2.s.m r.2.s.u hit f.trig
    r.1 && decide (obs.1 ≠ .missingBin ∧ obs.1 ≠ .error)

def System.step (cd : Codec) (sys : System) : SysStep → System × Option Synced
  | .publisher st => ({ sys with pub := Publisher.step cd sys.pub st }, none)
  | .drain now =>
    ({ sys with reader := reconDrain sys.reader (sys.unread now sys.pub), seen := sys.pub.rf.length },
      none)
  | .consider f window now =>
    let f' := sys.answered f
    let pub := run cd sys.pub window
    let r := considerFramed sys.reader f' (sys.unread now pub)
    ({ pub := pub
       reader := r.1
       seen := if drains sys.reader f' then pub.rf.length else sys.seen },
      r.2.map fun c => ⟨pub, sys.entryFor f, f.slot, c⟩)

/-- Everything a run counts. -/
def syncedIn (cd : Codec) : System → List SysStep → List Synced
  | _, [] => []
  | sys, st :: sts => (sys.step cd st).2.toList ++ syncedIn cd (sys.step cd st).1 sts

/-! ## §4. What a decision may miss. -/

/-- A publication of an entry of a pool. -/
def isEntry (idx : Nat) (p : Auth.Published) (q : Publication) : Bool := q.idx == idx && q.entry == p

/-- A write of an account the pool requires, below a slot. -/
def Below (idx : Nat) (slot : UInt64) (w : Write) : Prop := idx ∈ w.pools ∧ w.ev.slot < slot

instance (idx : Nat) (slot : UInt64) (w : Write) : Decidable (Below idx slot w) :=
  inferInstanceAs (Decidable (_ ∧ _))

/-- Every accepted write of the triggered pool below the slot of N is reflected in
the entry that was installed: the entry was published after it, from its row or a
newer one of the same account. -/
def Synced.Reflects (x : Synced) : Prop :=
  ∃ p, x.entry = some p ∧ ∀ k w, x.pub.log[k]? = some (.wrote w) → Below x.counted.hit x.slot w →
    Shown Write.pk Shows (isEntry x.counted.hit p) (x.pub.log.take k) w

/-- A write of the pool below the slot was accepted after the entry was published. -/
def Overtaken (s : State008) (idx : Nat) (slot : UInt64) (p : Auth.Published) : Prop :=
  ∃ w, .wrote w ∈ since (isEntry idx p) s.log ∧ Below idx slot w

/-- `recon.bin` holds an INVALIDATE of the pool that the reader has not read. -/
def Unread (s : State008) (seen idx : Nat) : Prop := ∃ r ∈ s.rf.drop seen, Invalidates idx r

/-- A step of the publisher that accepts a write of the pool below the slot finds
the pool not staging, or an INVALIDATE of it unread. -/
def TellsOf (seen idx : Nat) (slot : UInt64) (s : State008) (st : PubStep) : Prop :=
  ∀ ev, st.accepted s = some ev → Below idx slot (s.writeOf ev) →
    Unread s seen idx ∨ ∀ rec, get s.pools idx = some rec → rec.status ≠ .staging

/-- So does every step of a window. -/
def WindowTells (cd : Codec) (seen idx : Nat) (slot : UInt64) : State008 → List PubStep → Prop
  | _, [] => True
  | s, st :: sts => TellsOf seen idx slot s st ∧ WindowTells cd seen idx slot (Publisher.step cd s st) sts

/-- When the ring is read, the entry before N is not overtaken, or an INVALIDATE
of the pool is still unread; and the window tells of what it accepts. -/
def System.Settled (cd : Codec) (sys : System) (f : Framed) (window : List PubStep) : Prop :=
  ∀ hit, sys.reader.poolOf f.nix.pool = some hit →
    (∀ p, predEntry sys.pub hit f.slot f.nix.sig = some p →
      Overtaken sys.pub hit f.slot p → Unread sys.pub sys.seen hit) ∧
    WindowTells cd sys.seen hit f.slot sys.pub window

/-- Every `consider_framed` of a run is settled. -/
def RunSettled (cd : Codec) : System → List SysStep → Prop
  | _, [] => True
  | sys, st :: sts =>
    (match st with
      | .consider f window _ => sys.Settled cd f window
      | _ => True) ∧ RunSettled cd (sys.step cd st).1 sts

/-! ## §5. The reader. -/

theorem drainOne_invalidate (o : RaceCtx) (i : Nat) (rx : UInt64) :
    (drainOne o (.invalidate i rx)).updating = o.updating.set i true := by
  rw [drainOne]
  split <;> rfl

theorem getD_set_true {l : List Bool} {i idx : Nat} (h : idx < l.length)
    (hflag : l.getD idx false = true ∨ i = idx) : (l.set i true).getD idx false = true := by
  rw [List.getD_eq_getElem?_getD, List.getElem?_set]
  by_cases hi : i = idx
  · rw [if_pos hi, if_pos (hi ▸ h)]
    rfl
  · rw [if_neg hi, ← List.getD_eq_getElem?_getD]
    exact hflag.resolve_right hi

/-- No record clears a flag, and an INVALIDATE sets one. -/
theorem drainOne_flag (o : RaceCtx) (r : Recon) {idx : Nat} (hidx : idx < o.updating.length)
    (h : o.isUpdating idx = true ∨ ∃ rx, r = .invalidate idx rx) :
    (drainOne o r).isUpdating idx = true := by
  have hkeep : (drainOne o r).updating = o.updating → (∀ rx, r ≠ .invalidate idx rx) →
      (drainOne o r).isUpdating idx = true := by
    intro hsame hne
    rw [RaceCtx.isUpdating, hsame]
    exact h.resolve_right fun ⟨rx, hr⟩ => hne rx hr
  cases r with
  | reject i sig => exact hkeep rfl (by simp)
  | land sig now =>
    refine hkeep ?_ (by simp)
    rw [drainOne]
    split <;> rfl
  | auth sig => exact hkeep rfl (by simp)
  | invalidate i rx =>
    rw [RaceCtx.isUpdating, drainOne_invalidate]
    refine getD_set_true hidx (h.imp_right ?_)
    rintro ⟨rx', heq⟩
    exact (Recon.invalidate.inj heq).1
  | plane slot => exact hkeep rfl (by simp)
  | other => exact hkeep rfl (by simp)

/-- A flag that is set before a drain, or by one of its records, is set after it. -/
theorem reconDrain_flag {idx : Nat} (rs : List Recon) : ∀ o : RaceCtx, idx < o.updating.length →
    (o.isUpdating idx = true ∨ ∃ rx, .invalidate idx rx ∈ rs) →
    (reconDrain o rs).isUpdating idx = true := by
  induction rs with
  | nil =>
    intro o _ h
    exact h.resolve_right (by simp)
  | cons r rs ih =>
    intro o hidx h
    have hlen := (drainOne_keeps o r).flags
    refine ih (drainOne o r) (hlen ▸ hidx) ?_
    rcases h with h | ⟨rx, hrx⟩
    · exact Or.inl (drainOne_flag o r hidx (Or.inl h))
    · rcases List.mem_cons.mp hrx with rfl | hrx
      · exact Or.inl (drainOne_flag o _ hidx (Or.inr ⟨rx, rfl⟩))
      · exact Or.inr ⟨rx, hrx⟩

/-- Nothing is installed without an answer of the ring. -/
theorem prepare_answered {o : RaceCtx} {f : Framed} {hit : Nat} (h : (prepare o f hit).1 = true) :
    (f.auth hit).isSome = true := by
  by_contra hnone
  rw [Option.not_isSome_iff_eq_none] at hnone
  have hstale : ∀ o : RaceCtx, (installOrStale o f hit).1 = false := by
    intro o
    unfold installOrStale
    rw [hnone]
    rfl
  have hboth : ∀ o : RaceCtx, (installBoth o f hit).1 = false := by
    intro o
    unfold installBoth
    simp only
    rw [if_pos (hstale o)]
    exact hstale o
  unfold prepare at h
  simp only at h
  rw [hboth, if_neg Bool.false_ne_true, hboth] at h
  exact absurd h Bool.false_ne_true

/-- The gate is reached with the drained records processed, after an install. -/
theorem reachGate_drained {o o' : RaceCtx} {f : Framed} {drained : List Recon} {g : AtGate}
    (h : reachGate o f drained = (o', some g)) :
    (f.auth g.hit).isSome = true ∧ ∃ at_ : RaceCtx, o'.updating = (reconDrain at_ drained).updating := by
  unfold reachGate at h
  split at h
  · exact absurd (Prod.mk.inj h).2 (by simp)
  · rename_i hit hpool
    simp only at h
    split at h
    · exact absurd (Prod.mk.inj h).2 (by simp)
    · rename_i hprep
      rw [Bool.not_eq_false] at hprep
      split at h
      · exact absurd (Prod.mk.inj h).2 (by simp)
      · split at h
        · exact absurd (Prod.mk.inj h).2 (by simp)
        · obtain ⟨rfl, hg⟩ := Prod.mk.inj h
          obtain rfl := Option.some.inj hg
          exact ⟨prepare_answered hprep, _, rfl⟩

/-- **A counted decision had an entry installed, and drained no INVALIDATE of its pool.** -/
theorem counted_drained {o : RaceCtx} {f : Framed} {drained : List Recon} {c : Counted}
    (h : (considerFramed o f drained).2 = some c) :
    o.poolOf f.nix.pool = some c.hit ∧ (f.auth c.hit).isSome = true ∧
      ∀ rx, .invalidate c.hit rx ∉ drained := by
  obtain ⟨g, hreach, hgate, rfl⟩ := considerFramed_counts (Prod.ext rfl h :
    considerFramed o f drained = (_, some c))
  obtain ⟨hauth, at_, hupd⟩ := reachGate_drained hreach
  refine ⟨(reachGate_spec hreach).pool, hauth, fun rx hrx => ?_⟩
  unfold syncGate at hgate
  simp only [Bool.and_eq_true, Bool.not_eq_true', decide_eq_true_eq] at hgate
  obtain ⟨⟨⟨-, hlt⟩, hclear⟩, -⟩ := hgate
  rw [hupd, (reconDrain_keeps drained at_).flags] at hlt
  have hset := reconDrain_flag drained at_ hlt (Or.inr ⟨rx, hrx⟩)
  rw [RaceCtx.isUpdating, hupd] at hclear
  rw [RaceCtx.isUpdating, hclear] at hset
  exact absurd hset (by simp)

/-! ## §6. The window. -/

theorem Unread.mono {s s' : State008} {seen idx : Nat} (h : Unread s seen idx) (hrf : s.rf <+: s'.rf) :
    Unread s' seen idx := by
  obtain ⟨r, hr, hinv⟩ := h
  obtain ⟨rs, hrs⟩ := hrf
  refine ⟨r, ?_, hinv⟩
  rw [← hrs, List.drop_append]
  exact List.mem_append_left _ hr

theorem unread_of_told {s s' : State008} {seen idx : Nat} (hseen : seen ≤ s.rf.length)
    (h : ∃ rs, s'.rf = s.rf ++ rs ∧ ∃ r ∈ rs, Invalidates idx r) : Unread s' seen idx := by
  obtain ⟨rs, hrf, r, hr, hinv⟩ := h
  refine ⟨r, ?_, hinv⟩
  rw [hrf, List.drop_append_of_le_length hseen]
  exact List.mem_append_right _ hr

/-- Publications overtake nothing. -/
theorem Overtaken.of_published {s s' : State008} {idx : Nat} {slot : UInt64} {p : Auth.Published}
    {ps : List Publication} (hlog : s'.log = ps.map .took ++ s.log) (h : Overtaken s' idx slot p) :
    Overtaken s idx slot p := by
  obtain ⟨w, hw, hbelow⟩ := h
  refine ⟨w, ?_, hbelow⟩
  rw [hlog] at hw
  clear hlog
  induction ps with
  | nil => exact hw
  | cons q ps ih =>
    rw [List.map_cons, List.cons_append, since] at hw
    split at hw
    · exact absurd hw List.not_mem_nil
    · rcases List.mem_cons.mp hw with heq | hw
      · exact absurd heq (by simp)
      · exact ih hw

/-- What holds from the read of the ring to the drain: the entry is not overtaken,
or an INVALIDATE of the pool is unread. -/
structure Guarded (seen idx : Nat) (slot : UInt64) (p : Auth.Published) (s : State008) : Prop where
  inv : Invariant s
  seen_le : seen ≤ s.rf.length
  told : Overtaken s idx slot p → Unread s seen idx

theorem Guarded.step {cd : Codec} {seen idx : Nat} {slot : UInt64} {p : Auth.Published}
    {s : State008} (h : Guarded seen idx slot p s) {st : PubStep} (htell : TellsOf seen idx slot s st) :
    Guarded seen idx slot p (Publisher.step cd s st) := by
  cases hst : st.accepted s with
  | none =>
    have hquiet := step_quiet cd h.inv hst
    obtain ⟨ps, hlog⟩ := hquiet.log
    exact ⟨hquiet.inv, h.seen_le.trans hquiet.rf.length_le,
      fun hover => (h.told (hover.of_published hlog)).mono hquiet.rf⟩
  | some ev =>
    have hacc := step_accepted cd h.inv hst
    refine ⟨hacc.inv, h.seen_le.trans hacc.rf.length_le, fun hover => ?_⟩
    obtain ⟨w, hw, hbelow⟩ := hover
    rw [hacc.log, since] at hw
    rcases List.mem_cons.mp hw with heq | hw
    · -- the write of this step
      obtain rfl := Mark.wrote.inj heq
      rcases htell ev hst hbelow with hunread | hnot
      · exact hunread.mono hacc.rf
      · have hreq := (List.mem_filter.mp hbelow.1).2
        rw [Option.any_eq_true] at hreq
        obtain ⟨rec, hrec, -⟩ := hreq
        exact unread_of_told h.seen_le (hacc.tells idx hbelow.1 rec hrec (hnot rec hrec))
    · exact (h.told ⟨w, hw, hbelow⟩).mono hacc.rf

/-- **The steps of a window keep it.** -/
theorem window_guarded {cd : Codec} {seen idx : Nat} {slot : UInt64} {p : Auth.Published}
    (window : List PubStep) : ∀ s : State008, Guarded seen idx slot p s →
      WindowTells cd seen idx slot s window → Guarded seen idx slot p (run cd s window) := by
  induction window with
  | nil => exact fun _ h _ => h
  | cons st window ih => exact fun s h htell => ih _ (h.step htell.1) htell.2

/-! ## §7. Runs. -/

/-- An unread INVALIDATE is among the records of the drain. -/
theorem mem_recons (now : Nat → UInt64) {r : Rec} {idx : Nat} (hidx : idx < 2 ^ 32)
    (hinv : Invalidates idx r) {rs : List Rec} (h : r ∈ rs) : ∀ pos,
    ∃ rx, Recon.invalidate idx rx ∈ recons now pos rs := by
  induction rs with
  | nil => exact absurd h List.not_mem_nil
  | cons r' rs ih =>
    intro pos
    rcases List.mem_cons.mp h with rfl | h
    · refine ⟨UInt64.ofNat (leNat (r.sig64.take 8)), ?_⟩
      have hidx' : r.poolIdx.toNat = idx := by
        rw [hinv.2, UInt32.toNat_ofNat']
        exact Nat.mod_eq_of_lt hidx
      have hrecon : r.toRecon (now pos)
          = .invalidate idx (UInt64.ofNat (leNat (r.sig64.take 8))) := by
        rw [Rec.toRecon, hinv.1, hidx']
        rfl
      rw [recons, hrecon]
      exact List.mem_cons_self
    · obtain ⟨rx, hrx⟩ := ih h (pos + r'.bytes.length)
      exact ⟨rx, List.mem_cons_of_mem _ hrx⟩

/-- A decision reflects exactly when its entry was not overtaken. -/
theorem reflects_iff {x : Synced} {p : Auth.Published} (hinv : Invariant x.pub)
    (hentry : x.entry = some p) : x.Reflects ↔ ¬ Overtaken x.pub x.counted.hit x.slot p := by
  constructor
  · rintro ⟨q, hq, hall⟩ ⟨w, hw, hbelow⟩
    obtain rfl := Option.some.inj (hentry.symm.trans hq)
    obtain ⟨k, hat, hnot⟩ :
        ∃ k, x.pub.log[k]? = some (.wrote w) ∧ ¬ Shown Write.pk Shows _ (x.pub.log.take k) w :=
      not_shown_of_since hw
    exact hnot (hall k w hat hbelow)
  · intro hnot
    refine ⟨p, hentry, fun k w hat hbelow => ?_⟩
    refine shown_of_since (D := Below x.counted.hit x.slot) ?_ hinv.sound ?_ hat hbelow
    · intro q w hq hw
      rw [isEntry, Bool.and_eq_true, beq_iff_eq] at hq
      rw [Publisher.Covers, hq.1]
      exact hw.1
    · exact fun w hw hbelow => hnot ⟨w, hw, hbelow⟩

/-- One `consider_framed`: a settled decision that is counted reflects. -/
theorem consider_reflects {cd : Codec} {sys : System} (hinv : Invariant sys.pub)
    (hseen : sys.seen ≤ sys.pub.rf.length) {f : Framed} {window : List PubStep} {now : Nat → UInt64}
    (hsettled : sys.Settled cd f window) {x : Synced}
    (hx : (sys.step cd (.consider f window now)).2 = some x) : x.Reflects := by
  obtain ⟨c, hc, rfl⟩ := Option.map_eq_some_iff.mp hx
  obtain ⟨hpool, hauth, hdrained⟩ := counted_drained hc
  have hhit : sys.reader.poolOf f.nix.pool = some c.hit := hpool
  have hentry : sys.entryFor f = predEntry sys.pub c.hit f.slot f.nix.sig := by
    rw [System.entryFor, hhit, Option.bind_some]
  -- an install needs an entry
  obtain ⟨p, hp⟩ : ∃ p, predEntry sys.pub c.hit f.slot f.nix.sig = some p := by
    have hanswer : (sys.answered f).auth c.hit = (sys.entryFor f).map installed := if_pos hhit
    rw [hanswer, Option.isSome_map, hentry] at hauth
    exact Option.isSome_iff_exists.mp hauth
  have hstart : Guarded sys.seen c.hit f.slot p sys.pub :=
    ⟨hinv, hseen, (hsettled c.hit hhit).1 p hp⟩
  have hend := window_guarded window sys.pub hstart (hsettled c.hit hhit).2
  rw [reflects_iff hend.inv (hentry.trans hp)]
  intro hover
  -- but the gate passed, so no INVALIDATE was unread
  obtain ⟨r, hr, htold⟩ := hend.told hover
  have hlt := lt_poolCap_of_predEntry hp
  obtain ⟨rx, hrx⟩ := mem_recons now (hlt.trans (by decide)) htold hr _
  exact hdrained rx hrx

/-- What every step of the system keeps. -/
structure System.Ok (sys : System) : Prop where
  inv : Invariant sys.pub
  seen_le : sys.seen ≤ sys.pub.rf.length

theorem run_rf (cd : Codec) (steps : List PubStep) : ∀ s, Invariant s → s.rf <+: (run cd s steps).rf := by
  induction steps with
  | nil => exact fun _ _ => List.prefix_rfl
  | cons st steps ih =>
    intro s h
    have hstep : s.rf <+: (Publisher.step cd s st).rf := by
      cases hst : st.accepted s with
      | none => exact (step_quiet cd h hst).rf
      | some ev => exact (step_accepted cd h hst).rf
    exact hstep.trans (ih _ (step_inv cd h st))

theorem System.Ok.step {cd : Codec} {sys : System} (h : sys.Ok) (st : SysStep) :
    (sys.step cd st).1.Ok := by
  cases st with
  | publisher st =>
    have hrf := run_rf cd [st] sys.pub h.inv
    exact ⟨step_inv cd h.inv st, h.seen_le.trans hrf.length_le⟩
  | drain now => exact ⟨h.inv, Nat.le_refl _⟩
  | consider f window now =>
    refine ⟨run_inv cd window sys.pub h.inv, ?_⟩
    show (if drains sys.reader (sys.answered f) then (run cd sys.pub window).rf.length else sys.seen) ≤ _
    split
    · exact Nat.le_refl _
    · exact h.seen_le.trans (run_rf cd window sys.pub h.inv).length_le

theorem syncedIn_reflects {cd : Codec} (sts : List SysStep) : ∀ sys : System, sys.Ok →
    RunSettled cd sys sts → ∀ x ∈ syncedIn cd sys sts, x.Reflects := by
  induction sts with
  | nil => exact fun _ _ _ x hx => absurd hx List.not_mem_nil
  | cons st sts ih =>
    intro sys hok hrun x hx
    rcases List.mem_append.mp hx with hx | hx
    · cases st with
      | publisher st => exact absurd hx (by simp [System.step])
      | drain now => exact absurd hx (by simp [System.step])
      | consider f window now =>
        exact consider_reflects hok.inv hok.seen_le hrun.1 (Option.mem_toList.mp hx)
    · exact ih _ (hok.step st) hrun.2 x hx

/-- The two processes when a connection begins; `unread` are the records of
`recon.bin` that the reader has not read. -/
def System.start (generation : String) (accDeps : String → List Dep) (pools : Entries Nat PoolRec)
    (rows : String → Option RpcRow) (fees : Fees) (read unread : List Rec) (calls : List Auth.Call)
    (reader : RaceCtx) : System where
  pub := .connect generation accDeps pools rows fees (read ++ unread) calls
  reader := reader
  seen := read.length

/-- `Overtaken`, computed. -/
def overtakes (s : State008) (idx : Nat) (slot : UInt64) (p : Auth.Published) : Bool :=
  (since (isEntry idx p) s.log).any fun m => match m with
    | .wrote w => decide (Below idx slot w)
    | .took _ => false

theorem overtaken_iff {s : State008} {idx : Nat} {slot : UInt64} {p : Auth.Published} :
    Overtaken s idx slot p ↔ overtakes s idx slot p = true := by
  rw [overtakes, List.any_eq_true]
  constructor
  · rintro ⟨w, hw, hbelow⟩
    exact ⟨.wrote w, hw, decide_eq_true hbelow⟩
  · rintro ⟨m, hm, h⟩
    cases m with
    | wrote w => exact ⟨w, hm, of_decide_eq_true h⟩
    | took q => exact absurd h Bool.false_ne_true

/-- A write below N that nothing followed is in no entry. -/
theorem not_reflects_of_newest {x : Synced} {w : Write} {older : List (Mark Write Publication)}
    (hlog : x.pub.log = .wrote w :: older) (hbelow : Below x.counted.hit x.slot w) : ¬ x.Reflects := by
  rintro ⟨p, -, hall⟩
  obtain ⟨q, w', hq, -⟩ := hall 0 w (by rw [hlog]; rfl) hbelow
  exact absurd hq (by simp)

/-- `token_amount`. -/
def tokenAmount (data : List UInt8) : Nat := if data.length < 72 then 0 else leNat (field data 64 8)

/-- `publish_pump` where the pool account is older than virtual reserves and the
global and fee accounts are too short to be decoded. -/
def plainPump (r : PumpRaws) (fees : Fees) : Fees × PumpOut :=
  if r.pool.length < 211 then (fees, .decodeFail)
  else
    let rb := tokenAmount r.vaultBase
    let rq := tokenAmount r.vaultQuote
    if rb = 0 ∨ rq = 0 then (fees, .incomplete)
    else
      ((20, 5, 0, 0), .blob (leBytes 8 rb ++ leBytes 8 rq ++ leBytes 8 0 ++ leBytes 8 20 ++
        leBytes 8 5 ++ leBytes 8 0 ++ [0, 0]))

def demoCodec : Codec where
  activeId := fun _ => none
  binKeys := fun _ _ => []
  writeDlmm := fun _ _ _ => none
  writePump := plainPump
  setOrder := fun s => ["base", "quote"].filter fun pk => pk ∈ s

/-- A token account. -/
def vault (amount : Nat) : List UInt8 := List.replicate 64 0 ++ leBytes 8 amount

/-- The accounts of pool 0, with their roles and data. -/
def demoAccounts : List (String × Role × List UInt8) :=
  [("pool", .pumpPool, List.replicate 211 0), ("global", .pumpGlobal, [1]),
    ("fee", .pumpFeeConfig, [1]), ("mint", .mint, [1]),
    ("base", .pumpVaultBase, vault 1000000000000), ("quote", .pumpVaultQuote, vault 100000000000)]

/-- A connection whose RPC rows are of slot 6, and the reader of `startOn`. -/
def demoSystem (routes : Universe) : System :=
  .start "feed-a" (fun pk => (get demoAccounts pk).elim [] fun a => [⟨0, a.1⟩])
    [(0, ⟨.pump, "pool", demoAccounts.map Prod.fst, .gapped, .empty, []⟩)]
    (fun pk => (get demoAccounts pk).map fun a => ⟨6, none, none, some a.2⟩)
    (20, 5, 0, 0) [] [] [] (startOn (twoPumpsLive routes))

/-- A fifth of the base leaves its vault at slot 7. -/
def demoWrite (sig : Option (List UInt8)) : Update :=
  ⟨some "feed-a", 5, "base", 7, 9, sig, none, "token", 2039280, vault 800000000000⟩

def demoSig : List UInt8 := List.replicate 64 66

/-- The write of a transaction that also had to write the other vault, and never
did: at slot 8 it is given up, the reader drains, and N comes at slot 9. -/
def failedSteps : List SysStep :=
  [.publisher (.boot 1), .publisher (.slot 7),
    .publisher (.tx (some "feed-a") (Hex.hex demoSig) 7 [(0, ["base", "quote"])]),
    .publisher (.update (demoWrite (some demoSig))), .publisher (.slot 8),
    .publisher (.expire (Hex.hex demoSig) 0 6), .drain fun _ => 7, .consider sellOn0 [] fun _ => 8]

/-- The same write without a signature: it is published when its slot is over. -/
def publishedSteps : List SysStep :=
  [.publisher (.boot 1), .publisher (.slot 7), .publisher (.update (demoWrite none)),
    .publisher (.slot 8), .publisher (.publish 0 6), .drain fun _ => 7,
    .consider sellOn0 [] fun _ => 8]

/-- With nothing in its window, a decision is settled if its entry is not overtaken. -/
theorem settled_of_not_overtaken {cd : Codec} {sys : System} {f : Framed}
    (h : ((sys.reader.poolOf f.nix.pool).all fun hit =>
      (predEntry sys.pub hit f.slot f.nix.sig).all fun p =>
        !overtakes sys.pub hit f.slot p) = true) : sys.Settled cd f [] := by
  intro hit hhit
  refine ⟨fun p hp hover => ?_, trivial⟩
  rw [overtaken_iff] at hover
  rw [hhit, Option.all_some, hp, Option.all_some, hover] at h
  exact absurd h (by decide)

end ShredArb.Orbit
