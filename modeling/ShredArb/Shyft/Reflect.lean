/-
  ShredArb.Shyft.Reflect — what the published entries were made of.

  The publisher keeps the last accepted row of every account, and an entry is
  made of a frozen copy.  So an entry shows every write of the pool that was
  accepted BEFORE it was published, or a later one of the same account; and the
  reader is told of a write exactly when the pool was not staging already.

  Main results:
    * `step_quiet` — a step that accepts no write keeps the invariant,
    * `accept_spec` — and so does one that does; what it logs and tells.
-/
import ShredArb.Shyft.State008

namespace ShredArb.Publisher

open ShredArb.Dict ShredArb.Hex ShredArb.Barrier ShredArb.Snapshots
open ShredArb.Orbit (Rec)

/-! ## §1. Steps that only grow. -/

/-- The last accepted write of an account. -/
def State008.lastOf (s : State008) (pk : String) : Option Write := lastWrite Write.pk pk s.log

/-- Neither a write nor a publication: records are appended, pools require more,
and the row of an account that was written stays. -/
structure Grows (s s' : State008) : Prop where
  log : s'.log = s.log
  rf : s.rf <+: s'.rf
  pools : ∀ i rec, get s.pools i = some rec →
    ∃ rec', get s'.pools i = some rec' ∧ rec.required ⊆ rec'.required
  store : ∀ pk, (s.lastOf pk).isSome → s'.bytes pk = s.bytes pk ∧ s'.rpcFloors pk = s.rpcFloors pk

namespace Grows

theorem refl (s : State008) : Grows s s :=
  ⟨rfl, List.prefix_rfl, fun _ rec h => ⟨rec, h, List.Subset.refl _⟩, fun _ _ => ⟨rfl, rfl⟩⟩

theorem trans {a b c : State008} (h : Grows a b) (h' : Grows b c) : Grows a c where
  log := h'.log.trans h.log
  rf := h.rf.trans h'.rf
  pools := by
    intro i rec hrec
    obtain ⟨rec', hrec', hsub⟩ := h.pools i rec hrec
    obtain ⟨rec'', hrec'', hsub'⟩ := h'.pools i rec' hrec'
    exact ⟨rec'', hrec'', List.Subset.trans hsub hsub'⟩
  store := by
    intro pk hpk
    have hb := h.store pk hpk
    have hc := h'.store pk (by rw [State008.lastOf, h.log]; exact hpk)
    exact ⟨hc.1.trans hb.1, hc.2.trans hb.2⟩

/-- A change of one pool that keeps what it requires. -/
theorem set_pool {s : State008} {idx : Nat} {rec : PoolRec} (h : get s.pools idx = some rec)
    (rec' : PoolRec) (hsub : rec.required ⊆ rec'.required) :
    Grows s { s with pools := Dict.set s.pools idx rec' } where
  log := rfl
  rf := List.prefix_rfl
  pools := by
    intro i r hr
    rw [get_set]
    by_cases hi : idx = i
    · subst hi
      rw [if_pos rfl]
      obtain rfl := Option.some.inj (h.symm.trans hr)
      exact ⟨rec', rfl, hsub⟩
    · rw [if_neg hi]
      exact ⟨r, hr, List.Subset.refl _⟩
  store := fun _ _ => ⟨rfl, rfl⟩

theorem foldl {α : Type} {f : State008 → α → State008} (hf : ∀ s a, Grows s (f s a)) (as : List α) :
    ∀ s, Grows s (as.foldl f s) := by
  induction as with
  | nil => exact Grows.refl
  | cons a as ih => exact fun s => (hf s a).trans (ih (f s a))

end Grows

namespace State008

variable (s : State008) (idx : Nat)

theorem modify_grows {f : PoolRec → PoolRec} (hf : ∀ rec, (f rec).required = rec.required) :
    Grows s (s.modify idx f) := by
  unfold modify
  split
  · exact .refl s
  · rename_i rec hrec
    exact .set_pool hrec _ (by rw [hf]; exact List.Subset.refl _)

theorem setStatus_grows (st : Status) : Grows s (s.setStatus idx st) :=
  s.modify_grows idx fun _ => rfl

theorem tellInvalid_grows (kind : Kind) (rxNs slot : UInt64) :
    Grows s (s.tellInvalid idx kind rxNs slot) :=
  { Grows.refl s with rf := List.prefix_append _ _ }

theorem addRequired_grows (pk : String) (role : Role) : Grows s (s.addRequired idx pk role) := by
  unfold addRequired
  split
  · exact .refl s
  · rename_i rec hrec
    split
    · exact .refl s
    · have hset := Grows.set_pool hrec
        { rec with required := rec.required ++ [pk], status := .incomplete }
        (List.subset_append_left _ _)
      exact ⟨hset.log, hset.rf, hset.pools, hset.store⟩

theorem invalidate_grows (rxNs slot : UInt64) {f : PoolRec → PoolRec}
    (hf : ∀ rec, (f rec).required = rec.required) : Grows s (s.invalidate idx rxNs slot f) := by
  unfold invalidate
  split
  · exact .refl s
  · rename_i rec hrec
    have hkeep : rec.required ⊆ (f (rec.invalidate rxNs slot)).required := by
      rw [hf]
      exact List.Subset.refl _
    simp only
    split
    · exact .set_pool hrec _ hkeep
    · exact (s.tellInvalid_grows idx rec.kind rxNs slot).trans
        (.set_pool (s := s.tellInvalid idx rec.kind rxNs slot) hrec _ hkeep)

theorem noteInBarrier_grows (ev : Update) : Grows s (s.noteInBarrier idx ev) := by
  unfold noteInBarrier
  split
  · exact .refl s
  · exact { Grows.refl s with }

theorem stageDep_grows (ev : Update) (d : Dep) : Grows s (stageDep ev s d) := by
  unfold stageDep
  split
  · exact .refl s
  · have hinv := s.invalidate_grows d.poolIdx ev.tRx ev.slot (f := (·.stageWrite ev)) fun _ => rfl
    exact hinv.trans (noteInBarrier_grows _ _ ev)

theorem expectAccount_grows (pk : String) : Grows s (expectAccount idx s pk) := by
  unfold expectAccount
  split
  · exact .refl s
  · split
    · exact s.addRequired_grows idx pk .dlmmBin
    · exact .refl s

theorem applyTx_grows (generation : Option String) (sig : String) (slot : UInt64)
    (expect : List (Nat × List String)) : Grows s (s.applyTx generation sig slot expect) := by
  unfold applyTx
  split
  · exact .refl s
  · have hexpect := Grows.foldl (f := fun s (e : Nat × List String) => e.2.foldl (expectAccount e.1) s)
      (fun s e => Grows.foldl (fun s pk => s.expectAccount_grows e.1 pk) e.2 s) expect s
    exact { hexpect with }

theorem failTxIncomplete_grows (sig : String) (now : UInt64) :
    Grows s (s.failTxIncomplete idx sig now) := by
  unfold failTxIncomplete
  split
  · exact .refl s
  · rename_i rec hrec
    have hset := Grows.set_pool hrec { rec.clear with status := .incomplete } (List.Subset.refl _)
    simp only
    split
    · exact hset.trans (tellInvalid_grows _ idx rec.kind now s.streamSlot)
    · have htell := hset.trans (tellInvalid_grows _ idx rec.kind now s.streamSlot)
      exact ⟨htell.log, htell.rf, htell.pools, htell.store⟩

theorem recount_grows : Grows s s.recount := by
  refine ⟨rfl, List.prefix_rfl, ?_, fun _ _ => ⟨rfl, rfl⟩⟩
  intro i rec hrec
  rw [recount]
  simp only [get_adjust, hrec, Option.map_some]
  refine ⟨_, rfl, ?_⟩
  split <;> exact List.Subset.refl _

end State008

/-! ## §2. The invariant. -/

/-- The entry is of a pool that requires the account. -/
def Covers (p : Publication) (w : Write) : Prop := p.idx ∈ w.pools

/-- The entry was made of the row of the write. -/
def Shows (p : Publication) (w : Write) : Prop := (w.pk, w.ev.row) ∈ p.accounts

/-- The row of an account is its last accepted write, above the floor; what a pool
required it still requires; and the entries show what was written before. -/
structure Invariant (s : State008) : Prop where
  store : ∀ pk w, s.lastOf pk = some w →
    s.bytes pk = some w.ev.row ∧ ∀ floor, s.rpcFloors pk = some floor → floor < w.ev.slot
  known : ∀ w, .wrote w ∈ s.log → ∀ i ∈ w.pools, ∃ rec, get s.pools i = some rec ∧ w.pk ∈ rec.required
  sound : Sound Write.pk Covers Shows s.log

theorem Invariant.grows {s s' : State008} (h : Invariant s) (hg : Grows s s') : Invariant s' where
  store := by
    intro pk w hw
    rw [State008.lastOf, hg.log] at hw
    have hkeep := hg.store pk (by rw [State008.lastOf, hw]; rfl)
    rw [hkeep.1, hkeep.2]
    exact h.store pk w hw
  known := by
    intro w hw i hi
    rw [hg.log] at hw
    obtain ⟨rec, hrec, hpk⟩ := h.known w hw i hi
    obtain ⟨rec', hrec', hsub⟩ := hg.pools i rec hrec
    exact ⟨rec', hrec', hsub hpk⟩
  sound := by
    rw [hg.log]
    exact h.sound

/-- Only publications are logged, records are appended, and the invariant holds
afterwards: what a step does that accepts no write. -/
structure Quiet (s s' : State008) : Prop where
  log : ∃ ps : List Publication, s'.log = ps.map .took ++ s.log
  rf : s.rf <+: s'.rf
  inv : Invariant s'

theorem Invariant.quiet {s : State008} (h : Invariant s) : Quiet s s := ⟨⟨[], rfl⟩, List.prefix_rfl, h⟩

theorem Invariant.quiet_of_grows {s s' : State008} (h : Invariant s) (hg : Grows s s') : Quiet s s' :=
  ⟨⟨[], hg.log⟩, hg.rf, h.grows hg⟩

theorem Quiet.trans {a b c : State008} (h : Quiet a b) (h' : Quiet b c) : Quiet a c := by
  obtain ⟨ps, hps⟩ := h.log
  obtain ⟨ps', hps'⟩ := h'.log
  refine ⟨⟨ps' ++ ps, ?_⟩, h.rf.trans h'.rf, h'.inv⟩
  rw [hps', hps, List.map_append, List.append_assoc]

theorem Quiet.grows {a b c : State008} (h : Quiet a b) (hg : Grows b c) : Quiet a c :=
  h.trans (h.inv.quiet_of_grows hg)

theorem foldl_quiet {α : Type} {f : State008 → α → State008}
    (hf : ∀ s a, Invariant s → Quiet s (f s a)) (as : List α) :
    ∀ s, Invariant s → Quiet s (as.foldl f s) := by
  induction as with
  | nil => exact fun s h => h.quiet
  | cons a as ih => exact fun s h => (hf s a h).trans (ih (f s a) (hf s a h).inv)

/-! ## §3. Publications. -/

/-- The read set has, of every write of the pool, the last one of its account. -/
def Complete (s : State008) (idx : Nat) (accounts : List (String × Row)) : Prop :=
  ∀ w, .wrote w ∈ s.log → idx ∈ w.pools →
    ∃ w', s.lastOf w.pk = some w' ∧ (w'.pk, w'.ev.row) ∈ accounts

theorem Complete.grows {s s' : State008} {idx : Nat} {accounts : List (String × Row)}
    (h : Complete s idx accounts) (hg : Grows s s') : Complete s' idx accounts := by
  intro w hw hi
  rw [hg.log] at hw
  rw [State008.lastOf, hg.log]
  exact h w hw hi

namespace State008

variable {s : State008} {idx : Nat} {rec : PoolRec} {accounts : List (String × Row)}

theorem frozen_complete (h : Invariant s) (hrec : get s.pools idx = some rec) :
    Complete s idx (s.frozen rec) := by
  intro w hw hi
  obtain ⟨r, hr, hpk⟩ := h.known w hw idx hi
  obtain rfl := Option.some.inj (hrec.symm.trans hr)
  obtain ⟨w', hlast⟩ : ∃ w', lastWrite Write.pk w.pk s.log = some w' := exists_lastWrite hw
  refine ⟨w', hlast, ?_⟩
  have hkey : w'.pk = w.pk := lastWrite_key hlast
  have hrow : rowOf s.bytes w'.pk = w'.ev.row := by
    rw [rowOf, hkey, (h.store _ _ hlast).1]
    rfl
  rw [← hrow, frozen, hkey]
  exact List.mem_map_of_mem hpk

/-- The rows of a snapshot are those of the required accounts. -/
theorem snapshot_rows {b : TxBarrier} {hx : String} {i : Int} {required iter : List String}
    {latest : String → Option Row} {rows : List (String × Row)}
    (h : (Barrier.snapshot b hx i required latest iter).2 = some rows) :
    rows = required.map fun pk => (pk, rowOf latest pk) := by
  unfold Barrier.snapshot at h
  split at h
  · exact absurd h (by simp)
  · unfold Entry.snapshot at h
    iterate 5
      split at h
      · exact absurd h (by simp)
    split at h
    · exact absurd h (by simp)
    · exact (Option.some.inj h).symm

/-- A publication is made of the frozen read set. -/
theorem turn_go {cd : Codec} {streamSlot : UInt64} {st : Stage}
    (h : s.turn cd idx rec streamSlot = .go st accounts) : accounts = s.frozen rec := by
  unfold turn at h
  simp only at h
  split at h
  · split at h
    · exact absurd h (by simp)
    · exact (Turn.go.inj h).2.symm
  · split at h
    · exact (Turn.go.inj h).2.symm
    · split at h
      · -- no shape: the reconciliation freezes the bytes itself
        split at h
        · exact (Turn.go.inj h).2.symm
        · exact absurd h (by simp)
      · split at h
        · split at h <;> exact absurd h (by simp)
        · split at h
          · exact absurd h (by simp)
          · rename_i rows hrows
            rw [← (Turn.go.inj h).2]
            exact snapshot_rows hrows

theorem finishPublish_quiet (h : Invariant s) (hcomp : Complete s idx accounts) (slot : UInt64)
    (blob : List UInt8) : Quiet s (s.finishPublish idx slot blob accounts) := by
  unfold finishPublish
  split
  · exact h.quiet
  · rename_i rec hrec
    have hset := Grows.set_pool hrec { rec.clear with status := .coherent } (List.Subset.refl _)
    have hinv := h.grows hset
    simp only
    split
    · refine ⟨⟨[_], rfl⟩, List.prefix_append _ _, hinv.store, ?_, ?_, h.sound⟩
      · intro w hw i hi
        rcases List.mem_cons.mp hw with heq | hw
        · exact absurd heq (by simp)
        · exact hinv.known w hw i hi
      · intro w hw hi
        exact hcomp w hw hi
    · exact ⟨⟨[], rfl⟩, List.prefix_append _ _, hinv.store, hinv.known, h.sound⟩

theorem publishDlmm_quiet (h : Invariant s) (hcomp : Complete s idx accounts) (cd : Codec) (rec : PoolRec)
    (slot now : UInt64) : Quiet s (s.publishDlmm cd idx rec slot now accounts).2 := by
  unfold publishDlmm
  split
  · exact h.quiet
  · simp only
    split
    · exact h.quiet
    · split
      · exact h.quiet
      · rename_i active hactive
        have hneed := Grows.foldl (fun s pk => s.addRequired_grows idx pk .dlmmBin)
          (cd.binKeys rec.pubkey active) s
        split
        · exact h.quiet_of_grows (hneed.trans (setStatus_grows _ idx _))
        · split
          · exact h.quiet_of_grows (hneed.trans (setStatus_grows _ idx _))
          · exact (h.quiet_of_grows hneed).trans
              (finishPublish_quiet (h.grows hneed) (hcomp.grows hneed) slot _)

theorem publishPump_quiet (h : Invariant s) (hcomp : Complete s idx accounts) (cd : Codec) (rec : PoolRec)
    (slot : UInt64) : Quiet s (s.publishPump cd idx rec slot accounts).2 := by
  have hfees : ∀ fees : Fees, Grows s { s with fees := fees } := fun fees => { Grows.refl s with }
  unfold publishPump
  split
  · exact h.quiet
  · simp only
    split
    · split
      · exact h.quiet_of_grows (hfees _)
      · exact h.quiet_of_grows ((hfees _).trans (setStatus_grows _ idx _))
      · exact (h.quiet_of_grows (hfees _)).trans
          (finishPublish_quiet (h.grows (hfees _)) (hcomp.grows (hfees _)) slot _)
    · exact h.quiet_of_grows (s.setStatus_grows idx _)

theorem publishAs_quiet (h : Invariant s) (hcomp : Complete s idx accounts) (cd : Codec) (rec : PoolRec)
    (st : Stage) (streamSlot now : UInt64) :
    Quiet s (s.publishAs cd idx rec st streamSlot now accounts) := by
  have hmod := s.modify_grows idx (f := fun rec => { rec with stage := st }) fun _ => rfl
  have hinv := h.grows hmod
  have hquiet := h.quiet_of_grows hmod
  unfold publishAs
  simp only
  cases rec.kind with
  | dlmm =>
    have hpub := hquiet.trans (publishDlmm_quiet hinv (hcomp.grows hmod) cd rec (st.slotOr streamSlot) now)
    simp only
    split
    · split
      · exact hpub
      · exact hpub.grows { Grows.refl _ with }
    · exact hpub
  | pump =>
    have hpub := hquiet.trans (publishPump_quiet hinv (hcomp.grows hmod) cd rec (st.slotOr streamSlot))
    simp only
    split
    · split
      · exact hpub
      · exact hpub.grows { Grows.refl _ with }
    · exact hpub

theorem tryPublish_quiet (h : Invariant s) (cd : Codec) (idx : Nat) (streamSlot now : UInt64) :
    Quiet s (s.tryPublish cd idx streamSlot now) := by
  unfold tryPublish
  split
  · exact h.quiet
  · rename_i rec hrec
    split
    · exact h.quiet_of_grows (s.setStatus_grows idx _)
    · split
      · exact h.quiet
      · split
        · exact h.quiet
        · exact h.quiet_of_grows (s.failTxIncomplete_grows idx _ now)
        · rename_i st accounts hturn
          rw [turn_go hturn]
          exact publishAs_quiet h (frozen_complete h hrec) cd rec st streamSlot now

theorem bootPool_quiet (h : Invariant s) (cd : Codec) (now : UInt64) (idx : Nat) :
    Quiet s (bootPool cd now s idx) := by
  unfold bootPool
  split
  · exact h.quiet
  · rename_i rec hrec
    split
    · have hmod := s.modify_grows idx
        (f := fun r => { r with stage := bootStage (s.bootSlot rec) now }) fun _ => rfl
      exact (h.quiet_of_grows hmod).trans (tryPublish_quiet (h.grows hmod) cd idx _ now)
    · exact h.quiet_of_grows (s.setStatus_grows idx _)

/-- Rows of other accounts than the written ones may come and go. -/
theorem bytes_grows {bytes : String → Option Row} {floors : String → Option UInt64}
    (h : ∀ pk, (s.lastOf pk).isSome → bytes pk = s.bytes pk ∧ floors pk = s.rpcFloors pk) :
    Grows s { s with bytes := bytes, rpcFloors := floors } :=
  { Grows.refl s with store := h }

theorem fetchOne_grows (h : Invariant s) (e : String × RpcRow) : Grows s (s.fetchOne e) := by
  unfold fetchOne
  split
  · exact .refl s
  · rename_i hnone
    refine bytes_grows fun pk hpk => ?_
    obtain ⟨w, hw⟩ := Option.isSome_iff_exists.mp hpk
    have hne : pk ≠ e.1 := by
      rintro rfl
      rw [(h.store _ w hw).1] at hnone
      exact hnone rfl
    exact ⟨Function.update_of_ne hne _ _, Function.update_of_ne hne _ _⟩

/-- A write in the slot of the RPC row finds that row and nothing newer. -/
theorem forget_grows (h : Invariant s) {ev : Update} (hfloor : s.rpcFloors ev.pubkey = some ev.slot)
    (hrow : ((s.bytes ev.pubkey).bind Row.slot).getD 0 ≤ ev.slot.toNat) :
    Grows s (s.forget ev) := by
  have hpop : Grows s { s with bytes := Function.update s.bytes ev.pubkey none } := by
    refine bytes_grows fun pk hpk => ⟨?_, rfl⟩
    obtain ⟨w, hw⟩ := Option.isSome_iff_exists.mp hpk
    have hne : pk ≠ ev.pubkey := by
      rintro rfl
      obtain ⟨hbytes, habove⟩ := h.store _ w hw
      have hlt := UInt64.lt_iff_toNat_lt.mp (habove _ hfloor)
      rw [hbytes] at hrow
      have hle : (w.ev.slot.toNat : Int) ≤ ev.slot.toNat := hrow
      omega
    exact Function.update_of_ne hne _ _
  exact hpop.trans (Grows.foldl
    (fun s d => s.invalidate_grows d.poolIdx ev.tRx ev.slot (f := PoolRec.clear) fun _ => rfl)
    (s.accDeps ev.pubkey) _)

end State008

/-! ## §4. Steps. -/

/-- A step in which `apply_update` gets to its end. -/
def PubStep.accepted (s : State008) : PubStep → Option Update
  | .update ev => if s.accepts ev then some ev else none
  | _ => none

theorem applyUpdate_of_accepts {s : State008} {ev : Update} (h : s.accepts ev = true) :
    s.applyUpdate ev = s.accept ev := by
  unfold State008.accepts at h
  simp only [Bool.and_eq_true, Bool.not_eq_true'] at h
  obtain ⟨⟨⟨hgen, hfloor⟩, hseen⟩, hwv⟩ := h
  have hfalse : ¬ false = true := Bool.false_ne_true
  unfold State008.applyUpdate
  rw [hgen, hfloor, hseen, hwv, if_neg hfalse, if_neg hfalse, if_neg hfalse, if_neg hfalse]

theorem applyUpdate_grows {s : State008} (h : Invariant s) {ev : Update} (hno : s.accepts ev = false) :
    Grows s (s.applyUpdate ev) := by
  unfold State008.applyUpdate
  split
  · exact .refl s
  · rename_i hgen
    split
    · split
      · rename_i hpop
        exact State008.forget_grows h hpop.1 hpop.2
      · exact .refl s
    · rename_i hfloor
      split
      · exact .refl s
      · rename_i hseen
        split
        · exact .refl s
        · rename_i hwv
          rw [Bool.not_eq_true] at hgen hfloor hseen hwv
          rw [State008.accepts, hgen, hfloor, hseen, hwv] at hno
          exact absurd hno (by decide)

/-- **A step that accepts no write logs only publications, and keeps the invariant.** -/
theorem step_quiet (cd : Codec) {s : State008} (h : Invariant s) {st : PubStep}
    (hno : st.accepted s = none) : Quiet s (step cd s st) := by
  cases st with
  | update ev =>
    have hacc : s.accepts ev = false := by
      cases hacc : s.accepts ev with
      | false => rfl
      | true => exact absurd hno (by simp [PubStep.accepted, hacc])
    exact h.quiet_of_grows (applyUpdate_grows h hacc)
  | tx generation sig slot expect => exact h.quiet_of_grows (s.applyTx_grows generation sig slot expect)
  | slot n => exact h.quiet_of_grows { Grows.refl s with }
  | publish idx now =>
    show Quiet s (s.maybePublish cd idx now)
    unfold State008.maybePublish
    split
    · exact h.quiet
    · split
      · exact h.quiet
      · exact State008.tryPublish_quiet h cd idx _ now
  | expire hx idx now =>
    show Quiet s (s.expire hx idx now)
    unfold State008.expire
    split
    · exact h.quiet
    · split
      · exact h.quiet_of_grows (s.failTxIncomplete_grows idx hx now)
      · exact h.quiet
  | fetched rows =>
    exact foldl_quiet (fun s e hs => hs.quiet_of_grows (State008.fetchOne_grows hs e)) rows s h
  | recount => exact h.quiet_of_grows s.recount_grows
  | boot now =>
    show Quiet s (s.finishBootstrap cd now)
    unfold State008.finishBootstrap
    split
    · exact h.quiet
    · have hboot := foldl_quiet (fun s idx hs => State008.bootPool_quiet hs cd now idx)
        (s.pools.map Prod.fst) s h
      exact hboot.grows { Grows.refl _ with }

/-! ## §5. Writes. -/

/-- `RECON_INVALIDATE` of a pool. -/
def Invalidates (idx : Nat) (r : Rec) : Prop := r.kind = 4 ∧ r.poolIdx = .ofNat idx

/-- A pool that is not staging is told of by the turn of its dependency; the others
stay as they are. -/
theorem stageDep_tells (ev : Update) (s : State008) (d : Dep) (idx : Nat) {rec : PoolRec}
    (hrec : get s.pools idx = some rec) (hst : rec.status ≠ .staging) :
    (∃ r, (State008.stageDep ev s d).rf = s.rf ++ [r] ∧ Invalidates idx r) ∨
      d.poolIdx ≠ idx ∧ get (State008.stageDep ev s d).pools idx = some rec := by
  have hbarrier : ∀ s : State008, (s.noteInBarrier d.poolIdx ev).rf = s.rf ∧
      (s.noteInBarrier d.poolIdx ev).pools = s.pools := by
    intro s
    unfold State008.noteInBarrier
    split <;> exact ⟨rfl, rfl⟩
  unfold State008.stageDep
  split
  · rename_i hnone
    refine Or.inr ⟨?_, hrec⟩
    rintro rfl
    exact absurd (hnone.symm.trans hrec) (by simp)
  · rename_i r hr
    rw [(hbarrier _).1, (hbarrier _).2]
    unfold State008.invalidate
    rw [hr]
    by_cases hi : d.poolIdx = idx
    · subst hi
      obtain rfl := Option.some.inj (hr.symm.trans hrec)
      simp only [if_neg hst]
      exact Or.inl ⟨_, rfl, rfl, rfl⟩
    · refine Or.inr ⟨hi, ?_⟩
      show get (Dict.set (if r.status = .staging then s
        else s.tellInvalid d.poolIdx r.kind ev.tRx ev.slot).pools d.poolIdx _) idx = some rec
      rw [get_set, if_neg hi]
      split <;> exact hrec

theorem foldl_stageDep_tells (ev : Update) (idx : Nat) {rec : PoolRec} (hst : rec.status ≠ .staging)
    (deps : List Dep) : ∀ s : State008, get s.pools idx = some rec → idx ∈ deps.map Dep.poolIdx →
      ∃ rs, (deps.foldl (State008.stageDep ev) s).rf = s.rf ++ rs ∧ ∃ r ∈ rs, Invalidates idx r := by
  induction deps with
  | nil => exact fun _ _ h => absurd h List.not_mem_nil
  | cons d deps ih =>
    intro s hrec hmem
    rw [List.foldl_cons]
    rcases stageDep_tells ev s d idx hrec hst with ⟨r, hrf, hr⟩ | ⟨hne, hsame⟩
    · -- told here; the rest appends
      have hrest := Grows.foldl (fun s d => s.stageDep_grows ev d) deps (State008.stageDep ev s d)
      obtain ⟨rs, hrs⟩ := hrest.rf
      refine ⟨r :: rs, ?_, r, List.mem_cons_self, hr⟩
      rw [← hrs, hrf, List.append_assoc]
      rfl
    · have hlater : idx ∈ deps.map Dep.poolIdx := by
        rcases List.mem_cons.mp hmem with h | h
        · exact absurd h.symm hne
        · exact h
      obtain ⟨rs, hrs, hr⟩ := ih _ hsame hlater
      obtain ⟨before, hbefore⟩ := (s.stageDep_grows ev d).rf
      refine ⟨before ++ rs, ?_, ?_⟩
      · rw [hrs, ← hbefore, List.append_assoc]
      · obtain ⟨r, hmem, hr⟩ := hr
        exact ⟨r, List.mem_append_right _ hmem, hr⟩

theorem noted_inv {s : State008} (h : Invariant s) {ev : Update} (hfloor : s.belowFloor ev = false) :
    Invariant (s.noted ev) where
  store := by
    intro pk w hw
    show Function.update s.bytes ev.pubkey (some ev.row) pk = _ ∧ _
    by_cases hpk : ev.pubkey = pk
    · subst hpk
      have hself : (s.noted ev).lastOf ev.pubkey = some (s.writeOf ev) := if_pos rfl
      obtain rfl := Option.some.inj (hself.symm.trans hw)
      refine ⟨Function.update_self _ _ _, fun floor hf => ?_⟩
      have hf' : s.rpcFloors ev.pubkey = some floor := hf
      rw [State008.belowFloor, hf'] at hfloor
      have hnot : ¬ ev.slot ≤ floor := of_decide_eq_false hfloor
      exact UInt64.not_le.mp hnot
    · have hother : s.lastOf pk = some w := by
        have hskip : (s.noted ev).lastOf pk = s.lastOf pk := if_neg hpk
        rw [← hskip, hw]
      rw [Function.update_of_ne (Ne.symm hpk)]
      exact h.store pk w hother
  known := by
    intro w hw i hi
    rcases List.mem_cons.mp hw with heq | hw
    · obtain rfl := Mark.wrote.inj heq
      have hreq := (List.mem_filter.mp hi).2
      rw [Option.any_eq_true] at hreq
      obtain ⟨rec, hrec, hpk⟩ := hreq
      exact ⟨rec, hrec, List.contains_iff_mem.mp hpk⟩
    · exact h.known w hw i hi
  sound := h.sound

/-- What an accepted write does: it is logged, records are appended, and a pool that
requires the account and was not staging is told of. -/
structure Accepted (s s' : State008) (ev : Update) : Prop where
  log : s'.log = .wrote (s.writeOf ev) :: s.log
  rf : s.rf <+: s'.rf
  tells : ∀ idx ∈ (s.writeOf ev).pools, ∀ rec, get s.pools idx = some rec → rec.status ≠ .staging →
    ∃ rs, s'.rf = s.rf ++ rs ∧ ∃ r ∈ rs, Invalidates idx r
  inv : Invariant s'

theorem accept_spec {s : State008} (h : Invariant s) {ev : Update} (hacc : s.accepts ev = true) :
    Accepted s (s.applyUpdate ev) ev := by
  have hfloor : s.belowFloor ev = false := by
    unfold State008.accepts at hacc
    simp only [Bool.and_eq_true, Bool.not_eq_true'] at hacc
    exact hacc.1.1.2
  have hgrows := Grows.foldl (fun s d => s.stageDep_grows ev d) (s.accDeps ev.pubkey) (s.noted ev)
  rw [applyUpdate_of_accepts hacc]
  refine ⟨hgrows.log, hgrows.rf, ?_, (noted_inv h hfloor).grows hgrows⟩
  intro idx hidx rec hrec hst
  exact foldl_stageDep_tells ev idx hst (s.accDeps ev.pubkey) (s.noted ev) hrec
    (List.mem_filter.mp hidx).1

/-- **An accepted step is a write of the stream, and what it does.** -/
theorem step_accepted (cd : Codec) {s : State008} (h : Invariant s) {st : PubStep} {ev : Update}
    (hst : st.accepted s = some ev) : Accepted s (step cd s st) ev := by
  cases st with
  | update ev' =>
    rw [PubStep.accepted] at hst
    split at hst
    · rename_i hacc
      obtain rfl := Option.some.inj hst
      exact accept_spec h hacc
    · exact absurd hst (by simp)
  | _ => exact absurd hst (by simp [PubStep.accepted])

theorem step_inv (cd : Codec) {s : State008} (h : Invariant s) (st : PubStep) : Invariant (step cd s st) := by
  cases hst : st.accepted s with
  | none => exact (step_quiet cd h hst).inv
  | some ev => exact (step_accepted cd h hst).inv

theorem run_inv (cd : Codec) (steps : List PubStep) : ∀ s, Invariant s → Invariant (run cd s steps) := by
  induction steps with
  | nil => exact fun _ h => h
  | cons st steps ih => exact fun s h => ih _ (step_inv cd h st)

theorem connect_inv (generation : String) (accDeps : String → List Dep) (pools : Entries Nat PoolRec)
    (rows : String → Option RpcRow) (fees : Fees) (rf : List Rec) (calls : List Auth.Call) :
    Invariant (State008.connect generation accDeps pools rows fees rf calls) where
  store := fun _ _ hw => absurd hw (by simp [State008.lastOf, State008.connect, lastWrite])
  known := fun _ hw => absurd hw List.not_mem_nil
  sound := trivial

end ShredArb.Publisher
