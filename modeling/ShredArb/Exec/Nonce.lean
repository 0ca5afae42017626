/-
  ShredArb.Exec.Nonce — the durable nonce pool (`arb-exec/include/nonce.h`,
  `arb-exec/src/nonce.c`, and the loads of `arb-exec/src/ctrl.c`).

  A slot is READY, IN FLIGHT or due for a REFRESH.  A claim takes the next READY
  slot from a rotating cursor and hands its hash out; only a load or a reload
  makes a slot READY again.

  Conventions:
    • a return of −1 is `none` and leaves the pool as it was; the pointers of
      the source are never null here,
    • the cursor of a pool stands on a slot, so a cursor beyond the array cannot
      be built.

  Main results:
    * `nonceClaim_eq_none` — when a claim fails,
    * `runs_counted` — the counter of READY slots, over any run,
    * `claims_apart` — two claims of one slot have a refill between them.
-/
import ShredArb.Univ.Kernel

namespace ShredArb.Nonce

/-! ## §1. The pool. -/

abbrev noncePoolN : Nat := 64

local instance : NeZero noncePoolN := ⟨by decide⟩

/-- `nonce_state_t`. -/
inductive NonceState where
  | ready
  | inFlight
  | refresh
  deriving DecidableEq, Repr

/-- `nonce_slot_t`. -/
structure NonceSlot where
  pubkey : BitVec 256
  hash : BitVec 256
  state : NonceState
  deriving DecidableEq, Repr

/-- `nonce_pool_t`. -/
structure NoncePool where
  slot : Vector NonceSlot noncePoolN
  next : Fin noncePoolN
  nReady : UInt32
  deriving DecidableEq, Repr

/-- `nonce_claim_t`. -/
structure NonceClaim where
  idx : UInt16
  hash : BitVec 256
  deriving DecidableEq, Repr

/-- `nonce_pool_init`. -/
def noncePoolInit : NoncePool := ⟨Vector.replicate noncePoolN ⟨0, 0, .refresh⟩, 0, 0⟩

/-- Fill a slot and make it READY. -/
def NoncePool.fill (p : NoncePool) (i : Fin noncePoolN) (pubkey hash : BitVec 256) : NoncePool :=
  { p with
    nReady := if p.slot[i].state ≠ .ready then p.nReady + 1 else p.nReady
    slot := p.slot.set i ⟨pubkey, hash, .ready⟩ }

/-- `nonce_load`. -/
def nonceLoad (p : NoncePool) (idx : UInt32) (pubkey hash : BitVec 256) : Option NoncePool :=
  if h : idx.toNat < noncePoolN then
    if p.slot[idx.toNat].state = .ready then none else some (p.fill ⟨idx.toNat, h⟩ pubkey hash)
  else none

/-- `nonce_retire`. -/
def nonceRetire (p : NoncePool) (idx : UInt32) : Option NoncePool :=
  if h : idx.toNat < noncePoolN then
    if p.slot[idx.toNat].state ≠ .inFlight then none
    else some { p with slot := p.slot.set idx.toNat { p.slot[idx.toNat] with state := .refresh } }
  else none

/-- `nonce_reload`. -/
def nonceReload (p : NoncePool) (idx : UInt32) (hash : BitVec 256) : Option NoncePool :=
  if h : idx.toNat < noncePoolN then
    if p.slot[idx.toNat].state ≠ .refresh ∧ p.slot[idx.toNat].state ≠ .inFlight then none
    else some (p.fill ⟨idx.toNat, h⟩ p.slot[idx.toNat].pubkey hash)
  else none

/-- `(i + 1u < NONCE_POOL_N) ? (i + 1u) : 0u`. -/
def turn (i : Fin noncePoolN) : Fin noncePoolN :=
  if h : i.val + 1 < noncePoolN then ⟨i.val + 1, h⟩ else 0

/-- The loop of `nonce_claim`: the first READY slot from `i` on. -/
def claimFrom (p : NoncePool) : (n : Nat) → (i : Fin noncePoolN) → Option (Fin noncePoolN)
  | 0, _ => none
  | n + 1, i => if p.slot[i].state = .ready then some i else claimFrom p n (turn i)

/-- A slot that is claimed. -/
def NoncePool.take (p : NoncePool) (i : Fin noncePoolN) : NoncePool where
  slot := p.slot.set i { p.slot[i] with state := .inFlight }
  nReady := p.nReady - 1
  next := turn i

/-- `nonce_claim`. -/
def nonceClaim (p : NoncePool) : Option (NonceClaim × NoncePool) :=
  if p.nReady = 0 then none
  else (claimFrom p noncePoolN p.next).map fun i : Fin noncePoolN =>
    (⟨.ofNat i.val, p.slot[i].hash⟩, p.take i)

/-- `ctrl_nonce_rec_t`. -/
structure CtrlNonceRec where
  pubkey : BitVec 256
  hash : BitVec 256

/-- `ctrl_nonce_load_all`: an initialised pool, and one load for each record. -/
def ctrlNonceLoadAll (rec : List CtrlNonceRec) : Option NoncePool :=
  if rec.length ≠ noncePoolN then none
  else (rec.zipIdx.foldlM (fun p e => nonceLoad p (.ofNat e.2) e.1.pubkey e.1.hash)
      noncePoolInit).filter fun p => p.nReady.toNat = noncePoolN

/-- `ctrl_nonce_finish`. -/
def ctrlNonceFinish (p : NoncePool) (idx : UInt32) (hash : BitVec 256) : Option NoncePool :=
  nonceReload p idx hash

/-! ## §2. Runs. -/

/-- The operations, those of the control plane included. -/
inductive NonceOp where
  | load (idx : UInt32) (pubkey hash : BitVec 256)
  | claim
  | retire (idx : UInt32)
  | reload (idx : UInt32) (hash : BitVec 256)
  | loadAll (rec : List CtrlNonceRec)
  | finish (idx : UInt32) (hash : BitVec 256)

/-- What a call returns: −1, 0, or a claim. -/
inductive Answer where
  | failed
  | done
  | claimed (c : NonceClaim)
  deriving DecidableEq

/-- A call that changes the pool or returns −1. -/
def orKeep (p : NoncePool) : Option NoncePool → NoncePool × Answer
  | none => (p, .failed)
  | some p' => (p', .done)

def nonceStep (p : NoncePool) : NonceOp → NoncePool × Answer
  | .load idx pubkey hash => orKeep p (nonceLoad p idx pubkey hash)
  | .claim =>
    match nonceClaim p with
    | none => (p, .failed)
    | some (c, p') => (p', .claimed c)
  | .retire idx => orKeep p (nonceRetire p idx)
  | .reload idx hash => orKeep p (nonceReload p idx hash)
  | .loadAll rec => orKeep p (ctrlNonceLoadAll rec)
  | .finish idx hash => orKeep p (ctrlNonceFinish p idx hash)

/-- The pool after a run. -/
def nonceRun (p : NoncePool) (ops : List NonceOp) : NoncePool :=
  ops.foldl (fun p op => (nonceStep p op).1) p

/-- The calls of a run with their answers. -/
def nonceLog : NoncePool → List NonceOp → List (NonceOp × Answer)
  | _, [] => []
  | p, op :: ops => (op, (nonceStep p op).2) :: nonceLog (nonceStep p op).1 ops

/-- The call loads or reloads a slot. -/
def NonceOp.Refills (idx : Nat) : NonceOp → Prop
  | .load i _ _ => i.toNat = idx
  | .reload i _ => i.toNat = idx
  | .finish i _ => i.toNat = idx
  | .loadAll _ => True
  | .claim => False
  | .retire _ => False

/-- The READY slots. -/
def NoncePool.readySlots (p : NoncePool) : Nat := p.slot.countP fun s => s.state = .ready

/-! ## §3. The counter. -/

/-- `n_ready` counts the READY slots. -/
def Counted (p : NoncePool) : Prop := p.nReady.toNat = p.readySlots

theorem readySlots_le (p : NoncePool) : p.readySlots ≤ noncePoolN := Vector.countP_le_size

theorem counted_init : Counted noncePoolInit := by
  unfold Counted NoncePool.readySlots noncePoolInit
  rw [Vector.countP_replicate]
  rfl

/-- What one write of a slot does to the count. -/
theorem readySlots_set (p : NoncePool) (i : Fin noncePoolN) (s : NonceSlot) (next : Fin noncePoolN)
    (n : UInt32) : (NoncePool.mk (p.slot.set i s) next n).readySlots
      = p.readySlots - (if p.slot[i].state = .ready then 1 else 0)
        + (if s.state = .ready then 1 else 0) := by
  unfold NoncePool.readySlots
  rw [Vector.countP_set]
  simp only [decide_eq_true_eq]
  rfl

/-- A READY slot is counted. -/
theorem readySlots_pos {p : NoncePool} {i : Fin noncePoolN} (h : p.slot[i].state = .ready) :
    0 < p.readySlots := by
  unfold NoncePool.readySlots
  rw [Vector.countP_pos_iff]
  exact ⟨p.slot[i], Vector.getElem_mem i.isLt, decide_eq_true h⟩

theorem Counted.fill {p : NoncePool} (h : Counted p) {i : Fin noncePoolN}
    (hi : p.slot[i].state ≠ .ready) (pubkey hash : BitVec 256) : Counted (p.fill i pubkey hash) := by
  have hroom : p.readySlots < noncePoolN := by
    refine Nat.lt_of_le_of_ne (readySlots_le p) fun hall => ?_
    have hready := Vector.countP_eq_size.mp hall p.slot[i] (Vector.getElem_mem i.isLt)
    exact hi (of_decide_eq_true hready)
  unfold Counted NoncePool.fill at *
  rw [readySlots_set, if_pos hi, if_neg hi, if_pos rfl, UInt32.toNat_add, h]
  show (p.readySlots + 1) % 2 ^ 32 = p.readySlots - 0 + 1
  rw [Nat.sub_zero, Nat.mod_eq_of_lt (lt_of_le_of_lt (Nat.succ_le_of_lt hroom) (by decide))]

theorem Counted.take {p : NoncePool} (h : Counted p) {i : Fin noncePoolN}
    (hi : p.slot[i].state = .ready) : Counted (p.take i) := by
  have hpos := readySlots_pos hi
  have hle := readySlots_le p
  unfold Counted NoncePool.take at *
  have hone : (1 : UInt32) ≤ p.nReady := by
    rw [UInt32.le_iff_toNat_le, h]
    exact hpos
  rw [readySlots_set, if_pos hi, if_neg (by simp), UInt32.toNat_sub_of_le _ _ hone, h]
  rfl

/-! ## §4. One call. -/

theorem turn_val (i : Fin noncePoolN) : (turn i).val = (i.val + 1) % noncePoolN := by
  unfold turn
  split
  · rename_i h
    exact (Nat.mod_eq_of_lt h).symm
  · rename_i h
    have hi := i.isLt
    have hlast : i.val + 1 = noncePoolN := by omega
    rw [hlast, Nat.mod_self]
    rfl

/-- The loop stops on a READY slot. -/
theorem claimFrom_ready {p : NoncePool} {i : Fin noncePoolN} : ∀ {n : Nat} {j : Fin noncePoolN},
    claimFrom p n j = some i → p.slot[i].state = .ready := by
  intro n
  induction n with
  | zero =>
    intro j h
    exact absurd h (by simp [claimFrom])
  | succ n ih =>
    intro j h
    rw [claimFrom] at h
    split at h
    · rename_i hj
      obtain rfl := Option.some.inj h
      exact hj
    · exact ih h

/-- A loop that stops nowhere has passed no READY slot. -/
theorem claimFrom_none {p : NoncePool} : ∀ {n : Nat} {j : Fin noncePoolN},
    claimFrom p n j = none → ∀ i : Fin noncePoolN, (∃ d < n, (j.val + d) % noncePoolN = i.val) →
      p.slot[i].state ≠ .ready := by
  intro n
  induction n with
  | zero =>
    intro j _ i hi
    obtain ⟨d, hd, -⟩ := hi
    exact absurd hd (Nat.not_lt_zero d)
  | succ n ih =>
    intro j h i hi
    obtain ⟨d, hd, hdi⟩ := hi
    rw [claimFrom] at h
    split at h
    · exact absurd h (by simp)
    · rename_i hj
      cases d with
      | zero =>
        have hji : j = i := by
          rw [Nat.add_zero, Nat.mod_eq_of_lt j.isLt] at hdi
          exact Fin.ext hdi
        exact hji ▸ hj
      | succ d =>
        refine ih h i ⟨d, by omega, ?_⟩
        rw [turn_val, Nat.mod_add_mod, ← hdi]
        congr 1
        omega

/-- What a claim that succeeds has taken. -/
theorem nonceClaim_spec {p p' : NoncePool} {c : NonceClaim} (h : nonceClaim p = some (c, p')) :
    ∃ i : Fin noncePoolN, p.slot[i].state = .ready ∧ c.idx.toNat = i.val ∧ c.hash = p.slot[i].hash ∧
      p' = p.take i := by
  unfold nonceClaim at h
  split at h
  · exact absurd h (by simp)
  · obtain ⟨i, hi, heq⟩ := Option.map_eq_some_iff.mp h
    obtain ⟨rfl, rfl⟩ := Prod.mk.inj heq
    refine ⟨i, claimFrom_ready hi, ?_, rfl, rfl⟩
    exact UInt16.toNat_ofNat_of_lt' (lt_trans i.isLt (by decide))

/-- **A claim fails exactly when no slot is READY.** -/
theorem nonceClaim_eq_none {p : NoncePool} (hp : Counted p) :
    nonceClaim p = none ↔ ∀ i : Fin noncePoolN, p.slot[i].state ≠ .ready := by
  constructor
  · intro h i hi
    unfold nonceClaim at h
    split at h
    · rename_i hzero
      have hpos := readySlots_pos hi
      rw [← hp, hzero] at hpos
      exact absurd hpos (by decide)
    · refine claimFrom_none (Option.map_eq_none_iff.mp h) i ?_ hi
      -- slot `i` is met after the rest of the turn
      refine ⟨(i.val + noncePoolN - p.next.val) % noncePoolN, Nat.mod_lt _ (by decide), ?_⟩
      have hturn : ∀ a b : Nat, a < 64 → b < 64 → (b + (a + 64 - b) % 64) % 64 = a := by
        intro a b ha hb
        omega
      exact hturn i.val p.next.val i.isLt p.next.isLt
  · intro h
    cases hc : nonceClaim p with
    | none => rfl
    | some r =>
      obtain ⟨c, p'⟩ := r
      obtain ⟨i, hi, -⟩ := nonceClaim_spec hc
      exact absurd hi (h i)

theorem nonceLoad_spec {p p' : NoncePool} {idx : UInt32} {pubkey hash : BitVec 256}
    (h : nonceLoad p idx pubkey hash = some p') :
    ∃ i : Fin noncePoolN, idx.toNat = i.val ∧ p.slot[i].state ≠ .ready ∧
      p' = p.fill i pubkey hash := by
  unfold nonceLoad at h
  split at h
  · rename_i hlt
    split at h
    · exact absurd h (by simp)
    · rename_i hready
      exact ⟨⟨idx.toNat, hlt⟩, rfl, hready, (Option.some.inj h).symm⟩
  · exact absurd h (by simp)

theorem nonceReload_spec {p p' : NoncePool} {idx : UInt32} {hash : BitVec 256}
    (h : nonceReload p idx hash = some p') :
    ∃ i : Fin noncePoolN, idx.toNat = i.val ∧ p.slot[i].state ≠ .ready ∧
      p' = p.fill i p.slot[i].pubkey hash := by
  unfold nonceReload at h
  split at h
  · rename_i hlt
    split at h
    · exact absurd h (by simp)
    · rename_i hstate
      refine ⟨⟨idx.toNat, hlt⟩, rfl, fun hready => hstate ?_, (Option.some.inj h).symm⟩
      have hready : p.slot[idx.toNat].state = .ready := hready
      rw [hready]
      exact ⟨by decide, by decide⟩
  · exact absurd h (by simp)

theorem nonceRetire_spec {p p' : NoncePool} {idx : UInt32} (h : nonceRetire p idx = some p') :
    ∃ i : Fin noncePoolN, p.slot[i].state = .inFlight ∧
      p' = { p with slot := p.slot.set i { p.slot[i] with state := .refresh } } := by
  unfold nonceRetire at h
  split at h
  · rename_i hlt
    split at h
    · exact absurd h (by simp)
    · rename_i hstate
      exact ⟨⟨idx.toNat, hlt⟩, not_not.mp hstate, (Option.some.inj h).symm⟩
  · exact absurd h (by simp)

theorem Counted.loads {rec : List (CtrlNonceRec × Nat)} : ∀ {p p' : NoncePool}, Counted p →
    rec.foldlM (fun p e => nonceLoad p (.ofNat e.2) e.1.pubkey e.1.hash) p = some p' →
    Counted p' := by
  induction rec with
  | nil =>
    intro p p' hp h
    exact Option.some.inj h ▸ hp
  | cons e rec ih =>
    intro p p' hp h
    rw [List.foldlM_cons] at h
    obtain ⟨p1, h1, h⟩ := Option.bind_eq_some_iff.mp h
    obtain ⟨i, -, hi, rfl⟩ := nonceLoad_spec h1
    exact ih (hp.fill hi _ _) h

theorem ctrlNonceLoadAll_counted {rec : List CtrlNonceRec} {p : NoncePool}
    (h : ctrlNonceLoadAll rec = some p) : Counted p := by
  unfold ctrlNonceLoadAll at h
  split at h
  · exact absurd h (by simp)
  · obtain ⟨hloads, -⟩ := Option.filter_eq_some_iff.mp h
    exact counted_init.loads hloads

/-- The loads of a pool whose slots from `k` on were never loaded all succeed. -/
theorem loads_succeed (rec : List CtrlNonceRec) : ∀ {p : NoncePool} {k : Nat},
    k + rec.length ≤ noncePoolN → Counted p → p.readySlots = k →
    (∀ i : Fin noncePoolN, k ≤ i.val → p.slot[i].state = .refresh) →
    ∃ p', (rec.zipIdx k).foldlM (fun p e => nonceLoad p (.ofNat e.2) e.1.pubkey e.1.hash) p
        = some p' ∧ Counted p' ∧ p'.readySlots = k + rec.length := by
  induction rec with
  | nil => exact fun _ hp hk _ => ⟨_, rfl, hp, hk⟩
  | cons r rec ih =>
    intro p k hlen hp hk hrest
    rw [List.length_cons] at hlen
    have hlt : k < noncePoolN := by omega
    have hidx : (UInt32.ofNat k).toNat = k :=
      UInt32.toNat_ofNat_of_lt' (lt_trans hlt (by decide))
    have hstate := hrest ⟨k, hlt⟩ (Nat.le_refl k)
    have hnot : p.slot[(⟨k, hlt⟩ : Fin noncePoolN)].state ≠ .ready := by
      rw [hstate]
      decide
    have hload : nonceLoad p (.ofNat k) r.pubkey r.hash = some (p.fill ⟨k, hlt⟩ r.pubkey r.hash) := by
      unfold nonceLoad
      simp only [hidx]
      rw [dif_pos hlt]
      exact if_neg hnot
    have hcount : (p.fill ⟨k, hlt⟩ r.pubkey r.hash).readySlots = k + 1 := by
      unfold NoncePool.fill
      rw [readySlots_set, if_neg hnot, if_pos rfl, hk, Nat.sub_zero]
    obtain ⟨p', hrun, hp', hk'⟩ := ih (p := p.fill ⟨k, hlt⟩ r.pubkey r.hash) (k := k + 1) (by omega)
      (hp.fill hnot _ _) hcount (fun i hi => by
        have hne : k ≠ i.val := by omega
        show (p.slot.set k _)[i.val].state = .refresh
        rw [Vector.getElem_set_ne _ _ hne]
        exact hrest i (by omega))
    refine ⟨p', ?_, hp', by rw [hk', List.length_cons]; omega⟩
    rw [List.zipIdx_cons, List.foldlM_cons]
    exact Option.bind_eq_some_iff.mpr ⟨_, hload, hrun⟩

/-- `ctrl_nonce_load_all` fails on a wrong number of records only, before it
touches the pool. -/
theorem ctrlNonceLoadAll_eq_none {rec : List CtrlNonceRec} :
    ctrlNonceLoadAll rec = none ↔ rec.length ≠ noncePoolN := by
  constructor
  · intro h hlen
    obtain ⟨p, hrun, hp, hk⟩ := loads_succeed rec (p := noncePoolInit) (k := 0)
      (by omega) counted_init (counted_init.symm.trans rfl) (fun i _ => by
        show (Vector.replicate noncePoolN (NonceSlot.mk 0 0 .refresh))[i.val].state = .refresh
        rw [Vector.getElem_replicate])
    unfold ctrlNonceLoadAll at h
    rw [if_neg (not_not.mpr hlen), hrun, Option.filter_some, if_pos] at h
    · exact absurd h (by simp)
    · rw [hp, hk, hlen]
      rfl
  · intro h
    rw [ctrlNonceLoadAll, if_pos h]

theorem orKeep_cases {p : NoncePool} (r : Option NoncePool) :
    (orKeep p r = (p, .failed) ∧ r = none) ∨ ∃ p', orKeep p r = (p', .done) ∧ r = some p' := by
  cases r with
  | none => exact Or.inl ⟨rfl, rfl⟩
  | some p' => exact Or.inr ⟨p', rfl, rfl⟩

/-- What one call can do to the pool. -/
inductive Effect (p : NoncePool) (op : NonceOp) : NoncePool × Answer → Prop where
  | failed : Effect p op (p, .failed)
  | filled (i : Fin noncePoolN) (pubkey hash : BitVec 256) (notReady : p.slot[i].state ≠ .ready)
      (refills : op.Refills i.val) : Effect p op (p.fill i pubkey hash, .done)
  | claimed (i : Fin noncePoolN) (c : NonceClaim) (ready : p.slot[i].state = .ready)
      (idx : c.idx.toNat = i.val) : Effect p op (p.take i, .claimed c)
  | retired (i : Fin noncePoolN) (inFlight : p.slot[i].state = .inFlight) :
      Effect p op ({ p with slot := p.slot.set i { p.slot[i] with state := .refresh } }, .done)
  | loadedAll (p' : NoncePool) (counted : Counted p') (refills : ∀ i, op.Refills i) :
      Effect p op (p', .done)

theorem nonceStep_effect (p : NoncePool) (op : NonceOp) : Effect p op (nonceStep p op) := by
  cases op with
  | load idx pubkey hash =>
    rw [nonceStep]
    rcases orKeep_cases (nonceLoad p idx pubkey hash) with ⟨hkeep, -⟩ | ⟨p', hdo, hload⟩
    · rw [hkeep]
      exact .failed
    · rw [hdo]
      obtain ⟨i, hidx, hi, rfl⟩ := nonceLoad_spec hload
      exact .filled i pubkey hash hi hidx
  | claim =>
    rw [nonceStep]
    cases hc : nonceClaim p with
    | none => exact .failed
    | some r =>
      obtain ⟨c, p'⟩ := r
      obtain ⟨i, hi, hidx, -, hp'⟩ := nonceClaim_spec hc
      show Effect p .claim (p', .claimed c)
      rw [hp']
      exact .claimed i c hi hidx
  | retire idx =>
    rw [nonceStep]
    rcases orKeep_cases (nonceRetire p idx) with ⟨hkeep, -⟩ | ⟨p', hdo, hretire⟩
    · rw [hkeep]
      exact .failed
    · rw [hdo]
      obtain ⟨i, hi, rfl⟩ := nonceRetire_spec hretire
      exact .retired i hi
  | reload idx hash =>
    rw [nonceStep]
    rcases orKeep_cases (nonceReload p idx hash) with ⟨hkeep, -⟩ | ⟨p', hdo, hreload⟩
    · rw [hkeep]
      exact .failed
    · rw [hdo]
      obtain ⟨i, hidx, hi, rfl⟩ := nonceReload_spec hreload
      exact .filled i _ hash hi hidx
  | finish idx hash =>
    rw [nonceStep, ctrlNonceFinish]
    rcases orKeep_cases (nonceReload p idx hash) with ⟨hkeep, -⟩ | ⟨p', hdo, hreload⟩
    · rw [hkeep]
      exact .failed
    · rw [hdo]
      obtain ⟨i, hidx, hi, rfl⟩ := nonceReload_spec hreload
      exact .filled i _ hash hi hidx
  | loadAll rec =>
    rw [nonceStep]
    rcases orKeep_cases (ctrlNonceLoadAll rec) with ⟨hkeep, -⟩ | ⟨p', hdo, hall⟩
    · rw [hkeep]
      exact .failed
    · rw [hdo]
      exact .loadedAll p' (ctrlNonceLoadAll_counted hall) fun _ => trivial

/-! ## §5. Runs. -/

theorem Counted.step {p : NoncePool} (h : Counted p) (op : NonceOp) : Counted (nonceStep p op).1 := by
  have heffect := nonceStep_effect p op
  generalize nonceStep p op = r at heffect ⊢
  cases heffect with
  | failed => exact h
  | filled i pubkey hash hi _ => exact h.fill hi pubkey hash
  | claimed i c hi _ => exact h.take hi
  | retired i hi =>
    unfold Counted at *
    rw [readySlots_set, if_neg (by rw [hi]; decide), if_neg (by simp)]
    exact h
  | loadedAll p' hp' _ => exact hp'

/-- **The counter is right after every run.** -/
theorem runs_counted (ops : List NonceOp) : ∀ {p : NoncePool}, Counted p → Counted (nonceRun p ops) := by
  induction ops with
  | nil => exact fun h => h
  | cons op ops ih => exact fun h => ih (h.step op)

/-- The slot is not READY. -/
def Spent (p : NoncePool) (i : Fin noncePoolN) : Prop := p.slot[i].state ≠ .ready

/-- What the calls keep of a slot that is not READY, unless they refill it; and
none of them claims it. -/
theorem Spent.step {p : NoncePool} {i : Fin noncePoolN} (h : Spent p i) (op : NonceOp) :
    op.Refills i.val ∧ (nonceStep p op).2 = .done ∨
      Spent (nonceStep p op).1 i ∧ ∀ c, (nonceStep p op).2 = .claimed c → c.idx.toNat ≠ i.val := by
  have hkeep : ∀ {j : Fin noncePoolN} {s : NonceSlot}, j ≠ i →
      (p.slot.set j s)[i.val].state ≠ .ready := by
    intro j s hji
    rw [Vector.getElem_set_ne _ _ (Fin.val_ne_of_ne hji)]
    exact h
  have hself : ∀ {s : NonceSlot}, s.state ≠ .ready → (p.slot.set i s)[i.val].state ≠ .ready := by
    intro s hs
    rw [Vector.getElem_set_self]
    exact hs
  have heffect := nonceStep_effect p op
  generalize nonceStep p op = r at heffect ⊢
  cases heffect with
  | failed => exact Or.inr ⟨h, by simp⟩
  | filled j pubkey hash _ hrefills =>
    by_cases hji : j = i
    · exact Or.inl ⟨hji ▸ hrefills, rfl⟩
    · exact Or.inr ⟨hkeep hji, by simp⟩
  | claimed j c hj hidx =>
    have hji : j ≠ i := by
      rintro rfl
      exact h hj
    refine Or.inr ⟨hkeep hji, fun c' hc' => ?_⟩
    rw [← Answer.claimed.inj hc', hidx]
    exact Fin.val_ne_of_ne hji
  | retired j _ =>
    refine Or.inr ⟨?_, by simp⟩
    by_cases hji : j = i
    · subst hji
      exact hself (by simp)
    · exact hkeep hji
  | loadedAll p' _ hrefills => exact Or.inl ⟨hrefills i.val, rfl⟩

/-- A slot that is not READY is refilled before it is claimed. -/
theorem refilled_before_claim {i : Fin noncePoolN} (ops : List NonceOp) : ∀ {p : NoncePool} {j : Nat}
    {op : NonceOp} {c : NonceClaim}, Spent p i → (nonceLog p ops)[j]? = some (op, .claimed c) →
    c.idx.toNat = i.val →
    ∃ k < j, ∃ op', (nonceLog p ops)[k]? = some (op', .done) ∧ op'.Refills i.val := by
  induction ops with
  | nil => exact fun _ h => absurd h (by simp [nonceLog])
  | cons op ops ih =>
    intro p j op₁ c hspent hat hidx
    rw [nonceLog] at hat ⊢
    cases j with
    | zero =>
      have hhead := (Prod.mk.inj (Option.some.inj hat)).2
      rcases hspent.step op with ⟨-, hdone⟩ | ⟨-, hother⟩
      · exact absurd (hhead.symm.trans hdone) (by simp)
      · exact absurd hidx (hother c hhead)
    | succ j =>
      rcases hspent.step op with ⟨hrefills, hdone⟩ | ⟨hspent', -⟩
      · refine ⟨0, Nat.succ_pos j, op, ?_, hrefills⟩
        rw [hdone]
        rfl
      · obtain ⟨k, hk, op', hat', hrefills⟩ := ih hspent' hat hidx
        exact ⟨k + 1, Nat.succ_lt_succ hk, op', hat', hrefills⟩

/-- A claim leaves its slot not READY. -/
theorem spent_of_claimed {p : NoncePool} {op : NonceOp} {c : NonceClaim}
    (h : (nonceStep p op).2 = .claimed c) :
    ∃ i : Fin noncePoolN, c.idx.toNat = i.val ∧ Spent (nonceStep p op).1 i := by
  have heffect := nonceStep_effect p op
  generalize nonceStep p op = r at heffect h ⊢
  cases heffect with
  | claimed i c' _ hidx =>
    obtain rfl := Answer.claimed.inj h
    refine ⟨i, hidx, ?_⟩
    show (p.slot.set i _)[i.val].state ≠ .ready
    rw [Vector.getElem_set_self]
    simp
  | failed => exact absurd h (by simp)
  | filled i pubkey hash _ _ => exact absurd h (by simp)
  | retired i _ => exact absurd h (by simp)
  | loadedAll p' _ _ => exact absurd h (by simp)

/-- **Two claims of one slot have a load or reload of it between them**, whatever
state the run started in. -/
theorem claims_apart (ops : List NonceOp) : ∀ {p : NoncePool} {j k : Nat} {op op' : NonceOp}
    {c c' : NonceClaim}, j < k → (nonceLog p ops)[j]? = some (op, .claimed c) →
    (nonceLog p ops)[k]? = some (op', .claimed c') → c.idx = c'.idx →
    ∃ m, j < m ∧ m < k ∧ ∃ op'', (nonceLog p ops)[m]? = some (op'', .done) ∧
      op''.Refills c.idx.toNat := by
  induction ops with
  | nil => exact fun _ h => absurd h (by simp [nonceLog])
  | cons op₁ ops ih =>
    intro p j k op op' c c' hjk hj hk hidx
    rw [nonceLog] at hj hk ⊢
    obtain ⟨k, rfl⟩ := Nat.exists_eq_add_of_lt (Nat.lt_of_le_of_lt (Nat.zero_le j) hjk)
    rw [Nat.zero_add] at hk hjk ⊢
    cases j with
    | zero =>
      obtain ⟨i, hi, hspent⟩ := spent_of_claimed (Prod.mk.inj (Option.some.inj hj)).2
      obtain ⟨m, hm, op'', hat, hrefills⟩ := refilled_before_claim ops hspent hk (hidx ▸ hi)
      exact ⟨m + 1, Nat.succ_pos m, Nat.succ_lt_succ hm, op'', hat, hi ▸ hrefills⟩
    | succ j =>
      obtain ⟨m, hjm, hmk, op'', hat, hrefills⟩ := ih (Nat.lt_of_succ_lt_succ hjk) hj hk hidx
      exact ⟨m + 1, Nat.succ_lt_succ hjm, Nat.succ_lt_succ hmk, op'', hat, hrefills⟩

/-- **A durable nonce is never handed out twice**: after every run the counter is
the number of READY slots and a claim fails exactly when there is none, and two
claims of one slot have a load or reload of it between them. -/
theorem nonce_once (ops : List NonceOp) :
    (nonceRun noncePoolInit ops).nReady.toNat = (nonceRun noncePoolInit ops).readySlots ∧
      (nonceClaim (nonceRun noncePoolInit ops) = none ↔
        ∀ i : Fin noncePoolN, (nonceRun noncePoolInit ops).slot[i].state ≠ .ready) ∧
      ∀ (j k : Nat) (op op' : NonceOp) (c c' : NonceClaim), j < k →
        (nonceLog noncePoolInit ops)[j]? = some (op, .claimed c) →
        (nonceLog noncePoolInit ops)[k]? = some (op', .claimed c') → c.idx = c'.idx →
        ∃ m, j < m ∧ m < k ∧ ∃ op'', (nonceLog noncePoolInit ops)[m]? = some (op'', .done) ∧
          op''.Refills c.idx.toNat := by
  have hcount := runs_counted ops counted_init
  exact ⟨hcount, nonceClaim_eq_none hcount, fun _ _ _ _ _ _ => claims_apart ops⟩

example : (nonceLog noncePoolInit [.load 3 1 2, .claim, .claim, .reload 3 5, .claim]).map Prod.snd
    = [.done, .claimed ⟨3, 2⟩, .failed, .done, .claimed ⟨3, 5⟩] := by
  decide +kernel

end ShredArb.Nonce
