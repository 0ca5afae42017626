/-
  ShredArb.State.Manager — which pools may be sent on
  (`arb-core/src/state003.c`, `state003.h`).

  The manager keeps a health per pool beside the universe.  An observed trigger
  never writes; a confirmed one commits and leaves the pool SPECULATIVE; only a
  refresh makes it SYNCED, and only a SYNCED pool is sendable.

  Conventions:
    • the readings of `mono_ns` are arguments,
    • `u->slot` stands beside the universe,
    • the arrays of the manager have one length, `cap`,
    • a Pump entry past the end of the list is one that is not live.
-/
import ShredArb.Hot.Commit
import ShredArb.Hot.Decide

namespace ShredArb.State

open ShredArb.Dlmm ShredArb.Pump ShredArb.Univ ShredArb.Hot

/-! ## §1. The manager. -/

/-- `ST3_HEALTH_*`. -/
inductive Health where
  | missing
  | stale
  | speculative
  | synced
  deriving DecidableEq, Repr

/-- `ST3_*`, and −1. -/
inductive Rc where
  | ok
  | noOpp
  | missingBin
  | unhealthy
  | applyFail
  | error
  deriving DecidableEq, Repr

/-- `st3_need_t`. -/
structure Need where
  poolIdx : Nat
  binId : Int32
  reason : Rc
  deriving DecidableEq, Repr

abbrev st3QCap : Nat := 4096
abbrev st3ResyncCap : Nat := 4096

/-- `state_mgr_t`. -/
structure StateMgr where
  health : List Health
  authSlot : List UInt64
  authNs : List UInt64
  specSinceNs : List UInt64
  q : List Need
  nObserve : UInt64
  nConfirm : UInt64
  nReject : UInt64
  nRefresh : UInt64
  nRefreshReq : UInt64
  nEnqueue : UInt64
  nTrigSpeculative : UInt64
  nOppSuppressed : UInt64
  resyncNs : List UInt32

/-- `m->cap`. -/
def StateMgr.cap (m : StateMgr) : Nat := m.health.length

/-- The manager, the universe it manages and `u->slot`. -/
structure Managed where
  m : StateMgr
  u : LiveUniv
  slot : UInt64

/-- The health `state_mgr_init` gives a pool. -/
def initHealth (u : LiveUniv) (i : Nat) : Health :=
  if u.protocol i = some protoDlmm then
    if (dlmmCacheGet u.dlmm i).isSome then .synced else .missing
  else if u.protocol i = some protoPump then
    if (u.livePump i).isSome then .synced else .missing
  else .missing

/-- `state_mgr_init`: a loaded pool is sendable from the start. -/
def stateMgrInit (u : LiveUniv) (slot : UInt64) (now : Nat → UInt64) : Managed where
  m :=
    { health := (List.range u.n).map (initHealth u)
      authSlot := List.replicate u.n slot
      authNs := (List.range u.n).map fun i =>
        if initHealth u i = .synced then (if now i ≠ 0 then now i else 1) else 0
      specSinceNs := List.replicate u.n 0
      q := []
      nObserve := 0
      nConfirm := 0
      nReject := 0
      nRefresh := 0
      nRefreshReq := 0
      nEnqueue := 0
      nTrigSpeculative := 0
      nOppSuppressed := 0
      resyncNs := [] }
  u := u
  slot := slot

/-- `state_sendable`. -/
def stateSendable (s : Managed) (i : Nat) : Bool :=
  decide (i < s.u.n) && s.m.health[i]? == some Health.synced

/-- `state_enqueue`. -/
def stateEnqueue (m : StateMgr) (need : Need) : StateMgr :=
  if m.q.length ≥ st3QCap then m
  else { m with q := m.q ++ [need], nEnqueue := m.nEnqueue + 1 }

/-- `state_mark_stale`. -/
def stateMarkStale (m : StateMgr) (i : Nat) : StateMgr :=
  if i ≥ m.cap then m else { m with health := m.health.set i .stale }

/-! ## §2. Observe. -/

/-- `dlmm_can_apply`: `none` when the trigger applies, else the bin it needs. -/
def dlmmCanApply (u : LiveUniv) (i : Nat) (n : HotTrigger) : Option Int32 :=
  match dlmmCacheGet u.dlmm i with
  | none => some 0
  | some h =>
    if (dlmmCachePredict u.dlmm i n.dlmm).isSome then none
    else if n.dlmm.swapForY ≠ 0 then some (h.activeId - Int32.ofInt dlmmCacheK - 1)
    else some (h.activeId + Int32.ofInt dlmmCacheK + 1)

/-- The decision `memset` leaves. -/
def HotDecisionZero : HotDecision := ⟨none, 0⟩

/-- The Pump check of `state_observe`. -/
def pumpCannotApply (u : LiveUniv) (i : Nat) (n : HotTrigger) : Bool :=
  ((u.livePump i).bind fun s => pumpApplySwap s n.pump).isNone

/-- What `state_observe` does once the pool is healthy. -/
def observeHealthy (m : StateMgr) (u : LiveUniv) (i : Nat) (n : HotTrigger) :
    Rc × HotDecision × StateMgr :=
  if n.protocol = protoPump ∧ u.protocol i = some protoPump ∧ pumpCannotApply u i n = true then
    (.applyFail, ⟨none, u.stateVersion⟩, m)
  else match hotDecide u i n with
    | none => (.error, HotDecisionZero, m)
    | some dec =>
      let m := if dec.opp.isSome ∧ m.health[i]? ≠ some .synced then
          { m with nOppSuppressed := m.nOppSuppressed + 1 }
        else m
      (if dec.opp.isSome then .ok else .noOpp, dec, m)

/-- `state_observe`; it takes the universe as read-only. -/
def stateObserve (m : StateMgr) (u : LiveUniv) (i : Nat) (n : HotTrigger) :
    Rc × HotDecision × StateMgr :=
  if i ≥ u.n ∨ i ≥ m.cap then (.error, HotDecisionZero, m)
  else
    let m := { m with
      nObserve := m.nObserve + 1
      nTrigSpeculative :=
        if m.health[i]? = some .speculative then m.nTrigSpeculative + 1 else m.nTrigSpeculative }
    if m.health[i]? = some .missing ∨ m.health[i]? = some .stale then
      (.unhealthy, HotDecisionZero, m)
    else if n.protocol = protoDlmm ∧ u.protocol i = some protoDlmm then
      match dlmmCanApply u i n with
      | some bin =>
          (.missingBin, ⟨none, u.stateVersion⟩, stateEnqueue m ⟨i, bin, .missingBin⟩)
      | none => observeHealthy m u i n
    else observeHealthy m u i n

/-! ## §3. The writers. -/

/-- `state_confirm`: a commit is not chain truth, so the pool stops being
sendable whether or not it succeeds. -/
def stateConfirm (s : Managed) (i : Nat) (n : HotTrigger) (now : UInt64) : Rc × Managed :=
  if i ≥ s.u.n ∨ i ≥ s.m.cap then (.error, s)
  else
    let r := hotCommit s.u i n
    if r.1 = false then (.applyFail, { s with m := stateMarkStale s.m i, u := r.2 })
    else
      (.ok, { s with
        m := { s.m with
          health := s.m.health.set i .speculative
          specSinceNs := s.m.specSinceNs.set i now
          nConfirm := s.m.nConfirm + 1
          nRefreshReq := s.m.nRefreshReq + 1 }
        u := r.2 })

/-- `state_reject`. -/
def stateReject (s : Managed) (i : Nat) : Rc × Managed :=
  if i ≥ s.u.n then (.error, s)
  else (.ok, { s with m := { s.m with nReject := s.m.nReject + 1 } })

/-- What both refreshes write into the manager; `now'` is the second reading of
the clock. -/
def refreshed (m : StateMgr) (i : Nat) (slot now now' : UInt64) : StateMgr :=
  let since := m.specSinceNs.getD i 0
  let dt := now' - since
  { m with
    health := m.health.set i .synced
    authSlot := m.authSlot.set i slot
    authNs := m.authNs.set i now
    resyncNs :=
      if since ≠ 0 ∧ m.resyncNs.length < st3ResyncCap ∧ dt.toNat ≤ 2 ^ 32 - 1 then
        m.resyncNs ++ [dt.toUInt32]
      else m.resyncNs
    specSinceNs := m.specSinceNs.set i 0
    nRefresh := m.nRefresh + 1 }

/-- `state_refresh`. -/
def stateRefresh (s : Managed) (i : Nat) (auth : DlmmState) (slot now now' : UInt64) :
    Rc × Managed :=
  if i ≥ s.u.n ∨ i ≥ s.m.cap then (.error, s)
  else if s.u.protocol i ≠ some protoDlmm then (.error, s)
  else match dlmmCachePut s.u.dlmm i auth with
    | none => (.error, { s with m := { s.m with health := s.m.health.set i .missing } })
    | some dlmm =>
        (.ok,
          { m := refreshed s.m i slot now now'
            u := { s.u with dlmm := dlmm, stateVersion := s.u.stateVersion + 1 }
            slot := slot })

/-- `u->pump[i] = *auth` with `u->pump_live[i] = 1`. -/
def setPump (pump : List (Option PumpState)) (i : Nat) (auth : PumpState) :
    List (Option PumpState) :=
  (pump ++ List.replicate (i + 1 - pump.length) none).set i (some auth)

/-- `state_refresh_pump`. -/
def stateRefreshPump (s : Managed) (i : Nat) (auth : PumpState) (slot now now' : UInt64) :
    Rc × Managed :=
  if i ≥ s.u.n ∨ i ≥ s.m.cap then (.error, s)
  else if s.u.protocol i ≠ some protoPump then (.error, s)
  else
    (.ok,
      { m := refreshed s.m i slot now now'
        u := { s.u with
          pump := setPump s.u.pump i auth
          stateVersion := s.u.stateVersion + 1 }
        slot := slot })

/-! ## §4. Runs. -/

/-- One call on the manager. -/
inductive Op where
  | observe (i : Nat) (n : HotTrigger)
  | confirm (i : Nat) (n : HotTrigger) (now : UInt64)
  | reject (i : Nat)
  | refresh (i : Nat) (auth : DlmmState) (slot now now' : UInt64)
  | refreshPump (i : Nat) (auth : PumpState) (slot now now' : UInt64)
  | markStale (i : Nat)

/-- The pool the call is for. -/
def Op.pool : Op → Nat
  | .observe i _ | .confirm i _ _ | .reject i | .refresh i _ _ _ _ | .refreshPump i _ _ _ _
  | .markStale i => i

/-- The call's return code and what it leaves. -/
def call (s : Managed) : Op → Rc × Managed
  | .observe i n =>
      let r := stateObserve s.m s.u i n
      (r.1, { s with m := r.2.2 })
  | .confirm i n now => stateConfirm s i n now
  | .reject i => stateReject s i
  | .refresh i auth slot now now' => stateRefresh s i auth slot now now'
  | .refreshPump i auth slot now now' => stateRefreshPump s i auth slot now now'
  | .markStale i => (.ok, { s with m := stateMarkStale s.m i })

def step (s : Managed) (op : Op) : Managed := (call s op).2

def run (s : Managed) (ops : List Op) : Managed := ops.foldl step s

/-- The canonical state of a pool, of its own venue. -/
inductive Canon where
  | dlmm (h : Option DlmmPoolHot)
  | pump (s : Option PumpState)
  | other

def canonical (u : LiveUniv) (i : Nat) : Canon :=
  if u.protocol i = some protoDlmm then .dlmm (dlmmCacheGet u.dlmm i)
  else if u.protocol i = some protoPump then .pump (u.livePump i)
  else .other

end ShredArb.State
