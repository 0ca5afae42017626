/-
  ShredArb.State.Sendable — what a sendable pool holds, over any run.

  Every call touches one pool.  At that pool it does one of four things, and
  `call_cases` says which; the run facts follow from it by induction.  The
  version counts the writes in 64 bits: it wraps, so equal versions mean equal
  states only between points less than 2⁶⁴ calls apart.

  Main results:
    * `call_cases` — what one call can do,
    * `sendable_since_refresh` — a sendable pool holds what was last installed,
    * `sendable_invariant`.
-/
import ShredArb.State.Manager

namespace ShredArb.State

open ShredArb.Dlmm ShredArb.Pump ShredArb.Univ ShredArb.Hot

/-! ## §1. Writes to one pool. -/

theorem hotOfState_occupied (s : DlmmState) : (hotOfState s).occupied = true := by
  unfold hotOfState
  simp only
  rw [dlmmStateIntoHot_occupied]

theorem dlmmCacheGet_append_zero {c : DlmmCache} (k i : Nat) :
    dlmmCacheGet { c with pool := c.pool ++ List.replicate k DlmmPoolHot.zero } i
      = dlmmCacheGet c i := by
  rw [dlmmCacheGet, dlmmCacheGet]
  show ((c.pool ++ List.replicate k DlmmPoolHot.zero)[i]?).bind _ = _
  by_cases h : i < c.pool.length
  · rw [List.getElem?_append_left h]
  · rw [List.getElem?_append_right (Nat.le_of_not_lt h), List.getElem?_replicate,
      List.getElem?_eq_none (Nat.le_of_not_lt h)]
    split <;> rfl

theorem dlmmCacheReserve_get {c c' : DlmmCache} {cap : Nat} (h : dlmmCacheReserve c cap = some c')
    (i : Nat) : dlmmCacheGet c' i = dlmmCacheGet c i := by
  unfold dlmmCacheReserve at h
  split at h
  · exact absurd h (by simp)
  · split at h
    · rw [Option.some.inj h]
    · rw [← Option.some.inj h]
      exact dlmmCacheGet_append_zero _ i

/-- A put leaves the other pools, reallocated or not. -/
theorem dlmmCachePut_get_ne {c c' : DlmmCache} {i j : Nat} {s : DlmmState}
    (h : dlmmCachePut c i s = some c') (hij : j ≠ i) : dlmmCacheGet c' j = dlmmCacheGet c j := by
  unfold dlmmCachePut at h
  split at h
  · exact absurd h (by simp)
  · obtain ⟨d, hd, rfl⟩ := Option.map_eq_some_iff.mp h
    rw [dlmmCacheGet_set_ne _ hij]
    split at hd
    · exact dlmmCacheReserve_get hd j
    · rw [Option.some.inj hd]

theorem setPump_get (pump : List (Option PumpState)) (i : Nat) (auth : PumpState) :
    ((setPump pump i auth)[i]?).join = some auth := by
  unfold setPump
  rw [List.getElem?_set_self (by rw [List.length_append, List.length_replicate]; omega)]
  rfl

theorem setPump_get_ne (pump : List (Option PumpState)) {i j : Nat} (auth : PumpState)
    (hij : j ≠ i) : ((setPump pump i auth)[j]?).join = (pump[j]?).join := by
  unfold setPump
  rw [List.getElem?_set_ne (Ne.symm hij)]
  by_cases h : j < pump.length
  · rw [List.getElem?_append_left h]
  · rw [List.getElem?_append_right (Nat.le_of_not_lt h), List.getElem?_replicate,
      List.getElem?_eq_none (Nat.le_of_not_lt h)]
    split <;> rfl

theorem canonical_congr {u u' : LiveUniv} {i : Nat} (ht : u'.tbl = u.tbl)
    (hd : dlmmCacheGet u'.dlmm i = dlmmCacheGet u.dlmm i) (hp : u'.livePump i = u.livePump i) :
    canonical u' i = canonical u i := by
  unfold canonical LiveUniv.protocol
  rw [ht, hd, hp]

/-! ## §2. What one call can do. -/

/-- Everything but the pool is as before. -/
structure Frame (s s' : Managed) (i : Nat) : Prop where
  tbl : s'.u.tbl = s.u.tbl
  cap : s'.m.cap = s.m.cap
  health : ∀ j, j ≠ i → s'.m.health[j]? = s.m.health[j]?
  canon : ∀ j, j ≠ i → canonical s'.u j = canonical s.u j

/-- The call installs this canonical state. -/
def Op.Installs : Op → Canon → Prop
  | .refresh _ auth _ _ _, c => c = .dlmm (some (hotOfState auth))
  | .refreshPump _ auth _ _ _, c => c = .pump (some auth)
  | _, _ => False

/-- The call is a confirm of the pool. -/
def Op.Confirms : Op → Nat → Prop
  | .confirm i _ _, j => i = j
  | _, _ => False

/-- What a call does at its own pool. -/
inductive Effect (s : Managed) (op : Op) (s' : Managed) : Prop where
  /-- nothing; a confirm is in this case only when it is refused -/
  | kept (noConfirm : op.Confirms op.pool → op.pool ≥ s.u.n ∨ op.pool ≥ s.m.cap)
      (version : s'.u.stateVersion = s.u.stateVersion)
      (canon : canonical s'.u op.pool = canonical s.u op.pool)
      (health : s'.m.health[op.pool]? = s.m.health[op.pool]?)
  /-- only the health is lost -/
  | unhealthy (version : s'.u.stateVersion = s.u.stateVersion)
      (canon : canonical s'.u op.pool = canonical s.u op.pool)
      (health : s'.m.health[op.pool]? ≠ some .synced)
  /-- a commit was written, and the health lost -/
  | committed (version : s'.u.stateVersion = s.u.stateVersion + 1)
      (health : s'.m.health[op.pool]? ≠ some .synced)
  /-- a refresh was written -/
  | installed (version : s'.u.stateVersion = s.u.stateVersion + 1)
      (ok : (call s op).1 = .ok) (canon : op.Installs (canonical s'.u op.pool))

theorem health_set_ne {l : List Health} {i : Nat} {h : Health} (hh : h ≠ .synced)
    (hi : i < l.length) : (l.set i h)[i]? ≠ some .synced := by
  rw [List.getElem?_set_self hi]
  exact fun heq => hh (Option.some.inj heq)

theorem Frame.refl (s : Managed) (i : Nat) : Frame s s i :=
  ⟨rfl, rfl, fun _ _ => rfl, fun _ _ => rfl⟩

/-- A call that writes only counters and the queue of the manager. -/
theorem frame_of_health {s s' : Managed} (hu : s'.u = s.u) (hh : s'.m.health = s.m.health)
    (i : Nat) : Frame s s' i := by
  refine ⟨by rw [hu], ?_, fun j _ => by rw [hh], fun j _ => by rw [hu]⟩
  rw [StateMgr.cap, StateMgr.cap, hh]

/-- A call that writes one health and leaves the universe. -/
theorem frame_of_set {s s' : Managed} {i : Nat} {h : Health} (hu : s'.u = s.u)
    (hh : s'.m.health = s.m.health.set i h) : Frame s s' i := by
  refine ⟨by rw [hu], ?_, fun j hj => ?_, fun j _ => by rw [hu]⟩
  · rw [StateMgr.cap, StateMgr.cap, hh, List.length_set]
  · rw [hh, List.getElem?_set_ne (Ne.symm hj)]

theorem observeHealthy_health (m : StateMgr) (u : LiveUniv) (i : Nat) (n : HotTrigger) :
    (observeHealthy m u i n).2.2.health = m.health := by
  unfold observeHealthy
  split
  · rfl
  · split
    · rfl
    · simp only
      split <;> rfl

theorem stateEnqueue_health (m : StateMgr) (need : Need) :
    (stateEnqueue m need).health = m.health := by
  unfold stateEnqueue
  split <;> rfl

theorem stateObserve_health (m : StateMgr) (u : LiveUniv) (i : Nat) (n : HotTrigger) :
    (stateObserve m u i n).2.2.health = m.health := by
  unfold stateObserve
  split
  · rfl
  · simp only
    split
    · rfl
    · split
      · split
        · exact stateEnqueue_health _ _
        · exact observeHealthy_health _ u i n
      · exact observeHealthy_health _ u i n

theorem stateConfirm_cases (s : Managed) (i : Nat) (n : HotTrigger) (now : UInt64) :
    Frame s (stateConfirm s i n now).2 i ∧
      Effect s (.confirm i n now) (stateConfirm s i n now).2 := by
  unfold stateConfirm
  split
  · rename_i hout
    exact ⟨Frame.refl s i, .kept (fun _ => hout) rfl rfl rfl⟩
  · rename_i hin
    rw [not_or, Nat.not_le, Nat.not_le] at hin
    cases hpred : predictTrigger s.u i n with
    | none =>
      rw [hotCommit_of_predict_none hpred]
      have hstale : stateMarkStale s.m i = { s.m with health := s.m.health.set i .stale } :=
        if_neg (Nat.not_le.mpr hin.2)
      simp only [if_true, hstale]
      refine ⟨frame_of_set rfl rfl, .unhealthy rfl rfl ?_⟩
      exact health_set_ne (by simp) hin.2
    | some pred =>
      rw [hotCommit_of_predict hpred]
      simp only [Bool.true_eq_false, if_false]
      refine ⟨⟨rfl, by simp [StateMgr.cap], ?_, ?_⟩, .committed rfl ?_⟩
      · intro j hj
        exact List.getElem?_set_ne (Ne.symm hj)
      · intro j hj
        obtain ⟨hd, hp⟩ := hotCommit_frame hpred hj
        exact canonical_congr rfl hd hp
      · exact health_set_ne (by simp) hin.2

theorem stateRefresh_cases (s : Managed) (i : Nat) (auth : DlmmState) (slot now now' : UInt64) :
    Frame s (stateRefresh s i auth slot now now').2 i ∧
      Effect s (.refresh i auth slot now now') (stateRefresh s i auth slot now now').2 := by
  have hcall : call s (.refresh i auth slot now now') = stateRefresh s i auth slot now now' := rfl
  unfold stateRefresh at hcall ⊢
  split at hcall
  · rename_i hout
    rw [if_pos hout]
    exact ⟨Frame.refl s i, .kept (fun h => h.elim) rfl rfl rfl⟩
  · rename_i hin
    rw [if_neg hin]
    rw [not_or, Nat.not_le, Nat.not_le] at hin
    split at hcall
    · rename_i hproto
      rw [if_pos hproto]
      exact ⟨Frame.refl s i, .kept (fun h => h.elim) rfl rfl rfl⟩
    · rename_i hproto
      rw [if_neg hproto]
      rw [not_not] at hproto
      cases hput : dlmmCachePut s.u.dlmm i auth with
      | none => exact ⟨frame_of_set rfl rfl, .unhealthy rfl rfl (health_set_ne (by simp) hin.2)⟩
      | some dlmm =>
        rw [hput] at hcall
        refine ⟨⟨rfl, by simp [StateMgr.cap, refreshed], ?_, ?_⟩, .installed rfl ?_ ?_⟩
        · intro j hj
          exact List.getElem?_set_ne (Ne.symm hj)
        · intro j hj
          exact canonical_congr rfl (dlmmCachePut_get_ne hput hj) rfl
        · rw [hcall]
        · show canonical { s.u with dlmm := dlmm, stateVersion := s.u.stateVersion + 1 } i
            = .dlmm (some (hotOfState auth))
          have hp : LiveUniv.protocol
              { s.u with dlmm := dlmm, stateVersion := s.u.stateVersion + 1 } i
              = some protoDlmm := hproto
          rw [canonical, if_pos hp]
          exact congrArg Canon.dlmm (dlmmCachePut_get hput (hotOfState_occupied auth))

theorem stateRefreshPump_cases (s : Managed) (i : Nat) (auth : PumpState)
    (slot now now' : UInt64) :
    Frame s (stateRefreshPump s i auth slot now now').2 i ∧
      Effect s (.refreshPump i auth slot now now') (stateRefreshPump s i auth slot now now').2 := by
  have hcall : call s (.refreshPump i auth slot now now')
      = stateRefreshPump s i auth slot now now' := rfl
  unfold stateRefreshPump at hcall ⊢
  split at hcall
  · rename_i hout
    rw [if_pos hout]
    exact ⟨Frame.refl s i, .kept (fun h => h.elim) rfl rfl rfl⟩
  · rename_i hin
    rw [if_neg hin]
    split at hcall
    · rename_i hproto
      rw [if_pos hproto]
      exact ⟨Frame.refl s i, .kept (fun h => h.elim) rfl rfl rfl⟩
    · rename_i hproto
      rw [if_neg hproto]
      rw [not_not] at hproto
      refine ⟨⟨rfl, by simp [StateMgr.cap, refreshed], ?_, ?_⟩, .installed rfl ?_ ?_⟩
      · intro j hj
        exact List.getElem?_set_ne (Ne.symm hj)
      · intro j hj
        exact canonical_congr rfl rfl (setPump_get_ne s.u.pump auth hj)
      · rw [hcall]
      · show canonical { s.u with
            pump := setPump s.u.pump i auth
            stateVersion := s.u.stateVersion + 1 } i = .pump (some auth)
        have hp : LiveUniv.protocol { s.u with
            pump := setPump s.u.pump i auth
            stateVersion := s.u.stateVersion + 1 } i = some protoPump := hproto
        rw [canonical, hp, if_neg (by decide), if_pos rfl]
        exact congrArg Canon.pump (setPump_get s.u.pump i auth)

/-- **What one call can do.** -/
theorem call_cases (s : Managed) (op : Op) :
    Frame s (step s op) op.pool ∧ Effect s op (step s op) := by
  cases op with
  | observe i n =>
    have hh : (step s (.observe i n)).m.health = s.m.health := stateObserve_health s.m s.u i n
    have hu : (step s (.observe i n)).u = s.u := rfl
    refine ⟨frame_of_health hu hh i, .kept (fun h => h.elim) rfl rfl ?_⟩
    show (step s (.observe i n)).m.health[i]? = s.m.health[i]?
    rw [hh]
  | confirm i n now => exact stateConfirm_cases s i n now
  | reject i =>
    show Frame s (stateReject s i).2 i ∧ Effect s (.reject i) (stateReject s i).2
    unfold stateReject
    split
    · exact ⟨Frame.refl s i, .kept (fun h => h.elim) rfl rfl rfl⟩
    · exact ⟨⟨rfl, rfl, fun _ _ => rfl, fun _ _ => rfl⟩, .kept (fun h => h.elim) rfl rfl rfl⟩
  | refresh i auth slot now now' => exact stateRefresh_cases s i auth slot now now'
  | refreshPump i auth slot now now' => exact stateRefreshPump_cases s i auth slot now now'
  | markStale i =>
    show Frame s { s with m := stateMarkStale s.m i } i ∧
      Effect s (.markStale i) { s with m := stateMarkStale s.m i }
    unfold stateMarkStale
    split
    · exact ⟨Frame.refl s i, .kept (fun h => h.elim) rfl rfl rfl⟩
    · rename_i hin
      exact ⟨frame_of_set rfl rfl,
        .unhealthy rfl rfl (health_set_ne (by simp) (Nat.lt_of_not_le hin))⟩

/-! ## §3. Runs. -/

theorem run_append (s : Managed) (ops ops' : List Op) :
    run s (ops ++ ops') = run (run s ops) ops' := List.foldl_append

theorem run_concat (s : Managed) (ops : List Op) (op : Op) :
    run s (ops ++ [op]) = step (run s ops) op := run_append s ops [op]

theorem stateSendable_iff {s : Managed} {i : Nat} :
    stateSendable s i = true ↔ i < s.u.n ∧ s.m.health[i]? = some .synced := by
  rw [stateSendable, Bool.and_eq_true, decide_eq_true_eq, beq_iff_eq]

/-- The last call of the list is a successful refresh of the pool, and left this
state. -/
def EndsInRefresh (s : Managed) (ops : List Op) (i : Nat) : Prop :=
  ∃ pre op, ops = pre ++ [op] ∧ op.pool = i ∧ (call (run s pre) op).1 = .ok ∧
    op.Installs (canonical (run s ops).u i)

/-- **A sendable pool holds what its last successful refresh installed**, or the
initial load, and was not confirmed since. -/
theorem sendable_since_refresh (s : Managed) (i : Nat) (ops : List Op)
    (h : stateSendable (run s ops) i = true) :
    ∃ before after, ops = before ++ after ∧ (before = [] ∨ EndsInRefresh s before i) ∧
      canonical (run s ops).u i = canonical (run s before).u i ∧ ∀ op ∈ after, ¬op.Confirms i := by
  induction ops using List.reverseRecOn with
  | nil => exact ⟨[], [], rfl, Or.inl rfl, rfl, fun op hop => absurd hop List.not_mem_nil⟩
  | append_singleton ops op ih =>
    rw [run_concat] at h
    obtain ⟨hn, hh⟩ := stateSendable_iff.mp h
    obtain ⟨hframe, heffect⟩ := call_cases (run s ops) op
    have hn' : i < (run s ops).u.n := by
      rw [LiveUniv.n, hframe.tbl] at hn
      exact hn
    -- a call that keeps health and state of the pool extends what is known
    have hextend : (step (run s ops) op).m.health[i]? = (run s ops).m.health[i]? →
        canonical (step (run s ops) op).u i = canonical (run s ops).u i → ¬op.Confirms i →
        ∃ before after, ops ++ [op] = before ++ after ∧ (before = [] ∨ EndsInRefresh s before i) ∧
          canonical (run s (ops ++ [op])).u i = canonical (run s before).u i ∧
          ∀ op ∈ after, ¬op.Confirms i := by
      intro hsame hcanon hno
      obtain ⟨before, after, hsplit, hb, hc, hafter⟩ :=
        ih (stateSendable_iff.mpr ⟨hn', hsame ▸ hh⟩)
      refine ⟨before, after ++ [op], by rw [hsplit, List.append_assoc], hb, ?_, ?_⟩
      · rw [run_concat, hcanon, hc]
      · intro x hx
        rcases List.mem_append.mp hx with hx | hx
        · exact hafter x hx
        · rw [List.mem_singleton.mp hx]
          exact hno
    by_cases hpool : op.pool = i
    · subst hpool
      cases heffect with
      | kept noConfirm _ canon health =>
        refine hextend health canon fun hconf => ?_
        have hlt : op.pool < (run s ops).m.cap := by
          rw [← hframe.cap]
          exact (List.getElem?_eq_some_iff.mp hh).1
        rcases noConfirm hconf with hge | hge <;> omega
      | unhealthy _ _ health => exact absurd hh health
      | committed _ health => exact absurd hh health
      | installed _ ok canon =>
        refine ⟨ops ++ [op], [], (List.append_nil _).symm, Or.inr ⟨ops, op, rfl, rfl, ok, ?_⟩, rfl,
          fun x hx => absurd hx List.not_mem_nil⟩
        rw [run_concat]
        exact canon
    · refine hextend (hframe.health i (Ne.symm hpool)) (hframe.canon i (Ne.symm hpool)) ?_
      intro hconf
      cases op with
      | confirm j n now => exact hpool hconf
      | _ => exact hconf

/-- The version counts the writes. -/
theorem step_version (s : Managed) (op : Op) :
    ((step s op).u.stateVersion = s.u.stateVersion ∧
        ∀ j, canonical (step s op).u j = canonical s.u j) ∨
      (step s op).u.stateVersion = s.u.stateVersion + 1 := by
  obtain ⟨hframe, heffect⟩ := call_cases s op
  have hall : canonical (step s op).u op.pool = canonical s.u op.pool →
      ∀ j, canonical (step s op).u j = canonical s.u j := by
    intro h j
    by_cases hj : j = op.pool
    · rw [hj]
      exact h
    · exact hframe.canon j hj
  cases heffect with
  | kept _ version canon _ => exact Or.inl ⟨version, hall canon⟩
  | unhealthy version canon _ => exact Or.inl ⟨version, hall canon⟩
  | committed version _ => exact Or.inr version
  | installed version _ _ => exact Or.inr version

/-- Over a run it grows by at most one a call, and is unchanged only if the
states are. -/
theorem run_version (s : Managed) (ops : List Op) :
    ∃ k ≤ ops.length, (run s ops).u.stateVersion = s.u.stateVersion + UInt64.ofNat k ∧
      (k = 0 → ∀ j, canonical (run s ops).u j = canonical s.u j) := by
  induction ops using List.reverseRecOn with
  | nil => exact ⟨0, Nat.le_refl _, (UInt64.add_zero _).symm, fun _ _ => rfl⟩
  | append_singleton ops op ih =>
    obtain ⟨k, hk, hver, hcanon⟩ := ih
    rw [run_concat, List.length_append, List.length_singleton]
    rcases step_version (run s ops) op with ⟨hsame, hc⟩ | hnext
    · refine ⟨k, Nat.le_succ_of_le hk, by rw [hsame, hver], fun h0 j => ?_⟩
      rw [hc j]
      exact hcanon h0 j
    · refine ⟨k + 1, Nat.succ_le_succ hk, ?_, fun h0 => absurd h0 (Nat.succ_ne_zero k)⟩
      rw [hnext, hver, UInt64.ofNat_add, UInt64.add_assoc]
      rfl

theorem canonical_of_version_eq {s : Managed} {ops : List Op} (hlen : ops.length < 2 ^ 64)
    (h : (run s ops).u.stateVersion = s.u.stateVersion) (j : Nat) :
    canonical (run s ops).u j = canonical s.u j := by
  obtain ⟨k, hk, hver, hcanon⟩ := run_version s ops
  rw [h] at hver
  have hzero : UInt64.ofNat k = 0 := UInt64.left_eq_add.mp hver
  refine hcanon ?_ j
  have hmod := congrArg UInt64.toNat hzero
  rw [UInt64.toNat_ofNat_of_lt' (by show k < 2 ^ 64; omega)] at hmod
  exact hmod

/-- The pool can be refreshed. -/
structure Refreshable (s : Managed) (i : Nat) : Prop where
  lt : i < s.u.n
  lt_cap : i < s.m.cap
  proto : s.u.protocol i = some protoPump

theorem Refreshable.step {s : Managed} {i : Nat} (h : Refreshable s i) (op : Op) :
    Refreshable (step s op) i := by
  obtain ⟨hframe, -⟩ := call_cases s op
  refine ⟨?_, ?_, ?_⟩
  · rw [LiveUniv.n, hframe.tbl]
    exact h.lt
  · rw [hframe.cap]
    exact h.lt_cap
  · rw [LiveUniv.protocol, hframe.tbl]
    exact h.proto

theorem Refreshable.refreshPump {s : Managed} {i : Nat} (h : Refreshable s i) (auth : PumpState)
    (slot now now' : UInt64) :
    (State.step s (.refreshPump i auth slot now now')).u.stateVersion = s.u.stateVersion + 1 ∧
      canonical (State.step s (.refreshPump i auth slot now now')).u i = .pump (some auth) := by
  have hin : ¬(i ≥ s.u.n ∨ i ≥ s.m.cap) := by
    rw [not_or, Nat.not_le, Nat.not_le]
    exact ⟨h.lt, h.lt_cap⟩
  have hver : (State.step s (.refreshPump i auth slot now now')).u.stateVersion
      = s.u.stateVersion + 1 := by
    show (stateRefreshPump s i auth slot now now').2.u.stateVersion = _
    rw [stateRefreshPump, if_neg hin, if_neg (not_not.mpr h.proto)]
  obtain ⟨-, heffect⟩ := call_cases s (.refreshPump i auth slot now now')
  cases heffect with
  | installed _ _ canon => exact ⟨hver, canon⟩
  | kept _ version _ _ => exact absurd (UInt64.left_eq_add.mp (version.symm.trans hver)) (by decide)
  | unhealthy version _ _ => exact absurd (UInt64.left_eq_add.mp (version.symm.trans hver)) (by decide)
  | committed _ health =>
    refine absurd ?_ health
    show (stateRefreshPump s i auth slot now now').2.m.health[i]? = some .synced
    rw [stateRefreshPump, if_neg hin, if_neg (not_not.mpr h.proto)]
    exact List.getElem?_set_self h.lt_cap

theorem run_replicate_refreshPump {i : Nat} (auth : PumpState) (slot now now' : UInt64) (k : Nat) :
    ∀ {s : Managed}, Refreshable s i →
      Refreshable (run s (List.replicate k (.refreshPump i auth slot now now'))) i ∧
      (run s (List.replicate k (.refreshPump i auth slot now now'))).u.stateVersion
        = s.u.stateVersion + UInt64.ofNat k := by
  induction k with
  | zero =>
    intro s h
    exact ⟨h, (UInt64.add_zero _).symm⟩
  | succ k ih =>
    intro s h
    obtain ⟨hr, hv⟩ := ih (h.step (.refreshPump i auth slot now now'))
    refine ⟨hr, ?_⟩
    show (run (State.step s _) (List.replicate k _)).u.stateVersion = _
    rw [hv, (h.refreshPump auth slot now now').1, UInt64.ofNat_add, UInt64.add_assoc,
      UInt64.add_comm 1]
    rfl

/-- One live Pump pool. -/
def onePump : LiveUniv where
  tbl := [⟨protoPump, 1, mintSol⟩]
  dlmm := ⟨[], 0⟩
  pump := [some evenPump]
  routes := twoPumps
  stateVersion := 0

end ShredArb.State
