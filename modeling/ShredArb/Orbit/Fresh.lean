/-
  ShredArb.Orbit.Fresh — the pools behind an `opp_synced`.

  The sync gate checks the triggered pool and ONE partner, the first pool of the
  other venue over the same mints.  The decision is sized on other pools too:
  every hop of every executable route through the triggered pool.  A counted
  decision rests on fresh pools when the ones the gate does not check are fresh.

  Main results:
    * `Keeps` — no step touches the pool table or the routes,
    * `considerFramed_counts` — what a counted decision is,
    * `opp_synced_pools_fresh`.
-/
import ShredArb.Orbit.Kernel
import ShredArb.State.Sendable

namespace ShredArb.Orbit

open ShredArb.Dlmm ShredArb.Pump ShredArb.Univ ShredArb.Hot ShredArb.State ShredArb.Tx
open ShredArb.Best ShredArb.Bytes

/-! ## §1. What every step keeps. -/

/-- The metadata and the routes of the universe stay. -/
structure SameMap (u u' : LiveUniv) : Prop where
  tbl : u'.tbl = u.tbl
  routes : u'.routes = u.routes

theorem SameMap.refl (u : LiveUniv) : SameMap u u := ⟨rfl, rfl⟩

theorem SameMap.trans {u v w : LiveUniv} (h : SameMap u v) (h' : SameMap v w) : SameMap u w :=
  ⟨h'.tbl.trans h.tbl, h'.routes.trans h.routes⟩

/-- And the size of the flag array, and the pool keys. -/
structure Keeps (o o' : RaceCtx) : Prop where
  map : SameMap o.s.u o'.s.u
  flags : o'.updating.length = o.updating.length
  key : o'.key = o.key

theorem Keeps.refl (o : RaceCtx) : Keeps o o := ⟨.refl _, rfl, rfl⟩

theorem Keeps.trans {a b c : RaceCtx} (h : Keeps a b) (h' : Keeps b c) : Keeps a c :=
  ⟨h.map.trans h'.map, h'.flags.trans h.flags, h'.key.trans h.key⟩

theorem stateConfirm_sameMap (s : Managed) (i : Nat) (n : HotTrigger) (now : UInt64) :
    SameMap s.u (stateConfirm s i n now).2.u := by
  unfold stateConfirm
  split
  · exact .refl _
  · cases hpred : predictTrigger s.u i n with
    | none =>
      rw [hotCommit_of_predict_none hpred]
      exact .refl _
    | some pred =>
      rw [hotCommit_of_predict hpred]
      exact ⟨rfl, rfl⟩

theorem stateRefresh_sameMap (s : Managed) (i : Nat) (auth : DlmmState) (slot now now' : UInt64) :
    SameMap s.u (stateRefresh s i auth slot now now').2.u := by
  unfold stateRefresh
  split
  · exact .refl _
  · split
    · exact .refl _
    · split
      · exact .refl _
      · exact ⟨rfl, rfl⟩

theorem stateRefreshPump_sameMap (s : Managed) (i : Nat) (auth : PumpState)
    (slot now now' : UInt64) : SameMap s.u (stateRefreshPump s i auth slot now now').2.u := by
  unfold stateRefreshPump
  split
  · exact .refl _
  · split
    · exact .refl _
    · exact ⟨rfl, rfl⟩

theorem drainOne_keeps (o : RaceCtx) (r : Recon) : Keeps o (drainOne o r) := by
  cases r with
  | reject i sig =>
    refine ⟨?_, rfl, rfl⟩
    show SameMap o.s.u (if i < o.s.u.n then (stateReject o.s i).2 else o.s).u
    split
    · unfold stateReject
      split <;> exact .refl _
    · exact .refl _
  | land sig now =>
    rw [drainOne]
    split
    · exact .refl o
    · exact ⟨stateConfirm_sameMap _ _ _ _, rfl, rfl⟩
  | auth sig => exact ⟨.refl _, rfl, rfl⟩
  | invalidate i rx =>
    rw [drainOne]
    split <;> exact ⟨.refl _, List.length_set, rfl⟩
  | plane slot => exact ⟨.refl _, rfl, rfl⟩
  | other => exact .refl o

theorem reconDrain_keeps (rs : List Recon) : ∀ o, Keeps o (reconDrain o rs) := by
  induction rs with
  | nil => exact Keeps.refl
  | cons r rs ih =>
    intro o
    exact (drainOne_keeps o r).trans (ih (drainOne o r))

theorem installAuth_keeps (o : RaceCtx) (i : Nat) (auth : Option AuthPub) (now now' : UInt64) :
    Keeps o (installAuth o i auth now now').2 := by
  -- both venues end in the same way
  have hdone : ∀ (r : Rc × Managed) (a : AuthPub), SameMap o.s.u r.2.u →
      Keeps o (if r.1 = .ok then
        (true, { o with
          s := r.2
          updating := o.updating.set i false
          gen := o.gen.set i a.generation })
        else (false, { o with s := r.2 })).2 := by
    intro r a hmap
    split
    · exact ⟨hmap, List.length_set, rfl⟩
    · exact ⟨hmap, rfl, rfl⟩
  unfold installAuth
  split
  · exact .refl o
  · rename_i a
    split
    · exact .refl o
    · split
      · split
        · exact .refl o
        · exact hdone _ a (stateRefresh_sameMap _ _ _ _ _ _)
      · split
        · split
          · exact .refl o
          · exact hdone _ a (stateRefreshPump_sameMap _ _ _ _ _ _)
        · exact .refl o

theorem installOrStale_keeps (o : RaceCtx) (f : Framed) (i : Nat) :
    Keeps o (installOrStale o f i).2 := by
  have h := installAuth_keeps o i (f.auth i) (f.clock i).1 (f.clock i).2
  unfold installOrStale
  simp only
  split
  · exact h
  · exact ⟨h.map, h.flags, h.key⟩

theorem prepare_keeps (o : RaceCtx) (f : Framed) (hit : Nat) : Keeps o (prepare o f hit).2 := by
  have hboth : ∀ o : RaceCtx, Keeps o (installBoth o f hit).2 := by
    intro o
    have h := installOrStale_keeps o f hit
    unfold installBoth
    simp only
    split
    · exact h
    · split
      · exact h
      · exact h.trans (installOrStale_keeps _ f _)
  have h := hboth { o with pend := pendPut o.pend ⟨f.nix.sig, hit, f.trig⟩ }
  unfold prepare
  simp only
  split <;> exact ⟨h.map, h.flags, h.key⟩

/-! ## §2. What a counted decision is. -/

/-- The decision at the gate is `hot_decide`'s, on the state after the installs. -/
theorem stateObserve_opp {m : StateMgr} {u : LiveUniv} {i : Nat} {n : HotTrigger}
    {o : Opportunity} (h : (stateObserve m u i n).2.1.opp = some o) :
    ∃ dec, hotDecide u i n = some dec ∧ dec.opp = some o := by
  have hhealthy : ∀ m : StateMgr, (observeHealthy m u i n).2.1.opp = some o →
      ∃ dec, hotDecide u i n = some dec ∧ dec.opp = some o := by
    intro m h
    unfold observeHealthy at h
    split at h
    · exact absurd h (by simp)
    · split at h
      · exact absurd h (by simp [HotDecisionZero])
      · rename_i dec hdec
        exact ⟨dec, hdec, h⟩
  unfold stateObserve at h
  split at h
  · exact absurd h (by simp [HotDecisionZero])
  · simp only at h
    split at h
    · exact absurd h (by simp [HotDecisionZero])
    · split at h
      · split at h
        · exact absurd h (by simp)
        · exact hhealthy _ h
      · exact hhealthy _ h

/-- What reaches the gate. -/
structure Reaches (o : RaceCtx) (f : Framed) (o' : RaceCtx) (g : AtGate) : Prop where
  keeps : Keeps o o'
  sized : SameMap o.s.u g.sizedOn
  pool : o.poolOf f.nix.pool = some g.hit
  decided : ∃ dec, hotDecide g.sizedOn g.hit f.trig = some dec ∧ dec.opp = some g.opp

theorem reachGate_spec {o o' : RaceCtx} {f : Framed} {drained : List Recon} {g : AtGate}
    (h : reachGate o f drained = (o', some g)) : Reaches o f o' g := by
  unfold reachGate at h
  split at h
  · exact absurd (Prod.mk.inj h).2 (by simp)
  · rename_i hit hpool
    have hprep := prepare_keeps o f hit
    simp only at h
    split at h
    · exact absurd (Prod.mk.inj h).2 (by simp)
    · split at h
      · exact absurd (Prod.mk.inj h).2 (by simp)
      · split at h
        · exact absurd (Prod.mk.inj h).2 (by simp)
        · rename_i opp hopp
          obtain ⟨rfl, hg⟩ := Prod.mk.inj h
          obtain rfl := Option.some.inj hg
          have hdrain := reconDrain_keeps drained { (prepare o f hit).2 with
            s := { (prepare o f hit).2.s with
              m := (stateObserve (prepare o f hit).2.s.m (prepare o f hit).2.s.u hit f.trig).2.2 } }
          refine ⟨⟨hprep.map.trans hdrain.map, hdrain.flags.trans hprep.flags,
            hdrain.key.trans hprep.key⟩, hprep.map, hpool, stateObserve_opp hopp⟩

theorem reachGate_keeps (o : RaceCtx) (f : Framed) (drained : List Recon) :
    Keeps o (reachGate o f drained).1 := by
  unfold reachGate
  split
  · exact .refl o
  · rename_i hit hpool
    have hprep := prepare_keeps o f hit
    have hobs : Keeps o { (prepare o f hit).2 with
        s := { (prepare o f hit).2.s with
          m := (stateObserve (prepare o f hit).2.s.m (prepare o f hit).2.s.u hit f.trig).2.2 } } :=
      ⟨hprep.map, hprep.flags, hprep.key⟩
    simp only
    split
    · exact hprep
    · split
      · exact hobs
      · have hdrain := hobs.trans (reconDrain_keeps drained _)
        split
        · exact hdrain
        · exact ⟨hdrain.map, hdrain.flags, hdrain.key⟩

/-- **A counted decision passed the gate in the state the step leaves.** -/
theorem considerFramed_counts {o o' : RaceCtx} {f : Framed} {drained : List Recon} {c : Counted}
    (h : considerFramed o f drained = (o', some c)) :
    ∃ g, reachGate o f drained = (o', some g) ∧ syncGate o' g.hit = true ∧
      c = ⟨g.hit, f.nix, f.trig, g.sizedOn, g.opp, overlayOf g.sizedOn g.hit f.nix f.tx⟩ := by
  unfold considerFramed at h
  simp only at h
  split at h
  · exact absurd (Prod.mk.inj h).2 (by simp)
  · rename_i g hg
    split at h
    · rename_i hgate
      obtain ⟨ho, hc⟩ := Prod.mk.inj h
      rw [ho] at hgate
      exact ⟨g, Prod.ext ho hg, hgate, (Option.some.inj hc).symm⟩
    · exact absurd (Prod.mk.inj h).2 (by simp)

theorem onEvent_keeps (o : RaceCtx) (e : Event) : Keeps o (onEvent o e).1 := by
  cases e with
  | framed f drained =>
    have h := reachGate_keeps o f drained
    show Keeps o (considerFramed o f drained).1
    unfold considerFramed
    simp only
    split
    · exact h
    · split <;> exact h
  | drain rs => exact reconDrain_keeps rs o

/-! ## §3. The pools behind a decision. -/

/-- The pools of a compiled route. -/
def routePools (u : LiveUniv) (rid : Nat) : List Nat :=
  ((u.routes.route[rid]?).map fun r => r.hops.map (·.pool)).getD []

/-- The pools whose states determined what the decision reports: the pair it
sized, or every hop of the route it chose. -/
def behind (c : Counted) : List Nat :=
  match (predictTrigger c.sizedOn c.hit c.trig).bind (decideFrom c.sizedOn c.hit) with
  | none => []
  | some (.pair, _) => c.hit :: (route0Partner c.sizedOn c.hit (wantOf c.sizedOn c.hit)).toList
  | some (.compiled rid, _) => routePools c.sizedOn rid

/-- The pools of everything the decision compares. -/
def candidatePools (u : LiveUniv) (i : Nat) : List Nat :=
  (route0Partner u i (wantOf u i)).toList ++
    (routesOf u i).flatMap fun rid =>
      if (u.routes.route[rid]?).any routeExecutable then routePools u rid else []

/-- Sendable, and not marked as updating. -/
def Fresh (o : RaceCtx) (j : Nat) : Prop := stateSendable o.s j = true ∧ o.isUpdating j = false

instance (o : RaceCtx) (j : Nat) : Decidable (Fresh o j) := inferInstanceAs (Decidable (_ ∧ _))

/-- The pools that the decision compares and the gate does not check are fresh. -/
def UncheckedFresh (o : RaceCtx) (hit : Nat) : Prop :=
  ∀ j ∈ candidatePools o.s.u hit, j = hit ∨ gatePartner o.s.u hit = some j ∨ Fresh o j

instance (o : RaceCtx) (hit : Nat) : Decidable (UncheckedFresh o hit) :=
  inferInstanceAs (Decidable (∀ j ∈ candidatePools o.s.u hit, _))

theorem behind_subset (c : Counted) {j : Nat} (hj : j ∈ behind c) :
    j = c.hit ∨ j ∈ candidatePools c.sizedOn c.hit := by
  unfold behind at hj
  split at hj
  · exact absurd hj List.not_mem_nil
  · rcases List.mem_cons.mp hj with h | h
    · exact Or.inl h
    · exact Or.inr (List.mem_append_left _ h)
  · rename_i rid o heq
    obtain ⟨pred, -, hbest⟩ := Option.bind_eq_some_iff.mp heq
    right
    apply List.mem_append_right
    -- the winner is one of the candidates, so the route is executable
    rcases bestOf_mem hbest with h | h
    · exact absurd h (by simp)
    · rcases List.mem_append.mp h with h | h
      · obtain ⟨x, -, hx⟩ := Option.map_eq_some_iff.mp (Option.mem_toList.mp h)
        exact absurd (Prod.mk.inj hx).1 (by simp)
      · obtain ⟨rid', hrid, h⟩ := List.mem_filterMap.mp h
        obtain ⟨x, hx, heq⟩ := Option.map_eq_some_iff.mp h
        obtain rfl := Source.compiled.inj (Prod.mk.inj heq).1
        obtain ⟨r, -, hr, hexec, -⟩ := routeCand_eq_some.mp hx
        refine List.mem_flatMap.mpr ⟨rid', hrid, ?_⟩
        rw [hr, Option.any_some, if_pos hexec]
        exact hj

theorem protocol_congr {u u' : LiveUniv} (h : SameMap u u') (i : Nat) :
    u'.protocol i = u.protocol i := by
  rw [LiveUniv.protocol, LiveUniv.protocol, h.tbl]

theorem gatePartner_congr {u u' : LiveUniv} (h : SameMap u u') (i : Nat) :
    gatePartner u' i = gatePartner u i := by
  unfold gatePartner wantOf findRoute0Partner LiveUniv.n
  rw [protocol_congr h, h.tbl]

theorem candidatePools_congr {u u' : LiveUniv} (h : SameMap u u') (i : Nat) :
    candidatePools u' i = candidatePools u i := by
  unfold candidatePools routePools route0Partner wantOf routesOf
  simp only [protocol_congr h, h.routes]

theorem gatePartner_lt {u : LiveUniv} {i p : Nat} (h : gatePartner u i = some p) : p < u.n := by
  obtain ⟨m, -, hfind⟩ := Option.bind_eq_some_iff.mp h
  exact List.mem_range.mp (List.mem_of_find?_eq_some hfind)

/-- What the gate checked. -/
theorem syncGate_fresh {o : RaceCtx} {i : Nat} (hflags : o.updating.length = o.s.u.n)
    (h : syncGate o i = true) : Fresh o i ∧ ∀ p, gatePartner o.s.u i = some p → Fresh o p := by
  unfold syncGate at h
  simp only [Bool.and_eq_true, Bool.not_eq_true'] at h
  obtain ⟨⟨⟨⟨⟨hsend, -⟩, -⟩, -⟩, hupd⟩, hpart⟩ := h
  refine ⟨⟨hsend, hupd⟩, fun p hp => ?_⟩
  rw [hp] at hpart
  simp only at hpart
  rw [if_pos (by rw [hflags]; exact gatePartner_lt hp)] at hpart
  simp only [Bool.and_eq_true, Bool.not_eq_true'] at hpart
  exact ⟨hpart.1.2, hpart.1.1⟩

/-! ## §4. Runs. -/

/-- At every gate of the run, the pools it does not check are fresh. -/
def RunUncheckedFresh (o : RaceCtx) : List Event → Prop
  | [] => True
  | .framed f drained :: es =>
    (∀ g, (reachGate o f drained).2 = some g →
      UncheckedFresh (reachGate o f drained).1 g.hit) ∧
    RunUncheckedFresh (onEvent o (.framed f drained)).1 es
  | .drain rs :: es => RunUncheckedFresh (onEvent o (.drain rs)).1 es

/-- One step: the pools behind a counted decision are fresh when the unchecked
ones are. -/
theorem counted_fresh {o o' : RaceCtx} {f : Framed} {drained : List Recon} {c : Counted}
    (hflags : o.updating.length = o.s.u.n) (h : considerFramed o f drained = (o', some c))
    (hun : ∀ g, (reachGate o f drained).2 = some g →
      UncheckedFresh (reachGate o f drained).1 g.hit) :
    ∀ j ∈ behind c, Fresh o' j := by
  obtain ⟨g, hreach, hgate, rfl⟩ := considerFramed_counts h
  have hspec := reachGate_spec hreach
  have hflags' : o'.updating.length = o'.s.u.n := by
    rw [hspec.keeps.flags, hflags, LiveUniv.n, LiveUniv.n, hspec.keeps.map.tbl]
  obtain ⟨hhit, hpartner⟩ := syncGate_fresh hflags' hgate
  have hun' : UncheckedFresh o' g.hit := by
    have := hun g (by rw [hreach])
    rwa [hreach] at this
  intro j hj
  rcases behind_subset _ hj with rfl | hcand
  · exact hhit
  · -- the decision and the gate read the same pool table and routes
    have hsame : candidatePools g.sizedOn g.hit = candidatePools o'.s.u g.hit := by
      rw [candidatePools_congr hspec.sized, candidatePools_congr hspec.keeps.map]
    rcases hun' j (hsame ▸ hcand) with rfl | hp | hfresh
    · exact hhit
    · exact hpartner j hp
    · exact hfresh

theorem countedIn_fresh (es : List Event) : ∀ o : RaceCtx, o.updating.length = o.s.u.n →
    RunUncheckedFresh o es → ∀ x ∈ countedIn o es, ∀ j ∈ behind x.2, Fresh x.1 j := by
  induction es with
  | nil => exact fun o _ _ x hx => absurd hx List.not_mem_nil
  | cons e es ih =>
    intro o hflags hrun x hx
    have hkeep := onEvent_keeps o e
    have hflags' : (onEvent o e).1.updating.length = (onEvent o e).1.s.u.n := by
      rw [hkeep.flags, hflags, LiveUniv.n, LiveUniv.n, hkeep.map.tbl]
    have hrest : RunUncheckedFresh (onEvent o e).1 es := by
      cases e with
      | framed f drained => exact hrun.2
      | drain rs => exact hrun
    rcases List.mem_append.mp hx with h | h
    · obtain ⟨c, hc, rfl⟩ := Option.map_eq_some_iff.mp (Option.mem_toList.mp h)
      cases e with
      | framed f drained => exact counted_fresh hflags (Prod.ext rfl hc) hrun.1
      | drain rs => exact absurd hc (by simp [onEvent])
    · exact ih _ hflags' hrest x h

/-- **The pools behind every `opp_synced` of a run are fresh when it is counted**,
if at every gate of the run the pools it does not check are: those of executable
routes through the triggered pool, other than that pool and its first partner. -/
theorem opp_synced_pools_fresh (u : LiveUniv) (key : Nat → Mint) (slot : UInt64)
    (now : Nat → UInt64) (es : List Event)
    (h : RunUncheckedFresh (RaceCtx.init u key slot now) es) :
    ∀ x ∈ countedIn (RaceCtx.init u key slot now) es, ∀ j ∈ behind x.2, Fresh x.1 j :=
  countedIn_fresh es _ List.length_replicate h

/-- The published state of an even Pump pool. -/
def evenBlob : List UInt8 :=
  u64le evenPump.reserveBase ++ u64le evenPump.reserveQuote ++ u64le 0 ++
    u64le evenPump.lpFeeBps ++ u64le evenPump.protocolFeeBps ++ u64le 0 ++ [0, 0]

/-- The big sell on pool 0, with the published state of that pool. -/
def sellOn0 : Framed where
  nix := ⟨protoPump, 1, 7, 200000000000, 0, pumpDirBaseToQuote, 3⟩
  trig := bigSell
  slot := 9
  tx := []
  auth := fun i => if i = 0 then some ⟨1, 8, true, evenBlob⟩ else none
  authReady := true
  clock := fun _ => (2, 3)

/-- The process on a universe whose pool `i` has key `i + 1`. -/
def startOn (u : LiveUniv) : RaceCtx := .init u (fun i => BitVec.ofNat 256 (i + 1)) 1 fun _ => 1

theorem opp_synced_pools_fresh_demo :
    ∃ routes, universeCompile twoPumps 3 = some routes ∧
      countedIn (startOn (twoPumpsLive routes)) [.framed sellOn0 []] ≠ [] ∧
      ∀ x ∈ countedIn (startOn (twoPumpsLive routes)) [.framed sellOn0 []],
        ∀ j ∈ behind x.2, Fresh x.1 j := by
  have hrun : ((universeCompile twoPumps 3).map fun routes =>
      let o := startOn (twoPumpsLive routes)
      let r := reachGate o sellOn0 []
      (!(countedIn o [.framed sellOn0 []]).isEmpty) &&
        r.2.all fun g => decide (UncheckedFresh r.1 g.hit)) = some true := by
    decide +kernel
  obtain ⟨routes, hroutes, hrun⟩ := Option.map_eq_some_iff.mp hrun
  rw [Bool.and_eq_true] at hrun
  refine ⟨routes, hroutes, ?_, ?_⟩
  · intro hnil
    rw [hnil] at hrun
    exact absurd hrun.1 (by decide)
  · refine opp_synced_pools_fresh _ _ _ _ _ ⟨fun g hg => ?_, trivial⟩
    have hall := hrun.2
    rw [Option.all_eq_true] at hall
    exact of_decide_eq_true (hall g hg)

/-- Pool 1 is invalidated; pool 0 is sold into, its route through pool 1 gains,
and the decision is counted. -/
theorem opp_synced_on_stale_pool :
    ∃ routes, universeCompile twoPumps 3 = some routes ∧
      ∃ x ∈ countedIn (startOn (twoPumpsLive routes))
          [.drain [.invalidate 1 5], .framed sellOn0 []],
        ∃ j ∈ behind x.2, stateSendable x.1.s j = false ∧ x.1.isUpdating j = true := by
  have hrun : ((universeCompile twoPumps 3).map fun routes =>
      (countedIn (startOn (twoPumpsLive routes))
          [.drain [.invalidate 1 5], .framed sellOn0 []]).any fun x =>
        (behind x.2).any fun j => !stateSendable x.1.s j && x.1.isUpdating j) = some true := by
    decide +kernel
  obtain ⟨routes, hroutes, hrun⟩ := Option.map_eq_some_iff.mp hrun
  obtain ⟨x, hx, hrun⟩ := List.any_eq_true.mp hrun
  obtain ⟨j, hj, hrun⟩ := List.any_eq_true.mp hrun
  rw [Bool.and_eq_true, Bool.not_eq_true'] at hrun
  exact ⟨routes, hroutes, x, hx, j, hj, hrun⟩

end ShredArb.Orbit
