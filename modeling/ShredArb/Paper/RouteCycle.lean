/-
  ShredArb.Paper.RouteCycle — a Route0 route walked hop by hop IS the cycle.

  The compiled route says which side of a pool it enters by `dir`, read off the
  mints; `cycle_quote` fixes the sides by its direction constant.  The two agree
  because Route0 is only given to pairs with the token as X and SOL as Y on both
  pools: entering the DLMM pool with SOL is `dir = 1`, leaving it `dir = 0`.

  Main results:
    * `CompiledFrom.route0_hops` — the hops of a Route0 route,
    * `walk_pairHops` — the walk is the two legs of the cycle,
    * `route0_walk_eq_cycleQuote`.
-/
import ShredArb.Paper.Faithful

namespace ShredArb.Paper

open ShredArb.Dlmm ShredArb.Pump ShredArb.Univ ShredArb.Hot

/-! ## §1. The hops of a Route0 route. -/

theorem route0PairCompatible_mints {dx dy pb pq : Mint}
    (h : route0PairCompatible dx dy pb pq = true) :
    dy = mintSol ∧ pq = mintSol ∧ dx ≠ mintSol ∧ pb ≠ mintSol := by
  unfold route0PairCompatible at h
  split at h
  · exact absurd h (by simp)
  · rename_i hY
    split at h
    · exact absurd h (by simp)
    · rename_i hX
      rw [not_or, not_not, not_not] at hY
      rw [not_or] at hX
      exact ⟨hY.1, hY.2, hX.1, hX.2⟩

/-- SOL goes in on the Y side. -/
theorem Swaps.enters_sol {mask : UInt32} {pools : List PoolMeta} {h : Hop} {t : Mint} {p : PoolMeta}
    (hs : Swaps mask pools h mintSol t) (hp : pools[h.pool]? = some p) (hX : p.mintX ≠ mintSol) :
    h = ⟨p.protocol, h.pool, 1⟩ := by
  obtain ⟨p', hp', -, hproto, hdir⟩ := hs
  obtain rfl := Option.some.inj (hp.symm.trans hp')
  rcases hdir with ⟨-, hx, -⟩ | ⟨hdir, -, -⟩
  · exact absurd hx hX
  · rw [← hproto, ← hdir]

/-- SOL comes out on the Y side. -/
theorem Swaps.leaves_sol {mask : UInt32} {pools : List PoolMeta} {h : Hop} {t : Mint} {p : PoolMeta}
    (hs : Swaps mask pools h t mintSol) (hp : pools[h.pool]? = some p) (hX : p.mintX ≠ mintSol) :
    h = ⟨p.protocol, h.pool, 0⟩ := by
  obtain ⟨p', hp', -, hproto, hdir⟩ := hs
  obtain rfl := Option.some.inj (hp.symm.trans hp')
  rcases hdir with ⟨hdir, -, -⟩ | ⟨-, -, hx⟩
  · rw [← hproto, ← hdir]
  · exact absurd hx hX

/-- **A Route0 route is a pair in one of the two directions of the cycle.** -/
theorem CompiledFrom.route0_hops {u : LiveUniv} {base : Universe} {mask : UInt32}
    (hc : CompiledFrom u base mask) {r : CompiledRoute} (hr : r ∈ u.routes.route)
    (hfam : r.family = routeFam0DlmmPump) :
    ∃ d p dir, r.hops = pairHops d p dir ∧ (dir = cycleDlmmThenPump ∨ dir = cyclePumpThenDlmm) ∧
      u.protocol d = some protoDlmm ∧ u.protocol p = some protoPump := by
  obtain ⟨h1, h2, dm, pm, hops, hpools, hdm, hpm, hcompat⟩ :=
    (universeCompile_family hc.pools hc.run hr).mp hfam
  obtain ⟨-, -, hdX, hpX⟩ := route0PairCompatible_mints hcompat
  -- two hops, so a two-hop cycle: SOL goes into the first and comes out of the second
  obtain ⟨t, hin, hout⟩ : ∃ t, Swaps mask base.pool h1 mintSol t ∧ Swaps mask base.pool h2 t mintSol := by
    rcases universeCompile_solCycle hc.pools hc.run hr with
      ⟨g1, g2, t, hg, -, -, hin, hout⟩ | ⟨g1, g2, g3, t1, t2, hg, -⟩
    · rw [hops] at hg
      obtain ⟨rfl, rfl⟩ : h1 = g1 ∧ h2 = g2 := by simpa using hg
      exact ⟨t, hin, hout⟩
    · rw [hops] at hg
      exact absurd (congrArg List.length hg) (by simp)
  have hproto : ∀ {i : Nat} {m : PoolMeta}, base.pool[i]? = some m →
      u.protocol i = some m.protocol := by
    intro i m hm
    rw [hc.protocol_eq, hm, Option.map_some]
  rcases hpools with ⟨e1, e2⟩ | ⟨e1, e2⟩
  · refine ⟨h1.pool, h2.pool, cycleDlmmThenPump, ?_, Or.inl rfl, hdm ▸ hproto e1, hpm ▸ hproto e2⟩
    have hh1 := Swaps.enters_sol hin e1 hdX
    have hh2 := Swaps.leaves_sol hout e2 hpX
    rw [hdm] at hh1
    rw [hpm] at hh2
    rw [hops, pairHops, if_pos rfl, ← hh1, ← hh2]
  · refine ⟨h2.pool, h1.pool, cyclePumpThenDlmm, ?_, Or.inr rfl, hdm ▸ hproto e2, hpm ▸ hproto e1⟩
    have hh1 := Swaps.enters_sol hin e1 hpX
    have hh2 := Swaps.leaves_sol hout e2 hdX
    rw [hpm] at hh1
    rw [hdm] at hh2
    rw [hops, pairHops, if_neg (by decide), ← hh1, ← hh2]

/-! ## §2. The walk. -/

/-- The states a route's pools are quoted on, and the two legs on them. -/
def legsOn (u : LiveUniv) (pred : Pred) (d p : Nat) (ain : UInt64) (dir : UInt8) : Option UInt64 :=
  (predDlmm u d pred).bind fun h => (predPump u p pred).bind fun s =>
    cycleLegs (dlmmHotToState h) s ain dir

theorem quoteLiveHop_dlmm_none {u : LiveUniv} {pred : Pred} {d : Nat}
    (hproto : u.protocol d = some protoDlmm) (hd : predDlmm u d pred = none) (ain : UInt64)
    (dir : UInt8) : quoteLiveHop u pred ain ⟨protoDlmm, d, dir⟩ = none := by
  unfold quoteLiveHop
  split
  · rfl
  · rw [hproto, Option.bind_some, quoteVenue, if_pos rfl, hd, Option.bind_none]

theorem quoteLiveHop_pump_none {u : LiveUniv} {pred : Pred} {p : Nat}
    (hproto : u.protocol p = some protoPump) (hp : predPump u p pred = none) (ain : UInt64)
    (dir : UInt8) : quoteLiveHop u pred ain ⟨protoPump, p, dir⟩ = none := by
  unfold quoteLiveHop
  split
  · rfl
  · rw [hproto, Option.bind_some, quoteVenue, if_neg (by decide), if_pos rfl, hp, Option.bind_none]

section Walk

variable {u : LiveUniv} {pred : Pred} {d p : Nat} (hd : u.protocol d = some protoDlmm)
  (hp : u.protocol p = some protoPump)

include hd hp

/-- **The walk over the hops of a pair is the two legs of the cycle.** -/
theorem walk_pairHops {dir : UInt8} (hdir : dir = cycleDlmmThenPump ∨ dir = cyclePumpThenDlmm)
    (ain : UInt64) :
    (pairHops d p dir).foldlM (quoteLiveHop u pred) ain = legsOn u pred d p ain dir := by
  have hfold : ∀ h1 h2 : Hop, [h1, h2].foldlM (quoteLiveHop u pred) ain
      = (quoteLiveHop u pred ain h1).bind fun a => quoteLiveHop u pred a h2 := by
    intro h1 h2
    show (quoteLiveHop u pred ain h1).bind (fun a => (quoteLiveHop u pred a h2).bind some) = _
    simp only [Option.bind_fun_some]
  unfold legsOn pairHops
  cases hds : predDlmm u d pred with
  | none =>
    rw [Option.bind_none]
    split
    · rw [hfold, quoteLiveHop_dlmm_none hd hds, Option.bind_none]
    · rw [hfold]
      simp only [quoteLiveHop_dlmm_none hd hds, Option.bind_fun_none]
  | some h =>
    cases hps : predPump u p pred with
    | none =>
      rw [Option.bind_some, Option.bind_none]
      split
      · rw [hfold]
        simp only [quoteLiveHop_pump_none hp hps, Option.bind_fun_none]
      · rw [hfold, quoteLiveHop_pump_none hp hps, Option.bind_none]
    | some s =>
      rw [Option.bind_some, Option.bind_some]
      rcases hdir with rfl | rfl
      · rw [if_pos rfl, hfold, quoteLiveHop_dlmm hd hds, cycleLegs, if_pos rfl, if_neg (by decide),
          Option.bind_map]
        exact congrArg _ (funext fun a => by
          rw [Function.comp_apply, quoteLiveHop_pump hp hps, if_pos rfl])
      · rw [if_neg (by decide), hfold, quoteLiveHop_pump hp hps, cycleLegs, if_neg (by decide),
          if_pos rfl, if_neg (by decide), Option.bind_map]
        exact congrArg _ (funext fun a => by
          rw [Function.comp_apply, quoteLiveHop_dlmm hd hds, if_pos rfl])

end Walk

/-- On a DLMM or Pump hop the paper path quotes what the hot path quotes. -/
theorem quoteHopPred_pairHops {u : PaperUniv} {st : UnivState} {pred : Pred} {d p : Nat} {dir : UInt8}
    (hd : u.protocol d = some protoDlmm) (hp : u.protocol p = some protoPump) {x : Hop}
    (hx : x ∈ pairHops d p dir) (ain : UInt64) :
    quoteHopPred u st pred ain x = quoteLiveHop u.toLiveUniv pred ain x := by
  have hpool : x.pool = d ∨ x.pool = p := by
    unfold pairHops at hx
    split at hx <;> simp only [List.mem_cons, List.not_mem_nil, or_false] at hx <;>
      rcases hx with rfl | rfl <;> simp
  unfold quoteHopPred quoteLiveHop
  rcases hpool with hpool | hpool
  · rw [hpool, hd, Option.bind_some, Option.bind_some, if_pos (Or.inl rfl)]
  · rw [hpool, hp, Option.bind_some, Option.bind_some, if_pos (Or.inr rfl)]

theorem foldlM_congr_mem {α β : Type} {f g : β → α → Option β} : ∀ (xs : List α) (b : β),
    (∀ x ∈ xs, ∀ b, f b x = g b x) → xs.foldlM f b = xs.foldlM g b := by
  intro xs
  induction xs with
  | nil => intro b _; rfl
  | cons x xs ih =>
    intro b h
    rw [List.foldlM_cons, List.foldlM_cons, h x List.mem_cons_self]
    exact congrArg _ (funext fun b' => ih b' fun y hy => h y (List.mem_cons_of_mem _ hy))

/-! ## §3. The walk and the cycle. -/

/-- A cycle quote is two legs on an amount that fits, with a result that fits. -/
theorem cycleQuote_eq_some_iff {dlmm : DlmmState} {pump : PumpState} {ain aout : UInt64} {dir : UInt8}
    (h0 : ain ≠ 0) (hin : ain.toNat ≤ int64Max) (hout : aout.toNat ≤ int64Max) :
    (∃ q, cycleQuote dlmm pump ain dir = some q ∧ q.amountOut = aout) ↔
      cycleLegs dlmm pump ain dir = some aout := by
  constructor
  · rintro ⟨q, hq, rfl⟩
    exact (cycleQuote_legs hq).2
  · intro hlegs
    refine ⟨⟨ain, aout, (aout.toNat : Int) - ain.toNat, dir⟩, ?_, rfl⟩
    rw [cycleQuote, if_neg (not_or.mpr ⟨h0, Nat.not_lt.mpr hin⟩), hlegs, Option.bind_some,
      if_neg (Nat.not_lt.mpr hout)]

/-- `cycle_quote` on the states the two pools of a route are quoted on. -/
def cycleOn (u : LiveUniv) (pred : Pred) (d p : Nat) (ain : UInt64) (dir : UInt8) :
    Option CycleQuote :=
  (predDlmm u d pred).bind fun h => (predPump u p pred).bind fun s =>
    cycleQuote (dlmmHotToState h) s ain dir

theorem cycleOn_eq_some_iff {u : LiveUniv} {pred : Pred} {d p : Nat} {ain aout : UInt64} {dir : UInt8}
    (h0 : ain ≠ 0) (hin : ain.toNat ≤ int64Max) (hout : aout.toNat ≤ int64Max) :
    (∃ q, cycleOn u pred d p ain dir = some q ∧ q.amountOut = aout) ↔
      legsOn u pred d p ain dir = some aout := by
  unfold cycleOn legsOn
  cases predDlmm u d pred with
  | none => simp
  | some h =>
    cases predPump u p pred with
    | none => simp
    | some s => exact cycleQuote_eq_some_iff h0 hin hout

theorem cycleOn_zero (u : LiveUniv) (pred : Pred) (d p : Nat) (dir : UInt8) :
    cycleOn u pred d p 0 dir = none := by
  unfold cycleOn
  cases predDlmm u d pred with
  | none => rfl
  | some h =>
    cases predPump u p pred with
    | none => rfl
    | some s =>
      rw [Option.bind_some, Option.bind_some, cycleQuote, if_pos (Or.inl rfl)]

/-- **Route walk = cycle quote**: on every Route0 route of a compiled universe,
both walks give the amount `cycle_quote` gives on the route's two states, in the
direction of its first hop. -/
theorem route0_walk_eq_cycleQuote {u : PaperUniv} {base : Universe} {mask : UInt32}
    (hc : CompiledFrom u.toLiveUniv base mask) {rid : Nat} {r : CompiledRoute}
    (hr : u.routes.route[rid]? = some r) (hfam : r.family = routeFam0DlmmPump) :
    ∃ d p dir, r.hops = pairHops d p dir ∧ (dir = cycleDlmmThenPump ∨ dir = cyclePumpThenDlmm) ∧
      u.protocol d = some protoDlmm ∧ u.protocol p = some protoPump ∧
      ∀ (st : UnivState) (pred : Pred) (ain aout : UInt64),
        ain.toNat ≤ int64Max → aout.toNat ≤ int64Max →
        (quoteLiveRoute u.toLiveUniv r pred ain = some aout ↔
          ∃ q, cycleOn u.toLiveUniv pred d p ain dir = some q ∧ q.amountOut = aout) ∧
        (quoteRoutePred u st rid pred ain = some aout ↔
          ∃ q, cycleOn u.toLiveUniv pred d p ain dir = some q ∧ q.amountOut = aout) := by
  obtain ⟨d, p, dir, hops, hdir, hd, hp⟩ :=
    CompiledFrom.route0_hops hc (List.mem_of_getElem? hr) hfam
  refine ⟨d, p, dir, hops, hdir, hd, hp, fun st pred ain aout hin hout => ?_⟩
  have hlen : ¬ r.hops.length < 2 := by
    rw [hops, pairHops]
    split <;> simp
  have hpred : quoteRoutePred u st rid pred ain = quoteLiveRoute u.toLiveUniv r pred ain := by
    have hwalk : r.hops.foldlM (quoteHopPred u st pred) ain
        = r.hops.foldlM (quoteLiveHop u.toLiveUniv pred) ain :=
      foldlM_congr_mem r.hops ain fun x hx b => quoteHopPred_pairHops hd hp (hops ▸ hx) b
    rw [quoteRoutePred, hr, Option.bind_some, quoteLiveRoute, pairHops_executable hops, hwalk]
    by_cases h0 : ain = 0
    · rw [if_pos (Or.inr h0), h0]
      rfl
    · rw [if_neg (not_or.mpr ⟨hlen, h0⟩), beq_false_of_ne h0]
      rfl
  rw [hpred, and_self]
  by_cases h0 : ain = 0
  · rw [h0, cycleOn_zero, quoteLiveRoute, beq_self_eq_true, Bool.or_true, if_pos rfl]
    simp
  · rw [cycleOn_eq_some_iff h0 hin hout, ← walk_pairHops hd hp hdir, quoteLiveRoute,
      pairHops_executable hops, beq_false_of_ne h0, ← hops]
    rfl

/-- The buy on the DLMM pool and the sale on the dear Pump pool, at a tenth of a
SOL. -/
theorem route0_walk_eq_cycleQuote_demo :
    ∃ routes r d p dir aout, universeCompile twoPairs 3 = some routes ∧
      routes.route[0]? = some r ∧ r.family = routeFam0DlmmPump ∧
      quoteLiveRoute (twoPairsLive routes).toLiveUniv r noPred 100000000 = some aout ∧
      ∃ q, cycleOn (twoPairsLive routes).toLiveUniv noPred d p 100000000 dir = some q ∧
        q.amountOut = aout := by
  have hrun : ((universeCompile twoPairs 3).bind fun routes =>
      (routes.route[0]?).bind fun r =>
      (quoteLiveRoute (twoPairsLive routes).toLiveUniv r noPred 100000000).map fun aout =>
        (r.family, decide (aout.toNat ≤ int64Max))) = some (routeFam0DlmmPump, true) := by
    decide +kernel
  obtain ⟨routes, hroutes, hrun⟩ := Option.bind_eq_some_iff.mp hrun
  obtain ⟨r, hr, hrun⟩ := Option.bind_eq_some_iff.mp hrun
  obtain ⟨aout, haout, heq⟩ := Option.map_eq_some_iff.mp hrun
  obtain ⟨hfam, hfit⟩ := Prod.mk.inj heq
  obtain ⟨d, p, dir, -, -, -, -, hwalk⟩ := route0_walk_eq_cycleQuote (u := twoPairsLive routes)
    ⟨hroutes, rfl, by decide, by decide⟩ hr hfam
  exact ⟨routes, r, d, p, dir, aout, hroutes, hr, hfam, haout,
    (hwalk noExtra noPred 100000000 aout (by decide) (of_decide_eq_true hfit)).1.mp haout⟩

end ShredArb.Paper
