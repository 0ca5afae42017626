/-
  ShredArb.Hot.Kernel — the hot path (`arb-core/src/hot.c`, `hot.h`, and the
  snapshot of `live.h` it reads).

  A trigger N on a pool gives a predicted state S' of that pool; `hot_decide`
  sizes the Route0 pair of the pool and every executable compiled route
  through it on S', and keeps the best.  (`hot_quote_route`, `hot_eval_pool`
  and `hot_apply_pool` never run on DLMM or Pump pools and are not part of it.)

  Conventions:
    • `u->meta` and `u->routes.pool` are filled together, `u->n` is their
      length,
    • `pump[i]` with `pump_live[i]` is one optional state.
-/
import ShredArb.Hot.Cycle
import ShredArb.Dlmm.Cache
import ShredArb.Univ.Kernel

namespace ShredArb.Hot

open ShredArb.Dlmm ShredArb.Pump ShredArb.Univ ShredArb.Buckets ShredArb.Best

/-! ## §1. The snapshot. -/

/-- `live_univ_t`, the fields the hot path reads. -/
structure LiveUniv where
  tbl : List LiveMeta
  dlmm : DlmmCache
  pump : List (Option PumpState)
  routes : Universe
  stateVersion : UInt64

/-- `u->n`. -/
def LiveUniv.n (u : LiveUniv) : Nat := u.tbl.length

def LiveUniv.protocol (u : LiveUniv) (i : Nat) : Option UInt8 := (u.tbl[i]?).map (·.protocol)

/-- `&u->pump[i]`, when `u->pump_live[i]`. -/
def LiveUniv.livePump (u : LiveUniv) (i : Nat) : Option PumpState := (u.pump[i]?).join

/-- `hot_trigger_t`. -/
structure HotTrigger where
  protocol : UInt8
  dlmm : DlmmSwapIx
  pump : PumpSwapIx
  deriving DecidableEq, Repr

/-- The prediction S' a quote uses in place of the pool's own state: the pool,
and the predicted state of its venue. -/
structure Pred where
  poolIdx : Nat
  dlmm : Option DlmmPoolHot
  pump : Option PumpState

/-- The DLMM state of a pool, predicted or cached. -/
def predDlmm (u : LiveUniv) (i : Nat) (pred : Pred) : Option DlmmPoolHot :=
  if pred.dlmm.isSome ∧ pred.poolIdx = i then pred.dlmm else dlmmCacheGet u.dlmm i

/-- The Pump state of a pool, predicted or live. -/
def predPump (u : LiveUniv) (i : Nat) (pred : Pred) : Option PumpState :=
  if pred.pump.isSome ∧ pred.poolIdx = i then pred.pump else u.livePump i

/-- S': the trigger applied to the pool it hit. -/
def predictTrigger (u : LiveUniv) (i : Nat) (n : HotTrigger) : Option Pred :=
  if u.protocol i = some protoDlmm ∧ n.protocol = protoDlmm then
    (dlmmCachePredict u.dlmm i n.dlmm).map fun p => ⟨i, some p.1, none⟩
  else if u.protocol i = some protoPump ∧ n.protocol = protoPump then
    (u.livePump i).bind fun s =>
    (pumpApplySwap s n.pump).map fun p => ⟨i, none, some p.1⟩
  else none

/-! ## §2. Quotes on S'. -/

/-- The DLMM and Pump cases of a hop quote, shared by `quote_live_hop` and
`quote_hop_pred`; a hop swaps X for Y when `dir = 0`. -/
def quoteVenue (u : LiveUniv) (proto : UInt8) (i : Nat) (dir : UInt8) (ain : UInt64)
    (pred : Pred) : Option UInt64 :=
  if proto = protoDlmm then
    (predDlmm u i pred).bind fun h =>
    (dlmmQuoteExactIn (dlmmHotToState h) ain (if dir = 0 then 1 else 0)).map (·.amountOut)
  else if proto = protoPump then
    (predPump u i pred).bind fun s =>
    (pumpQuoteExactIn s ain (if dir = 0 then pumpDirBaseToQuote else pumpDirQuoteToBase)).map
      (·.amountOut)
  else none

/-- `quote_live_hop`. -/
def quoteLiveHop (u : LiveUniv) (pred : Pred) (ain : UInt64) (h : Hop) : Option UInt64 :=
  if ain = 0 then none
  else (u.protocol h.pool).bind fun proto => quoteVenue u proto h.pool h.dir ain pred

/-- `quote_live_route`. -/
def quoteLiveRoute (u : LiveUniv) (r : CompiledRoute) (pred : Pred) (ain : UInt64) :
    Option UInt64 :=
  if !routeExecutable r || ain == 0 then none
  else r.hops.foldlM (quoteLiveHop u pred) ain

/-! ## §3. The search. -/

/-- `rindex[route_off .. + route_n)` of a pool. -/
def routesOf (u : LiveUniv) (i : Nat) : List Nat :=
  match u.routes.pool[i]? with
  | none => []
  | some p => slice u.routes.rindex p.routeOff p.routeN

/-- `consider` of `hot.c`. -/
def consider (best : Option Opportunity) (routeId : Nat) (ain aout : UInt64) :
    Option Opportunity :=
  if aout ≤ ain then best
  else keepBest better best ⟨routeId, ain, aout, aout - ain, 0⟩

/-- One turn of `size_executable`. -/
def sizeTurn (u : LiveUniv) (pred : Pred) (best : Option Opportunity) (rid : Nat) :
    Option Opportunity :=
  match u.routes.route[rid]? with
  | none => best
  | some r =>
    if !routeExecutable r then best
    else match sizeRoute (quoteLiveRoute u r pred) with
      | none => best
      | some s => consider best rid s.bestIn s.bestOut

/-- `size_executable`. -/
def sizeExecutable (u : LiveUniv) (i : Nat) (pred : Pred) (best : Option Opportunity) :
    Option Opportunity :=
  (routesOf u i).foldl (sizeTurn u pred) best

/-- `route0_partner`: the first pool of the wanted venue on a Route0 route
through `hit`. -/
def route0Partner (u : LiveUniv) (hit : Nat) (wantProto : UInt8) : Option Nat :=
  (routesOf u hit).findSome? fun rid =>
    (u.routes.route[rid]?).bind fun r =>
      if r.family ≠ routeFam0DlmmPump then none
      else (r.hops.find? fun h => h.pool ≠ hit ∧ u.protocol h.pool = some wantProto).map (·.pool)

/-- The states `cycle_size` gets for a DLMM trigger. -/
def pairOfDlmm (u : LiveUniv) (i : Nat) (spec : DlmmPoolHot) : Option (DlmmState × PumpState) :=
  (route0Partner u i protoPump).bind fun partner =>
  (u.livePump partner).map fun p => (dlmmHotToState spec, p)

/-- And for a Pump trigger. -/
def pairOfPump (u : LiveUniv) (i : Nat) (s' : PumpState) : Option (DlmmState × PumpState) :=
  (route0Partner u i protoDlmm).bind fun partner =>
  (dlmmCacheGet u.dlmm partner).map fun h => (dlmmHotToState h, s')

/-- The cycle sized on a pair, under the id of the pair. -/
def sizePair (pair : Option (DlmmState × PumpState)) : Option Opportunity :=
  (pair.bind fun p => cycleSize p.1 p.2).map fun best => { best with routeId := routeDlmmPump }

/-- `hot_decision_t`. -/
structure HotDecision where
  opp : Option Opportunity
  stateVersion : UInt64

/-- `hot_decide`; the last `keep_better` compares with an empty record. -/
def hotDecide (u : LiveUniv) (i : Nat) (n : HotTrigger) : Option HotDecision :=
  if i ≥ u.n then none
  else if u.protocol i = some protoDlmm ∧ n.protocol = protoDlmm then
    match dlmmCachePredict u.dlmm i n.dlmm with
    | none => some ⟨none, u.stateVersion⟩
    | some (spec, _) =>
        some ⟨sizeExecutable u i ⟨i, some spec, none⟩ (sizePair (pairOfDlmm u i spec)),
          u.stateVersion⟩
  else if u.protocol i = some protoPump ∧ n.protocol = protoPump then
    match u.livePump i with
    | none => some ⟨none, u.stateVersion⟩
    | some s =>
      match pumpApplySwap s n.pump with
      | none => some ⟨none, u.stateVersion⟩
      | some (s', _) =>
          some ⟨sizeExecutable u i ⟨i, none, some s'⟩ (sizePair (pairOfPump u i s')),
            u.stateVersion⟩
  else some ⟨none, u.stateVersion⟩

end ShredArb.Hot
