/-
  ShredArb.Paper.Kernel — the paper path (`arb-core/src/paper.c`, `paper.h`,
  and the quotes of `adapter.c` it calls).

  The paper path quotes EVERY compiled route through the triggered pool on S',
  the unsupported venues too, and fills one record field by field.

  Conventions:
    • both failure codes of the adapters are `none`,
    • a `NULL` prediction is a `Pred` that predicts nothing.
-/
import ShredArb.Hot.Kernel

namespace ShredArb.Paper

open ShredArb.Dlmm ShredArb.Pump ShredArb.Univ ShredArb.Best ShredArb.Hot

/-! ## §1. The adapters. -/

abbrev amm2FeeDenom : UInt64 := 10000

/-- `amm2_state_t`. -/
structure Amm2State where
  reserveX : UInt64
  reserveY : UInt64
  feeBps : UInt16
  status : UInt8
  deriving DecidableEq, Repr

/-- `clmm_state_t`; no quote reads its `tick`. -/
structure ClmmState where
  sqrtPriceX64 : UInt64
  liquidity : UInt64
  feeBps : UInt16
  status : UInt8
  hasTicks : UInt8
  deriving DecidableEq, Repr

/-- `mul_div`. -/
def mulDiv (a b d : UInt64) : UInt64 :=
  if d = 0 then 0 else UInt64.ofNat (a.toNat * b.toNat / d.toNat)

/-- `amm2_quote`. -/
def amm2Quote (s : Amm2State) (amountIn : UInt64) (dir : UInt8) : Option UInt64 :=
  if amountIn = 0 ∨ s.status = 0 ∨ s.reserveX = 0 ∨ s.reserveY = 0 ∨
      s.feeBps.toUInt64 ≥ amm2FeeDenom then none
  else if dir ≠ 0 ∧ dir ≠ 1 then none
  else
    let rin := if dir = 0 then s.reserveX else s.reserveY
    let rout := if dir = 0 then s.reserveY else s.reserveX
    let feeAdj := mulDiv amountIn (amm2FeeDenom - s.feeBps.toUInt64) amm2FeeDenom
    if feeAdj = 0 then none
    else
      let out := mulDiv rout feeAdj (rin + feeAdj)
      if out = 0 ∨ out ≥ rout then none else some out

/-- `clmm_as_amm2`. -/
def clmmAsAmm2 (s : ClmmState) : Option Amm2State :=
  if s.status = 0 ∨ s.hasTicks = 0 ∨ s.liquidity = 0 ∨ s.sqrtPriceX64 = 0 then none
  else
    let a : Amm2State :=
      { reserveX := UInt64.ofNat (s.liquidity.toNat * 2 ^ 64 / s.sqrtPriceX64.toNat)
        reserveY := UInt64.ofNat (s.liquidity.toNat * s.sqrtPriceX64.toNat / 2 ^ 64)
        feeBps := s.feeBps
        status := 1 }
    if a.reserveX = 0 ∨ a.reserveY = 0 then none else some a

/-- `clmm_quote`: a trade that takes half the virtual reserve is refused. -/
def clmmQuote (s : ClmmState) (amountIn : UInt64) (dir : UInt8) : Option UInt64 :=
  (clmmAsAmm2 s).bind fun a =>
  (amm2Quote a amountIn dir).bind fun out =>
    if (dir = 0 ∧ out * 2 ≥ a.reserveY) ∨ (dir = 1 ∧ out * 2 ≥ a.reserveX) then none
    else some out

/-! ## §2. Quotes on S'. -/

/-- `live_univ_t` with `extra_live`. -/
structure PaperUniv extends LiveUniv where
  extraLive : List Bool

/-- `univ_state_t`. -/
structure UnivState where
  amm2 : List Amm2State
  clmm : List ClmmState
  n : Nat

/-- The venues only the paper path quotes. -/
def quoteExtra (u : PaperUniv) (st : UnivState) (proto : UInt8) (i : Nat) (dir : UInt8)
    (ain : UInt64) : Option UInt64 :=
  if i ≥ st.n ∨ u.extraLive.getD i false = false then none
  else if proto = protoClmm ∨ proto = protoOrca then
    (st.clmm[i]?).bind fun s => clmmQuote s ain dir
  else if proto = protoCpmm ∨ proto = protoDamm then
    (st.amm2[i]?).bind fun s => amm2Quote s ain dir
  else none

/-- `quote_hop_pred`. -/
def quoteHopPred (u : PaperUniv) (st : UnivState) (pred : Pred) (ain : UInt64) (h : Hop) :
    Option UInt64 :=
  if ain = 0 then none
  else (u.protocol h.pool).bind fun proto =>
    if proto = protoDlmm ∨ proto = protoPump then
      quoteVenue u.toLiveUniv proto h.pool h.dir ain pred
    else quoteExtra u st proto h.pool h.dir ain

/-- `quote_route_pred`. -/
def quoteRoutePred (u : PaperUniv) (st : UnivState) (rid : Nat) (pred : Pred) (ain : UInt64) :
    Option UInt64 :=
  (u.routes.route[rid]?).bind fun r =>
    if r.hops.length < 2 ∨ ain = 0 then none
    else r.hops.foldlM (quoteHopPred u st pred) ain

/-- The `NULL` prediction. -/
def noPred : Pred := ⟨0, none, none⟩

/-- `paper_quote_route`: the canonical state. -/
def paperQuoteRoute (u : PaperUniv) (st : UnivState) (rid : Nat) (ain : UInt64) :
    Option UInt64 :=
  quoteRoutePred u st rid noPred ain

/-! ## §3. The record. -/

abbrev paperSigned : UInt8 := 0
abbrev paperExecFamilyMissing : UInt8 := 1
abbrev paperStateInsufficient : UInt8 := 2

/-- `paper_opp_t`. -/
structure PaperOpp where
  opp : Option Opportunity
  poolIdx : Nat
  routeId : Nat
  family : UInt8
  nHop : Nat
  proto : List UInt8
  searchable : Bool
  signedReady : Bool
  reason : UInt8
  stateOk : Bool
  deriving DecidableEq, Repr

/-- `memset`. -/
def PaperOpp.zero : PaperOpp := ⟨none, 0, 0, 0, 0, [], false, false, 0, false⟩

/-- `keep`. -/
def keep (best : PaperOpp) (rid : Nat) (r : CompiledRoute) (ain aout : UInt64) (stateOk : Bool) :
    PaperOpp :=
  if aout ≤ ain then best
  else
    let cand : Opportunity := ⟨rid, ain, aout, aout - ain, 0⟩
    if best.opp.any fun b => !better cand b then best
    else
      { best with
        opp := some cand
        routeId := rid
        family := r.family
        nHop := r.hops.length
        proto := r.hops.map (·.proto)
        searchable := true
        stateOk := stateOk
        signedReady := routeExecutable r
        reason := if routeExecutable r then paperSigned else paperExecFamilyMissing }

/-- `size_route`. -/
def sizeRoutePred (u : PaperUniv) (st : UnivState) (pred : Pred) (best : PaperOpp) (rid : Nat)
    (r : CompiledRoute) : PaperOpp :=
  match sizeRoute (quoteRoutePred u st rid pred) with
  | none => best
  | some s => keep best rid r s.bestIn s.bestOut true

/-! ## §4. The search. -/

/-- A route of the two-hop DLMM/Pump family. -/
def isPairRoute (r : CompiledRoute) : Bool :=
  r.family == routeFam0DlmmPump && r.hops.length == 2

/-- The states of the pair of such a route. -/
def routePair (u : PaperUniv) (pred : Pred) (r : CompiledRoute) :
    Option (DlmmState × PumpState) :=
  match r.hops with
  | [a, b] =>
    if u.protocol a.pool = some protoDlmm ∧ u.protocol b.pool = some protoPump then
      (predDlmm u.toLiveUniv a.pool pred).bind fun h =>
      (predPump u.toLiveUniv b.pool pred).map fun p => (dlmmHotToState h, p)
    else if u.protocol a.pool = some protoPump ∧ u.protocol b.pool = some protoDlmm then
      (predDlmm u.toLiveUniv b.pool pred).bind fun h =>
      (predPump u.toLiveUniv a.pool pred).map fun p => (dlmmHotToState h, p)
    else none
  | _ => none

/-- One turn of the loop of `eval_pool_pred`.  After `keep`, the direction is
written whether or not the record took the candidate. -/
def evalTurn (u : PaperUniv) (st : UnivState) (pred : Pred) (best : PaperOpp) (rid : Nat) :
    PaperOpp :=
  match u.routes.route[rid]? with
  | none => best
  | some r =>
    if isPairRoute r then
      match (routePair u pred r).bind fun p => cycleSize p.1 p.2 with
      | none => best
      | some cyc =>
          let best := keep best rid r cyc.amountIn cyc.amountOut true
          { best with opp := best.opp.map fun o => { o with direction := cyc.direction } }
    else sizeRoutePred u st pred best rid r

/-- The record before the loop. -/
def startRecord (i : Nat) : PaperOpp :=
  { PaperOpp.zero with poolIdx := i, reason := paperStateInsufficient }

/-- The loop of `eval_pool_pred`. -/
def evalLoop (u : PaperUniv) (st : UnivState) (i : Nat) (pred : Pred) : PaperOpp :=
  (routesOf u.toLiveUniv i).foldl (evalTurn u st pred) (startRecord i)

/-- `eval_pool_pred`. -/
def evalPoolPred (u : PaperUniv) (st : UnivState) (i : Nat) (pred : Pred) : Option PaperOpp :=
  if i ≥ u.n then none
  else
    let best := evalLoop u st i pred
    if best.opp.isNone then
      some { best with searchable := false, reason := paperStateInsufficient }
    else some best

/-- `paper_eval_pool`: the canonical state. -/
def paperEvalPool (u : PaperUniv) (st : UnivState) (i : Nat) : Option PaperOpp :=
  evalPoolPred u st i noPred

/-- `paper_eval_trigger`; without N, or when S' does not exist, it fails closed. -/
def paperEvalTrigger (u : PaperUniv) (st : UnivState) (i : Nat) (n : Option HotTrigger) :
    Option PaperOpp :=
  if i ≥ u.n then none
  else match n.bind (predictTrigger u.toLiveUniv i) with
    | none => some { PaperOpp.zero with reason := paperStateInsufficient }
    | some pred => evalPoolPred u st i pred

end ShredArb.Paper
