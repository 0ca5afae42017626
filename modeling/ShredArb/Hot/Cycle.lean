/-
  ShredArb.Hot.Cycle — the DLMM/Pump cycle quote and its sizing
  (`arb-core/src/cycle.c`, `arb-core/include/opportunity.h`), and the sizing
  of one compiled route that `hot.c` and `paper.c` share.

  An `opportunity_t` whose `valid` is 0 is `none`; the other fields are then
  zero in the source and never read.
-/
import ShredArb.Dlmm.Kernel
import ShredArb.Pump.Kernel
import ShredArb.Lib.Best

namespace ShredArb.Hot

open ShredArb.Dlmm ShredArb.Pump ShredArb.Best

/-! ## §1. Opportunities. -/

/-- The id reserved for the Route0 pair. -/
abbrev routeDlmmPump : Nat := 0

/-- `opportunity_t` with `valid = 1`. -/
structure Opportunity where
  routeId : Nat
  amountIn : UInt64
  amountOut : UInt64
  grossProfit : UInt64
  direction : UInt8
  deriving DecidableEq, Repr, Inhabited

/-- The comparison of `consider` and `keep_better`: more gross, or the same
gross for less in. -/
def better (c b : Opportunity) : Bool :=
  !(c.grossProfit < b.grossProfit ||
    (c.grossProfit == b.grossProfit && c.amountIn ≥ b.amountIn))

/-! ## §2. The cycle (`cycle_quote`). -/

abbrev cycleDlmmThenPump : UInt8 := 0
abbrev cyclePumpThenDlmm : UInt8 := 1
abbrev int64Max : Nat := 2 ^ 63 - 1

/-- `cycle_quote_t` with `valid = 1`; both amounts fit an `int64_t`, so the
difference is exact. -/
structure CycleQuote where
  amountIn : UInt64
  amountOut : UInt64
  grossProfit : Int
  direction : UInt8
  deriving DecidableEq, Repr

/-- The two legs of the cycle. -/
def cycleLegs (dlmm : DlmmState) (pump : PumpState) (amountIn : UInt64) (direction : UInt8) :
    Option UInt64 :=
  if direction = cycleDlmmThenPump then
    (dlmmQuoteExactIn dlmm amountIn 0).bind fun dq =>
    (pumpQuoteExactIn pump dq.amountOut pumpDirBaseToQuote).map (·.amountOut)
  else if direction = cyclePumpThenDlmm then
    (pumpQuoteExactIn pump amountIn pumpDirQuoteToBase).bind fun pq =>
    (dlmmQuoteExactIn dlmm pq.amountOut 1).map (·.amountOut)
  else none

/-- `cycle_quote`. -/
def cycleQuote (dlmm : DlmmState) (pump : PumpState) (amountIn : UInt64) (direction : UInt8) :
    Option CycleQuote :=
  if amountIn = 0 ∨ amountIn.toNat > int64Max then none
  else (cycleLegs dlmm pump amountIn direction).bind fun final =>
    if final.toNat > int64Max then none
    else some ⟨amountIn, final, (final.toNat : Int) - amountIn.toNat, direction⟩

/-! ## §3. The sizing ladder. -/

abbrev solLamports : UInt64 := 1000000000

/-- `SIZE_LADDER`. -/
def sizeLadder : List UInt64 :=
  [solLamports / 100, solLamports / 50, solLamports / 20, solLamports / 10, solLamports / 5,
   solLamports / 2, solLamports, solLamports * 2, solLamports * 5, solLamports * 10,
   solLamports * 20, solLamports * 50, solLamports * 100]

/-- The neighbours of the best ladder size between which it is refined. -/
def refineBounds (bestIn : UInt64) : UInt64 × UInt64 :=
  let lo := bestIn / 2
  let hi := bestIn * 2
  let b := match sizeLadder.findIdx? (· == bestIn) with
    | none => (lo, hi)
    | some i =>
        (if i > 0 then sizeLadder.getD (i - 1) lo else lo,
         if i + 1 < sizeLadder.length then sizeLadder.getD (i + 1) hi else hi)
  (if b.1 < 1 then 1 else b.1, b.2)

/-- The `SIZE_REFINE_N` sizes strictly between the bounds. -/
def refineSizes (lo hi : UInt64) : List UInt64 :=
  [1, 2, 3, 4, 5, 6, 7, 8].map fun k => lo + (hi - lo) * k / 9

/-! ## §4. Sizing the cycle (`cycle_size`). -/

/-- `consider` of `cycle.c`. -/
def considerCycle (best : Option Opportunity) (q : CycleQuote) : Option Opportunity :=
  if q.grossProfit ≤ 0 then best
  else keepBest better best
    ⟨routeDlmmPump, q.amountIn, q.amountOut, UInt64.ofNat q.grossProfit.toNat, q.direction⟩

/-- `eval_size`. -/
def evalSize (dlmm : DlmmState) (pump : PumpState) (best : Option Opportunity)
    (s : UInt8 × UInt64) : Option Opportunity :=
  match cycleQuote dlmm pump s.2 s.1 with
  | none => best
  | some q => considerCycle best q

/-- Both directions over the ladder, in the order of the loops. -/
def ladderPairs : List (UInt8 × UInt64) :=
  [0, 1].flatMap fun dir => sizeLadder.map fun size => (dir, size)

/-- One turn of the refinement, in the best direction so far. -/
def refineCycle (dlmm : DlmmState) (pump : PumpState) (best : Opportunity) (ain : UInt64) :
    Opportunity :=
  if ain = 0 ∨ ain = best.amountIn then best
  else (evalSize dlmm pump (some best) (best.direction, ain)).getD best

/-- `cycle_size`. -/
def cycleSize (dlmm : DlmmState) (pump : PumpState) : Option Opportunity :=
  (ladderPairs.foldl (evalSize dlmm pump) none).map fun best =>
    let b := refineBounds best.amountIn
    if b.2 ≤ b.1 then best
    else (refineSizes b.1 b.2).foldl (refineCycle dlmm pump) best

/-! ## §5. Sizing one compiled route (`size_executable`, `size_route`). -/

/-- `best_in`, `best_out` once `have` is set. -/
structure Sized where
  bestIn : UInt64
  bestOut : UInt64
  deriving DecidableEq, Repr

/-- Strictly more gross. -/
def moreGross (c b : Sized) : Bool := c.bestOut - c.bestIn > b.bestOut - b.bestIn

/-- One turn of the ladder loop over a quote function. -/
def ladderTurn (quote : UInt64 → Option UInt64) (best : Option Sized) (size : UInt64) :
    Option Sized :=
  match quote size with
  | none => best
  | some aout => if aout > size then keepBest moreGross best ⟨size, aout⟩ else best

/-- One turn of the refinement loop. -/
def refineTurn (quote : UInt64 → Option UInt64) (best : Sized) (ain : UInt64) : Sized :=
  if ain = 0 then best
  else match quote ain with
    | none => best
    | some aout =>
        if aout > ain then (keepBest moreGross (some best) ⟨ain, aout⟩).getD best else best

/-- The ladder, then the refinement around its best size. -/
def sizeRoute (quote : UInt64 → Option UInt64) : Option Sized :=
  (sizeLadder.foldl (ladderTurn quote) none).map fun best =>
    let b := refineBounds best.bestIn
    if b.2 > b.1 then (refineSizes b.1 b.2).foldl (refineTurn quote) best else best

end ShredArb.Hot
