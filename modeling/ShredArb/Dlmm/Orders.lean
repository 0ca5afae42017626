/-
  ShredArb.Dlmm.Orders — the order-aware DLMM kernel
  (`arb-core/src/dex/dlmm_orders.c`, `arb-core/include/dlmm_orders.h`).

  A bin holds up to THREE layers on the side a swap takes from: the
  market-making amount, and, when limit orders are enabled and the bin's one
  side flag faces the swap, the remaining amount of the processed order and the
  open order.  A fill goes through them in that order, each layer rounded up
  on its own.

  Conventions:
    * the file repeats the kernels, fees and volatility of the plain engine
      over its own record, text for text: such a function is the plain one at
      `plain`, the record without its order fields,
    * the write through the bin pointer stays apart from the fields of the
      state, as `dlmm_o_apply_fill` takes both,
    * a C return of −1 is `none`, as in `Dlmm.Kernel`.
-/
import ShredArb.Dlmm.Kernel
import ShredArb.Lib.Slots

namespace ShredArb.Dlmm

open ShredArb.Word ShredArb.Slots

/-! ## §1. The data model (`dlmm_orders.h`). -/

abbrev dlmmFnUndetermined : UInt8 := 0
abbrev dlmmFnLiquidityMining : UInt8 := 1
abbrev dlmmFnLimitOrder : UInt8 := 2

/-- `dlmm_o_bin_t`. -/
structure DlmmOBin where
  id : Int32
  amountX : UInt64
  amountY : UInt64
  processedOrderRemainingAmount : UInt64
  openOrderAmount : UInt64
  /-- bookkeeping, not a layer that can be filled -/
  totalProcessingOrderAmount : UInt64
  orderAge : UInt32
  /-- 0 bid, else ask -/
  limitOrderAskSide : UInt8
  price : BitVec 128
  deriving DecidableEq, Repr, Inhabited

/-- `dlmm_o_state_t`. -/
structure DlmmOState where
  activeId : Int32
  binStep : UInt16
  status : UInt8
  functionType : UInt8
  /-- bit i is set when reward i has a mint -/
  rewardMintLiveMask : UInt8
  parameters : DlmmStaticParams
  vParameters : DlmmVParams
  reserveX : UInt64
  reserveY : UInt64
  bins : List DlmmOBin
  nowTs : Int64
  deriving DecidableEq, Repr, Inhabited

/-- A bin without its order fields. -/
def DlmmOBin.plain (b : DlmmOBin) : DlmmBin := ⟨b.id, b.amountX, b.amountY, b.price⟩

/-- A pool without its order fields. -/
def DlmmOState.plain (s : DlmmOState) : DlmmState where
  activeId := s.activeId
  binStep := s.binStep
  status := s.status
  parameters := s.parameters
  vParameters := s.vParameters
  reserveX := s.reserveX
  reserveY := s.reserveY
  bins := s.bins.map (·.plain)
  nowTs := s.nowTs

/-! ## §2. Which layers there are. -/

/-- `dlmm_o_orders_enabled`. -/
def dlmmOOrdersEnabled (s : DlmmOState) : Bool :=
  if s.functionType = dlmmFnLimitOrder then true
  else if s.functionType = dlmmFnLiquidityMining then false
  else if s.functionType = dlmmFnUndetermined then s.rewardMintLiveMask == 0
  else false

/-- `dlmm_o_side_matches`. -/
def dlmmOSideMatches (bin : DlmmOBin) (swapForY : Bool) : Bool :=
  let ask := bin.limitOrderAskSide != 0
  (swapForY && !ask) || (!swapForY && ask)

/-- What `dlmm_o_available` returns through its pointers. -/
structure DlmmOLayers where
  mm : Nat
  proc : Nat
  openAmt : Nat
  deriving DecidableEq, Repr

/-- `dlmm_o_available`: the three layers a swap can take from. -/
def dlmmOAvailable (bin : DlmmOBin) (swapForY ordersOn : Bool) : DlmmOLayers :=
  let mm := (if swapForY then bin.amountY else bin.amountX).toNat
  if ordersOn && dlmmOSideMatches bin swapForY then
    ⟨mm, bin.processedOrderRemainingAmount.toNat, bin.openOrderAmount.toNat⟩
  else ⟨mm, 0, 0⟩

/-! ## §3. Filling the layers of one bin. -/

/-- `fill_against`: fill `amount` against one layer. -/
def fillAgainst (maxOut : Nat) (price : BitVec 128) (amount : Nat) (swapForY : Bool) :
    Option MmFill :=
  if maxOut = 0 then some ⟨0, amount, 0⟩
  else (amountIn maxOut price.toNat swapForY true).bind fun maxIn =>
    if amount ≥ maxIn then some ⟨maxIn, amount - maxIn, maxOut⟩
    else (amountOut amount price.toNat swapForY).map fun out => ⟨amount, 0, out⟩

/-- `dlmm_o_fill_mm`. -/
def dlmmOFillMm (bin : DlmmOBin) (amount : Nat) (swapForY : Bool) : Option MmFill :=
  let maxOut := (if swapForY then bin.amountY else bin.amountX).toNat
  fillAgainst maxOut bin.price amount swapForY

/-- `dlmm_o_fill_processed_order`. -/
def dlmmOFillProcessedOrder (bin : DlmmOBin) (amount : Nat) (swapForY ordersOn : Bool) :
    Option MmFill :=
  let maxOut := if ordersOn && dlmmOSideMatches bin swapForY then
    bin.processedOrderRemainingAmount.toNat else 0
  fillAgainst maxOut bin.price amount swapForY

/-- `dlmm_o_fill_open_orders`. -/
def dlmmOFillOpenOrders (bin : DlmmOBin) (amount : Nat) (swapForY ordersOn : Bool) :
    Option MmFill :=
  let maxOut := if ordersOn && dlmmOSideMatches bin swapForY then
    bin.openOrderAmount.toNat else 0
  fillAgainst maxOut bin.price amount swapForY

/-- `dlmm_o_fill_t`. -/
structure DlmmOFill where
  mmIn : Nat
  mmOut : Nat
  procIn : Nat
  procOut : Nat
  openIn : Nat
  openOut : Nat
  /-- input used over the layers, without the fee -/
  usedIn : Nat
  /-- input remaining, without the fee -/
  left : Nat
  /-- output over the layers -/
  outAmt : Nat
  deriving DecidableEq, Repr

/-- `dlmm_o_fill_bin`: the three layers in turn, each on what the one before
left. -/
def dlmmOFillBin (bin : DlmmOBin) (amount : Nat) (swapForY ordersOn : Bool) :
    Option DlmmOFill :=
  (dlmmOFillMm bin amount swapForY).bind fun mm =>
  (dlmmOFillProcessedOrder bin mm.left swapForY ordersOn).bind fun proc =>
  (dlmmOFillOpenOrders bin proc.left swapForY ordersOn).map fun opn =>
    { mmIn := mm.usedIn, mmOut := mm.outAmt
      procIn := proc.usedIn, procOut := proc.outAmt
      openIn := opn.usedIn, openOut := opn.outAmt
      usedIn := wrap64 (mm.usedIn + proc.usedIn + opn.usedIn)
      left := opn.left
      outAmt := wrap64 (mm.outAmt + proc.outAmt + opn.outAmt) }

/-- `dlmm_o_apply_fill`: debit each layer, credit the market-making input only,
and move the reserves by the whole fill. -/
def dlmmOApplyFill (bin : DlmmOBin) (s : DlmmOState) (swapForY : Bool) (f : DlmmOFill) :
    Option (DlmmOBin × DlmmOState) :=
  (if swapForY then
    if bin.amountY.toNat < f.mmOut then none
    else some
      ({ bin with
          amountY := bin.amountY - UInt64.ofNat f.mmOut
          amountX := bin.amountX + UInt64.ofNat f.mmIn },
        { s with
          reserveY := s.reserveY - UInt64.ofNat f.outAmt
          reserveX := s.reserveX + UInt64.ofNat f.usedIn })
  else
    if bin.amountX.toNat < f.mmOut then none
    else some
      ({ bin with
          amountX := bin.amountX - UInt64.ofNat f.mmOut
          amountY := bin.amountY + UInt64.ofNat f.mmIn },
        { s with
          reserveX := s.reserveX - UInt64.ofNat f.outAmt
          reserveY := s.reserveY + UInt64.ofNat f.usedIn })).bind fun p =>
  if p.1.processedOrderRemainingAmount.toNat < f.procOut
      ∨ p.1.openOrderAmount.toNat < f.openOut then none
  else some
    ({ p.1 with
        processedOrderRemainingAmount :=
          p.1.processedOrderRemainingAmount - UInt64.ofNat f.procOut
        openOrderAmount := p.1.openOrderAmount - UInt64.ofNat f.openOut },
      p.2)

/-! ## §4. The functions of the walk over this record. -/

/-- `ensure_price`: a price that is not set is refused here. -/
def oEnsurePrice (b : DlmmOBin) : Option DlmmOBin :=
  if b.price ≠ 0 then some b else none

/-- `update_references`, which writes the volatile parameters only. -/
def oUpdateReferences (s : DlmmOState) : DlmmOState :=
  { s with vParameters := (updateReferences s.plain).vParameters }

/-- `update_volatility`, which writes the volatile parameters only. -/
def oUpdateVolatility (s : DlmmOState) : DlmmOState :=
  { s with vParameters := (updateVolatility s.plain).vParameters }

/-- `find_bin`. -/
def oFindBin (bins : List DlmmOBin) (id : Int32) : Option DlmmOBin := findSlot (·.id) bins id

/-- A write through the pointer `find_bin` returned. -/
def oSetBin (bins : List DlmmOBin) (b : DlmmOBin) : List DlmmOBin := setSlot (·.id) bins b

/-! ## §5. The walk (`dlmm_o_apply_swap`). -/

/-- What one iteration takes from its bin: the fill of the layers, and the
amounts after fees. -/
structure OTake where
  fill : DlmmOFill
  included : Nat
  fee : Nat
  proto : Nat
  outAmt : Nat
  deriving DecidableEq, Repr

/-- The fee, the fill, and the fee again when the bin was too small for the
whole amount. -/
def oTakeFill (s : DlmmOState) (bin : DlmmOBin) (left : Nat) (foi swapForY ordersOn : Bool) :
    Option OTake :=
  (inputFee s.plain left foi).bind fun fee =>
  (dlmmOFillBin bin (left - fee) swapForY ordersOn).bind fun fill =>
  (includedFee s.plain left (left - fee) fee fill.left foi).bind fun inc =>
  (outputFee s.plain fill.outAmt inc.2 foi).bind fun out =>
  (computeProtocolFee s.plain out.2).map fun proto =>
    ⟨fill, inc.1, out.2, proto, out.1⟩

/-- The loop variables of `dlmm_o_apply_swap`. -/
structure OWalk where
  after : DlmmOState
  left : Nat
  totalIn : Nat
  totalOut : Nat
  totalFee : Nat
  totalProto : Nat
  deriving DecidableEq, Repr

/-- The active bin with its price ensured, in the state with the accumulator
updated. -/
def oVisitBin (s : DlmmOState) : Option (DlmmOState × DlmmOBin) :=
  (oFindBin s.bins s.activeId).bind fun bin =>
  (oEnsurePrice bin).map fun bin => (oUpdateVolatility s, bin)

/-- Move the active bin one step in the direction of the swap. -/
def oStepActive (s : DlmmOState) (swapForY : Bool) : Option DlmmOState :=
  (stepActive s.plain swapForY).map fun p => { s with activeId := p.activeId }

/-- One iteration of the `while` loop. -/
def oWalkStep (foi swapForY ordersOn : Bool) (w : OWalk) : Option OWalk :=
  (oVisitBin w.after).bind fun v =>
  (oTakeFill v.1 v.2 w.left foi swapForY ordersOn).bind fun t =>
  (dlmmOApplyFill v.2 v.1 swapForY t.fill).bind fun p =>
  let s := { p.2 with bins := oSetBin p.2.bins p.1 }
  if t.included > w.left then none
  else
    let left := w.left - t.included
    (if left > 0 then oStepActive s swapForY else some s).map fun s =>
      { after := s, left := left
        totalIn := wrap64 (w.totalIn + t.included)
        totalOut := wrap64 (w.totalOut + t.outAmt)
        totalFee := wrap64 (w.totalFee + t.fee)
        totalProto := wrap64 (w.totalProto + t.proto) }

/-- `while (left > 0 && guard++ < 256)`, with the guard as fuel. -/
def oWalkLoop (foi swapForY ordersOn : Bool) : Nat → OWalk → Option OWalk
  | 0, w => some w
  | n + 1, w =>
      if w.left = 0 then some w
      else (oWalkStep foi swapForY ordersOn w).bind (oWalkLoop foi swapForY ordersOn n)

/-- The loop variables before the first iteration. -/
def oWalkInit (before : DlmmOState) (ix : DlmmSwapIx) : OWalk :=
  ⟨oUpdateReferences before, ix.amountIn.toNat, 0, 0, 0, 0⟩

/-- `dlmm_o_apply_swap`. -/
def dlmmOApplySwap (before : DlmmOState) (ix : DlmmSwapIx) :
    Option (DlmmOState × DlmmApplyResult) :=
  if before.status ≠ 0 ∨ ix.amountIn = 0 then none
  else
    let after := oUpdateReferences before
    let sfy := ix.swapForY != 0
    (oWalkLoop (feeOnInput after.plain sfy) sfy (dlmmOOrdersEnabled after) 256
        (oWalkInit before ix)).bind fun w =>
      if w.left > 0 then none
      else if w.totalOut < ix.minAmountOut.toNat then none
      else some (w.after,
        { amountIn := UInt64.ofNat w.totalIn
          amountOut := UInt64.ofNat w.totalOut
          fee := UInt64.ofNat w.totalFee
          protocolFee := UInt64.ofNat w.totalProto
          activeIdAfter := w.after.activeId })

end ShredArb.Dlmm
