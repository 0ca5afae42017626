/-
  ShredArb.Dlmm.Kernel — the Meteora DLMM predicted-state kernel
  (`arb-core/src/dex/meteora_dlmm.c`, `arb-core/include/dlmm.h`).

  Functions as the source computes them.  The C structs keep their field
  widths (`UInt64`, `Int32`, …; the 128-bit price is a `BitVec 128`); local
  `u128` and `uint64_t` values are naturals, and every operation of the source
  that can leave its width is followed by the reduction of `Lib.Word`.

  Conventions:
    • a C return of −1 is `none`; what the source leaves half-written in
      `*after` on that path is not part of the model,
    • `bins[0 .. nbin)` is the list `bins`, in array order,
    • the subtraction of two timestamps is exact (signed overflow is
      undefined in the source).
-/
import Mathlib.Data.BitVec
import ShredArb.Lib.Word

namespace ShredArb.Dlmm

open ShredArb.Word

/-! ## §1. The data model (`dlmm.h`). -/

abbrev dlmmFeePrecision : Nat := 1000000000
abbrev dlmmMaxFeeRate : Nat := 100000000
abbrev dlmmBasisPointMax : Nat := 10000
abbrev dlmmMinBinId : Int := -443636
abbrev dlmmMaxBinId : Int := 443636

/-- `dlmm_static_params_t`. -/
structure DlmmStaticParams where
  baseFactor : UInt16
  filterPeriod : UInt16
  decayPeriod : UInt16
  reductionFactor : UInt16
  variableFeeControl : UInt32
  maxVolatilityAccumulator : UInt32
  protocolShare : UInt16
  baseFeePowerFactor : UInt8
  /-- 0 InputOnly, 1 OnlyY -/
  collectFeeMode : UInt8
  deriving DecidableEq, Repr, Inhabited

/-- `dlmm_vparams_t`. -/
structure DlmmVParams where
  volatilityAccumulator : UInt32
  volatilityReference : UInt32
  indexReference : Int32
  lastUpdateTimestamp : Int64
  deriving DecidableEq, Repr, Inhabited

/-- `dlmm_bin_t`; a price of 0 means "compute from id and bin step". -/
structure DlmmBin where
  id : Int32
  amountX : UInt64
  amountY : UInt64
  price : BitVec 128
  deriving DecidableEq, Repr, Inhabited

/-- `dlmm_state_t`. -/
structure DlmmState where
  activeId : Int32
  binStep : UInt16
  /-- 0 enabled -/
  status : UInt8
  parameters : DlmmStaticParams
  vParameters : DlmmVParams
  reserveX : UInt64
  reserveY : UInt64
  bins : List DlmmBin
  nowTs : Int64
  deriving DecidableEq, Repr, Inhabited

/-- `dlmm_swap_ix_t`. -/
structure DlmmSwapIx where
  amountIn : UInt64
  minAmountOut : UInt64
  swapForY : UInt8
  deriving DecidableEq, Repr, Inhabited

/-- `dlmm_apply_result_t`. -/
structure DlmmApplyResult where
  amountIn : UInt64
  amountOut : UInt64
  fee : UInt64
  protocolFee : UInt64
  activeIdAfter : Int32
  deriving DecidableEq, Repr, Inhabited

/-- `dlmm_quote_t` of a successful quote (`valid = 1`). -/
structure DlmmQuote where
  amountOut : UInt64
  fee : UInt64
  binsCrossed : UInt16
  deriving DecidableEq, Repr, Inhabited

/-! ## §2. 128-bit fixed-point kernels. -/

/-- `u128_mul_shr64`: `a * b >> 64` by 64-bit limbs, refusing a result that
does not fit the low word. -/
def u128MulShr64 (a b : Nat) (roundUp : Bool) : Option Nat :=
  let a0 := wrap64 a
  let a1 := wrap64 (a / 2 ^ 64)
  let b0 := wrap64 b
  let b1 := wrap64 (b / 2 ^ 64)
  let p00 := a0 * b0
  let p01 := a0 * b1
  let p10 := a1 * b0
  let p11 := a1 * b1
  let mid := wrap128 (p00 / 2 ^ 64 + wrap64 p01 + wrap64 p10)
  let hi := wrap128 (p11 + p01 / 2 ^ 64 + p10 / 2 ^ 64 + mid / 2 ^ 64)
  let loHi := wrap64 mid
  if hi ≠ 0 then none
  else if roundUp && wrap64 p00 != 0 then
    if loHi = 2 ^ 128 - 1 then none else some (loHi + 1)
  else some loHi

/-- `u128_shl64_div`: `(num << 64) / den`, the numerator below `2 ^ 64`. -/
def u128Shl64Div (num den : Nat) (roundUp : Bool) : Option Nat :=
  if den = 0 ∨ num > (2 ^ 128 - 1) / 2 ^ 64 then none
  else
    let q := wrap128 (num * 2 ^ 64) / den
    let rem := wrap128 (num * 2 ^ 64) % den
    if roundUp && rem != 0 then
      if q = 2 ^ 128 - 1 then none else some (q + 1)
    else some q

/-- The `r > UINT64_MAX` refusal shared by `amount_out` and `amount_in`. -/
def fitU64 (r : Option Nat) : Option Nat :=
  r.bind fun r => if r > 2 ^ 64 - 1 then none else some r

/-- `amount_out`: what `inAmt` buys at `price`, rounded down. -/
def amountOut (inAmt price : Nat) (swapForY : Bool) : Option Nat :=
  if swapForY then fitU64 (u128MulShr64 price inAmt false)
  else fitU64 (u128Shl64Div inAmt price false)

/-- `amount_in`: what `out` costs at `price`. -/
def amountIn (out price : Nat) (swapForY roundUp : Bool) : Option Nat :=
  if swapForY then fitU64 (u128Shl64Div out price roundUp)
  else fitU64 (u128MulShr64 out price roundUp)

/-! ## §3. Bin prices. -/

/-- The square-and-multiply loop of `dlmm_price_from_id`: `n` bits to go,
`bit` the next one. -/
def priceLoop (exp : Nat) : (n bit result squared : Nat) → Option Nat
  | 0, _, result, _ => some result
  | n + 1, bit, result, squared =>
      (if exp.testBit bit then u128MulShr64 result squared false
        else some result).bind fun result =>
      (if bit + 1 < 19 then u128MulShr64 squared squared false
        else some squared).bind fun squared =>
      priceLoop exp n (bit + 1) result squared

/-- `dlmm_price_from_id`. -/
def dlmmPriceFromId (id : Int32) (binStep : UInt16) : Option (BitVec 128) :=
  if id = 0 then some (BitVec.ofNat 128 (2 ^ 64))
  else
    let invert := decide (id.toInt < 0)
    let exp := id.toInt.natAbs
    if exp ≥ 0x80000 then none
    else
      let bps := binStep.toNat * 2 ^ 64 / dlmmBasisPointMax
      let base := 2 ^ 64 + bps
      -- `squared >= result` holds for every bin step; the branch is kept
      let squared := if base ≥ 2 ^ 64 then (2 ^ 128 - 1) / base else base
      let invert := if base ≥ 2 ^ 64 then !invert else invert
      (priceLoop exp 19 0 (2 ^ 64) squared).bind fun result =>
        if result = 0 then none
        else some (BitVec.ofNat 128
          (if invert then (2 ^ 128 - 1) / result else result))

/-- `ensure_price`: the bin with its price filled in. -/
def ensurePrice (b : DlmmBin) (binStep : UInt16) : Option DlmmBin :=
  if b.price ≠ 0 then some b
  else (dlmmPriceFromId b.id binStep).map fun p => { b with price := p }

/-! ## §4. Fees. -/

/-- The `pow10` loop of `total_fee_rate`. -/
def pow10 : Nat → Nat
  | 0 => 1
  | n + 1 => wrap128 (pow10 n * 10)

/-- `total_fee_rate`. -/
def totalFeeRate (s : DlmmState) : Nat :=
  let p := s.parameters
  let vol := s.vParameters.volatilityAccumulator
  let base := wrap128 (p.baseFactor.toNat * s.binStep.toNat * 10
    * pow10 p.baseFeePowerFactor.toNat)
  let variable_ :=
    if p.variableFeeControl > 0 then
      let vfa := vol.toNat * s.binStep.toNat
      let vFee := wrap128 (p.variableFeeControl.toNat * (vfa * vfa))
      wrap128 (vFee + 99999999999) / 100000000000
    else 0
  let total := wrap128 (base + variable_)
  if total > dlmmMaxFeeRate then dlmmMaxFeeRate else total

/-- `compute_fee`: the fee on top of a fee-exclusive amount, rounded up. -/
def computeFee (s : DlmmState) (amount : Nat) : Option Nat :=
  let rate := totalFeeRate s
  let den := dlmmFeePrecision - rate
  if den = 0 then none
  else
    let f := (amount * rate + den - 1) / den
    if f > 2 ^ 64 - 1 then none else some f

/-- `compute_fee_from_amount`: the fee inside a fee-inclusive amount. -/
def computeFeeFromAmount (s : DlmmState) (amountWithFees : Nat) : Option Nat :=
  let f := (amountWithFees * totalFeeRate s + (dlmmFeePrecision - 1)) / dlmmFeePrecision
  if f > 2 ^ 64 - 1 then none else some f

/-- `compute_protocol_fee`. -/
def computeProtocolFee (s : DlmmState) (feeAmount : Nat) : Option Nat :=
  let p := feeAmount * s.parameters.protocolShare.toNat / dlmmBasisPointMax
  if p > 2 ^ 64 - 1 then none else some p

/-- `fee_on_input`. -/
def feeOnInput (s : DlmmState) (swapForY : Bool) : Bool :=
  if s.parameters.collectFeeMode = 1 then !swapForY else true

/-! ## §5. Volatility. -/

/-- `update_references`. -/
def updateReferences (s : DlmmState) : DlmmState :=
  let elapsed := s.nowTs.toInt - s.vParameters.lastUpdateTimestamp.toInt
  let p := s.parameters
  if elapsed ≥ p.filterPeriod.toNat then
    let vr :=
      if elapsed < p.decayPeriod.toNat then
        UInt32.ofNat (s.vParameters.volatilityAccumulator.toNat
          * p.reductionFactor.toNat / dlmmBasisPointMax)
      else 0
    { s with vParameters := { s.vParameters with
        indexReference := s.activeId, volatilityReference := vr } }
  else s

/-- `update_volatility`. -/
def updateVolatility (s : DlmmState) : DlmmState :=
  let delta := (s.vParameters.indexReference.toInt - s.activeId.toInt).natAbs
  let acc := s.vParameters.volatilityReference.toNat + delta * dlmmBasisPointMax
  let cap := s.parameters.maxVolatilityAccumulator.toNat
  { s with vParameters := { s.vParameters with
      volatilityAccumulator := UInt32.ofNat (if acc > cap then cap else acc) } }

/-! ## §6. One bin. -/

/-- `find_bin`: the first bin of the array with the id. -/
def findBin (bins : List DlmmBin) (id : Int32) : Option DlmmBin :=
  bins.find? fun b => b.id = id

/-- A write through the pointer `find_bin` returned: the first bin with the
id of `b` becomes `b`. -/
def setBin : List DlmmBin → DlmmBin → List DlmmBin
  | [], _ => []
  | c :: cs, b => if c.id = b.id then b :: cs else c :: setBin cs b

/-- The side of a bin a swap takes from. -/
def DlmmBin.outSide (b : DlmmBin) (swapForY : Bool) : Nat :=
  (if swapForY then b.amountY else b.amountX).toNat

/-- What `fill_mm` returns through its pointers. -/
structure MmFill where
  usedIn : Nat
  left : Nat
  outAmt : Nat
  deriving DecidableEq, Repr

/-- `fill_mm`: fill `amount` against the market-making side of a bin. -/
def fillMm (bin : DlmmBin) (amount : Nat) (swapForY : Bool) : Option MmFill :=
  let maxOut := bin.outSide swapForY
  if maxOut = 0 then some ⟨0, amount, 0⟩
  else (amountIn maxOut bin.price.toNat swapForY true).bind fun maxIn =>
    if amount ≥ maxIn then some ⟨maxIn, amount - maxIn, maxOut⟩
    else (amountOut amount bin.price.toNat swapForY).map fun out => ⟨amount, 0, out⟩

/-! ## §7. The walk over the bins (`dlmm_apply_swap`). -/

/-- The amounts of one loop iteration. -/
structure BinFill where
  included : Nat
  fee : Nat
  proto : Nat
  outAmt : Nat
  intoBin : Nat
  deriving DecidableEq, Repr

/-- The fee an iteration takes off the remaining amount before the fill. -/
def inputFee (s : DlmmState) (left : Nat) (foi : Bool) : Option Nat :=
  if foi then
    (computeFeeFromAmount s left).bind fun fee => if fee > left then none else some fee
  else some 0

/-- The amount an iteration takes in, with its fee: all of `left`, or, when
the fill left something over, what it used plus the fee on top of that. -/
def includedFee (s : DlmmState) (left excluded fee leftover : Nat) (foi : Bool) :
    Option (Nat × Nat) :=
  if leftover > 0 then
    let excluded := sub64 excluded leftover
    if foi then (computeFee s excluded).map fun fee => (wrap64 (excluded + fee), fee)
    else some (excluded, fee)
  else some (left, fee)

/-- The amount an iteration gives out, with its fee: untouched when the fee
was on the input, else less the fee on the output. -/
def outputFee (s : DlmmState) (outAmt fee : Nat) (foi : Bool) : Option (Nat × Nat) :=
  if foi then some (outAmt, fee)
  else (computeFeeFromAmount s outAmt).bind fun fee =>
    if fee > outAmt then none else some (outAmt - fee, fee)

/-- The amounts one iteration takes from the bin it stands on: fee, fill, and
the fee again when the bin was too small for the whole amount. -/
def takeFill (s : DlmmState) (bin : DlmmBin) (left : Nat) (foi swapForY : Bool) :
    Option BinFill :=
  (inputFee s left foi).bind fun fee =>
  (fillMm bin (left - fee) swapForY).bind fun m =>
  (includedFee s left (left - fee) fee m.left foi).bind fun inc =>
  (outputFee s m.outAmt inc.2 foi).bind fun out =>
  (computeProtocolFee s out.2).map fun proto =>
    ⟨inc.1, out.2, proto, out.1, sub64 inc.1 out.2⟩

/-- Book the amounts of an iteration into the bin and the reserves. -/
def bookFill (s : DlmmState) (bin : DlmmBin) (f : BinFill) (swapForY : Bool) :
    Option DlmmState :=
  let into := UInt64.ofNat f.intoBin
  let out := UInt64.ofNat f.outAmt
  if swapForY then
    if bin.amountY.toNat < f.outAmt then none
    else some { s with
      bins := setBin s.bins { bin with
        amountX := bin.amountX + into, amountY := bin.amountY - out }
      reserveX := s.reserveX + into
      reserveY := s.reserveY - out }
  else
    if bin.amountX.toNat < f.outAmt then none
    else some { s with
      bins := setBin s.bins { bin with
        amountX := bin.amountX - out, amountY := bin.amountY + into }
      reserveX := s.reserveX - out
      reserveY := s.reserveY + into }

/-- Move the active bin one step in the direction of the swap. -/
def stepActive (s : DlmmState) (swapForY : Bool) : Option DlmmState :=
  if swapForY then
    if s.activeId.toInt ≤ dlmmMinBinId then none
    else some { s with activeId := Int32.ofInt (s.activeId.toInt - 1) }
  else
    if s.activeId.toInt ≥ dlmmMaxBinId then none
    else some { s with activeId := Int32.ofInt (s.activeId.toInt + 1) }

/-- The loop variables of `dlmm_apply_swap`. -/
structure Walk where
  after : DlmmState
  left : Nat
  totalIn : Nat
  totalOut : Nat
  totalFee : Nat
  totalProto : Nat
  deriving DecidableEq, Repr

/-- The state and bin an iteration works on: the active bin found, its price
filled in and stored, the volatility accumulator updated. -/
def visitBin (s : DlmmState) : Option (DlmmState × DlmmBin) :=
  (findBin s.bins s.activeId).bind fun bin =>
  (ensurePrice bin s.binStep).map fun bin =>
    (updateVolatility { s with bins := setBin s.bins bin }, bin)

/-- One iteration of the `while` loop. -/
def walkStep (foi swapForY : Bool) (w : Walk) : Option Walk :=
  (visitBin w.after).bind fun v =>
  (takeFill v.1 v.2 w.left foi swapForY).bind fun f =>
  (bookFill v.1 v.2 f swapForY).bind fun s =>
  if f.included > w.left then none
  else
    let left := w.left - f.included
    (if left > 0 then stepActive s swapForY else some s).map fun s =>
      { after := s, left := left
        totalIn := wrap64 (w.totalIn + f.included)
        totalOut := wrap64 (w.totalOut + f.outAmt)
        totalFee := wrap64 (w.totalFee + f.fee)
        totalProto := wrap64 (w.totalProto + f.proto) }

/-- `while (left > 0 && guard++ < 256)`, with the guard as fuel. -/
def walkLoop (foi swapForY : Bool) : Nat → Walk → Option Walk
  | 0, w => some w
  | n + 1, w =>
      if w.left = 0 then some w
      else (walkStep foi swapForY w).bind (walkLoop foi swapForY n)

/-- The loop variables before the first iteration. -/
def walkInit (before : DlmmState) (ix : DlmmSwapIx) : Walk :=
  ⟨updateReferences before, ix.amountIn.toNat, 0, 0, 0, 0⟩

/-- `dlmm_apply_swap`. -/
def dlmmApplySwap (before : DlmmState) (ix : DlmmSwapIx) :
    Option (DlmmState × DlmmApplyResult) :=
  if before.status ≠ 0 ∨ ix.amountIn = 0 then none
  else
    let sfy := ix.swapForY != 0
    let foi := feeOnInput (updateReferences before) sfy
    (walkLoop foi sfy 256 (walkInit before ix)).bind fun w =>
      if w.left > 0 then none
      else if w.totalOut < ix.minAmountOut.toNat then none
      else some (w.after,
        { amountIn := UInt64.ofNat w.totalIn
          amountOut := UInt64.ofNat w.totalOut
          fee := UInt64.ofNat w.totalFee
          protocolFee := UInt64.ofNat w.totalProto
          activeIdAfter := w.after.activeId })

/-- `dlmm_quote_exact_in`. -/
def dlmmQuoteExactIn (state : DlmmState) (amountIn : UInt64) (swapForY : UInt8) :
    Option DlmmQuote :=
  if amountIn = 0 then none
  else
    let ix : DlmmSwapIx := ⟨amountIn, 0, if swapForY ≠ 0 then 1 else 0⟩
    (dlmmApplySwap state ix).map fun (after, res) =>
      { amountOut := res.amountOut
        fee := res.fee
        binsCrossed := UInt16.ofNat
          (after.activeId.toInt - state.activeId.toInt).natAbs }

end ShredArb.Dlmm
