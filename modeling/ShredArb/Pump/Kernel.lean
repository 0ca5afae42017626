/-
  ShredArb.Pump.Kernel — the PumpSwap exact-in kernel
  (`arb-core/src/dex/pump.c`, `arb-core/include/pump.h`).

  Constant product on (base vault, quote vault + virtual quote reserves), each
  of the three fees rounded up on its own.  As in the DLMM kernel the struct
  fields keep their widths, `u128` locals are naturals, and what can leave 128
  bits is reduced where the source would wrap.
-/
import ShredArb.Lib.Word

namespace ShredArb.Pump

open ShredArb.Word

/-! ## §1. The data model (`pump.h`). -/

abbrev pumpFeeBpsDen : Nat := 10000
/-- Buy: the amount in is quote. -/
abbrev pumpDirQuoteToBase : UInt8 := 0
/-- Sell: the amount in is base. -/
abbrev pumpDirBaseToQuote : UInt8 := 1
abbrev pumpDisableBuy : UInt8 := 8
abbrev pumpDisableSell : UInt8 := 16

/-- `pump_state_t`. -/
structure PumpState where
  reserveBase : UInt64
  reserveQuote : UInt64
  virtualQuote : Int64
  lpFeeBps : UInt64
  protocolFeeBps : UInt64
  creatorFeeBps : UInt64
  disabled : UInt8
  /-- 0 enabled -/
  status : UInt8
  deriving DecidableEq, Repr, Inhabited

/-- `pump_swap_ix_t`. -/
structure PumpSwapIx where
  amountIn : UInt64
  minAmountOut : UInt64
  direction : UInt8
  deriving DecidableEq, Repr, Inhabited

/-- `pump_swap_result_t`. -/
structure PumpSwapResult where
  amountIn : UInt64
  amountOut : UInt64
  fee : UInt64
  lpFee : UInt64
  protocolFee : UInt64
  creatorFee : UInt64
  deriving DecidableEq, Repr, Inhabited

/-- `pump_quote_t` of a successful quote (`valid = 1`). -/
structure PumpQuote where
  amountOut : UInt64
  fee : UInt64
  deriving DecidableEq, Repr, Inhabited

/-! ## §2. Fees and the effective quote reserve. -/

/-- `fee_bps`. -/
def feeBps (n bps : Nat) : Option Nat :=
  if bps > pumpFeeBpsDen then none
  else some (ceilDiv (wrap128 (n * bps)) pumpFeeBpsDen)

/-- `effective_quote`. -/
def effectiveQuote (s : PumpState) : Option Nat :=
  if s.reserveBase = 0 ∨ s.reserveQuote = 0 then none
  else
    let q := (s.reserveQuote.toNat : Int) + s.virtualQuote.toInt
    if q ≤ 0 ∨ q > 2 ^ 64 - 1 then none else some q.toNat

/-- The three fees of a swap. -/
structure Fees where
  lp : Nat
  proto : Nat
  creator : Nat
  deriving DecidableEq, Repr

/-- `fee = lp + proto + creator`. -/
def Fees.total (f : Fees) : Nat := wrap128 (f.lp + f.proto + f.creator)

/-- `split_fees`. -/
def splitFees (n : Nat) (s : PumpState) : Option Fees :=
  (feeBps n s.lpFeeBps.toNat).bind fun lp =>
  (feeBps n s.protocolFeeBps.toNat).bind fun proto =>
  (feeBps n s.creatorFeeBps.toNat).map fun creator => ⟨lp, proto, creator⟩

/-- `total_bps`. -/
def totalBps (s : PumpState) : Nat :=
  s.lpFeeBps.toNat + s.protocolFeeBps.toNat + s.creatorFeeBps.toNat

/-! ## §3. The two branches of `pump_apply_swap`. -/

/-- What a branch leaves behind: the state, the output, the fees. -/
structure Branch where
  after : PumpState
  out : Nat
  fees : Fees
  deriving DecidableEq, Repr

/-- Sell: `amount` base in, quote out less the three fees; the LP fee stays in
the pool. -/
def pumpSell (s : PumpState) (qeff amount : Nat) : Option Branch :=
  let gross := wrap128 (qeff * amount) / (s.reserveBase.toNat + amount)
  (splitFees gross s).bind fun fees =>
  if gross < fees.total then none
  else
    let leave := gross - fees.lp
    if leave > s.reserveQuote.toNat then none
    else if s.reserveBase.toNat + amount > 2 ^ 64 - 1 then none
    else some
      { after := { s with
          reserveBase := UInt64.ofNat (s.reserveBase.toNat + amount)
          reserveQuote := s.reserveQuote - UInt64.ofNat leave }
        out := gross - fees.total
        fees := fees }

/-- The fee-exclusive part of a buy: `amount` scaled down by the fee rate, and
reduced once more when the rounded-up fees do not fit beside it. -/
def buyEffective (s : PumpState) (amount : Nat) : Option (Nat × Fees) :=
  let effective := wrap128 (amount * pumpFeeBpsDen) / (pumpFeeBpsDen + totalBps s)
  (splitFees effective s).bind fun fees =>
  let gross := wrap128 (effective + fees.total)
  if gross > amount then
    let effective := sub128 effective (sub128 gross amount)
    (splitFees effective s).map fun fees => (effective, fees)
  else some (effective, fees)

/-- Buy: `amount` quote in, base out. -/
def pumpBuy (s : PumpState) (qeff amount : Nat) : Option Branch :=
  (buyEffective s amount).bind fun (effective, fees) =>
  if effective < 1 then none
  else
    let net := effective - 1
    let out := wrap128 (s.reserveBase.toNat * net) / wrap128 (qeff + net)
    if out = 0 ∨ out > s.reserveBase.toNat then none
    else if wrap128 (fees.proto + fees.creator) > amount then none
    else if s.reserveQuote.toNat + amount > 2 ^ 64 - 1 then none
    else some
      { after := { s with
          reserveBase := s.reserveBase - UInt64.ofNat out
          reserveQuote := s.reserveQuote + UInt64.ofNat amount
            - UInt64.ofNat fees.proto - UInt64.ofNat fees.creator }
        out := out
        fees := fees }

/-- `pump_apply_swap`. -/
def pumpApplySwap (before : PumpState) (ix : PumpSwapIx) :
    Option (PumpState × PumpSwapResult) :=
  let disableBit := if ix.direction = pumpDirQuoteToBase then pumpDisableBuy
    else pumpDisableSell
  if before.status ≠ 0 ∨ ix.amountIn = 0 then none
  else if ix.direction ≠ pumpDirQuoteToBase ∧ ix.direction ≠ pumpDirBaseToQuote then none
  else if before.disabled &&& disableBit ≠ 0 then none
  else if totalBps before ≥ pumpFeeBpsDen then none
  else
    (effectiveQuote before).bind fun qeff =>
    (if ix.direction = pumpDirBaseToQuote then pumpSell before qeff ix.amountIn.toNat
      else pumpBuy before qeff ix.amountIn.toNat).bind fun b =>
    if b.out = 0 ∨ b.out > 2 ^ 64 - 1 ∨ b.fees.total > 2 ^ 64 - 1 then none
    else if b.out < ix.minAmountOut.toNat then none
    else some (b.after,
      { amountIn := ix.amountIn
        amountOut := UInt64.ofNat b.out
        fee := UInt64.ofNat b.fees.total
        lpFee := UInt64.ofNat b.fees.lp
        protocolFee := UInt64.ofNat b.fees.proto
        creatorFee := UInt64.ofNat b.fees.creator })

/-- `pump_quote_exact_in`. -/
def pumpQuoteExactIn (state : PumpState) (amountIn : UInt64) (direction : UInt8) :
    Option PumpQuote :=
  if amountIn = 0 then none
  else (pumpApplySwap state ⟨amountIn, 0, direction⟩).map fun (_, res) =>
    { amountOut := res.amountOut, fee := res.fee }

end ShredArb.Pump
