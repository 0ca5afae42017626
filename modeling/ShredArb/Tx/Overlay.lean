/-
  ShredArb.Tx.Overlay — the transaction-local replay
  (`arb-feed/src/tx_overlay.c`, `tx_overlay.h`).

  `txo_scan` walks the outer instructions of a framed transaction and keeps the
  DLMM and Pump ones as LEGS; `txo_bind_watched` decides TX_EXACT for one pool,
  `txo_stamp_n` gives the direction of N to legs that have none, and `txo_apply`
  runs the legs of the pool over its state.

  Conventions:
    • `legs[0 .. n_leg)` is a list,
    • the counters stay below 256: at most `TX_INSTR_MAX` instructions are walked,
    • `have_dlmm` with `s_dlmm` is one optional state, and so for Pump,
    • `leg->disc` is written and never read; it is left out.
-/
import ShredArb.Tx.Keys
import ShredArb.Dlmm.Kernel
import ShredArb.Pump.Kernel

namespace ShredArb.Tx

open ShredArb.Univ ShredArb.Bytes ShredArb.Parse ShredArb.Dlmm ShredArb.Pump

/-! ## §1. Legs. -/

abbrev txoLegMax : Nat := 8

/-- `TXO_*`. -/
inductive Klass where
  | exact
  | ixOnly
  | unknown
  | fail
  deriving DecidableEq, Repr

/-- `txo_leg_t`. -/
structure Leg where
  proto : UInt8
  variant : UInt8
  exact : Bool
  unknownPricing : Bool
  pool : Mint
  amountIn : UInt64
  minOut : UInt64
  direction : UInt8
  haveDir : Bool
  deriving DecidableEq, Repr

/-- `tx_overlay_t`. -/
structure TxOverlay where
  klass : Klass
  ixExact : Bool
  txExact : Bool
  legs : List Leg
  nExact : Nat
  nUnknown : Nat
  sDlmm : Option DlmmState
  sPump : Option PumpState
  lastFee : UInt64
  lastPfee : UInt64
  lastActiveAfter : Int32

/-- The overlay `memset` leaves, under a class. -/
def TxOverlay.empty (klass : Klass) (ixExact : Bool) : TxOverlay :=
  ⟨klass, ixExact, false, [], 0, 0, none, none, 0, 0, 0⟩

/-- `swapix_t`, the decoded swap N. -/
structure SwapIx where
  protocol : UInt8
  pool : Mint
  sig : BitVec 512
  amountIn : UInt64
  minOut : UInt64
  direction : UInt8
  variant : UInt8
  deriving DecidableEq, Repr

/-! ## §2. The scan. -/

/-- `DLMM_SWAP2_DISC`. -/
def dlmmSwap2Disc : List UInt8 := [0x41, 0x4b, 0x3f, 0x4c, 0xeb, 0x5b, 0x5b, 0x88]

/-- `DLMM_SWAP1`. -/
def dlmmSwap1Disc : List UInt8 := [0xf8, 0xc6, 0x9e, 0x91, 0xe1, 0x75, 0x87, 0xc8]

/-- `PUMP_SELL`. -/
def pumpSellDisc : List UInt8 := [0x33, 0xe6, 0x85, 0xa4, 0x01, 0x7f, 0x83, 0xad]

/-- `PUMP_BUY_EQ`. -/
def pumpBuyEqDisc : List UInt8 := [0xc6, 0x2e, 0x15, 0x52, 0xb4, 0xd9, 0xe8, 0x70]

/-- `ANCHOR_EVENT`: emit-only. -/
def anchorEventDisc : List UInt8 := [0xe4, 0x45, 0xa5, 0x2e, 0x51, 0xcb, 0x9a, 0x1d]

/-- `is_exact`: the variant of a supported swap. -/
def isExact (proto : UInt8) (data : List UInt8) : Option UInt8 :=
  if data.length < 24 then none
  else if proto = protoDlmm then
    if data.take 8 = dlmmSwap2Disc then some 1
    else if data.take 8 = dlmmSwap1Disc then some 2
    else none
  else if proto = protoPump then
    if data.take 8 = pumpSellDisc then some 3
    else if data.take 8 = pumpBuyEqDisc then some 4
    else none
  else none

/-- `is_event`. -/
def isEvent (data : List UInt8) : Bool := decide (data.take 8 = anchorEventDisc)

/-- The leg of an exact swap; only Pump's variants say their direction. -/
def exactLeg (proto variant : UInt8) (pool : Mint) (data : List UInt8) : Leg where
  proto := proto
  variant := variant
  exact := true
  unknownPricing := false
  pool := pool
  amountIn := loadU64 (field data 8 8)
  minOut := loadU64 (field data 16 8)
  direction :=
    if variant = 3 then pumpDirBaseToQuote else if variant = 4 then pumpDirQuoteToBase else 0
  haveDir := variant == 3 || variant == 4

/-- The leg of anything else a venue's program runs. -/
def unknownLeg (proto : UInt8) (pool : Mint) : Leg :=
  ⟨proto, 0, false, true, pool, 0, 0, 0, false⟩

/-- What `txo_scan` does with one instruction of a venue, once there is room. -/
def noteIx (ov : TxOverlay) (proto : UInt8) (pool : Mint) (data : List UInt8) : TxOverlay :=
  if isEvent data then ov
  else match isExact proto data with
    | some variant =>
        { ov with
          legs := ov.legs ++ [exactLeg proto variant pool data]
          nExact := ov.nExact + 1 }
    | none =>
        { ov with
          legs := ov.legs ++ [unknownLeg proto pool]
          nUnknown := ov.nUnknown + 1 }

/-- The pool of an instruction: its first account, when it has one and the
index is of a STATIC key. -/
def legPool (p : List UInt8) (mk : MsgKeys) (accOff nacct : Nat) : Mint :=
  if 1 ≤ nacct ∧ (byteAt p accOff).toNat < mk.nkeys then mk.key p (byteAt p accOff).toNat else 0

/-- An instruction of a venue without room for its leg. -/
def skipIx (ov : TxOverlay) : TxOverlay := { ov with nUnknown := ov.nUnknown + 1 }

/-- The loop over legacy and v0 instructions; a program outside the static keys
ends it. -/
def scanIxs (p : List UInt8) (mk : MsgKeys) : Nat → Nat → TxOverlay → Option TxOverlay
  | 0, _, ov => some ov
  | n + 1, off, ov =>
    if off + 1 > p.length then none
    else
      let prog := (byteAt p off).toNat
      if prog ≥ mk.nkeys then some (skipIx ov)
      else (cu16At p (off + 1)).bind fun (nacct, used) =>
        let acc := off + 1 + used
        if nacct > 255 ∨ acc + nacct > p.length then none
        else (cu16At p (acc + nacct)).bind fun (dlen, used) =>
          let data := acc + nacct + used
          let proto := progProto (mk.key p prog)
          if proto ≠ 0 ∧ ov.legs.length ≥ txoLegMax then
            -- the length of the data is not checked here
            scanIxs p mk n (data + dlen) (skipIx ov)
          else if data + dlen > p.length then none
          else if proto = 0 then scanIxs p mk n (data + dlen) ov
          else scanIxs p mk n (data + dlen)
            (noteIx ov proto (legPool p mk acc nacct) (field p data dlen))

/-- One turn of the loop over version 1 instructions. -/
def scanV1Ix (p : List UInt8) (mk : MsgKeys) (l : FrameV1) (ov : TxOverlay) (i : Nat) :
    TxOverlay :=
  let h := v1Header p l.hdrOff i
  let acc := l.payOff + v1Payload p l.hdrOff i
  let proto := progProto (mk.key p h.1.toNat)
  if proto = 0 then ov
  else if ov.legs.length ≥ txoLegMax then skipIx ov
  else noteIx ov proto (legPool p mk acc h.2.1) (field p (acc + h.2.1) h.2.2)

/-- The loop; a program outside the keys ends it. -/
def scanV1Ixs (p : List UInt8) (mk : MsgKeys) (l : FrameV1) (ov : TxOverlay) : List Nat → TxOverlay
  | [] => ov
  | i :: is =>
    if (v1Header p l.hdrOff i).1.toNat ≥ mk.nkeys then skipIx ov
    else scanV1Ixs p mk l (scanV1Ix p mk l ov i) is

/-- The verdict on the whole transaction, before a pool is watched. -/
def scanVerdict (ov : TxOverlay) : TxOverlay :=
  if ov.nUnknown ≠ 0 then
    { ov with klass := .unknown, ixExact := decide (ov.nExact > 0), txExact := false }
  else if ov.nExact > 0 then { ov with klass := .exact, ixExact := true, txExact := true }
  else { ov with klass := .fail }

/-- `txo_scan`. -/
def txoScan (p : List UInt8) : Option TxOverlay :=
  if p.length < 65 then none
  else (scanKeys p).bind fun mk =>
    if mk.versioned = frameVerV1 then
      (frameV1Layout p (mk.keysOff - txV1HdrSize)).map fun l =>
        scanVerdict (scanV1Ixs p mk l (.empty .fail false) (List.range l.ninstr))
    else
      let off := mk.keysOff + 32 * mk.nkeys + 32
      if off ≥ p.length then none
      else (cu16At p off).bind fun (ninstr, used) =>
        if ninstr = 0 ∨ ninstr > txInstrMax then none
        else (scanIxs p mk ninstr (off + used) (.empty .fail false)).map scanVerdict

/-! ## §3. One pool. -/

/-- `txo_bind_watched`. -/
def txoBindWatched (ov : TxOverlay) (pool : Mint) : TxOverlay :=
  let unkHere := ov.legs.any fun l => l.pool == pool && l.unknownPricing
  let exactHere := ov.legs.any fun l => l.pool == pool && l.exact
  let zeroPoolUnk := ov.legs.any fun l => l.unknownPricing && l.pool == 0
  if unkHere || zeroPoolUnk then
    { ov with klass := .unknown, ixExact := exactHere, txExact := false }
  else if exactHere then { ov with klass := .exact, ixExact := true, txExact := true }
  else { ov with klass := .fail, ixExact := false, txExact := false }

/-- A leg `txo_stamp_n` and `txo_apply` look at. -/
def Leg.at (l : Leg) (pool : Mint) : Bool := l.exact && l.pool == pool

/-- The stamp on one leg. -/
def stampLeg (nExact : Nat) (nix : SwapIx) (l : Leg) : Leg :=
  if l.at nix.pool && !l.haveDir && (nExact == 1 || l.amountIn == nix.amountIn) then
    { l with direction := nix.direction, haveDir := true }
  else l

/-- `txo_stamp_n`; `need > stamped` when a leg of the pool is left without a
direction. -/
def txoStampN (ov : TxOverlay) (nix : SwapIx) : TxOverlay :=
  let ov' := { ov with legs := ov.legs.map (stampLeg ov.nExact nix) }
  if ov'.legs.any fun l => l.at nix.pool && !l.haveDir then
    { ov' with txExact := false, klass := if ov.ixExact then .ixOnly else ov.klass }
  else ov'

/-- The DLMM loop of `txo_apply`, with its return code. -/
def applyDlmmLegs (pool : Mint) : List Leg → DlmmState → TxOverlay → Bool × TxOverlay
  | [], _, ov => (true, ov)
  | l :: ls, cur, ov =>
    if l.at pool = false ∨ l.proto ≠ protoDlmm then applyDlmmLegs pool ls cur ov
    else if l.haveDir = false then (false, { ov with klass := .ixOnly, txExact := false })
    else match dlmmApplySwap cur ⟨l.amountIn, 0, l.direction⟩ with
      | none => (false, { ov with klass := .fail, txExact := false })
      | some (next, res) =>
          applyDlmmLegs pool ls next { ov with
            sDlmm := some next
            lastFee := res.fee
            lastPfee := res.protocolFee
            lastActiveAfter := res.activeIdAfter }

/-- The Pump loop; it does not ask for a direction. -/
def applyPumpLegs (pool : Mint) : List Leg → PumpState → TxOverlay → Bool × TxOverlay
  | [], _, ov => (true, ov)
  | l :: ls, cur, ov =>
    if l.at pool = false ∨ l.proto ≠ protoPump then applyPumpLegs pool ls cur ov
    else match pumpApplySwap cur ⟨l.amountIn, 0, l.direction⟩ with
      | none => (false, { ov with klass := .fail, txExact := false })
      | some (next, res) =>
          applyPumpLegs pool ls next { ov with sPump := some next, lastFee := res.fee }

/-- `txo_apply`. -/
def txoApply (ov : TxOverlay) (pool : Mint) (proto : UInt8) (dlmmBefore : Option DlmmState)
    (pumpBefore : Option PumpState) : Bool × TxOverlay :=
  if ov.klass ≠ .exact ∨ ov.txExact = false then (false, ov)
  else match proto == protoDlmm, dlmmBefore, proto == protoPump, pumpBefore with
    | true, some before, _, _ => applyDlmmLegs pool ov.legs before { ov with sDlmm := some before }
    | _, _, true, some before => applyPumpLegs pool ov.legs before { ov with sPump := some before }
    | _, _, _, _ => (false, ov)

/-! ## §4. Transactions of one signer. -/

/-- A compiled instruction on the wire, its lengths below 128. -/
def ixBytes (ix : CompiledIx) : List UInt8 :=
  [ix.prog, .ofNat ix.accounts.length] ++ ix.accounts ++ [.ofNat ix.data.length] ++ ix.data

/-- A legacy transaction of one signer. -/
def legacyTx (sig : BitVec 512) (keys : List Mint) (ixs : List CompiledIx) : List UInt8 :=
  [1] ++ leBytes 64 sig.toNat ++ [1, 0, 1, .ofNat keys.length] ++ keys.flatMap keyBytes ++
    List.replicate 32 0 ++ [.ofNat ixs.length] ++ ixs.flatMap ixBytes

/-- The data of a swap: discriminator, amount, least output. -/
def swapData (disc : List UInt8) (amountIn minOut : UInt64) : List UInt8 :=
  disc ++ u64le amountIn ++ u64le minOut

end ShredArb.Tx
