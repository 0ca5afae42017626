/-
  ShredArb.Trigger.Swapix — the first supported swap of a transaction, over its
  loaded keys (`swapix_from_loaded` and what it calls, `arb-core/src/swapix.c`).

  The direction of a DLMM swap is found by recomputing the user's token
  accounts, which are program-derived addresses: the hash behind them is
  OpenSSL's and stands here as the parameter `sha256`.

  Conventions:
    • `swapix_t` is `SwapIx`, its signature zero until it is copied in; what a
      failed decode leaves behind is overwritten by the next one,
    • `p + start` with a 16-bit length is the byte string of that length.
-/
import ShredArb.Tx.Frame
import ShredArb.Pump.Kernel

namespace ShredArb.Trigger

open ShredArb.Univ ShredArb.Bytes ShredArb.Tx ShredArb.Pump

/-! ## §1. Token accounts (`ata_addr`). -/

/-- `PUMP_BUY`: exact-out, unsupported. -/
def pumpBuyDisc : List UInt8 := [0x66, 0x06, 0x3d, 0x12, 0x01, 0xda, 0xeb, 0xea]

/-- `PROG_TOKEN`. -/
def progToken : Mint := BitVec.ofNat 256 (leNat
  [0x06, 0xdd, 0xf6, 0xe1, 0xd7, 0x65, 0xa1, 0x93, 0xd9, 0xcb, 0xe1, 0x46, 0xce, 0xeb, 0x79, 0xac,
    0x1c, 0xb4, 0x85, 0xed, 0x5f, 0x5b, 0x37, 0x91, 0x3a, 0x8c, 0xf5, 0x85, 0x7e, 0xff, 0x00, 0xa9])

/-- `PROG_TOKENZ`. -/
def progTokenz : Mint := BitVec.ofNat 256 (leNat
  [0x06, 0xdd, 0xf6, 0xe1, 0xee, 0x75, 0x8f, 0xde, 0x18, 0x42, 0x5d, 0xbc, 0xe4, 0x6c, 0xcd, 0xda,
    0xb6, 0x1a, 0xfc, 0x4d, 0x83, 0xb9, 0x0d, 0x27, 0xfe, 0xbd, 0xf9, 0x28, 0xd8, 0xa1, 0x8b, 0xfc])

/-- `PROG_ATA`. -/
def progAtaBytes : List UInt8 :=
  [0x8c, 0x97, 0x25, 0x8f, 0x4e, 0x24, 0x89, 0xf1, 0xbb, 0x3d, 0x10, 0x29, 0x14, 0x8e, 0x0d, 0x83,
    0x0b, 0x5a, 0x13, 0x99, 0xda, 0xff, 0x10, 0x84, 0x04, 0x8e, 0x7b, 0xd8, 0xdb, 0xe9, 0xf8, 0x59]

/-- The bytes of "ProgramDerivedAddress". -/
def pdaMarker : List UInt8 :=
  [0x50, 0x72, 0x6f, 0x67, 0x72, 0x61, 0x6d, 0x44, 0x65, 0x72, 0x69, 0x76, 0x65, 0x64, 0x41, 0x64,
    0x64, 0x72, 0x65, 0x73, 0x73]

/-- The field of the curve, 2²⁵⁵ − 19. -/
def curveP : Nat := 2 ^ 255 - 19

def curveD : Nat := 0x52036cee2b6ffe738cc740797779e89800700a4d4141d8ab75eb4dca135978a3

/-- `BN_mod_exp`, by squaring; `bits` bounds the exponent. -/
def modExp (base : Nat) : (bits exp : Nat) → Nat
  | 0, _ => 1
  | bits + 1, exp =>
    let half := modExp base bits (exp / 2)
    let square := half * half % curveP
    if exp % 2 = 1 then square * base % curveP else square

/-- `on_curve`: 32 bytes are the y-coordinate of a point. -/
def onCurve (pt : List UInt8) : Bool :=
  let y := leNat pt % 2 ^ 255
  if y ≥ curveP then false
  else
    let y2 := y * y % curveP
    let u := if y2 = 0 then curveP - 1 else y2 - 1
    let v := (curveD * y2 % curveP + 1) % curveP
    -- the inverse modulo a prime
    if v = 0 then false
    else
      let x2 := u * modExp v 255 (curveP - 2) % curveP
      modExp x2 255 ((curveP - 1) / 2) != curveP - 1

section Swaps

variable (sha256 : List UInt8 → Vector UInt8 32)

/-- `ata_addr`: the first bump, from 255 down, whose digest is no point. -/
def ataAddr (owner tokenProg mint : Mint) : Option Mint :=
  (List.range 256).findSome? fun i =>
    let digest := (sha256 (keyBytes owner ++ keyBytes tokenProg ++ keyBytes mint ++
      [UInt8.ofNat (255 - i)] ++ progAtaBytes ++ pdaMarker)).toList
    if onCurve digest then none else some (BitVec.ofNat 256 (leNat digest))

/-! ## §2. One instruction (`dlmm_dir`, `decode_ix`). -/

/-- `key32` of an account. -/
def accountKey (keys : List Mint) (acc : List UInt8) (i : Nat) : Option Mint :=
  keys[(byteAt acc i).toNat]?

/-- The token program an account names, if it is there. -/
def tokenProgram (keys : List Mint) (acc : List UInt8) (i : Nat) : Mint :=
  if acc.length > i then (accountKey keys acc i).getD progToken else progToken

/-- The direction the user's input account shows under a token program. -/
def dirUnder (user userIn mintX mintY alt : Mint) : Option UInt8 :=
  if ataAddr sha256 user alt mintX = some userIn then some 1
  else if ataAddr sha256 user alt mintY = some userIn then some 0
  else none

/-- `dlmm_dir`: `swap_for_y`. -/
def dlmmDir (keys : List Mint) (acc : List UInt8) : Option UInt8 :=
  if acc.length < 11 then none
  else
    (accountKey keys acc 4).bind fun userIn => (accountKey keys acc 6).bind fun mintX =>
    (accountKey keys acc 7).bind fun mintY => (accountKey keys acc 10).bind fun user =>
    (ataAddr sha256 user (tokenProgram keys acc 11) mintX).bind fun ataX =>
    (ataAddr sha256 user (tokenProgram keys acc 12) mintY).bind fun ataY =>
      if userIn = ataX then some 1
      else if userIn = ataY then some 0
      -- Token-2022 against Tokenkeg: try the other program
      else (dirUnder sha256 user userIn mintX mintY progTokenz).orElse fun _ =>
        dirUnder sha256 user userIn mintX mintY progToken

/-- `decode_ix`; the pool and the signature are filled in by the callers. -/
def decodeIx (proto : UInt8) (keys : List Mint) (ix : CompiledIx) : Option SwapIx :=
  if ix.data.length < 24 ∨ ix.accounts.length < 1 then none
  else
    let a := loadU64 (field ix.data 8 8)
    let b := loadU64 (field ix.data 16 8)
    let disc := ix.data.take 8
    if a = 0 then none
    else if proto = protoDlmm then
      (if disc = dlmmSwap2Disc then some 1 else if disc = dlmmSwap1Disc then some 2 else none).bind
        fun variant => (dlmmDir sha256 keys ix.accounts).map fun dir =>
          ⟨protoDlmm, 0, 0, a, b, dir, variant⟩
    else if proto = protoPump then
      if disc = pumpBuyDisc then none
      else if disc = pumpSellDisc then some ⟨protoPump, 0, 0, a, b, pumpDirBaseToQuote, 3⟩
      else if disc = pumpBuyEqDisc then some ⟨protoPump, 0, 0, a, b, pumpDirQuoteToBase, 4⟩
      else none
    else none

/-- The swap of an instruction of a known program, with its pool. -/
def swapOf (loaded : List Mint) (ix : CompiledIx) : Option SwapIx :=
  let proto := progProto (loaded.getD ix.prog.toNat 0)
  if proto ≠ 0 ∧ ix.accounts ≠ [] then
    (loaded[(byteAt ix.accounts 0).toNat]?).bind fun pool =>
      (decodeIx sha256 proto loaded ix).map fun s => { s with pool := pool }
  else none

/-! ## §3. The walk (`swapix_from_loaded`, `swapix_from_v1`). -/

/-- The loop of `swapix_from_loaded`. -/
def swapWalk (q : List UInt8) (loaded : List Mint) : (n off : Nat) → Option SwapIx
  | 0, _ => none
  | n + 1, off =>
    if off + 1 > q.length then none
    else if (byteAt q off).toNat ≥ loaded.length then none
    else (cu16At q (off + 1)).bind fun (nacct, used) =>
      let accOff := off + 1 + used
      if nacct > 255 ∨ accOff + nacct > q.length then none
      else (cu16At q (accOff + nacct)).bind fun (dlen, used) =>
        let dataOff := accOff + nacct + used
        if dataOff + dlen > q.length then none
        else
          match swapOf sha256 loaded ⟨byteAt q off, field q accOff nacct, field q dataOff dlen⟩ with
          | some s => some s
          | none => swapWalk q loaded n (dataOff + dlen)

/-- The loop of `swapix_from_v1`. -/
def swapFirst (loaded : List Mint) : List CompiledIx → Option SwapIx
  | [] => none
  | ix :: ixs =>
    if ix.prog.toNat ≥ loaded.length then none
    else match swapOf sha256 loaded ix with
      | some s => some s
      | none => swapFirst loaded ixs

/-- `swapix_from_v1`, over loaded keys. -/
def swapixFromV1 (q : List UInt8) (loaded : List Mint) : Option SwapIx :=
  (frameV1Layout q 0).bind fun l =>
    swapFirst sha256 loaded ((List.range l.ninstr).map (frameV1Ix q l))

/-- `swapix_from_loaded`. -/
def swapixFromLoaded (q : List UInt8) (keysOff nStatic : Nat) (loaded : List Mint) :
    Option SwapIx :=
  if loaded = [] then none
  else if q.length ≥ 1 ∧ byteAt q 0 = txV1Prefix then swapixFromV1 sha256 q loaded
  else
    let off := keysOff + 32 * nStatic + 32
    if off ≥ q.length then none
    else (cu16At q off).bind fun (ninstr, used) =>
      if ninstr = 0 ∨ ninstr > txInstrMax then none
      else swapWalk sha256 q loaded ninstr (off + used)

end Swaps

end ShredArb.Trigger
