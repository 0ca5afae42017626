/-
  ShredArb.Tx.Keys — where the static keys of a framed transaction stand
  (`cu16_dec`, `find_prog_id`, `msg_keys_from_prog` of `arb-core/src/tx.c`,
  `frame_v1_layout`, `frame_v1_ix` of `arb-core/src/frame.c`, `txo_keys` of
  `arb-feed/src/tx_overlay.c`).

  Conventions:
    • offsets are absolute, as in the source; `p[i]` is `byteAt p i`, and is only
      read below the length,
    • the lengths passed as `uint16_t` are truncated here too,
    • the codes for "incomplete" and "invalid" are one failure: no caller here
      tells them apart.
-/
import ShredArb.Tx.Wire

namespace ShredArb.Tx

open ShredArb.Univ ShredArb.Bytes ShredArb.Parse

/-! ## §1. Bytes at offsets. -/

abbrev txSigMax : Nat := 12
abbrev txKeyMax : Nat := 64
abbrev txInstrMax : Nat := 64
abbrev txV1HdrSize : Nat := 42
abbrev txV1Max : Nat := 4096
abbrev txV1Prefix : UInt8 := 0x81
abbrev txV1CfgKnown : Nat := 0x1f
abbrev frameVerV1 : UInt8 := 2

/-- `p[i]`. -/
def byteAt (p : List UInt8) (i : Nat) : UInt8 := p.getD i 0

/-- The key at an offset. -/
def keyAt (p : List UInt8) (off : Nat) : Mint := BitVec.ofNat 256 (leNat (field p off 32))

/-- `cu16_dec(p + off, avail, ..)`: the value and the bytes it took. -/
def cu16Avail (p : List UInt8) (off avail : Nat) : Option (Nat × Nat) :=
  let taken := field p off avail
  (cu16Dec taken).map fun r => (r.1, taken.length - r.2.length)

/-- `cu16_dec(p + off, (uint16_t)(len - off), ..)`. -/
def cu16At (p : List UInt8) (off : Nat) : Option (Nat × Nat) :=
  cu16Avail p off ((p.length - off) % 2 ^ 16)

/-- The bytes of a program id. -/
def progDlmmBytes : List UInt8 :=
  [0x04, 0xe9, 0xe1, 0x2f, 0xbc, 0x84, 0xe8, 0x26, 0xc9, 0x32, 0xcc, 0xe9, 0xe2, 0x64, 0x0c, 0xce,
    0x15, 0x59, 0x0c, 0x1c, 0x62, 0x73, 0xb0, 0x92, 0x57, 0x08, 0xba, 0x3b, 0x85, 0x20, 0xb0, 0xbc]

def progPumpBytes : List UInt8 :=
  [0x0c, 0x14, 0xde, 0xfc, 0x82, 0x5e, 0xc6, 0x76, 0x94, 0x25, 0x08, 0x18, 0xbb, 0x65, 0x40, 0x65,
    0xf4, 0x29, 0x8d, 0x31, 0x56, 0xd5, 0x71, 0xb4, 0xd4, 0xf8, 0x09, 0x0c, 0x18, 0xe9, 0xa8, 0x63]

/-- `PROG_DLMM`. -/
def progDlmm : Mint := BitVec.ofNat 256 (leNat progDlmmBytes)

/-- `PROG_PUMP`. -/
def progPump : Mint := BitVec.ofNat 256 (leNat progPumpBytes)

/-- The venue of a program id, 0 for none. -/
def progProto (k : Mint) : UInt8 :=
  if k = progDlmm then protoDlmm else if k = progPump then protoPump else 0

/-- `msg_keys_t`, the fields the overlay reads. -/
structure MsgKeys where
  keysOff : Nat
  nkeys : Nat
  versioned : UInt8
  deriving DecidableEq, Repr

/-- `mk->keys + 32 * i`. -/
def MsgKeys.key (mk : MsgKeys) (p : List UInt8) (i : Nat) : Mint := keyAt p (mk.keysOff + 32 * i)

/-- The strict `header_ok` of `tx.c` and `frame.c`. -/
def headerOk (nsig roSigned roUnsigned : UInt8) (nkeys : Nat) : Bool :=
  decide (1 ≤ nsig.toNat ∧ nsig.toNat ≤ txSigMax ∧ roSigned.toNat < nsig.toNat ∧
    nsig.toNat ≤ nkeys ∧ nkeys ≤ txKeyMax ∧ nsig.toNat + roUnsigned.toNat ≤ nkeys)

/-! ## §2. Version 1. -/

/-- `frame_v1_t`, the fields that are read. -/
structure FrameV1 where
  nsig : UInt8
  ninstr : Nat
  naddr : Nat
  keysOff : Nat
  hdrOff : Nat
  payOff : Nat
  txEnd : Nat
  deriving DecidableEq, Repr

/-- `pop32`. -/
def pop32 (x : Nat) : Nat := ((List.range 32).filter fun i => x.testBit i).length

/-- The 4-byte instruction header: program, number of accounts, length of data. -/
def v1Header (p : List UInt8) (hdrOff i : Nat) : UInt8 × Nat × Nat :=
  (byteAt p (hdrOff + 4 * i), (byteAt p (hdrOff + 4 * i + 1)).toNat,
    (byteAt p (hdrOff + 4 * i + 2)).toNat + 256 * (byteAt p (hdrOff + 4 * i + 3)).toNat)

/-- What the first `n` instructions take of the payload. -/
def v1Payload (p : List UInt8) (hdrOff n : Nat) : Nat :=
  ((List.range n).map fun i => (v1Header p hdrOff i).2.1 + (v1Header p hdrOff i).2.2).sum

/-- `frame_v1_layout`; the bound `proj` is on the projected length. -/
def frameV1Layout (p : List UInt8) (start : Nat) : Option FrameV1 :=
  let len := p.length
  if start ≥ len ∨ byteAt p start ≠ txV1Prefix ∨ start + txV1HdrSize > len then none
  else
    let nsig := byteAt p (start + 1)
    let mask := leNat (field p (start + 4) 4)
    let ninstr := (byteAt p (start + 40)).toNat
    let naddr := (byteAt p (start + 41)).toNat
    let keysOff := start + txV1HdrSize
    if mask &&& txV1CfgKnown ≠ mask ∨ mask &&& 3 = 1 ∨ mask &&& 3 = 2 then none
    else if ninstr = 0 ∨ ninstr > txInstrMax then none
    else if !headerOk nsig (byteAt p (start + 2)) (byteAt p (start + 3)) naddr then none
    else if keysOff + 32 * naddr > len then none
    else if ¬((List.range naddr).map fun i => keyAt p (keysOff + 32 * i)).Nodup then none
    else
      let hdrOff := keysOff + 32 * naddr + 4 * pop32 mask
      let payOff := hdrOff + 4 * ninstr
      let pay := v1Payload p hdrOff ninstr
      let accounts := (List.range ninstr).flatMap fun i =>
        field p (payOff + v1Payload p hdrOff i) (v1Header p hdrOff i).2.1
      if payOff > len then none
      else if (List.range ninstr).any fun i => (v1Header p hdrOff i).1.toNat ≥ naddr then none
      else if payOff - start + pay + 64 * nsig.toNat > txV1Max then none
      else if payOff + pay > len then none
      else if accounts.any fun a => a.toNat ≥ naddr then none
      else if payOff + pay + 64 * nsig.toNat > len then none
      else some ⟨nsig, ninstr, naddr, keysOff, hdrOff, payOff, payOff + pay + 64 * nsig.toNat⟩

/-! ## §3. The keys. -/

/-- `find_prog_id`: the first program id, at any offset. -/
def findProgId (p : List UInt8) : Option Nat :=
  if p.length < 32 then none
  else (List.range (p.length - 31)).find? fun i =>
    field p i 32 = progDlmmBytes ∨ field p i 32 = progPumpBytes

/-- A version 1 transaction whose key number `vk` is at `prog_off`. -/
def msgKeysV1 (p : List UInt8) (progOff vk : Nat) : Option MsgKeys :=
  if progOff < txV1HdrSize + 32 * vk then none
  else (frameV1Layout p (progOff - txV1HdrSize - 32 * vk)).bind fun l =>
    if vk ≥ l.naddr ∨ l.txEnd > 65535 then none
    else some ⟨l.keysOff, l.naddr, frameVerV1⟩

/-- A key list that starts `k` keys before `prog_off`, after a length of `w` bytes. -/
def msgKeysAt (p : List UInt8) (progOff k w : Nat) : Option MsgKeys :=
  if progOff < 32 * k then none
  else
    let start := progOff - 32 * k
    if start < w then none
    else (cu16Avail p (start - w) w).bind fun (nkeys, used) =>
      if used ≠ w ∨ nkeys < k + 1 ∨ nkeys > txKeyMax ∨ start + 32 * nkeys > p.length then none
      else
        let ok := headerOk (byteAt p (start - w - 3)) (byteAt p (start - w - 2))
          (byteAt p (start - w - 1)) nkeys
        if start ≥ w + 3 ∧ ok = true then some ⟨start, nkeys, 0⟩
        else if start ≥ w + 4 ∧ byteAt p (start - w - 4) = 0x80 ∧ ok = true then
          some ⟨start, nkeys, 1⟩
        else none

/-- `msg_keys_from_prog`. -/
def msgKeysFromProg (p : List UInt8) (progOff : Nat) : Option MsgKeys :=
  if progOff + 32 > p.length then none
  else ((List.range txKeyMax).findSome? fun vk => msgKeysV1 p progOff vk).orElse fun _ =>
    ((List.range (txKeyMax - 1)).flatMap fun k => [1, 2, 3].map fun w => (k + 1, w)).findSome?
      fun (k, w) => msgKeysAt p progOff k w

/-- The version and the offset after `b0` and the number of signers. -/
def txoVersion (p : List UInt8) (i : Nat) (nsig : UInt8) : Option (UInt8 × Nat) :=
  let b0 := byteAt p i
  if b0 &&& 0x80 ≠ 0 then
    if b0 &&& 0x7f ≠ 0 ∨ i + 1 ≥ p.length ∨ byteAt p (i + 1) ≠ nsig then none
    else some (1, i + 2)
  else if b0 ≠ nsig then none
  else some (0, i + 1)

/-- `txo_keys`; its own `header_ok` ignores the read-only counts. -/
def txoKeys (p : List UInt8) : Option MsgKeys :=
  let len := p.length
  let nsig := byteAt p 0
  if len < 65 then none
  else if nsig = txV1Prefix then
    (frameV1Layout p 0).map fun l => ⟨l.keysOff, l.naddr, frameVerV1⟩
  else if len < 134 ∨ nsig &&& 0x80 ≠ 0 ∨ nsig.toNat < 1 ∨ nsig.toNat > txSigMax then none
  else if 1 + 64 * nsig.toNat ≥ len then none
  else (txoVersion p (1 + 64 * nsig.toNat) nsig).bind fun (versioned, i) =>
    if i + 2 > len then none
    else (cu16At p (i + 2)).bind fun (nkeys, used) =>
      let keysOff := i + 2 + used
      if nkeys < nsig.toNat ∨ nkeys > txKeyMax then none
      else if keysOff + 32 * nkeys + 32 > len then none
      else some ⟨keysOff, nkeys, versioned⟩

/-- The keys as `txo_scan` finds them: by the header, else around a program id. -/
def scanKeys (p : List UInt8) : Option MsgKeys :=
  (txoKeys p).orElse fun _ =>
    let p16 := p.take (p.length % 2 ^ 16)
    (findProgId p16).bind (msgKeysFromProg p16)

end ShredArb.Tx
