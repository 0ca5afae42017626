/-
  ShredArb.Auth.Publish — the writer of the AUTH ring (arb-state/shyft/authpub.py).

  Conventions:
    • the mapped file is a `Memory`, every `pack_into` is a write of its bytes,
    • integers that the caller passes have their field's width; `_ver`, `seq` and
      `head` are Python integers, and packing one that does not fit raises
      `struct.error` — the call, and with it the run, ends there,
    • `ValueError` is raised BEFORE the first write: the map is as it was,
    • `create` works on whatever the file held.

  Main definitions:
    * `publish`, `resetHistory`, `setReady`, `openMap`, `create` — the calls,
    * `dumpRing`, `choosePred` — the publisher's own view of a ring.
-/
import ShredArb.Lib.Mem
import ShredArb.Lib.Parse

namespace ShredArb.Auth

open ShredArb.Bytes ShredArb.Mem ShredArb.Parse

/-! ## §1. The layout. -/

def magic : Nat := 0x39304841

def ver : Nat := 1

def ringCap : Nat := 16

def blobCap : Nat := 2048

def hdrSize : Nat := 256

def entSize : Nat := 2176

def poolHdr : Nat := 64

def poolSize : Nat := poolHdr + ringCap * entSize

def coherent : UInt32 := 1

def incomplete : UInt32 := 2

def gapped : UInt32 := 4

def boot : UInt32 := 8

def hasAccountWriteVersion : UInt32 := 16

def hasTxnIndex : UInt32 := 32

def txnIndexUnknown : UInt32 := 0xFFFFFFFF

/-- `map_size`. -/
def mapSize (cap : Nat) : Nat := hdrSize + cap * poolSize

/-- Where a pool's ring starts. -/
def poolOff (idx : Nat) : Nat := hdrSize + idx * poolSize

/-- Where entry `k` of a pool's ring starts. -/
def entOff (idx k : Nat) : Nat := poolOff idx + poolHdr + k * entSize

def zeros (n : Nat) : List UInt8 := List.replicate n 0

/-- `struct.pack_into` of one word of `k` bytes. -/
def packInto (m : Memory) (off k v : Nat) : Option Memory :=
  if v < 256 ^ k then some (write m off (leBytes k v)) else none

/-- `struct.unpack_from` of one word of `k` bytes. -/
def unpack (m : Memory) (off k : Nat) : Nat := leNat (read m off k)

/-- A flag of a flag word. -/
def hasFlag (flags bit : UInt32) : Bool := flags &&& bit != 0

/-! ## §2. The publisher. -/

/-- `AuthPub`: the map, `_ver` and `pool_cap`. -/
structure AuthPub where
  mm : Memory
  ver : Nat
  cap : Nat

/-- What `publish` is called with. -/
structure PublishArgs where
  slot : UInt64
  blob : List UInt8
  proto : Int
  sig : Option (List UInt8)
  txnIndex : Option UInt32
  maxAccountWriteVersion : Option UInt64
  flags : UInt32
  boot : Bool
  deriving DecidableEq

/-- `b"boot"`. -/
def bootSig : List UInt8 := [98, 111, 111, 116]

namespace PublishArgs

/-- `bytes(sig or b"")[:64]`. -/
def raw (a : PublishArgs) : List UInt8 := (a.sig.getD []).take 64

/-- A publication that has no transaction behind it. -/
def isBoot (a : PublishArgs) : Bool := a.boot || a.raw == bootSig

/-- The 64 signature bytes of the entry. -/
def sig64 (a : PublishArgs) : List UInt8 :=
  if a.isBoot then zeros 64 else a.raw ++ zeros (64 - a.raw.length)

/-- The flag word of the entry. -/
def flagWord (a : PublishArgs) : UInt32 :=
  let f := if a.isBoot then a.flags ||| Auth.boot else a.flags
  let f := f ||| coherent
  let f := if a.txnIndex.isSome then f ||| hasTxnIndex else f
  if a.maxAccountWriteVersion.isSome then f ||| hasAccountWriteVersion else f

def txn (a : PublishArgs) : UInt32 := a.txnIndex.getD txnIndexUnknown

def writeVer (a : PublishArgs) : UInt64 := a.maxAccountWriteVersion.getD 0

/-- `proto & 0xFF`. -/
def protoByte (a : PublishArgs) : UInt8 := UInt8.ofNat (a.proto % 256).toNat

end PublishArgs

/-- The parts `_ENT_HDR` packs, `"<QQIIQ64sBBHQ20x"`. -/
def entHdrParts (ver : Nat) (a : PublishArgs) : List (List UInt8) :=
  [leBytes 8 ver, leBytes 8 a.slot.toNat, leBytes 4 a.txn.toNat, leBytes 4 a.flagWord.toNat,
    leBytes 8 ver, a.sig64, [a.protoByte], [1], leBytes 2 a.blob.length,
    leBytes 8 a.writeVer.toNat, zeros 20]

/-- `_ENT_HDR.pack`. -/
def packEntHdr (ver : Nat) (a : PublishArgs) : Option (List UInt8) :=
  if ver < 256 ^ 8 then some (entHdrParts ver a).flatten else none

/-- The header, the cleared blob area and the blob over it. -/
def writeEnt (m : Memory) (eoff : Nat) (hdr blob : List UInt8) : Memory :=
  let m := write m eoff hdr
  let m := write m (eoff + 128) (zeros blobCap)
  if blob.isEmpty then m else write m (eoff + 128) blob

/-- The writes of one accepted `publish`, the sequence word odd in between. -/
def writePub (s : AuthPub) (idx : Nat) (a : PublishArgs) : Option AuthPub := do
  let off := poolOff idx
  let seq := unpack s.mm off 8
  let m ← packInto s.mm off 8 (seq + 1)
  let head := unpack m (off + 8) 4
  let ver := s.ver + 1
  let hdr ← packEntHdr ver a
  let m := writeEnt m (entOff idx (head % ringCap)) hdr a.blob
  let m ← packInto m (off + 8) 4 (head + 1)
  let m ← packInto m (off + 12) 4 a.flagWord.toNat
  let m ← packInto m (off + 16) 8 ver
  let m ← packInto m 24 8 ver
  let m ← packInto m off 8 (seq + 2)
  some { s with mm := m, ver := ver }

/-- What a call can raise. -/
inductive PyError where
  | valueError
  | structError
  deriving DecidableEq, Repr

/-- `publish`. -/
def publish (s : AuthPub) (idx : Nat) (a : PublishArgs) : Except PyError AuthPub :=
  if s.cap ≤ idx then .ok s
  else if blobCap < a.blob.length then .ok s
  else if a.txnIndex = some txnIndexUnknown then .error .valueError
  else (writePub s idx a).elim (.error .structError) .ok

/-- `set_ready`. -/
def setReady (s : AuthPub) (ready : Bool) (nPools : UInt32) (slot : UInt64) : Option AuthPub := do
  let m ← packInto s.mm 8 4 nPools.toNat
  let m ← packInto m 20 4 (if ready then 1 else 0)
  let m ← packInto m 40 8 slot.toNat
  some { s with mm := m }

/-- `struct.pack_into("<IIQ", …, 0, GAPPED, ver)`. -/
def packGapped (m : Memory) (off ver : Nat) : Option Memory :=
  if ver < 256 ^ 8 then some (write m off (leBytes 4 0 ++ leBytes 4 gapped.toNat ++ leBytes 8 ver))
  else none

/-- One pool of `reset_history`: an abandoned odd sequence is recovered first. -/
def resetPool (ver : Nat) (m : Memory) (idx : Nat) : Option Memory := do
  let off := poolOff idx
  let seq := unpack m off 8
  let seq := seq + seq % 2
  let m ← packInto m off 8 (seq + 1)
  let m ← packGapped m (off + 8) ver
  packInto m off 8 (seq + 2)

/-- `reset_history`. -/
def resetHistory (s : AuthPub) : Option AuthPub := do
  let s ← setReady s false 0 0
  let ver := s.ver + 1
  let m ← (List.range s.cap).foldlM (resetPool ver) s.mm
  let m ← packInto m 24 8 ver
  some { s with mm := m, ver := ver }

/-- The parts of the file header, `"<IHHIIIIQQQ"`. -/
def fileHdrParts (cap : Nat) : List (List UInt8) :=
  [leBytes 4 magic, leBytes 2 ver, leBytes 2 ringCap, leBytes 4 0, leBytes 4 cap, leBytes 4 blobCap,
    leBytes 4 0, leBytes 8 0, leBytes 8 0, leBytes 8 0]

/-- `create`, over whatever the file held. -/
def create (cap : Nat) (m : Memory) : Option AuthPub :=
  if cap < 256 ^ 4 then
    let m := write m 0 (zeros hdrSize)
    let m := write m 0 (fileHdrParts cap).flatten
    let m := (List.range cap).foldl (fun m i => write m (poolOff i) (zeros poolSize)) m
    some ⟨m, 0, cap⟩
  else none

/-- `open` of a file of the right size. -/
def openMap (cap : Nat) (m : Memory) : Option AuthPub :=
  if unpack m 0 4 ≠ magic ∨ unpack m 4 2 ≠ ver ∨ unpack m 6 2 ≠ ringCap then create cap m
  else some ⟨m, unpack m 24 8, cap⟩

/-! ## §3. The publisher's view of a ring. -/

/-- An entry of `dump_ring`. -/
structure RingEnt where
  generation : Nat
  slot : Nat
  txnIndex : Nat
  flags : Nat
  stateVersion : Nat
  sig : List UInt8
  proto : Nat
  coherent : Nat
  blobLen : Nat
  maxAccountWriteVersion : Option Nat
  deriving DecidableEq

/-- A little-endian word of `k` bytes. -/
def uint (k : Nat) : Parser Nat := andThen (exactly k) fun bs => done (leNat bs)

/-- `_ENT_HDR.unpack`, `"<QQIIQ64sBBHQ20x"`, as the dictionary of `dump_ring`. -/
def unpackEntHdr : Parser RingEnt :=
  andThen (uint 8) fun gen => andThen (uint 8) fun slot => andThen (uint 4) fun txn =>
  andThen (uint 4) fun flags => andThen (uint 8) fun ver => andThen (exactly 64) fun sig =>
  andThen (uint 1) fun proto => andThen (uint 1) fun coh => andThen (uint 2) fun nblob =>
  andThen (uint 8) fun writeVer => andThen (exactly 20) fun _ =>
  done
    { generation := gen
      slot := slot
      txnIndex := if flags &&& hasTxnIndex.toNat ≠ 0 then txn else txnIndexUnknown.toNat
      flags := flags
      stateVersion := ver
      sig := sig
      proto := proto
      coherent := coh
      blobLen := nblob
      maxAccountWriteVersion :=
        if flags &&& hasAccountWriteVersion.toNat ≠ 0 then some writeVer else none }

/-- `dump_ring`, newest entry first. -/
def dumpRing (s : AuthPub) (idx : Nat) : List RingEnt :=
  if s.cap ≤ idx then []
  else
    let head := unpack s.mm (poolOff idx + 8) 4
    (List.range (min head ringCap)).filterMap fun i =>
      (unpackEntHdr (read s.mm (entOff idx ((head - 1 - i) % ringCap)) 128)).map Prod.fst

/-- `usable` of `choose_pred`. -/
def RingEnt.usable (e : RingEnt) : Bool :=
  e.coherent != 0 && e.flags &&& Auth.coherent.toNat != 0
    && e.flags &&& (incomplete ||| gapped).toNat == 0

/-- The first loop of `choose_pred`: the entry behind the trigger's own. -/
def chooseBehind (sig : List UInt8) : List RingEnt → Option (Option RingEnt)
  | [] => none
  | e :: rest =>
    if e.sig = sig then some (rest.head?.filter RingEnt.usable)
    else chooseBehind sig rest

/-- The second loop of `choose_pred`: the newest entry of an earlier slot. -/
def chooseBelow (trigSlot : Nat) : List RingEnt → Option RingEnt
  | [] => none
  | e :: rest =>
    if e.slot = trigSlot then none
    else if e.slot < trigSlot then (if e.usable then some e else none)
    else chooseBelow trigSlot rest

/-- `choose_pred`: never skips a gap. -/
def choosePred (entries : List RingEnt) (trigSlot : Nat) (sig : Option (List UInt8)) :
    Option RingEnt :=
  match sig.bind fun g => if g = [] then none else chooseBehind g entries with
  | some found => found
  | none => chooseBelow trigSlot entries

end ShredArb.Auth
