/-
  ShredArb.Auth.Reader — the reader of the AUTH ring (arb-feed/src/authpub.c).

  Conventions:
    • the mapping is a `Memory` and its length, an address is an offset into it,
    • the map is QUIESCENT: both reads of the sequence word see the same memory,
    • a refusal (−1) is `none`; what a refusal leaves in `*meta` is not kept,
    • `blob` and `blob_len` are given, and together they are the byte string copied.

  Main definitions:
    * `authpubPred` — the predecessor of a trigger, or a refusal.
-/
import ShredArb.Auth.Publish

namespace ShredArb.Auth

open ShredArb.Bytes ShredArb.Mem

/-! ## §1. Words of the map. -/

def u32 (m : Memory) (p : Nat) : UInt32 := UInt32.ofNat (leNat (read m p 4))

def u64 (m : Memory) (p : Nat) : UInt64 := UInt64.ofNat (leNat (read m p 8))

/-- `header_ok`; answers the capacity it stores in `g_cap`. -/
def headerOk (m : Memory) (len : Nat) : Option UInt32 :=
  if len < hdrSize then none
  else if u32 m 0 ≠ 0x39304841 then none
  else if u32 m 4 ≠ ((16 : UInt32) <<< 16 ||| 1) then none
  else if u32 m 16 ≠ 2048 then none
  else
    let cap := u32 m 12
    if cap = 0 ∨ 65535 < cap then none
    else if len < hdrSize + cap.toNat * poolSize then none
    else some cap

/-- `pool_base`. -/
def poolBase (m : Memory) (len : Nat) (idx : UInt32) : Option Nat :=
  match headerOk m len with
  | none => none
  | some cap => if cap ≤ idx then none else some (hdrSize + idx.toNat * poolSize)

/-- `ent_at`. -/
def entAt (pool : Nat) (i : UInt32) : Nat := pool + poolHdr + (i % 16).toNat * entSize

/-! ## §2. An entry. -/

/-- `authpub_hash`. -/
def authpubHash (bs : List UInt8) : UInt64 :=
  bs.foldl (fun h b => (h ^^^ b.toUInt64) * 1099511628211) 14695981039346656037

/-- `authpub_meta_t`. -/
structure Meta where
  generation : UInt64
  slot : UInt64
  stateVersion : UInt64
  hash : UInt64
  maxAccountWriteVersion : UInt64
  txnIndex : UInt32
  flags : UInt32
  sig : List UInt8
  proto : UInt8
  coherent : UInt8
  ok : UInt8
  deriving DecidableEq

/-- `copy_ent`: the entry's header and its blob. -/
def copyEnt (m : Memory) (e : Nat) : Option (Meta × List UInt8) :=
  let flags := u32 m (e + 20)
  let n := (m (e + 98)).toUInt16 ||| ((m (e + 99)).toUInt16 <<< 8)
  if 2048 < n then none
  else
    let blob := read m (e + 128) n.toNat
    some
      ({ generation := u64 m (e + 0)
         slot := u64 m (e + 8)
         flags := flags
         txnIndex := if hasFlag flags hasTxnIndex then u32 m (e + 16) else txnIndexUnknown
         stateVersion := u64 m (e + 24)
         maxAccountWriteVersion :=
           if hasFlag flags hasAccountWriteVersion then u64 m (e + 100) else 0
         sig := read m (e + 32) 64
         proto := m (e + 96)
         coherent := m (e + 97)
         hash := authpubHash blob
         ok := 1 }, blob)

/-- `usable`. -/
def usable (m : Memory) (e : Nat) : Bool :=
  let flags := u32 m (e + 20)
  if m (e + 97) = 0 then false
  else if !hasFlag flags coherent then false
  else if hasFlag flags (incomplete ||| gapped) then false
  else true

/-- An entry is copied out only when it is usable. -/
def takeEnt (m : Memory) (e : Nat) : Option (Meta × List UInt8) :=
  if usable m e then copyEnt m e else none

/-! ## §3. The predecessor. -/

/-- The entries the loops visit: `ent_at(pool, head - 1u - i)` for `i < n`. -/
def ringAddrs (pool : Nat) (head n : UInt32) : List Nat :=
  (List.range n.toNat).map fun i => entAt pool (head - 1 - UInt32.ofNat i)

/-- The loop over slots: stop at the trigger's own slot, pass over later ones. -/
def scanSlots (m : Memory) (trigSlot : UInt64) : List Nat → Option (Meta × List UInt8)
  | [] => none
  | e :: rest =>
    let sl := u64 m (e + 8)
    if sl = trigSlot then none
    else if sl > trigSlot then scanSlots m trigSlot rest
    else takeEnt m e

/-- What one pass over the ring selects. -/
def selectEnt (m : Memory) (pool : Nat) (trigSlot : UInt64) (sig : Option (List UInt8)) :
    Option (Meta × List UInt8) :=
  let head := u32 m (pool + 8)
  let n := if head < 16 then head else 16
  let addrs := ringAddrs pool head n
  match addrs.findIdx? fun e => sig.any fun g => read m (e + 32) 64 == g with
  | some i => addrs[i + 1]?.bind (takeEnt m)
  | none => scanSlots m trigSlot addrs

/-- The retry loop: an odd sequence is read again, and a pass counts only under
    one and the same even sequence. -/
def predLoop (m : Memory) (pool : Nat) (trigSlot : UInt64) (sig : Option (List UInt8)) :
    Nat → Option (Meta × List UInt8)
  | 0 => none
  | tries + 1 =>
    let s1 := u64 m pool
    if s1 &&& 1 ≠ 0 then predLoop m pool trigSlot sig tries
    else
      let found := selectEnt m pool trigSlot sig
      let s2 := u64 m pool
      if s1 = s2 ∧ s2 &&& 1 = 0 then found else predLoop m pool trigSlot sig tries

/-- `authpub_pred`. -/
def authpubPred (m : Memory) (len : Nat) (idx : UInt32) (trigSlot : UInt64)
    (sig : Option (List UInt8)) : Option (Meta × List UInt8) :=
  match poolBase m len idx with
  | none => none
  | some pool => predLoop m pool trigSlot sig 64

end ShredArb.Auth
