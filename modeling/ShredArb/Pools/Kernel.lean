/-
  ShredArb.Pools.Kernel — the table of pool keys (`arb-core/src/pool.c`,
  `arb-core/include/pool.h`).

  A key is found by linear probing; a table that is half full is moved into one
  of twice the size before the next key goes in.

  Conventions:
    • a loop whose only variable is a slot number takes 2³² turns at most: after
      those it has been everywhere and never ends.  `none` says that a call does
      not end, or that it reads outside the array,
    • allocation succeeds, and so do the calls to open, read, write and close a
      file; a file is its bytes.  The pointers of the source are never null here.
-/
import ShredArb.Lib.Probe
import ShredArb.Tx.Wire

namespace ShredArb.Pools

open ShredArb.Univ ShredArb.Bytes ShredArb.Parse ShredArb.Tx

/-! ## §1. The data model (`pool.h`). -/

/-- `PROTO_NONE`. -/
abbrev protoNone : UInt8 := 0

/-- `pool_slot_t`. -/
structure PoolSlot where
  key : Mint
  protocol : UInt8
  idx : UInt32
  deriving DecidableEq, Repr

/-- A slot after `calloc`. -/
def PoolSlot.free : PoolSlot := ⟨0, protoNone, 0⟩

/-- `pool_table_t`. -/
structure PoolTable where
  slot : List PoolSlot
  cap : UInt32
  n : UInt32
  deriving DecidableEq, Repr

/-- `affected_pool_t`. -/
structure AffectedPool where
  protocol : UInt8
  poolIdx : UInt32
  deriving DecidableEq, Repr

/-! ## §2. Slots. -/

/-- `key_hash`. -/
def keyHash (k : Mint) : Nat :=
  let x := UInt64.ofNat (k.toNat % 2 ^ 64)
  let x := (x ^^^ (x >>> 30)) * 0xbf58476d1ce4e5b9
  (x ^^^ (x >>> 27)).toNat % 2 ^ 32

/-- `next_pow2`. -/
def nextPow2 (n : UInt32) : UInt32 :=
  if n < 8 then 8
  else
    let n := n - 1
    let n := n ||| n >>> 1
    let n := n ||| n >>> 2
    let n := n ||| n >>> 4
    let n := n ||| n >>> 8
    let n := n ||| n >>> 16
    n + 1

/-- `pool_table_init`. -/
def poolTableInit (minCap : UInt32) : PoolTable :=
  let cap := nextPow2 minCap
  ⟨List.replicate cap.toNat .free, cap, 0⟩

/-- `cap - 1`. -/
def PoolTable.mask (t : PoolTable) : Nat := (t.cap - 1).toNat

/-- How often a loop over the slots can turn before it is where it was. -/
def loopTurns : Nat := 2 ^ 32

/-- The loop of `grow` and `pool_table_load`: the first free slot from `j` on. -/
def freeSlot (slot : List PoolSlot) (mask : Nat) : (turns j : Nat) → Option Nat
  | 0, _ => none
  | turns + 1, j =>
    (slot[j]?).bind fun s =>
      if s.protocol = protoNone then some j else freeSlot slot mask turns ((j + 1) &&& mask)

/-- A slot is moved or loaded into the table. -/
def insertSlot (t : PoolTable) (s : PoolSlot) : Option PoolTable :=
  (freeSlot t.slot t.mask loopTurns (keyHash s.key &&& t.mask)).map fun j =>
    { t with slot := t.slot.set j s, n := t.n + 1 }

/-- `grow`. -/
def grow (t : PoolTable) : Option PoolTable :=
  t.slot.foldlM (fun ntbl s => if s.protocol = protoNone then some ntbl else insertSlot ntbl s)
    (poolTableInit (t.cap * 2))

/-- Before a key goes in. -/
def PoolTable.room (t : PoolTable) : Option PoolTable := if t.n * 2 ≥ t.cap then grow t else some t

/-! ## §3. Keys. -/

/-- What `pool_table_put` returns: −1, 0 and 1. -/
inductive PutAnswer where
  | refused
  | stored
  | present
  deriving DecidableEq, Repr

/-- The loop of `pool_table_put`, from slot `i`. -/
def putLoop (t : PoolTable) (key : Mint) (protocol : UInt8) :
    (turns i : Nat) → Option (PutAnswer × PoolTable)
  | 0, _ => none
  | turns + 1, i =>
    (t.slot[i]?).bind fun s =>
      if s.protocol = protoNone then
        some (.stored, { t with slot := t.slot.set i ⟨key, protocol, t.n⟩, n := t.n + 1 })
      else if s.protocol = protocol ∧ s.key = key then some (.present, t)
      else putLoop t key protocol turns ((i + 1) &&& t.mask)

/-- `pool_table_put`. -/
def poolTablePut (t : PoolTable) (key : Mint) (protocol : UInt8) : Option (PutAnswer × PoolTable) :=
  if protocol = protoNone then some (.refused, t)
  else t.room.bind fun t => putLoop t key protocol loopTurns (keyHash key &&& t.mask)

/-- The loop of `pool_table_get`, from slot `i`. -/
def getLoop (t : PoolTable) (key : Mint) : (turns i : Nat) → Option (Option AffectedPool)
  | 0, _ => none
  | turns + 1, i =>
    (t.slot[i]?).bind fun s =>
      if s.protocol = protoNone then some none
      else if s.key = key then some (some ⟨s.protocol, s.idx⟩)
      else getLoop t key turns ((i + 1) &&& t.mask)

/-- `pool_table_get`; −1 is `some none`. -/
def poolTableGet (t : PoolTable) (key : Mint) : Option (Option AffectedPool) :=
  getLoop t key loopTurns (keyHash key &&& t.mask)

/-! ## §4. Files. -/

/-- `POOL_MAGIC`: "ARBPL1" and two zero bytes. -/
def poolMagic : List UInt8 := [65, 82, 66, 80, 76, 49, 0, 0]

/-- A record. -/
def slotBytes (s : PoolSlot) : List UInt8 := [s.protocol] ++ (leBytes 4 s.idx.toNat ++ keyBytes s.key)

/-- `pool_table_save`: the first `n` slots in use. -/
def poolTableSave (t : PoolTable) : List UInt8 :=
  poolMagic ++ (leBytes 4 t.n.toNat ++
    ((t.slot.filter fun s => s.protocol ≠ protoNone).take t.n.toNat).flatMap slotBytes)

/-- A little-endian 32-bit number. -/
def readU32 : Parser UInt32 := andThen (exactly 4) fun bs => done (UInt32.ofNat (leNat bs))

def readSlot : Parser PoolSlot :=
  andThen byte fun protocol => andThen readU32 fun idx => andThen key fun k =>
    done ⟨k, protocol, idx⟩

/-- The magic and the number of records. -/
def readHead : Parser UInt32 :=
  andThen (exactly 8) fun magic => if magic.take 6 ≠ poolMagic.take 6 then fail else readU32

/-- The loop over the records; −1 is `some none`. -/
def loadSlots : Nat → PoolTable → List UInt8 → Option (Option PoolTable)
  | 0, t, _ => some (some t)
  | n + 1, t, bs =>
    match readSlot bs with
    | none => some none
    | some (s, bs) =>
      if s.protocol = protoNone then some none
      else t.room.bind fun t => (insertSlot t s).bind fun t => loadSlots n t bs

/-- `pool_table_load`. -/
def poolTableLoad (file : List UInt8) : Option (Option PoolTable) :=
  match readHead file with
  | none => some none
  | some (n, bs) => loadSlots n.toNat (poolTableInit (n * 2 + 8)) bs

/-! ## §5. Runs. -/

/-- The answers of a run of puts, and the table it leaves. -/
def poolTablePuts : PoolTable → List (Mint × UInt8) → Option (List PutAnswer × PoolTable)
  | t, [] => some ([], t)
  | t, p :: ps =>
    (poolTablePut t p.1 p.2).bind fun r =>
      (poolTablePuts r.2 ps).map fun rs => (r.1 :: rs.1, rs.2)

end ShredArb.Pools
