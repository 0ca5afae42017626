/-
  ShredArb.Tx.Wire — the wire format of versioned transactions.

  Lengths are compact-u16 (`cu16_dec` of `arb-core/src/tx.c`).  A v0 message
  carries its static keys and, for every lookup table it names, the indices of
  the keys to load from it: an instruction's account index counts through the
  static keys, then all writable loaded keys, then all read-only ones.
-/
import ShredArb.Univ.Kernel
import ShredArb.Lib.Parse

namespace ShredArb.Tx

open ShredArb.Univ ShredArb.Bytes ShredArb.Parse

/-! ## §1. Lengths and keys. -/

/-- `cu16_dec`. -/
def cu16Dec : Parser Nat
  | [] => none
  | b0 :: r0 =>
    if b0 &&& 0x80 = 0 then some (b0.toNat, r0)
    else match r0 with
    | [] => none
    | b1 :: r1 =>
      if b1 &&& 0x80 = 0 then
        if b1 = 0 then none
        else some ((b0 &&& 0x7f).toNat ||| (b1.toNat <<< 7), r1)
      else match r1 with
      | [] => none
      | b2 :: r2 =>
        if b2 &&& 0xfc ≠ 0 ∨ b2 = 0 then none
        else some (((b0 &&& 0x7f).toNat ||| ((b1 &&& 0x7f).toNat <<< 7) ||| (b2.toNat <<< 14))
          % 2 ^ 16, r2)

/-- The 32 bytes of a key. -/
def keyBytes (k : Mint) : List UInt8 := leBytes 32 k.toNat

/-- A key. -/
def key : Parser Mint := andThen (exactly 32) fun bs => done (BitVec.ofNat 256 (leNat bs))

/-- A length and that many items. -/
def vec {α : Type} (p : Parser α) : Parser (List α) := andThen cu16Dec (times p)

/-! ## §2. Transactions. -/

/-- A compiled instruction. -/
structure CompiledIx where
  prog : UInt8
  accounts : List UInt8
  data : List UInt8
  deriving DecidableEq, Repr

/-- The keys to load from a table. -/
structure Lookup where
  table : Mint
  writable : List UInt8
  readonly : List UInt8
  deriving DecidableEq, Repr

/-- A v0 transaction. -/
structure V0Tx where
  sigs : List (List UInt8)
  nSigned : UInt8
  roSigned : UInt8
  roUnsigned : UInt8
  keys : List Mint
  blockhash : Mint
  ixs : List CompiledIx
  lookups : List Lookup
  deriving DecidableEq, Repr

def compiledIx : Parser CompiledIx :=
  andThen byte fun prog => andThen (vec byte) fun accounts => andThen (vec byte) fun data =>
    done ⟨prog, accounts, data⟩

def lookup : Parser Lookup :=
  andThen key fun table => andThen (vec byte) fun writable => andThen (vec byte) fun readonly =>
    done ⟨table, writable, readonly⟩

/-- The message after its version byte. -/
def v0Message (sigs : List (List UInt8)) : Parser V0Tx :=
  andThen byte fun nSigned => andThen byte fun roSigned => andThen byte fun roUnsigned =>
  andThen (vec key) fun keys => andThen key fun blockhash =>
  andThen (vec compiledIx) fun ixs => andThen (vec lookup) fun lookups =>
    done ⟨sigs, nSigned, roSigned, roUnsigned, keys, blockhash, ixs, lookups⟩

/-- Signatures, the version byte 0x80, and the message. -/
def v0Tx : Parser V0Tx :=
  andThen (vec (exactly 64)) fun sigs => andThen byte fun version =>
    if version = 0x80 then v0Message sigs else fun _ => none

/-- A v0 transaction that is the whole byte string. -/
def parseV0 (bs : List UInt8) : Option V0Tx := whole v0Tx bs

/-- The keys an instruction's indices count through, `none` when a table has no
such entry. -/
def V0Tx.loaded (t : V0Tx) (tables : Mint → List Mint) : Option (List Mint) :=
  let load (ixs : Lookup → List UInt8) : Option (List (List Mint)) :=
    t.lookups.mapM fun l => (ixs l).mapM fun i => (tables l.table)[i.toNat]?
  (load Lookup.writable).bind fun wr => (load Lookup.readonly).map fun ro =>
    t.keys ++ wr.flatten ++ ro.flatten

/-! ## §3. Reading the parts. -/

theorem length_keyBytes (k : Mint) : (keyBytes k).length = 32 := length_leBytes 32 _

theorem reads_key (k : Mint) : Reads key (keyBytes k) k := by
  have hk : BitVec.ofNat 256 (leNat (keyBytes k)) = k := by
    have hpow : (256 : Nat) ^ 32 = 2 ^ 256 := by decide
    rw [keyBytes, leNat_leBytes, hpow, Nat.mod_eq_of_lt k.isLt]
    exact BitVec.eq_of_toNat_eq (Nat.mod_eq_of_lt k.isLt)
  have h := (reads_exactly (length_keyBytes k)).map (g := fun bs => BitVec.ofNat 256 (leNat bs))
  rwa [hk] at h

/-- A length below 128 is one byte. -/
theorem reads_cu16 {b : UInt8} (h : b &&& 0x80 = 0) : Reads cu16Dec [b] b.toNat := by
  intro rest
  show (if b &&& 0x80 = 0 then some (b.toNat, rest) else _) = _
  rw [if_pos h]

theorem reads_vec {α : Type} {p : Parser α} (enc : α → List UInt8) {b : UInt8} {xs : List α}
    (hb : b &&& 0x80 = 0) (hlen : b.toNat = xs.length) (h : ∀ x ∈ xs, Reads p (enc x) x) :
    Reads (vec p) (b :: xs.flatMap enc) xs := by
  have htimes := reads_times xs h
  rw [← hlen] at htimes
  exact (reads_cu16 hb).andThen htimes

theorem reads_vec_byte {b : UInt8} {xs : List UInt8} (hb : b &&& 0x80 = 0)
    (hlen : b.toNat = xs.length) : Reads (vec byte) (b :: xs) xs := by
  have h := reads_vec (fun x => [x]) hb hlen fun x _ => reads_byte x
  rwa [List.flatMap_singleton'] at h

theorem reads_compiledIx {prog na nd : UInt8} {accounts data : List UInt8}
    (ha : na &&& 0x80 = 0) (hna : na.toNat = accounts.length) (hd : nd &&& 0x80 = 0)
    (hnd : nd.toNat = data.length) :
    Reads compiledIx ([prog] ++ (na :: accounts) ++ (nd :: data)) ⟨prog, accounts, data⟩ := by
  rw [List.append_assoc]
  exact (reads_byte prog).andThen ((reads_vec_byte ha hna).andThen (reads_vec_byte hd hnd).map)

theorem reads_lookup {table : Mint} {nw nr : UInt8} {writable readonly : List UInt8}
    (hw : nw &&& 0x80 = 0) (hnw : nw.toNat = writable.length) (hr : nr &&& 0x80 = 0)
    (hnr : nr.toNat = readonly.length) :
    Reads lookup (keyBytes table ++ (nw :: writable) ++ (nr :: readonly))
      ⟨table, writable, readonly⟩ := by
  rw [List.append_assoc]
  exact (reads_key table).andThen ((reads_vec_byte hw hnw).andThen (reads_vec_byte hr hnr).map)

end ShredArb.Tx
