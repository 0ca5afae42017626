/-
  ShredArb.Shyft.Barrier — the publication barrier of one transaction
  (arb-state/shyft/txbarrier.py).

  Account writes and the notice of what a transaction writes arrive in any order.
  An entry collects both; `snapshot` hands out the rows of a pool only when every
  expected account was written, under one identity, and nothing superseded it.

  Conventions:
    • `by_sig` and its rows are insertion-ordered dictionaries, and the oldest
      signature is evicted; `expected` and `received` are sets,
    • a Python set is iterated in an order of its OWN, so `snapshot` takes the
      order in which it meets the expected accounts,
    • `None` and a missing key are the same for `.get`,
    • the metrics, `kind`, `pubkey` and `variant` are left out: `snapshot` reads
      none of them.

  Main definitions:
    * `noteTx`, `noteWrite`, `drop` — the steps,
    * `snapshot` — the verdict and the frozen rows,
    * `sinceCreated` — what reached an entry since it was created.
-/
import Mathlib.Data.Finset.Union
import ShredArb.Lib.Dict
import ShredArb.Lib.Hex

namespace ShredArb.Barrier

open ShredArb.Dict ShredArb.Hex

/-! ## §1. Rows and entries. -/

/-- An account row, as far as the barrier reads it. -/
structure Row where
  providerGeneration : Option String
  bankId : Option Int
  slot : Option Int
  writeVersion : Option Int
  txnSig : Option (List UInt8)
  owner : Option String
  lamports : Option Int
  data : Option (List UInt8)
  deriving DecidableEq

/-- The row `{}`. -/
def Row.empty : Row := ⟨none, none, none, none, none, none, none, none⟩

/-- The tuple `write_identity` builds. -/
structure Identity where
  providerGeneration : Option String
  bankId : Option Int
  slot : Option Int
  writeVersion : Option Int
  txnSig : List UInt8
  owner : Option String
  lamports : Option Int
  data : List UInt8
  deriving DecidableEq

/-- `write_identity`. -/
def writeIdentity (r : Row) : Identity :=
  ⟨r.providerGeneration, r.bankId, r.slot, r.writeVersion, r.txnSig.getD [], r.owner, r.lamports,
    r.data.getD []⟩

/-- The record of one pool under one signature. -/
structure Entry where
  expected : Finset String
  received : Finset String
  slot : Int
  versions : String → Option Identity
  versionConflict : Bool

/-- What `setdefault` puts where nothing was. -/
def Entry.new (slot : Int) : Entry := ⟨∅, ∅, slot, fun _ => none, false⟩

/-- What reaches an entry: a shape, or a write. -/
inductive Touch where
  | shape (slot : Int) (expected : List String)
  | write (slot : Int) (pk : String) (version : Option Row)

/-- The versions after a write; a second identity is a conflict. -/
def Entry.noteVersion (e : Entry) (pk : String) (version : Row) : Entry :=
  let identity := writeIdentity version
  { e with
    versionConflict := e.versionConflict || ((e.versions pk).any fun old => old != identity)
    versions := Function.update e.versions pk (some identity) }

/-- A write, with its version if it has one. -/
def Entry.receive (e : Entry) (pk : String) (version : Option Row) : Entry :=
  let e := { e with received := insert pk e.received }
  match version with
  | none => e
  | some v => e.noteVersion pk v

/-- One touch of an entry that may not be there yet. -/
def touch (cur : Option Entry) : Touch → Entry
  | .shape slot expected =>
    let e := cur.getD (Entry.new slot)
    { e with expected := e.expected ∪ expected.toFinset, slot := slot }
  | .write slot pk version =>
    let e := (cur.getD (Entry.new slot)).receive pk version
    if e.slot = 0 then { e with slot := slot } else e

/-! ## §2. The barrier. -/

/-- `by_sig`. -/
abbrev TxBarrier := Entries String (Entries Int Entry)

/-- Signatures kept. -/
def sigCap : Nat := 4096

/-- `while len(self.by_sig) > 4096`: the oldest go. -/
def evict (b : TxBarrier) : TxBarrier := b.drop (b.length - sigCap)

/-- `note_tx`. -/
def noteTx (b : TxBarrier) (sig : String) (slot : Int) (expectByIdx : List (Int × List String)) :
    TxBarrier :=
  if sig = "" ∨ expectByIdx = [] then b
  else
    let row := expectByIdx.foldl
      (fun row spec => set row spec.1 (touch (get row spec.1) (.shape slot spec.2)))
      ((get b sig).getD [])
    evict (set b sig row)

/-- `note_write`. -/
def noteWrite (b : TxBarrier) (sig : String) (slot : Int) (poolIdx : Int) (pk : String)
    (version : Option Row) : TxBarrier :=
  if sig = "" ∨ pk = "" then b
  else
    let row := (get b sig).getD []
    evict (set b sig (set row poolIdx (touch (get row poolIdx) (.write slot pk version))))

/-- `drop`. -/
def drop (b : TxBarrier) (sig : String) : Option Int → TxBarrier
  | none => erase b sig
  | some poolIdx =>
    match get b sig with
    | none => b
    | some row =>
      if row = [] then b
      else
        let row := erase row poolIdx
        if row = [] then erase b sig else set b sig row

/-- `spec`. -/
def spec (b : TxBarrier) (sig : String) (poolIdx : Int) : Option Entry :=
  (get b sig).bind fun row => get row poolIdx

/-- `can_commit`, of the entry there is. -/
def Entry.canCommit (e : Entry) : Bool :=
  e.expected != ∅ && decide (e.expected ⊆ e.received)

/-! ## §3. The snapshot. -/

inductive Verdict where
  | writesIncomplete
  | writeVersionConflict
  | readSetIncomplete
  | accountMissing
  | dependencyFromFutureSlot
  | writeIdentityMissing
  | writeSuperseded
  | writeIdentityMismatch
  | available
  deriving DecidableEq, Repr

/-- The refusals of the loop over the expected accounts. -/
def Verdict.identityRefusal : Verdict → Bool
  | .writeIdentityMissing | .writeSuperseded | .writeIdentityMismatch => true
  | _ => false

/-- `dict(latest.get(pk) or {})`. -/
def rowOf (latest : String → Option Row) (pk : String) : Row := (latest pk).getD Row.empty

/-- The check of one expected account. -/
def checkPk (sp : Entry) (sig : String) (latest : String → Option Row) (pk : String) :
    Option Verdict :=
  match sp.versions pk with
  | none => some .writeIdentityMissing
  | some captured =>
    let row := rowOf latest pk
    if captured ≠ writeIdentity row then some .writeSuperseded
    else if row.slot ≠ some sp.slot ∨ hex (row.txnSig.getD []) ≠ sig then some .writeIdentityMismatch
    else none

/-- `snapshot` of an entry; `iter` is the order in which the expected accounts are
    met, and the rows are those of the required accounts. -/
def Entry.snapshot (sp : Entry) (sig : String) (required : List String)
    (latest : String → Option Row) (iter : List String) : Verdict × Option (List (String × Row)) :=
  if !sp.canCommit then (.writesIncomplete, none)
  else if sp.versionConflict then (.writeVersionConflict, none)
  else if ¬ sp.expected ⊆ required.toFinset then (.readSetIncomplete, none)
  else if required.any fun pk => ((rowOf latest pk).data.getD []).isEmpty then
    (.accountMissing, none)
  else if required.any fun pk => decide (sp.slot < (rowOf latest pk).slot.getD 0) then
    (.dependencyFromFutureSlot, none)
  else
    match iter.findSome? (checkPk sp sig latest) with
    | some refusal => (refusal, none)
    | none => (.available, some (required.map fun pk => (pk, rowOf latest pk)))

/-- `snapshot`; without an entry nothing can be committed. -/
def snapshot (b : TxBarrier) (sig : String) (poolIdx : Int) (required : List String)
    (latest : String → Option Row) (iter : List String) : Verdict × Option (List (String × Row)) :=
  match spec b sig poolIdx with
  | none => (.writesIncomplete, none)
  | some sp => sp.snapshot sig required latest iter

/-! ## §4. Runs. -/

inductive Call where
  | noteTx (sig : String) (slot : Int) (expectByIdx : List (Int × List String))
  | noteWrite (sig : String) (slot : Int) (poolIdx : Int) (pk : String) (version : Option Row)
  | drop (sig : String) (poolIdx : Option Int)

/-- One call. -/
def step (b : TxBarrier) : Call → TxBarrier
  | .noteTx sig slot expectByIdx => noteTx b sig slot expectByIdx
  | .noteWrite sig slot poolIdx pk version => noteWrite b sig slot poolIdx pk version
  | .drop sig poolIdx => drop b sig poolIdx

/-- A run. -/
def run (b : TxBarrier) (calls : List Call) : TxBarrier := calls.foldl step b

/-- How a call touches an entry. -/
def Call.touches (sig : String) (poolIdx : Int) : Call → List Touch
  | .noteTx s slot expectByIdx =>
    if s = sig ∧ s ≠ "" then
      (expectByIdx.filter fun spec => spec.1 = poolIdx).map fun spec => .shape slot spec.2
    else []
  | .noteWrite s slot i pk version =>
    if s = sig ∧ s ≠ "" ∧ pk ≠ "" ∧ i = poolIdx then [.write slot pk version] else []
  | .drop _ _ => []

/-- What reached an entry since it was created: an entry that is gone starts anew. -/
def sinceCreated (sig : String) (poolIdx : Int) : TxBarrier → List Touch → List Call → List Touch
  | _, log, [] => log
  | b, log, c :: calls =>
    let b' := step b c
    sinceCreated sig poolIdx b'
      (if (spec b' sig poolIdx).isNone then [] else log ++ c.touches sig poolIdx) calls

end ShredArb.Barrier
