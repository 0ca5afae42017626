/-
  ShredArb.Shyft.BankJournal — receipt-ordered evidence about banks
  (arb-state/shyft/bank_context.py).

  Evidence about a bank arrives in any order, repeated or contradictory.  A row
  keeps what was reported and a flag that no later event clears.

  Conventions:
    • identities are scoped to one provider connection (a generation); an event of
      another generation is STALE and leaves no trace,
    • `records` is an insertion-ordered dictionary; a row that was evicted is still
      written to, but nobody sees it,
    • `none` from `decode` is the `ValueError` (or `TypeError`) of `bytes.fromhex` or
      `parse_slot_hashes`; SHA-256 is a parameter.

  Main definitions:
    * `apply`, `context` — the journal,
    * `live` — the events of the current generation.
-/
import ShredArb.Lib.Bytes
import ShredArb.Lib.Dict
import ShredArb.Lib.Hex

namespace ShredArb.Bank

open ShredArb.Bytes ShredArb.Dict ShredArb.Hex

/-! ## §1. The payload. -/

def sysvarOwner : String := "Sysvar1111111111111111111111111111111111111"

/-- Two neighbours out of order: `any(a[0] <= b[0] for a, b in zip(values, values[1:]))`. -/
def outOfOrder {α : Type} (values : List (Nat × α)) : Bool :=
  (values.zip values.tail).any fun ab => decide (ab.1.1 ≤ ab.2.1)

/-- `parse_slot_hashes`. -/
def parseSlotHashes (data : List UInt8) : Option (List (Nat × String)) :=
  if data.length < 8 then none
  else
    let n := leNat (field data 0 8)
    if 512 < n ∨ data.length < 8 + n * 40 ∨ (data.drop (8 + n * 40)).any (fun b => b != 0) then none
    else
      let values := (List.range n).map fun i =>
        (leNat (field data (8 + i * 40) 8), field data (8 + i * 40 + 8) 32)
      if outOfOrder values then none else some (values.map fun v => (v.1, hex v.2))

/-- The bytes of a payload and the list they hold. -/
def decode (dataHex : Option (List Char)) : Option (List UInt8 × List (Nat × String)) := do
  let text ← dataHex
  let data ← fromHex text
  let hashes ← parseSlotHashes data
  some (data, hashes)

/-! ## §2. Events and rows. -/

/-- What a bank event reports. -/
inductive Report where
  | slot (parent : Option Nat) (status : Nat)
  | account (startup : Bool) (owner : Option String) (dataHex : Option (List Char))
  deriving DecidableEq

/-- `bank_slot` and `bank_account`. -/
structure BankEvent where
  generation : Option String
  slot : Nat
  bankId : Option Nat
  rx : Nat
  report : Report
  deriving DecidableEq

inductive Event where
  | bankGeneration (generation : Option String)
  | bankDisconnect (generation : Option String)
  | bank (e : BankEvent)
  deriving DecidableEq

/-- A row of `records`. -/
structure Row where
  slot : Nat
  bankId : Nat
  parent : Option Nat
  statuses : List Nat
  hashes : Option (List (Nat × String))
  conflict : Bool
  lastRx : Nat
  hashesRx : Option Nat
  dataSha256 : Option String
  deriving DecidableEq

/-- What `setdefault` puts where nothing was. -/
def Row.new (slot bankId rx : Nat) : Row := ⟨slot, bankId, none, [], none, false, rx, none, none⟩

inductive Outcome where
  | generationStarted
  | staleGeneration
  | disconnected
  | identityMissing
  | receiptOrderConflict
  | invalidSysvarProvenance
  | invalidSysvarBytes
  | conflict
  | recorded
  deriving DecidableEq, Repr

/-- A reported parent; a second one, or one not below the slot, is a conflict. -/
def Row.noteParent (row : Row) (parent : Nat) : Row :=
  { row with
    conflict := row.conflict || decide (row.slot ≤ parent) || row.parent.any fun p => p != parent
    parent := some parent }

def Row.noteStatus (row : Row) (status : Nat) : Row :=
  if status ∈ row.statuses then row else { row with statuses := row.statuses ++ [status] }

/-- A decoded payload; a second one, or one that does not start below the slot, is a
    conflict. -/
def Row.noteHashes (row : Row) (rx : Nat) (sha : String) (hashes : List (Nat × String)) : Row :=
  { row with
    conflict := row.conflict || (hashes.head?.any fun h => decide (row.slot ≤ h.1))
      || row.hashes.any fun old => old != hashes
    hashes := some hashes
    hashesRx := some (row.hashesRx.getD rx)
    dataSha256 := some sha }

/-- The last check of `apply`: the newest ancestor is the parent. -/
def Row.checkParent (row : Row) : Row :=
  match row.hashes.bind List.head?, row.parent with
  | some h, some p => { row with conflict := row.conflict || h.1 != p }
  | _, _ => row

section Journal

variable (sha256 : List UInt8 → String)

/-- What a bank event does to the row of its key. -/
def Row.record (row : Row) (e : BankEvent) : Row × Outcome :=
  if e.rx < row.lastRx then ({ row with conflict := true }, .receiptOrderConflict)
  else
    let row := { row with lastRx := e.rx }
    let finish (row : Row) : Row × Outcome :=
      let row := row.checkParent
      (row, if row.conflict then .conflict else .recorded)
    match e.report with
    | .slot parent status =>
      let row := match parent with
        | none => row
        | some p => row.noteParent p
      finish (row.noteStatus status)
    | .account startup owner dataHex =>
      if startup ∨ owner ≠ some sysvarOwner then
        ({ row with conflict := true }, .invalidSysvarProvenance)
      else
        match decode dataHex with
        | none => ({ row with conflict := true }, .invalidSysvarBytes)
        | some (data, hashes) => finish (row.noteHashes e.rx (sha256 data) hashes)

/-! ## §3. The journal. -/

/-- `BankJournal`. -/
structure BankJournal where
  capacity : Nat
  generation : Option String
  records : Entries (Nat × Nat) Row

/-- `BankJournal(capacity)`. -/
def BankJournal.new (capacity : Nat) : BankJournal := ⟨capacity, none, []⟩

/-- The rows after `setdefault` and the eviction of the oldest. -/
def BankJournal.insertRow (j : BankJournal) (key : Nat × Nat) (row : Row) : Entries (Nat × Nat) Row :=
  let records := set j.records key row
  if j.capacity < records.length then records.tail else records

/-- A bank event of the current generation, its identity known. -/
def BankJournal.applyBank (j : BankJournal) (e : BankEvent) (bankId : Nat) : BankJournal × Outcome :=
  let key := (e.slot, bankId)
  let row := (get j.records key).getD (Row.new e.slot bankId e.rx)
  let records := j.insertRow key row
  let (row, outcome) := row.record sha256 e
  -- the row is shared: it is changed in place, if it is still there
  let records := if (get records key).isSome then set records key row else records
  ({ j with records := records }, outcome)

/-- `apply`. -/
def BankJournal.apply (j : BankJournal) : Event → BankJournal × Outcome
  | .bankGeneration g => ({ j with records := [], generation := g }, .generationStarted)
  | .bankDisconnect g =>
    if g ≠ j.generation ∨ g = none then (j, .staleGeneration)
    else ({ j with records := [], generation := none }, .disconnected)
  | .bank e =>
    if e.generation ≠ j.generation ∨ e.generation = none then (j, .staleGeneration)
    else
      match e.bankId with
      | none => (j, .identityMissing)
      | some bankId => j.applyBank sha256 e bankId

/-- A run of the journal. -/
def BankJournal.run (j : BankJournal) (events : List Event) : BankJournal :=
  events.foldl (fun j e => (j.apply sha256 e).1) j

end Journal

inductive Reason where
  | available
  | generationUnbound
  | identityMissing
  | contextMissing
  | notAvailableAtDeadline
  | contextConflict
  | deadBank
  | contextIncomplete
  deriving DecidableEq, Repr

/-- The reason `context` gives for a row it found. -/
def Row.reason (row : Row) (deadline : Nat) : Reason :=
  if deadline < row.lastRx then .notAvailableAtDeadline
  else if row.conflict then .contextConflict
  else if 6 ∈ row.statuses then .deadBank
  else if row.parent = none ∨ row.hashes.getD [] = [] then .contextIncomplete
  else .available

/-- `context`: the reason, and the row when it is available. -/
def BankJournal.context (j : BankJournal) (slot : Nat) (bankId : Option Nat)
    (generation : Option String) (deadline : Nat) : Reason × Option Row :=
  if generation = none ∨ generation ≠ j.generation then (.generationUnbound, none)
  else
    match bankId with
    | none => (.identityMissing, none)
    | some b =>
      match get j.records (slot, b) with
      | none => (.contextMissing, none)
      | some row =>
        match row.reason deadline with
        | .available => (.available, some row)
        | reason => (reason, none)

/-! ## §4. The current generation. -/

/-- The generation and the bank events that reached it since it started. -/
structure Live where
  generation : Option String
  events : List BankEvent

/-- A new generation or the end of the current one forgets everything; an event of
    another generation is ignored. -/
def Live.step (l : Live) : Event → Live
  | .bankGeneration g => ⟨g, []⟩
  | .bankDisconnect g => if g ≠ l.generation ∨ g = none then l else ⟨none, []⟩
  | .bank e => if e.generation ≠ l.generation ∨ e.generation = none then l
      else { l with events := l.events ++ [e] }

def live (events : List Event) : Live := events.foldl Live.step ⟨none, []⟩

/-- The key of an event, if it names a bank. -/
def BankEvent.key (e : BankEvent) : Option (Nat × Nat) := e.bankId.map fun b => (e.slot, b)

/-- The events of one key. -/
def eventsOf (events : List BankEvent) (key : Nat × Nat) : List BankEvent :=
  events.filter fun e => e.key = some key

/-- At no point does a generation mention more than `capacity` keys. -/
def WithinCapacity (capacity : Nat) (events : List Event) : Prop :=
  ∀ n, ((live (events.take n)).events.filterMap BankEvent.key).dedup.length ≤ capacity

end ShredArb.Bank
