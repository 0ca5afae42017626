/-
  ShredArb.Shyft.State008 — the publisher of pool states
  (arb-state/shyft/state008.py).

  Account writes and notices of transactions come in.  A pool that depends on a
  written account is STAGED, and its reader is told so in `recon.bin`.  When the
  writes of one transaction are complete, or no exact swap claims them, the
  accounts the pool requires are frozen and one entry goes to the AUTH ring; a
  transaction that stays incomplete is given up without one.

  Conventions:
    • ONE provider connection: it begins as `reset_connection`, the derived
      generation and the RPC rows of `finish_bootstrap` leave it, and a step is
      one call of a method; rows that another thread fetched come with the step,
    • `bytes`, `acc_deps`, `rpc_floors` and `last_wv` are functions, `required`
      is a list; a key that is not there and `None` are the same,
    • `recon.bin` is the list of its records and the AUTH map the list of the
      calls that wrote it (`Auth.run` carries them out),
    • what the decoders make of account data is a `Codec`, and the clock is read
      by the caller,
    • metrics, `ready` (it only holds steps back), the shadow gate with `last_s`
      and `last_blob`, and the JSON files are left out.

  Main definitions:
    * `applyUpdate`, `tryPublish`, `failTxIncomplete` — the methods,
    * `step` — a step of the publisher.
-/
import ShredArb.Auth.Ring
import ShredArb.Lib.Snapshots
import ShredArb.Orbit.Drain
import ShredArb.Shyft.Barrier

namespace ShredArb.Publisher

open ShredArb.Dict ShredArb.Hex ShredArb.Barrier ShredArb.Snapshots
open ShredArb.Univ (protoDlmm protoPump)
open ShredArb.Orbit (Rec)

/-! ## §1. Pools. -/

/-- `ST_INCOMPLETE`, `ST_STAGING`, `ST_COHERENT`, `ST_GAPPED`. -/
inductive Status where
  | incomplete
  | staging
  | coherent
  | gapped
  deriving DecidableEq, Repr

inductive Kind where
  | dlmm
  | pump
  deriving DecidableEq, Repr

/-- `proto_of`. -/
def Kind.proto : Kind → UInt8
  | .dlmm => protoDlmm
  | .pump => protoPump

/-- The roles of `submap.py`. -/
inductive Role where
  | dlmmPair
  | dlmmBin
  | dlmmOracle
  | pumpPool
  | pumpVaultBase
  | pumpVaultQuote
  | pumpGlobal
  | pumpFeeConfig
  | mint
  deriving DecidableEq, Repr

/-- A row of `acc_deps`. -/
structure Dep where
  poolIdx : Nat
  role : Role

/-- `rec.stage`; the dictionary `{}` has none of its keys. -/
structure Stage where
  rx : Option UInt64
  slot : Option UInt64
  sig : Option (List UInt8)
  waitSlot : Option Nat
  reconcile : Bool
  deriving DecidableEq

def Stage.empty : Stage := ⟨none, none, none, none, false⟩

/-- `int(st.get("slot") or 0)`. -/
def Stage.slotNat (st : Stage) : Nat := (st.slot.getD 0).toNat

/-- `int(st.get("wait_slot") or (st.get("slot") or 0) + 1)`. -/
def Stage.waitFor (st : Stage) : Nat := st.waitSlot.getD (st.slotNat + 1)

/-- `int(st.get("slot") or stream_slot)`. -/
def Stage.slotOr (st : Stage) (streamSlot : UInt64) : UInt64 :=
  if st.slot.getD 0 = 0 then streamSlot else st.slot.getD 0

/-- `PoolRec`; of a staged write only the write version is read. -/
structure PoolRec where
  kind : Kind
  pubkey : String
  required : List String
  status : Status
  stage : Stage
  staged : List UInt64

/-- What `invalidate` does to the record of a pool. -/
def PoolRec.invalidate (rec : PoolRec) (rxNs slot : UInt64) : PoolRec :=
  { rec with
    staged := if rec.status = .staging then rec.staged else []
    status := .staging
    stage := { rec.stage with rx := rec.stage.rx.or (some rxNs), slot := some slot } }

/-- A stage that is cleared. -/
def PoolRec.clear (rec : PoolRec) : PoolRec := { rec with stage := .empty, staged := [] }

/-! ## §2. Writes. -/

/-- An account write of the stream. -/
structure Update where
  providerGeneration : Option String
  tRx : UInt64
  pubkey : String
  slot : UInt64
  writeVersion : UInt64
  txnSig : Option (List UInt8)
  bankId : Option Int
  owner : String
  lamports : Int
  data : List UInt8
  deriving DecidableEq

/-- The write as a row of `bytes`. -/
def Update.row (ev : Update) : Row :=
  ⟨ev.providerGeneration, ev.bankId, some ev.slot.toNat, some ev.writeVersion.toNat, ev.txnSig,
    some ev.owner, some ev.lamports, some ev.data⟩

/-- A row that was fetched. -/
structure RpcRow where
  slot : UInt64
  owner : Option String
  lamports : Option Int
  data : Option (List UInt8)

/-- `rpc_row`. -/
def rpcRow (generation : Option String) (a : RpcRow) : Row :=
  ⟨generation, none, some a.slot.toNat, some 0, none, a.owner, a.lamports, a.data⟩

/-- An accepted write, with the pools that require its account. -/
structure Write where
  ev : Update
  pools : List Nat

def Write.pk (w : Write) : String := w.ev.pubkey

/-- A published entry, with the accounts it was made of. -/
structure Publication where
  idx : Nat
  entry : Auth.Published
  accounts : List (String × Row)

/-- A signature that is not empty. -/
def truthy (sig : Option (List UInt8)) : Option (List UInt8) := sig.filter fun b => b ≠ []

/-- `sig_hex` of bytes. -/
def sigHex (sig : Option (List UInt8)) : Option String :=
  ((truthy sig).filter fun b => b ≠ Auth.bootSig).map hex

/-- What an accepted write leaves in the stage: another signature of the same slot
waits for the next one. -/
def Stage.note (st : Stage) (ev : Update) : Stage :=
  match truthy ev.txnSig with
  | none => { st with waitSlot := some (ev.slot.toNat + 1), slot := some ev.slot }
  | some sig =>
    if (truthy st.sig).any (fun old => sig != old) ∧ st.slot = some ev.slot then
      { st with waitSlot := some (ev.slot.toNat + 1) }
    else { st with sig := ev.txnSig, slot := some ev.slot }

/-- A write that is staged. -/
def PoolRec.stageWrite (rec : PoolRec) (ev : Update) : PoolRec :=
  { rec with staged := rec.staged ++ [ev.writeVersion], stage := rec.stage.note ev }

/-! ## §3. The publisher. -/

/-- `self.fees`. -/
abbrev Fees := Nat × Nat × Nat × Nat

/-- The account data `publish_pump` collects. -/
structure PumpRaws where
  pool : List UInt8
  vaultBase : List UInt8
  vaultQuote : List UInt8
  global : Option (List UInt8)
  feeConfig : Option (List UInt8)
  mint : Option (List UInt8)

/-- What `publish_pump` makes of them. -/
inductive PumpOut where
  | decodeFail
  | incomplete
  | blob (bs : List UInt8)

/-- The decoders and encoders, and the order in which a set is iterated. -/
structure Codec where
  /-- `parse_lbpair(raw)["active_id"]` -/
  activeId : List UInt8 → Option Int
  /-- `bin_keys_for_active` -/
  binKeys : String → Int → List String
  /-- `snap_dlmm` and `write_dlmm`, at a time -/
  writeDlmm : UInt64 → List UInt8 → List (List UInt8) → Option (List UInt8)
  /-- `publish_pump` from `parse_pump_pool` to `write_pump`, with `self.fees` -/
  writePump : PumpRaws → Fees → Fees × PumpOut
  setOrder : Finset String → List String

structure State008 where
  rf : List Rec
  bytes : String → Option Row
  accDeps : String → List Dep
  pools : Entries Nat PoolRec
  fees : Fees
  streamSlot : UInt64
  providerGeneration : Option String
  bootstrapDone : Bool
  rpcFloors : String → Option UInt64
  lastWv : String → Option UInt64
  seen : List (String × UInt64 × UInt64)
  barrier : TxBarrier
  calls : List Auth.Call
  /-- every write accepted and every entry published, newest first -/
  log : List (Mark Write Publication)

/-- `POOL_CAP`. -/
def poolCap : Nat := 4096

namespace State008

/-- The state in which the first write of a connection arrives. -/
def connect (generation : String) (accDeps : String → List Dep) (pools : Entries Nat PoolRec)
    (rows : String → Option RpcRow) (fees : Fees) (rf : List Rec) (calls : List Auth.Call) :
    State008 where
  rf := rf
  bytes := fun pk => (rows pk).map (rpcRow (some generation))
  accDeps := accDeps
  pools := pools
  fees := fees
  streamSlot := 0
  providerGeneration := some generation
  bootstrapDone := false
  rpcFloors := fun pk => (rows pk).map RpcRow.slot
  lastWv := fun _ => none
  seen := []
  barrier := []
  calls := calls
  log := []

/-- Change the record of a pool. -/
def modify (s : State008) (idx : Nat) (f : PoolRec → PoolRec) : State008 :=
  match get s.pools idx with
  | none => s
  | some rec => { s with pools := set s.pools idx (f rec) }

def setStatus (s : State008) (idx : Nat) (st : Status) : State008 :=
  s.modify idx fun rec => { rec with status := st }

/-- `recon.invalidate`. -/
def tellInvalid (s : State008) (idx : Nat) (kind : Kind) (rxNs slot : UInt64) : State008 :=
  { s with rf := s.rf ++ [Rec.invalidate kind.proto (.ofNat idx) rxNs slot] }

/-- `pool_complete`. -/
def poolComplete (s : State008) (rec : PoolRec) : Bool :=
  !rec.required.isEmpty && rec.required.all fun pk => !((rowOf s.bytes pk).data.getD []).isEmpty

/-- The roles an account has in a pool. -/
def rolesOf (s : State008) (idx : Nat) (pk : String) : List Role :=
  ((s.accDeps pk).filter fun d => d.poolIdx == idx).map Dep.role

/-- `add_required`. -/
def addRequired (s : State008) (idx : Nat) (pk : String) (role : Role) : State008 :=
  match get s.pools idx with
  | none => s
  | some rec =>
    if pk ∈ rec.required then s
    else
      { s with
        pools := set s.pools idx
          { rec with required := rec.required ++ [pk], status := .incomplete }
        accDeps := Function.update s.accDeps pk (s.accDeps pk ++ [⟨idx, role⟩]) }

/-! ## §4. Account writes. -/

/-- `invalidate`, and what the caller then does with the record: the reader is told
unless the pool is staging already. -/
def invalidate (s : State008) (idx : Nat) (rxNs slot : UInt64) (f : PoolRec → PoolRec) : State008 :=
  match get s.pools idx with
  | none => s
  | some rec =>
    let s := if rec.status = .staging then s else s.tellInvalid idx rec.kind rxNs slot
    { s with pools := set s.pools idx (f (rec.invalidate rxNs slot)) }

/-- `barrier.note_write`, for a write with a signature. -/
def noteInBarrier (s : State008) (idx : Nat) (ev : Update) : State008 :=
  match sigHex ev.txnSig with
  | none => s
  | some hx =>
    { s with barrier := noteWrite s.barrier hx ev.slot.toNat idx ev.pubkey (some ev.row) }

/-- The turn of one dependency in `apply_update`. -/
def stageDep (ev : Update) (s : State008) (d : Dep) : State008 :=
  match get s.pools d.poolIdx with
  | none => s
  | some _ => (s.invalidate d.poolIdx ev.tRx ev.slot (·.stageWrite ev)).noteInBarrier d.poolIdx ev

/-- `len(self.seen) > 400000`. -/
def seenCap : Nat := 400000

/-- The pools whose dependency on an account is required. -/
def poolsRequiring (s : State008) (pk : String) : List Nat :=
  ((s.accDeps pk).map Dep.poolIdx).filter fun i => (get s.pools i).any fun rec => rec.required.contains pk

/-- The write as it is logged. -/
def writeOf (s : State008) (ev : Update) : Write := ⟨ev, s.poolsRequiring ev.pubkey⟩

/-- An accepted write before the pools are staged. -/
def noted (s : State008) (ev : Update) : State008 :=
  let seen := (ev.pubkey, ev.slot, ev.writeVersion) :: s.seen
  { s with
    seen := if seenCap < seen.length then [] else seen
    lastWv := Function.update s.lastWv ev.pubkey (some ev.writeVersion)
    bytes := Function.update s.bytes ev.pubkey (some ev.row)
    log := .wrote (s.writeOf ev) :: s.log }

/-- The end of `apply_update`, for a write that nothing refuses. -/
def accept (s : State008) (ev : Update) : State008 :=
  (s.accDeps ev.pubkey).foldl (stageDep ev) (s.noted ev)

/-- A write in the slot of the RPC row cannot be ordered against it: the row goes,
and the stages of the pools with it. -/
def forget (s : State008) (ev : Update) : State008 :=
  (s.accDeps ev.pubkey).foldl (fun s d => s.invalidate d.poolIdx ev.tRx ev.slot PoolRec.clear)
    { s with bytes := Function.update s.bytes ev.pubkey none }

/-- `provider_generation` is not that of the connection. -/
def foreign (s : State008) (generation : Option String) : Bool :=
  s.providerGeneration.isNone || generation != s.providerGeneration

/-- At or below the floor of the account. -/
def belowFloor (s : State008) (ev : Update) : Bool :=
  (s.rpcFloors ev.pubkey).any fun floor => ev.slot ≤ floor

/-- `apply_update` gets to its end. -/
def accepts (s : State008) (ev : Update) : Bool :=
  !s.foreign ev.providerGeneration && !s.belowFloor ev &&
    !s.seen.contains (ev.pubkey, ev.slot, ev.writeVersion) &&
    !(s.lastWv ev.pubkey).any fun prev => ev.writeVersion < prev

/-- `apply_update`. -/
def applyUpdate (s : State008) (ev : Update) : State008 :=
  if s.foreign ev.providerGeneration then s
  else if s.belowFloor ev then
    if s.rpcFloors ev.pubkey = some ev.slot ∧
        ((s.bytes ev.pubkey).bind Row.slot).getD 0 ≤ ev.slot.toNat then s.forget ev
    else s
  else if s.seen.contains (ev.pubkey, ev.slot, ev.writeVersion) then s
  else if (s.lastWv ev.pubkey).any fun prev => ev.writeVersion < prev then s
  else s.accept ev

/-! ## §5. Transactions. -/

/-- An account a transaction is expected to write: a pool that has no role for it
takes it for one of its bin arrays. -/
def expectAccount (idx : Nat) (s : State008) (pk : String) : State008 :=
  match get s.pools idx with
  | none => s
  | some rec =>
    if (s.rolesOf idx pk).isEmpty ∧ rec.kind = .dlmm ∧ pk ≠ rec.pubkey then
      s.addRequired idx pk .dlmmBin
    else s

/-- `apply_tx`, with what `expect_from_instructions` expects. -/
def applyTx (s : State008) (generation : Option String) (sig : String) (slot : UInt64)
    (expect : List (Nat × List String)) : State008 :=
  if s.foreign generation ∨ expect = [] then s
  else
    let s := expect.foldl (fun s e => e.2.foldl (expectAccount e.1) s) s
    { s with barrier := noteTx s.barrier sig slot.toNat (expect.map fun e => ((e.1 : Int), e.2)) }

/-! ## §6. Publication. -/

/-- The frozen data of an account. -/
def dataOf (accounts : List (String × Row)) (pk : String) : List UInt8 :=
  ((get accounts pk).bind Row.data).getD []

/-- What `_finish_publish` hands to `AuthPub.publish`. -/
def publishArgs (rec : PoolRec) (slot : UInt64) (blob : List UInt8) : Auth.PublishArgs where
  slot := slot
  blob := blob
  proto := rec.kind.proto.toNat
  sig := rec.stage.sig
  txnIndex := none
  maxAccountWriteVersion := if rec.staged = [] then none else some (rec.staged.foldl max 0)
  flags := Auth.coherent
  boot := rec.stage.sig == some Auth.bootSig

/-- From `recon.auth` to the end of `_finish_publish`. -/
def finishPublish (s : State008) (idx : Nat) (slot : UInt64) (blob : List UInt8)
    (accounts : List (String × Row)) : State008 :=
  match get s.pools idx with
  | none => s
  | some rec =>
    let args := publishArgs rec slot blob
    let entry : Auth.Published := ⟨(Auth.history poolCap s.calls).ver + 1, args⟩
    { s with
      rf := s.rf ++ [Rec.auth rec.kind.proto (.ofNat idx) slot blob]
      pools := set s.pools idx { rec.clear with status := .coherent }
      calls := s.calls ++ [.publish idx args]
      log := if idx < poolCap ∧ args.Accepted then .took ⟨idx, entry, accounts⟩ :: s.log else s.log }

/-- `publish_dlmm`. -/
def publishDlmm (cd : Codec) (s : State008) (idx : Nat) (rec : PoolRec) (slot now : UInt64)
    (accounts : List (String × Row)) : Bool × State008 :=
  if rec.required.any fun pk => (dataOf accounts pk).isEmpty then (false, s)
  else
    let pair := (rec.required.filter fun pk => (s.rolesOf idx pk).contains .dlmmPair).getLast?
    match pair with
    | none => (false, s)
    | some pair =>
      match cd.activeId (dataOf accounts pair) with
      | none => (false, s)
      | some active =>
        let need := cd.binKeys rec.pubkey active
        let s := need.foldl (fun s pk => s.addRequired idx pk .dlmmBin) s
        if need.any fun pk => (get accounts pk).isNone then (false, s.setStatus idx .incomplete)
        else
          match cd.writeDlmm now (dataOf accounts pair) (need.map (dataOf accounts)) with
          | none => (false, s.setStatus idx .incomplete)
          | some blob => (true, s.finishPublish idx slot blob accounts)

/-- The role for which `publish_pump` takes an account. -/
def pumpRole (roles : List Role) : Option Role :=
  [.pumpPool, .pumpVaultBase, .pumpVaultQuote, .pumpGlobal, .pumpFeeConfig, .mint].find? fun r =>
    roles.contains r

/-- `publish_pump`. -/
def publishPump (cd : Codec) (s : State008) (idx : Nat) (rec : PoolRec) (slot : UInt64)
    (accounts : List (String × Row)) : Bool × State008 :=
  if rec.required.any fun pk => (dataOf accounts pk).isEmpty then (false, s)
  else
    let raw (r : Role) : Option (List UInt8) :=
      (rec.required.filter fun pk => pumpRole (s.rolesOf idx pk) = some r).getLast?.map
        (dataOf accounts)
    match raw .pumpPool, raw .pumpVaultBase, raw .pumpVaultQuote with
    | some pool, some vb, some vq =>
      let r := cd.writePump ⟨pool, vb, vq, raw .pumpGlobal, raw .pumpFeeConfig, raw .mint⟩ s.fees
      let s := { s with fees := r.1 }
      match r.2 with
      | .decodeFail => (false, s)
      | .incomplete => (false, s.setStatus idx .incomplete)
      | .blob blob => (true, s.finishPublish idx slot blob accounts)
    | _, _, _ => (false, s.setStatus idx .incomplete)

/-- `_fail_tx_incomplete`: no entry goes to the ring. -/
def failTxIncomplete (s : State008) (idx : Nat) (sig : String) (now : UInt64) : State008 :=
  match get s.pools idx with
  | none => s
  | some rec =>
    let s := if sig = "" then s else { s with barrier := drop s.barrier sig (some idx) }
    let s := { s with pools := set s.pools idx { rec.clear with status := .incomplete } }
    s.tellInvalid idx rec.kind now s.streamSlot

/-- The frozen read set. -/
def frozen (s : State008) (rec : PoolRec) : List (String × Row) :=
  rec.required.map fun pk => (pk, rowOf s.bytes pk)

/-- What `try_publish` decides. -/
inductive Turn where
  | wait
  | fail (sig : String)
  | go (st : Stage) (accounts : List (String × Row))

/-- `has_shape`. -/
def hasShape (s : State008) (hx : String) (idx : Nat) : Bool :=
  (spec s.barrier hx idx).any fun sp => sp.expected != ∅

/-- `can_commit`. -/
def canCommit (s : State008) (hx : String) (idx : Nat) : Bool :=
  (spec s.barrier hx idx).any Entry.canCommit

/-- `try_publish` up to the publication. -/
def turn (cd : Codec) (s : State008) (idx : Nat) (rec : PoolRec) (streamSlot : UInt64) : Turn :=
  let st := rec.stage
  match truthy st.sig with
  | none => if streamSlot.toNat < st.waitFor then .wait else .go st (s.frozen rec)
  | some sig =>
    let hx := hex sig
    if sig = Auth.bootSig then .go st (s.frozen rec)
    else if !s.hasShape hx idx then
      -- no classified exact swap joined this write
      if st.slotNat + 8 < streamSlot.toNat then
        .go { st with sig := some Auth.bootSig, reconcile := true } (s.frozen rec)
      else .wait
    else if !s.canCommit hx idx then
      if st.slotNat < streamSlot.toNat then .fail hx else .wait
    else
      let iter := (spec s.barrier hx idx).elim [] fun sp => cd.setOrder sp.expected
      match (snapshot s.barrier hx idx rec.required s.bytes iter).2 with
      | none => .fail hx
      | some accounts => .go st accounts

/-- The publication under a stage, of either kind. -/
def publishAs (cd : Codec) (s : State008) (idx : Nat) (rec : PoolRec) (st : Stage)
    (streamSlot now : UInt64) (accounts : List (String × Row)) : State008 :=
  let s := s.modify idx fun rec => { rec with stage := st }
  let slot := st.slotOr streamSlot
  let r := match rec.kind with
    | .dlmm => s.publishDlmm cd idx rec slot now accounts
    | .pump => s.publishPump cd idx rec slot accounts
  if r.1 then
    match sigHex st.sig with
    | none => r.2
    | some hx => { r.2 with barrier := drop r.2.barrier hx (some idx) }
  else r.2

/-- `try_publish`. -/
def tryPublish (cd : Codec) (s : State008) (idx : Nat) (streamSlot now : UInt64) : State008 :=
  match get s.pools idx with
  | none => s
  | some rec =>
    if !s.poolComplete rec then s.setStatus idx .incomplete
    else if rec.stage = .empty then s
    else
      match s.turn cd idx rec streamSlot with
      | .wait => s
      | .fail hx => s.failTxIncomplete idx hx now
      | .go st accounts => s.publishAs cd idx rec st streamSlot now accounts

/-! ## §7. Steps. -/

/-- The turn of one pool in `maybe_publish`. -/
def maybePublish (cd : Codec) (s : State008) (idx : Nat) (now : UInt64) : State008 :=
  match get s.pools idx with
  | none => s
  | some rec => if rec.status = .coherent then s else s.tryPublish cd idx s.streamSlot now

/-- In `expire_at_boundary`. -/
def expired (s : State008) (hx : String) (idx : Nat) : Bool :=
  (spec s.barrier hx idx).any fun sp =>
    sp.expected != ∅ && decide (sp.slot < (s.streamSlot.toNat : Int)) && !decide (sp.expected ⊆ sp.received)

/-- The turn of one expired transaction at a slot. -/
def expire (s : State008) (hx : String) (idx : Nat) (now : UInt64) : State008 :=
  match get s.pools idx with
  | none => s
  | some rec =>
    if s.expired hx idx ∧ rec.status = .staging then s.failTxIncomplete idx hx now else s

/-- One row of a `dependency_result`. -/
def fetchOne (s : State008) (e : String × RpcRow) : State008 :=
  if (s.bytes e.1).isSome then s
  else
    { s with
      bytes := Function.update s.bytes e.1 (some (rpcRow s.providerGeneration e.2))
      rpcFloors := Function.update s.rpcFloors e.1 (some e.2.slot) }

/-- `_recount`. -/
def recount (s : State008) : State008 :=
  { s with
    pools := adjust (fun _ rec =>
      if rec.status = .coherent ∧ !s.poolComplete rec then { rec with status := .incomplete }
      else rec) s.pools }

/-- The newest slot of the rows a pool requires. -/
def bootSlot (s : State008) (rec : PoolRec) : UInt64 :=
  (rec.required.map fun pk => UInt64.ofNat ((rowOf s.bytes pk).slot.getD 0).toNat).foldl max 0

/-- The stage of a bootstrap. -/
def bootStage (slot now : UInt64) : Stage := ⟨some now, some slot, some Auth.bootSig, none, false⟩

/-- The turn of one pool in `finish_bootstrap`. -/
def bootPool (cd : Codec) (now : UInt64) (s : State008) (idx : Nat) : State008 :=
  match get s.pools idx with
  | none => s
  | some rec =>
    if s.poolComplete rec then
      let slot := s.bootSlot rec
      let s := s.modify idx fun rec => { rec with stage := bootStage slot now }
      s.tryPublish cd idx (max s.streamSlot slot) now
    else s.setStatus idx .incomplete

/-- `finish_bootstrap`, after the buffered writes were applied. -/
def finishBootstrap (cd : Codec) (s : State008) (now : UInt64) : State008 :=
  if s.bootstrapDone then s
  else { (s.pools.map Prod.fst).foldl (bootPool cd now) s with bootstrapDone := true }

end State008

/-- What the publisher does next. -/
inductive PubStep where
  | update (ev : Update)
  | tx (generation : Option String) (sig : String) (slot : UInt64) (expect : List (Nat × List String))
  | slot (n : UInt64)
  | publish (idx : Nat) (now : UInt64)
  | expire (hx : String) (idx : Nat) (now : UInt64)
  | fetched (rows : List (String × RpcRow))
  | recount
  | boot (now : UInt64)

/-- A step of the publisher. -/
def step (cd : Codec) (s : State008) : PubStep → State008
  | .update ev => s.applyUpdate ev
  | .tx generation sig slot expect => s.applyTx generation sig slot expect
  | .slot n => { s with streamSlot := max s.streamSlot n }
  | .publish idx now => s.maybePublish cd idx now
  | .expire hx idx now => s.expire hx idx now
  | .fetched rows => rows.foldl State008.fetchOne s
  | .recount => s.recount
  | .boot now => s.finishBootstrap cd now

/-- A run of the publisher. -/
def run (cd : Codec) (s : State008) (steps : List PubStep) : State008 := steps.foldl (step cd) s

end ShredArb.Publisher
