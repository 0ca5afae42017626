/-
  ShredArb.Orbit.Kernel — from a framed transaction to a journal record
  (`arb-feed/src/paper_orbit.c`).

  `consider_framed` installs the published state of the triggered pool and of
  its partner, asks `state_observe` for a decision, and counts the decision as
  `opp_synced` when both pools are sendable and not being updated.  `recon_drain`
  runs in between, from the records another process appends.

  Conventions:
    • what the shared memory answers (`authpub_pred`, `authpub_ready`) and the
      clock readings come with the transaction,
    • the records a drain reads come with the drain,
    • `g_pool_cap` is `u->n`, the length of the per-pool arrays,
    • metrics, the timing fields of the journal and `note_searchable`, which only
      writes the journal, are left out.
-/
import ShredArb.State.Manager
import ShredArb.Tx.Overlay

namespace ShredArb.Orbit

open ShredArb.Dlmm ShredArb.Pump ShredArb.Univ ShredArb.Hot ShredArb.State ShredArb.Tx
open ShredArb.Bytes

/-! ## §1. Published state. -/

abbrev Sig := BitVec 512

/-- The unsigned word of `n` bytes at an offset. -/
def word (p : List UInt8) (off n : Nat) : Nat := leNat (field p off n)

/-- `read_pump_mem`. -/
def readPumpMem (p : List UInt8) : Option PumpState :=
  if p.length < 50 then none
  else some
    { reserveBase := .ofNat (word p 0 8)
      reserveQuote := .ofNat (word p 8 8)
      virtualQuote := .ofNat (word p 16 8)
      lpFeeBps := .ofNat (word p 24 8)
      protocolFeeBps := .ofNat (word p 32 8)
      creatorFeeBps := .ofNat (word p 40 8)
      disabled := byteAt p 48
      status := byteAt p 49 }

/-- `read_dlmm_mem`; bins arrive without a price. -/
def readDlmmMem (p : List UInt8) : Option DlmmState :=
  let nbin := word p 71 2
  if p.length < 73 ∨ nbin > dlmmCacheWindow ∨ p.length < 73 + 20 * nbin then none
  else some
    { activeId := .ofNat (word p 0 4)
      binStep := .ofNat (word p 4 2)
      status := byteAt p 6
      parameters :=
        { baseFactor := .ofNat (word p 7 2)
          filterPeriod := .ofNat (word p 9 2)
          decayPeriod := .ofNat (word p 11 2)
          reductionFactor := .ofNat (word p 13 2)
          variableFeeControl := .ofNat (word p 15 4)
          maxVolatilityAccumulator := .ofNat (word p 19 4)
          protocolShare := .ofNat (word p 23 2)
          baseFeePowerFactor := byteAt p 25
          collectFeeMode := byteAt p 26 }
      vParameters :=
        { volatilityAccumulator := .ofNat (word p 27 4)
          volatilityReference := .ofNat (word p 31 4)
          indexReference := .ofNat (word p 35 4)
          lastUpdateTimestamp := .ofNat (word p 39 8) }
      reserveX := .ofNat (word p 47 8)
      reserveY := .ofNat (word p 55 8)
      nowTs := .ofNat (word p 63 8)
      bins := (List.range nbin).map fun i =>
        ⟨.ofNat (word p (73 + 20 * i) 4), .ofNat (word p (77 + 20 * i) 8),
          .ofNat (word p (85 + 20 * i) 8), 0⟩ }

/-- `authpub_meta_t` with its blob. -/
structure AuthPub where
  generation : UInt64
  slot : UInt64
  ok : Bool
  blob : List UInt8
  deriving DecidableEq, Repr

/-! ## §2. The process. -/

/-- `pend_ent_t`. -/
structure PendEnt where
  sig : Sig
  poolIdx : Nat
  trig : HotTrigger
  deriving DecidableEq, Repr

abbrev pendCap : Nat := 4096

/-- `race_ctx_t` with the globals of the process: the universe, its manager, and
the per-pool arrays. -/
structure RaceCtx where
  s : Managed
  /-- `u->meta[i].pubkey` -/
  key : Nat → Mint
  updating : List Bool
  gen : List UInt64
  rxNs : List UInt64
  mutSlot : List UInt64
  ready : Bool
  pend : List (Option PendEnt)

/-- The process after its start, before the first shred. -/
def RaceCtx.init (u : LiveUniv) (key : Nat → Mint) (slot : UInt64) (now : Nat → UInt64) : RaceCtx where
  s := stateMgrInit u slot now
  key := key
  updating := List.replicate u.n false
  gen := List.replicate u.n 0
  rxNs := List.replicate u.n 0
  mutSlot := List.replicate u.n 0
  ready := false
  pend := []

/-- `g_s007_updating[i]`. -/
def RaceCtx.isUpdating (o : RaceCtx) (i : Nat) : Bool := o.updating.getD i false

/-- `smgr->auth_ns[i] != 0`. -/
def RaceCtx.authed (o : RaceCtx) (i : Nat) : Bool := o.s.m.authNs.getD i 0 != 0

/-- `pool_table_get` on the keys of the universe. -/
def RaceCtx.poolOf (o : RaceCtx) (pool : Mint) : Option Nat :=
  (List.range o.s.u.n).find? fun i => o.key i = pool

/-- `state_mark_stale`. -/
def RaceCtx.markStale (o : RaceCtx) (i : Nat) : RaceCtx :=
  { o with s := { o.s with m := stateMarkStale o.s.m i } }

/-- The entry of a signature. -/
def hasSig (sig : Sig) (e : Option PendEnt) : Bool := e.any fun e => e.sig == sig

/-- `pend_find`. -/
def pendFind (pend : List (Option PendEnt)) (sig : Sig) : Option PendEnt :=
  (pend.find? (hasSig sig)).join

/-- `pend_put`: the same signature, else a free entry, else the first one. -/
def pendPut (pend : List (Option PendEnt)) (e : PendEnt) : List (Option PendEnt) :=
  match pend.findIdx? (hasSig e.sig) with
  | some i => pend.set i (some e)
  | none =>
    match pend.findIdx? Option.isNone with
    | some i => pend.set i (some e)
    | none => if pend.length < pendCap then pend ++ [some e] else pend.set 0 (some e)

/-- `pend_drop` of a signature's entry. -/
def pendDrop (pend : List (Option PendEnt)) (sig : Sig) : List (Option PendEnt) :=
  match pend.findIdx? (hasSig sig) with
  | some i => pend.set i none
  | none => pend

/-! ## §3. Records of the other process. -/

/-- A record of the reconciliation file. -/
inductive Recon where
  | reject (poolIdx : Nat) (sig : Sig)
  | land (sig : Sig) (now : UInt64)
  | auth (sig : Sig)
  | invalidate (poolIdx : Nat) (rx : UInt64)
  | plane (slot : UInt64)
  | other

/-- One turn of `recon_drain`. -/
def drainOne (o : RaceCtx) : Recon → RaceCtx
  | .reject i sig =>
      { o with
        s := if i < o.s.u.n then (stateReject o.s i).2 else o.s
        pend := pendDrop o.pend sig }
  | .land sig now =>
      match pendFind o.pend sig with
      | none => o
      | some pe => { o with s := (stateConfirm o.s pe.poolIdx pe.trig now).2 }
  | .auth sig => { o with pend := pendDrop o.pend sig }
  | .invalidate i rx =>
      let o := if i < o.s.u.n then o.markStale i else o
      { o with updating := o.updating.set i true, rxNs := o.rxNs.set i rx }
  | .plane slot => { o with ready := slot != 0 }
  | .other => o

/-- `recon_drain`. -/
def reconDrain (o : RaceCtx) (rs : List Recon) : RaceCtx := rs.foldl drainOne o

/-! ## §4. Partners and published state. -/

/-- `mints_pair`. -/
def mintsPair (a b : LiveMeta) : Bool :=
  (a.mintX == b.mintX && a.mintY == b.mintY) || (a.mintX == b.mintY && a.mintY == b.mintX)

/-- `find_route0_partner`: the FIRST other pool of the wanted venue over the
same mints. -/
def findRoute0Partner (u : LiveUniv) (hit : Nat) (want : UInt8) : Option Nat :=
  (u.tbl[hit]?).bind fun h => (List.range u.n).find? fun i =>
    i != hit && (u.tbl[i]?).any fun m => m.protocol == want && mintsPair h m

/-- The other venue of a pool. -/
def wantOf (u : LiveUniv) (hit : Nat) : UInt8 :=
  if u.protocol hit = some protoDlmm then protoPump else protoDlmm

/-- The pool both `install_auth` and the gate take for the partner. -/
def gatePartner (u : LiveUniv) (hit : Nat) : Option Nat := findRoute0Partner u hit (wantOf u hit)

/-- `install_auth`, with what `authpub_pred` answered and the clock readings. -/
def installAuth (o : RaceCtx) (i : Nat) (auth : Option AuthPub) (now now' : UInt64) :
    Bool × RaceCtx :=
  match auth with
  | none => (false, o)
  | some a =>
    if i ≥ o.s.u.n ∨ a.ok = false then (false, o)
    else
      let done (r : Rc × Managed) : Bool × RaceCtx :=
        if r.1 = .ok then
          (true, { o with
            s := r.2
            updating := o.updating.set i false
            gen := o.gen.set i a.generation })
        else (false, { o with s := r.2 })
      if o.s.u.protocol i = some protoDlmm then
        match readDlmmMem a.blob with
        | none => (false, o)
        | some s => done (stateRefresh o.s i s a.slot now now')
      else if o.s.u.protocol i = some protoPump then
        match readPumpMem a.blob with
        | none => (false, o)
        | some s => done (stateRefreshPump o.s i s a.slot now now')
      else (false, o)

/-! ## §5. A framed transaction. -/

/-- `swapix_to_trigger`. -/
def swapixToTrigger (nix : SwapIx) : Option HotTrigger :=
  if nix.protocol = protoDlmm then
    some ⟨protoDlmm, ⟨nix.amountIn, nix.minOut, nix.direction⟩, ⟨0, 0, 0⟩⟩
  else if nix.protocol = protoPump then
    some ⟨protoPump, ⟨0, 0, 0⟩, ⟨nix.amountIn, nix.minOut, nix.direction⟩⟩
  else none

/-- A framed transaction with its decoded swap, and what the rest of the machine
answers while it is considered. -/
structure Framed where
  nix : SwapIx
  trig : HotTrigger
  slot : UInt64
  tx : List UInt8
  auth : Nat → Option AuthPub
  authReady : Bool
  clock : Nat → UInt64 × UInt64

/-- `install_auth` on a pool, marked stale when nothing is installed. -/
def installOrStale (o : RaceCtx) (f : Framed) (i : Nat) : Bool × RaceCtx :=
  let r := installAuth o i (f.auth i) (f.clock i).1 (f.clock i).2
  if r.1 then (true, r.2) else (false, r.2.markStale i)

/-- Install the published state of the pool and of its partner. -/
def installBoth (o : RaceCtx) (f : Framed) (hit : Nat) : Bool × RaceCtx :=
  let r := installOrStale o f hit
  if r.1 = false then r
  else match gatePartner r.2.s.u hit with
    | none => r
    | some partner => installOrStale r.2 f partner

/-- The overlay of the transaction on the triggered pool. -/
def overlayOf (u : LiveUniv) (hit : Nat) (nix : SwapIx) (tx : List UInt8) : TxOverlay :=
  match txoScan tx with
  | none => .empty .ixOnly true
  | some ov =>
    let ov := txoStampN (txoBindWatched ov nix.pool) nix
    if ov.txExact && ov.klass == .exact then
      let before : Option DlmmState := if nix.protocol = protoDlmm then
          (dlmmCacheGet u.dlmm hit).map dlmmHotToState else none
      let pump : Option PumpState := if nix.protocol = protoPump then u.livePump hit else none
      let r := txoApply ov nix.pool nix.protocol before pump
      if r.1 then r.2 else { r.2 with txExact := false }
    else ov

/-- The sync gate: both pools sendable, published, and not being updated. -/
def syncGate (o : RaceCtx) (hit : Nat) : Bool :=
  stateSendable o.s hit && o.authed hit && o.ready && decide (hit < o.updating.length) &&
    !o.isUpdating hit &&
    match gatePartner o.s.u hit with
    | none => true
    | some p => if p < o.updating.length then
        !o.isUpdating p && stateSendable o.s p && o.authed p else true

/-- A decision counted as `opp_synced`: the pool, N, the universe the decision
was sized on, what it found, and the overlay.  `race_ready` is its `tx_exact`. -/
structure Counted where
  hit : Nat
  nix : SwapIx
  trig : HotTrigger
  sizedOn : LiveUniv
  opp : Opportunity
  ov : TxOverlay

/-- `race_ready`. -/
def Counted.raceReady (c : Counted) : Bool := c.ov.txExact

/-- The part of `consider_framed` before `state_observe`, when it gets there. -/
def prepare (o : RaceCtx) (f : Framed) (hit : Nat) : Bool × RaceCtx :=
  let r := installBoth { o with pend := pendPut o.pend ⟨f.nix.sig, hit, f.trig⟩ } f hit
  if r.1 then (true, { r.2 with ready := r.2.ready || f.authReady }) else r

/-- A decision that reaches the sync gate: the pool, the universe it was sized
on, and what it found. -/
structure AtGate where
  hit : Nat
  sizedOn : LiveUniv
  opp : Opportunity

/-- `consider_framed` up to the sync gate; `drained` are the records of the
drain in it. -/
def reachGate (o : RaceCtx) (f : Framed) (drained : List Recon) : RaceCtx × Option AtGate :=
  match o.poolOf f.nix.pool with
  | none => (o, none)
  | some hit =>
    let r := prepare o f hit
    if r.1 = false then (r.2, none)
    else
      let obs := stateObserve r.2.s.m r.2.s.u hit f.trig
      let o := { r.2 with s := { r.2.s with m := obs.2.2 } }
      if obs.1 = .missingBin ∨ obs.1 = .error then (o, none)
      else
        let o := reconDrain o drained
        match obs.2.1.opp with
        | none => (o, none)
        | some opp =>
            ({ o with mutSlot := o.mutSlot.modify hit (max f.slot) }, some ⟨hit, r.2.s.u, opp⟩)

/-- `consider_framed`. -/
def considerFramed (o : RaceCtx) (f : Framed) (drained : List Recon) :
    RaceCtx × Option Counted :=
  let r := reachGate o f drained
  match r.2 with
  | none => (r.1, none)
  | some g =>
    if syncGate r.1 g.hit then
      (r.1, some ⟨g.hit, f.nix, f.trig, g.sizedOn, g.opp, overlayOf g.sizedOn g.hit f.nix f.tx⟩)
    else (r.1, none)

/-! ## §6. Runs. -/

/-- What the process does next. -/
inductive Event where
  /-- `close_candidate` hands over a framed transaction -/
  | framed (f : Framed) (drained : List Recon)
  /-- `recon_drain` of the idle loop -/
  | drain (rs : List Recon)

/-- The state an event leaves, and the decision it counts. -/
def onEvent (o : RaceCtx) : Event → RaceCtx × Option Counted
  | .framed f drained => considerFramed o f drained
  | .drain rs => (reconDrain o rs, none)

/-- Everything a run counts, each with the state at that moment. -/
def countedIn (o : RaceCtx) : List Event → List (RaceCtx × Counted)
  | [] => []
  | e :: es =>
    let r := onEvent o e
    (r.2.map fun c => (r.1, c)).toList ++ countedIn r.1 es

end ShredArb.Orbit
