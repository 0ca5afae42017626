/-
  ShredArb.Trigger.Eval — the account-centric trigger path
  (`arb-core/src/trigger.c`, `watch_get` of `arb-core/src/watch.c`).

  A transaction is framed, its keys are resolved through the lookup tables it
  names, the keys are held against the watched accounts, and the first
  supported swap is decoded.  EXACT is the only class that carries a swap.

  Conventions:
    • the bank and the expected signature may be absent (NULL); the buffers, the
      cache and the watch index are there,
    • `-1` of `resolve_loaded` is `none`; what it has counted and noted by then
      stays in the cache and the hit,
    • `trigger_metrics_t` and the clock are left out: nothing reads them,
    • a signature is its 64 bytes, empty while `have_sig` is 0.
-/
import ShredArb.Trigger.Swapix
import ShredArb.Tx.Around
import ShredArb.Alt.Cache

namespace ShredArb.Trigger

open ShredArb.Univ ShredArb.Bytes ShredArb.Tx ShredArb.Alt ShredArb.Probe

/-! ## §1. The data model (`trigger.h`, `watch.h`). -/

abbrev trigLoadedMax : Nat := 256
abbrev trigLutMax : Nat := 8
abbrev trigWatchMax : Nat := 8

/-- `TRIG_DROP` and the others. -/
inductive TrigClass where
  | drop
  | incomplete
  | invalid
  | altMiss
  | exact
  | relevantUnknown
  | altUncertain
  deriving DecidableEq, Repr

/-- `trigger_hit_t`; `hits` is `hit_pool` with `hit_proto`. -/
structure TriggerHit where
  klass : TrigClass
  versioned : UInt8
  nlut : Nat
  altMiss : Bool
  altStatus : AltStatus
  relevant : Bool
  hits : List (Nat × UInt8)
  nStatic : Nat
  nLoaded : Nat
  txOff : Nat
  txEnd : Nat
  outer : Mint
  altMissPk : Mint
  sig : List UInt8
  haveSig : Bool
  exact : Option SwapIx
  deriving DecidableEq, Repr

/-- The hit after `memset`. -/
def TriggerHit.zero : TriggerHit :=
  ⟨.drop, 0, 0, false, .valid, false, [], 0, 0, 0, 0, 0, 0, [], false, none⟩

/-- `watch_ent_t`. -/
structure WatchEnt where
  pk : Mint
  protocol : UInt8
  role : UInt8
  poolIdx : Nat
  deriving DecidableEq, Repr

/-- The key of a slot of the watch index. -/
def watchKey (s : Option WatchEnt) : Option Mint := s.map WatchEnt.pk

/-- `watch_idx_t`. -/
abbrev WatchIdx := Table watchKey h32

/-- `watch_get`. -/
def watchGet (w : WatchIdx) (pk : Mint) : Option WatchEnt := (w.find pk).join

/-- `add_hit`. -/
def addHit (out : TriggerHit) (poolIdx : Nat) (proto : UInt8) : TriggerHit :=
  if out.hits.length ≥ trigWatchMax then out
  else if out.hits.any (fun h => h.1 == poolIdx) then out
  else { out with hits := out.hits ++ [(poolIdx, proto)] }

/-- One key. -/
def watchStep (w : WatchIdx) (out : TriggerHit) (pk : Mint) : TriggerHit :=
  match watchGet w pk with
  | none => out
  | some e => addHit { out with relevant := true } e.poolIdx e.protocol

/-- The loop over the keys. -/
def intersect (w : WatchIdx) (loaded : List Mint) (out : TriggerHit) : TriggerHit :=
  loaded.foldl (watchStep w) out

/-! ## §2. Resolving the keys (`resolve_loaded`). -/

/-- `lut_view_t`. -/
structure LutView where
  writableIdx : List UInt8
  readonlyIdx : List UInt8
  addrs : List Mint
  deriving DecidableEq, Repr

/-- What the loop over the tables carries. -/
structure LutState where
  off : Nat
  luts : List LutView
  missing : Bool
  uncertain : Bool
  alts : AltCache
  out : TriggerHit

/-- The status of a cached table, its indices included. -/
def lutStatus (alts : AltCache) (bank : Option AltBank) (pk : Mint) (idx : List UInt8) : AltStatus :=
  let (status, activeN) := altCacheCheck alts pk bank
  if status = .valid ∧ idx.any (fun i => decide (i.toNat ≥ activeN)) = true then .indexUnavailable
  else status

/-- A table that is not cached. -/
def LutState.miss (st : LutState) (pk : Mint) : LutState :=
  { st with
    missing := true
    out := if st.missing then st.out else { st.out with altMiss := true, altMissPk := pk } }

/-- A cached table; the first that is not valid is noted. -/
def LutState.note (st : LutState) (pk : Mint) (status : AltStatus) : LutState :=
  if status ≠ .valid ∧ st.uncertain = false then
    { st with
      uncertain := true
      out := { st.out with
        altStatus := status
        altMissPk := if st.missing then st.out.altMissPk else pk } }
  else st

/-- One table, its bytes read. -/
def lutStep (bank : Option AltBank) (st : LutState) (l : Lookup) (off : Nat) : LutState :=
  let (got, alts) := altCacheGet st.alts l.table
  let st := { st with off := off, alts := alts }
  match got with
  | none => LutState.miss { st with luts := st.luts ++ [⟨l.writable, l.readonly, []⟩] } l.table
  | some addrs =>
    LutState.note { st with luts := st.luts ++ [⟨l.writable, l.readonly, addrs⟩] } l.table
      (lutStatus alts bank l.table (l.writable ++ l.readonly))

/-- The bytes of one table, and the offset behind them. -/
def readLut (p : List UInt8) (off : Nat) : Option (Lookup × Nat) :=
  if off + 32 > p.length then none
  else (cu16At p (off + 32)).bind fun (nw, used) =>
    let woff := off + 32 + used
    if woff + nw > p.length then none
    else (cu16At p (woff + nw)).bind fun (nr, used) =>
      let roff := woff + nw + used
      if roff + nr > p.length then none
      else some (⟨keyAt p off, field p woff nw, field p roff nr⟩, roff + nr)

/-- The loop over the tables; bytes that do not hold one end it where it is. -/
def lutLoop (p : List UInt8) (bank : Option AltBank) : Nat → LutState → Except LutState LutState
  | 0, st => .ok st
  | n + 1, st =>
    match readLut p st.off with
    | none => .error st
    | some (l, off) => lutLoop p bank n (lutStep bank st l off)

/-- The loop over the instructions, which are skipped. -/
def skipIxs (p : List UInt8) : (n off : Nat) → Option Nat
  | 0, off => some off
  | n + 1, off =>
    if off ≥ p.length then none
    else (cu16At p (off + 1)).bind fun (nacct, used) =>
      (cu16At p (off + 1 + used + nacct)).bind fun (dlen, used') =>
        skipIxs p n (off + 1 + used + nacct + used' + dlen)

/-- The addresses of a view's indices; one out of range ends the resolution. -/
def viewKeys (idx : LutView → List UInt8) (v : LutView) : Option (List Mint) :=
  (idx v).mapM fun i => v.addrs[i.toNat]?

/-- The static keys. -/
def staticKeys (p : List UInt8) (keysOff nStatic : Nat) : List Mint :=
  (List.range nStatic).map fun i => keyAt p (keysOff + 32 * i)

/-- What `resolve_loaded` answers: 0, 1 (a table is missing), 2 (one is not valid). -/
inductive Resolution where
  | loaded (keys : List Mint)
  | missing
  | uncertain
  deriving DecidableEq, Repr

/-- The end of `resolve_loaded`: all tables' writable addresses stand before the
read-only ones. -/
def gather (statics : List Mint) (st : LutState) : Option Resolution × TriggerHit :=
  if st.missing then (some .missing, { st.out with altStatus := .missing })
  else if st.uncertain then (some .uncertain, st.out)
  else if (st.luts.map fun v => v.writableIdx.length).sum +
      (st.luts.map fun v => v.readonlyIdx.length).sum > trigLoadedMax - statics.length then
    (none, st.out)
  else
    ((st.luts.mapM (viewKeys LutView.writableIdx)).bind fun wr =>
      (st.luts.mapM (viewKeys LutView.readonlyIdx)).map fun ro =>
        .loaded (statics ++ wr.flatten ++ ro.flatten), st.out)

/-- Where the table count of a v0 message stands, and the count. -/
def findLuts (p : List UInt8) (keysOff nStatic : Nat) : Option (Nat × Nat) :=
  let off := keysOff + 32 * nStatic + 32
  (cu16At p off).bind fun (ninstr, used) =>
    (skipIxs p ninstr (off + used)).bind fun off =>
      (cu16At p off).map fun (nlut, used) => (nlut, off + used)

/-- `resolve_loaded`: the answer, the cache with its hits and misses, and the
hit. -/
def resolveLoaded (p : List UInt8) (keysOff nStatic : Nat) (versioned : UInt8) (alts : AltCache)
    (bank : Option AltBank) (out : TriggerHit) : Option Resolution × AltCache × TriggerHit :=
  let statics := staticKeys p keysOff nStatic
  if nStatic > trigLoadedMax then (none, alts, out)
  else if versioned ≠ Framing.frameVerV0 then (some (.loaded statics), alts, out)
  else match findLuts p keysOff nStatic with
    | none => (none, alts, out)
    | some (nlut, off) =>
      if nlut > trigLutMax then (none, alts, out)
      else match lutLoop p bank nlut ⟨off, [], false, false, alts, { out with nlut := nlut }⟩ with
        | .error st => (none, st.alts, st.out)
        | .ok st =>
          let (answer, out) := gather statics st
          (answer, st.alts, out)

/-! ## §3. The evaluation (`trigger_eval_at`, `trigger_admit_at`). -/

/-- `copy_sig0`. -/
def copySig0 (p : List UInt8) (start : Nat) (fh : Framing.FrameHit) : Option (List UInt8) :=
  if fh.versioned = frameVerV1 then
    if fh.nsig < 1 ∨ fh.txEnd < 64 * fh.nsig.toNat then none
    else if fh.txEnd - 64 * fh.nsig.toNat + 64 > fh.txEnd then none
    else some (field p (fh.txEnd - 64 * fh.nsig.toNat) 64)
  else (cu16Avail p start 3).bind fun (nsig, used) =>
    if nsig < 1 ∨ start + used + 64 > fh.txEnd then none
    else some (field p (start + used) 64)

/-- `memcpy(out->sig, ..)` with `have_sig`. -/
def TriggerHit.withSig (out : TriggerHit) : Option (List UInt8) → TriggerHit
  | none => out
  | some sig => { out with sig := sig, haveSig := true }

/-- The hit once the transaction is framed. -/
def framedHit (p : List UInt8) (start : Nat) (fh : Framing.FrameHit) : TriggerHit :=
  TriggerHit.withSig { TriggerHit.zero with
    versioned := fh.versioned, txOff := fh.txOff, txEnd := fh.txEnd, nStatic := fh.nkeys }
    (copySig0 p start fh)

/-- Where the static keys stand. -/
def keysOffset (p : List UInt8) (start : Nat) (fh : Framing.FrameHit) : Option Nat :=
  if fh.versioned = frameVerV1 then
    if start + txV1HdrSize > fh.txEnd then none else some (start + txV1HdrSize)
  else (cu16Avail p start 3).bind fun (nsig, used) =>
    let msg := start + used + 64 * nsig
    let off := if byteAt p msg &&& 0x80 ≠ 0 then msg + 4 else msg + 3
    (cu16Avail p off 3).map fun (_, used) => off + used

section Evaluation

variable (sha256 : List UInt8 → Vector UInt8 32)

/-- The decode at the end of `trigger_eval_at`: the swap with its signature. -/
def decodeLoaded (p : List UInt8) (start keysOff : Nat) (fh : Framing.FrameHit) (loaded : List Mint) :
    Option (SwapIx × List UInt8) :=
  (swapixFromLoaded sha256 ((p.drop start).take ((fh.txEnd - start) % 2 ^ 16))
      ((keysOff - start) % 2 ^ 16) fh.nkeys loaded).bind fun s =>
    (copySig0 p start fh).bind fun sig =>
      if s.amountIn ≠ 0 then some ({ s with sig := BitVec.ofNat 512 (leNat sig) }, sig) else none

/-- `trigger_eval_at` once the keys are known; where a table was not cached, those
are the static ones and nothing is decoded. -/
def evalKeys (p : List UInt8) (start keysOff : Nat) (fh : Framing.FrameHit) (watch : WatchIdx)
    (loaded : List Mint) (out : TriggerHit) : TriggerHit :=
  let out := { out with nLoaded := loaded.length, outer := loaded.headD out.outer }
  let out := intersect watch loaded out
  if out.relevant = false then
    if out.altMiss then { out with klass := .altMiss } else { out with klass := .drop }
  else
    let decoded := if out.altMiss then none else decodeLoaded sha256 p start keysOff fh loaded
    match decoded with
    | some (s, sig) => { out with exact := some s, sig := sig, haveSig := true, klass := .exact }
    | none => { out.withSig (copySig0 p start fh) with klass := .relevantUnknown }

/-- `trigger_eval_at` after `resolve_loaded`. -/
def evalResolved (p : List UInt8) (start keysOff : Nat) (fh : Framing.FrameHit) (watch : WatchIdx) :
    Option Resolution × AltCache × TriggerHit → TriggerHit × AltCache
  | (none, alts, out) => ({ out with klass := .invalid }, alts)
  | (some .uncertain, alts, out) => ({ out with klass := .altUncertain, nLoaded := fh.nkeys }, alts)
  | (some .missing, alts, out) =>
    -- the static keys are still held against the watched accounts
    (evalKeys sha256 p start keysOff fh watch (staticKeys p keysOff fh.nkeys) out,
      (altCacheNoteMiss alts out.altMissPk).2)
  | (some (.loaded keys), alts, out) => (evalKeys sha256 p start keysOff fh watch keys out, alts)

/-- `trigger_eval_at`; the class it returns is the hit's own. -/
def triggerEvalAt (p : List UInt8) (start : Nat) (alts : AltCache) (watch : WatchIdx)
    (bank : Option AltBank) : TriggerHit × AltCache :=
  match Framing.frameTryAny p start with
  | .need => ({ TriggerHit.zero with klass := .incomplete }, alts)
  | .bad => ({ TriggerHit.zero with klass := .invalid }, alts)
  | .ok fh _ =>
    match keysOffset p start fh with
    | none => ({ framedHit p start fh with klass := .invalid }, alts)
    | some keysOff => evalResolved sha256 p start keysOff fh watch
        (resolveLoaded p keysOff fh.nkeys fh.versioned alts bank (framedHit p start fh))

/-- `trigger_admit_at`. -/
def triggerAdmitAt (p : List UInt8) (signature : Option (Vector UInt8 64)) (alts : AltCache)
    (watch : WatchIdx) (bank : Option AltBank) : TriggerHit × AltCache :=
  let (out, alts) := triggerEvalAt sha256 p 0 alts watch bank
  if signature.map Vector.toList ≠ some out.sig ∨ out.haveSig = false ∨ out.txEnd ≠ p.length
      ∨ out.txOff ≠ 0 then
    ({ out with exact := none, klass := .invalid }, alts)
  else (out, alts)

end Evaluation

end ShredArb.Trigger
