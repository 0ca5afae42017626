/-
  ShredArb.Orbit.Journal — the `opp_synced` record and the pair it was quoted on
  (`audit_opp_synced`, `audit_send_quote` of `arb-feed/src/paper_orbit.c`).

  The record names the triggered pool only.  Its send quote is computed on that
  pool and on the FIRST pool of the other venue over the same mints; the sender
  takes whatever pair its plane has under the pool's key.

  Main results:
    * `quoted_of_capOk` — a record with a quote has a quoted pair,
    * `readyAt_shot` — the row `fire` takes, among the rows of the plane,
    * `sent_pair_is_quoted_iff`.
-/
import ShredArb.Orbit.Kernel
import ShredArb.Orbit.Fresh
import ShredArb.Gates.Fire
import ShredArb.Gates.Loaders
import ShredArb.Paper.Faithful

namespace ShredArb.Orbit

open ShredArb.Dlmm ShredArb.Pump ShredArb.Univ ShredArb.Hot ShredArb.State ShredArb.Tx
open ShredArb.Bytes ShredArb.Gates ShredArb.Dict ShredArb.Paper

/-! ## §1. The record. -/

/-- The partner's Pump state, under the partner's index. -/
def partnerPump (u : LiveUniv) (hit : Nat) : Option (Nat × PumpState) :=
  (gatePartner u hit).bind fun p => (u.livePump p).map fun s => (p, s)

/-- The partner's DLMM state. -/
def partnerDlmm (u : LiveUniv) (hit : Nat) : Option (Nat × DlmmState) :=
  (gatePartner u hit).bind fun p =>
    (dlmmCacheGet u.dlmm p).map fun h => (p, dlmmHotToState h)

/-- `ds` and `ps` of `audit_opp_synced`, each with the pool it is the state of:
the overlay's state when there is one, else the prediction of N. -/
def auditStates (u : LiveUniv) (c : Counted) :
    Option (Nat × DlmmState) × Option (Nat × PumpState) :=
  if u.protocol c.hit = some protoDlmm then
    match if c.ov.txExact then c.ov.sDlmm else none with
    | some s => (some (c.hit, s), partnerPump u c.hit)
    | none =>
      match dlmmCachePredict u.dlmm c.hit c.trig.dlmm with
      | some (spec, _) => (some (c.hit, dlmmHotToState spec), partnerPump u c.hit)
      | none => (none, none)
  else
    match if c.ov.txExact then c.ov.sPump else none with
    | some s => (partnerDlmm u c.hit, some (c.hit, s))
    | none =>
      if u.protocol c.hit = some protoPump then
        match (u.livePump c.hit).bind fun s => pumpApplySwap s c.trig.pump with
        | some (s', _) => (partnerDlmm u c.hit, some (c.hit, s'))
        | none => (none, none)
      else (none, none)

abbrev sendCap : UInt64 := 50000000

/-- The quote at the cap of `audit_send_quote`. -/
def capQuote (u : LiveUniv) (c : Counted) : Option CycleQuote :=
  match auditStates u c with
  | (some d, some p) =>
      if c.opp.direction ≤ 1 then cycleQuote d.2 p.2 sendCap c.opp.direction else none
  | _ => none

/-- `hex_encode`. -/
def hexEncode (bs : List UInt8) : Text :=
  bs.flatMap fun b => [Nat.digitChar (b.toNat / 16), Nat.digitChar (b.toNat % 16)]

/-- The text of a pool in the journal. -/
def poolText (k : Mint) : Text := hexEncode (keyBytes k)

/-- The record `audit_opp_synced` writes, as the sender reads it. -/
def oppRecord (o : RaceCtx) (c : Counted) : OppRec where
  pool := poolText (o.key c.hit)
  frameClass := framed
  raceReady := if c.raceReady then 1 else 0
  direction := some c.opp.direction.toNat
  capOk := (capQuote o.s.u c).isSome
  capGross := ((capQuote o.s.u c).map (·.grossProfit)).getD 0
  seq := []
  family := none
  nHop := none

/-! ## §2. The pair. -/

/-- The triggered pool and its first partner, DLMM first. -/
def quotedPair (u : LiveUniv) (hit : Nat) : Option (Nat × Nat) :=
  (gatePartner u hit).map fun p => if u.protocol hit = some protoDlmm then (hit, p) else (p, hit)

/-- The text is a spelling of the key, in hex or in base58. -/
def Spells (t : Text) (k : Mint) : Prop := poolPubkey t = b58encode (keyBytes k)

instance (t : Text) (k : Mint) : Decidable (Spells t k) := inferInstanceAs (Decidable (_ = _))

/-- The pair of texts spells the pair of pools. -/
def SpellsPair (o : RaceCtx) (pair : Text × Text) (q : Nat × Nat) : Prop :=
  Spells pair.1 (o.key q.1) ∧ Spells pair.2 (o.key q.2)

instance (o : RaceCtx) (pair : Text × Text) (q : Nat × Nat) : Decidable (SpellsPair o pair q) :=
  inferInstanceAs (Decidable (_ ∧ _))

/-- The shot is on the pair the record was quoted on, with the template of the
quoted direction. -/
def SentAsQuoted (o : RaceCtx) (c : Counted) (shot : Shot UInt8) : Prop :=
  ∃ d ds p ps, auditStates o.s.u c = (some (d, ds), some (p, ps)) ∧
    SpellsPair o (shot.row.dlmm, shot.row.pump) (d, p) ∧
    shot.direction = c.opp.direction.toNat ∧
    shot.tmpl = if c.opp.direction = 1 then shot.row.tmpl1 else shot.row.tmpl0

theorem partnerPump_fst {u : LiveUniv} {hit : Nat} {x : Nat × PumpState}
    (h : partnerPump u hit = some x) : gatePartner u hit = some x.1 := by
  obtain ⟨p, hp, hx⟩ := Option.bind_eq_some_iff.mp h
  obtain ⟨s, -, rfl⟩ := Option.map_eq_some_iff.mp hx
  exact hp

theorem partnerDlmm_fst {u : LiveUniv} {hit : Nat} {x : Nat × DlmmState}
    (h : partnerDlmm u hit = some x) : gatePartner u hit = some x.1 := by
  obtain ⟨p, hp, hx⟩ := Option.bind_eq_some_iff.mp h
  obtain ⟨s, -, rfl⟩ := Option.map_eq_some_iff.mp hx
  exact hp

/-- The states of a record are those of the quoted pair. -/
theorem auditStates_pair {u : LiveUniv} {c : Counted} {d p : Nat} {ds : DlmmState}
    {ps : PumpState} (h : auditStates u c = (some (d, ds), some (p, ps))) :
    quotedPair u c.hit = some (d, p) := by
  -- the triggered pool on one side, its partner on the other
  have hdlmm : ∀ s : DlmmState, u.protocol c.hit = some protoDlmm →
      (some (c.hit, s), partnerPump u c.hit) = (some (d, ds), some (p, ps)) →
      quotedPair u c.hit = some (d, p) := by
    intro s hproto h
    obtain ⟨hd, hp⟩ := Prod.mk.inj h
    obtain ⟨rfl, -⟩ := Prod.mk.inj (Option.some.inj hd)
    rw [quotedPair, partnerPump_fst hp, Option.map_some, if_pos hproto]
  have hpump : ∀ s : PumpState, u.protocol c.hit ≠ some protoDlmm →
      (partnerDlmm u c.hit, some (c.hit, s)) = (some (d, ds), some (p, ps)) →
      quotedPair u c.hit = some (d, p) := by
    intro s hproto h
    obtain ⟨hd, hp⟩ := Prod.mk.inj h
    obtain ⟨rfl, -⟩ := Prod.mk.inj (Option.some.inj hp)
    rw [quotedPair, partnerDlmm_fst hd, Option.map_some, if_neg hproto]
  unfold auditStates at h
  split at h
  · rename_i hproto
    generalize (if c.ov.txExact then c.ov.sDlmm else none) = sd at h
    split at h
    · exact hdlmm _ hproto h
    · split at h
      · exact hdlmm _ hproto h
      · exact absurd (Prod.mk.inj h).1 (by simp)
  · rename_i hproto
    generalize (if c.ov.txExact then c.ov.sPump else none) = sp at h
    split at h
    · exact hpump _ hproto h
    · split at h
      · split at h
        · exact hpump _ hproto h
        · exact absurd (Prod.mk.inj h).1 (by simp)
      · exact absurd (Prod.mk.inj h).1 (by simp)

/-- A record with a quote has a quoted pair, and states of it. -/
theorem quoted_of_capOk {o : RaceCtx} {c : Counted} (h : (oppRecord o c).capOk = true) :
    ∃ d ds p ps, auditStates o.s.u c = (some (d, ds), some (p, ps)) := by
  have hsome : (capQuote o.s.u c).isSome = true := h
  unfold capQuote at hsome
  split at hsome
  · rename_i d p heq
    exact ⟨d.1, d.2, p.1, p.2, heq⟩
  · exact absurd hsome (by simp)

/-! ## §3. The row that is sent. -/

section Sender

variable {srcs : List (List Route)} {plane : Plane UInt8} {rec : OppRec} {readyExists : Bool}
  {cool : Cool} {size : Int × Int} (hload : loadRacePlane srcs = some plane)
  (hgate : sizeGate rec plane readyExists cool = some size)

include hgate in
/-- Past the gate, the row under the journal's spelling is ready. -/
theorem readyAt_of_get {row : PlaneRow UInt8} (hrow : get plane rec.pool = some row) :
    ReadyAt plane rec.pool row := by
  obtain ⟨⟨row', hrow', hready, -⟩, -⟩ := sizeGate_some hgate
  obtain ⟨hplane, -⟩ := fire_of_row hgate hrow
  obtain rfl := Option.some.inj (hplane.symm.trans hrow')
  exact ⟨hrow, hready⟩

include hload in
/-- A ready row of the sources is found under both its keys. -/
theorem get_of_ready {r : Route} (hr : r ∈ srcs.flatten) (hready : r.ready = true) {k : Text}
    (hk : k ∈ r.keys) : ∃ row, get plane k = some row := by
  obtain ⟨d, hd, rfl⟩ := Option.map_eq_some_iff.mp hload
  have hindex : indexM Route.keys raceRow (readyRows srcs.flatten) = some d := hd
  obtain ⟨hall, hget⟩ := get_indexM hindex
  obtain ⟨l, hl, hlast⟩ := getLast?_of_mem (mem_rowsOf.mpr ⟨mem_readyRows.mpr ⟨hr, hready⟩, hk⟩)
  obtain ⟨row, hrow⟩ := Option.isSome_iff_exists.mp (hall l (mem_rowsOf.mp hl).1)
  refine ⟨markShared (ambiguousPoolKeys (readyRows srcs.flatten)) k row, ?_⟩
  rw [get_adjust, hget, hlast, Option.bind_some, hrow]
  rfl

theorem raceRow_pair {r : Route} {row : PlaneRow UInt8} (h : raceRow r = some row) :
    (row.dlmm, row.pump) = r.pair := by
  obtain ⟨t0, -, h⟩ := Option.bind_eq_some_iff.mp h
  obtain ⟨t1, -, rfl⟩ := Option.map_eq_some_iff.mp h
  rfl

include hload hgate in
/-- The pair under the journal's spelling is that of EVERY ready row naming it. -/
theorem pair_of_ready {row : PlaneRow UInt8} (hrow : get plane rec.pool = some row) :
    (∃ r ∈ srcs.flatten, r.ready = true ∧ rec.pool ∈ r.keys ∧ r.pair = (row.dlmm, row.pump)) ∧
      ∀ r ∈ srcs.flatten, r.ready = true → rec.pool ∈ r.keys → r.pair = (row.dlmm, row.pump) := by
  obtain ⟨hns, l, hlast, hl⟩ := (readyAt_load hload).mp (readyAt_of_get hgate hrow)
  obtain ⟨hmem, hkey⟩ := mem_rowsOf.mp (List.mem_of_getLast? hlast)
  obtain ⟨hmem', hready⟩ := mem_readyRows.mp hmem
  refine ⟨⟨l, hmem', hready, hkey, (raceRow_pair hl).symm⟩, fun r hr hrr hk => ?_⟩
  rw [raceRow_pair hl]
  by_contra hne
  obtain ⟨-, -, -, -, hpool⟩ := sizeGate_some hgate
  refine hns ⟨?_, r, mem_readyRows.mpr ⟨hr, hrr⟩, l, hmem, hk, hkey, hne⟩
  intro hnil
  rw [hnil] at hpool
  exact absurd hpool (by decide)

end Sender

/-- **What is sent is what was quoted if and only if the plane pairs the pool as
the quote did**: every ready row that names the pool as the journal spells it
pairs it with the first pool of the other venue over the same mints.  (In any
state, for any record the gate gives a size.) -/
theorem sent_pair_is_quoted_iff {o : RaceCtx} {c : Counted} {srcs : List (List Route)}
    {plane : Plane UInt8} {readyExists : Bool} {cool : Cool} {size : Int × Int}
    (hload : loadRacePlane srcs = some plane)
    (hgate : sizeGate (oppRecord o c) plane readyExists cool = some size) :
    (∀ shot, fire plane (oppRecord o c) = .ok shot → SentAsQuoted o c shot) ↔
      ∀ r ∈ srcs.flatten, r.ready = true → poolText (o.key c.hit) ∈ r.keys →
        ∃ q, quotedPair o.s.u c.hit = some q ∧ SpellsPair o r.pair q := by
  obtain ⟨-, -, hcap, -⟩ := sizeGate_some hgate
  obtain ⟨d, ds, p, ps, hstates⟩ := quoted_of_capOk hcap
  have hq := auditStates_pair hstates
  constructor
  · intro hsent r hr hready hk
    obtain ⟨row, hrow⟩ := get_of_ready hload hr hready hk
    obtain ⟨-, dir, -, hfire⟩ := fire_of_row hgate hrow
    obtain ⟨d', ds', p', ps', hst, hspell, -⟩ := hsent _ hfire
    rw [auditStates_pair hst] at hq
    refine ⟨(d', p'), auditStates_pair hst, ?_⟩
    rw [(pair_of_ready hload hgate hrow).2 r hr hready hk]
    exact hspell
  · intro hcond shot hfire
    have hrow := fire_row hfire
    obtain ⟨⟨r, hr, hready, hk, hpair⟩, -⟩ := pair_of_ready hload hgate hrow
    obtain ⟨q, hq', hspell⟩ := hcond r hr hready hk
    rw [hq] at hq'
    obtain rfl := Option.some.inj hq'
    obtain ⟨-, dir, hdir, hfire'⟩ := fire_of_row hgate hrow
    rw [hfire] at hfire'
    have hshot := Except.ok.inj hfire'
    have hdir' : dir = c.opp.direction.toNat := (Option.some.inj hdir).symm
    refine ⟨d, ds, p, ps, hstates, hpair ▸ hspell, ?_, ?_⟩
    · rw [hshot, hdir']
    · rw [hshot, hdir']
      have hone : ((c.opp.direction.toNat : Int) = 1) ↔ c.opp.direction = 1 := by
        rw [← UInt8.toNat_inj]
        exact ⟨fun h => by exact_mod_cast h, fun h => by rw [h]; rfl⟩
      simp only [hone]

/-- Two DLMM pools and a Pump pool, all on one token. -/
def twoDlmms : Universe where
  pool :=
    [⟨protoDlmm, 1, mintSol, 0, 0, 0, one_ne_mintSol⟩, ⟨protoDlmm, 1, mintSol, 1, 0, 0, one_ne_mintSol⟩,
     ⟨protoPump, 1, mintSol, 2, 0, 0, one_ne_mintSol⟩]
  route := []
  rindex := List.replicate 24 0
  protoMask := 0
  poolCap := 4
  routeCap := 8

/-- Only the first DLMM pool is loaded; the Pump pool is below its price. -/
def twoDlmmsLive (routes : Universe) : LiveUniv where
  tbl := routes.pool.map liveMetaOf
  dlmm := ⟨[hotOfState oneBin], 1⟩
  pump := [none, none, some ⟨100000000000, 90000000000, 0, 20, 5, 0, 0, 0⟩]
  routes := routes
  stateVersion := 7

/-- The published states of the first DLMM pool and of the Pump pool. -/
def oneBinBlob : List UInt8 :=
  leBytes 4 0 ++ leBytes 2 10 ++ List.replicate 41 0 ++ u64le oneBin.reserveX ++
    u64le oneBin.reserveY ++ u64le 0 ++ leBytes 2 1 ++ leBytes 4 0 ++ u64le 1000000000000 ++
    u64le 1000000000000

def cheapBlob : List UInt8 :=
  u64le 100000000000 ++ u64le 90000000000 ++ u64le 0 ++ u64le 20 ++ u64le 5 ++ u64le 0 ++ [0, 0]

/-- One sell on the Pump pool, whose key is 3. -/
def sellOnPump : Framed where
  nix := ⟨protoPump, 3, 7, 1000000000, 0, pumpDirBaseToQuote, 3⟩
  trig := ⟨protoPump, ⟨0, 0, 0⟩, ⟨1000000000, 0, pumpDirBaseToQuote⟩⟩
  slot := 9
  tx := legacyTx 7 [9, 3, progPump] [⟨2, [1], swapData pumpSellDisc 1000000000 0⟩]
  auth := fun i =>
    if i = 0 then some ⟨1, 8, true, oneBinBlob⟩
    else if i = 2 then some ⟨1, 8, true, cheapBlob⟩
    else none
  authReady := true
  clock := fun _ => (2, 3)

/-- A compiled row on the DLMM pool with key `k` and the Pump pool. -/
def rowOn (k : Mint) : Route := ⟨true, poolText k, poolText 3, ['0', '1'], ['0', '2']⟩

/-- The shot of a run, when there is one. -/
def shotOf (plane : Plane UInt8) (rec : OppRec) : Option (Shot UInt8) :=
  match fire plane rec with
  | .ok shot => some shot
  | .error _ => none

theorem shotOf_eq_some {plane : Plane UInt8} {rec : OppRec} {shot : Shot UInt8}
    (h : shotOf plane rec = some shot) : fire plane rec = .ok shot := by
  unfold shotOf at h
  split at h
  · rename_i s hs
    rw [hs, Option.some.inj h]
  · exact absurd h (by simp)

/-- The plane has the quoted pair: the shot is on it. -/
theorem sent_pair_is_quoted_demo :
    ∃ routes o c plane size shot, universeCompile twoDlmms 3 = some routes ∧
      considerFramed (startOn (twoDlmmsLive routes)) sellOnPump [] = (o, some c) ∧
      loadRacePlane [[rowOn 1]] = some plane ∧
      sizeGate (oppRecord o c) plane true [] = some size ∧
      fire plane (oppRecord o c) = .ok shot ∧ SentAsQuoted o c shot := by
  have hrun : ((universeCompile twoDlmms 3).bind fun routes =>
      let r := considerFramed (startOn (twoDlmmsLive routes)) sellOnPump []
      r.2.bind fun c => (loadRacePlane [[rowOn 1]]).bind fun plane =>
        (sizeGate (oppRecord r.1 c) plane true []).bind fun _ =>
          (shotOf plane (oppRecord r.1 c)).bind fun _ => (quotedPair r.1.s.u c.hit).map fun q =>
            decide (SpellsPair r.1 (rowOn 1).pair q)) = some true := by
    decide +kernel
  obtain ⟨routes, hroutes, hrun⟩ := Option.bind_eq_some_iff.mp hrun
  obtain ⟨c, hc, hrun⟩ := Option.bind_eq_some_iff.mp hrun
  obtain ⟨plane, hplane, hrun⟩ := Option.bind_eq_some_iff.mp hrun
  obtain ⟨size, hsize, hrun⟩ := Option.bind_eq_some_iff.mp hrun
  obtain ⟨shot, hshot, hrun⟩ := Option.bind_eq_some_iff.mp hrun
  obtain ⟨q, hq, hspell⟩ := Option.map_eq_some_iff.mp hrun
  refine ⟨routes, _, c, plane, size, shot, hroutes, Prod.ext rfl hc, hplane, hsize,
    shotOf_eq_some hshot, ?_⟩
  refine (sent_pair_is_quoted_iff hplane hsize).mpr ?_ shot (shotOf_eq_some hshot)
  intro r hr _ _
  obtain rfl : r = rowOn 1 := by simpa using hr
  exact ⟨q, hq, of_decide_eq_true hspell⟩

/-- The plane has the OTHER DLMM pool: the record is quoted on the first one and
the shot is on the second. -/
theorem sent_pair_is_not_quoted :
    ∃ routes o c plane size shot, universeCompile twoDlmms 3 = some routes ∧
      considerFramed (startOn (twoDlmmsLive routes)) sellOnPump [] = (o, some c) ∧
      loadRacePlane [[rowOn 2]] = some plane ∧
      sizeGate (oppRecord o c) plane true [] = some size ∧
      fire plane (oppRecord o c) = .ok shot ∧ ¬SentAsQuoted o c shot := by
  have hrun : ((universeCompile twoDlmms 3).bind fun routes =>
      let r := considerFramed (startOn (twoDlmmsLive routes)) sellOnPump []
      r.2.bind fun c => (loadRacePlane [[rowOn 2]]).bind fun plane =>
        (sizeGate (oppRecord r.1 c) plane true []).bind fun _ =>
          (shotOf plane (oppRecord r.1 c)).bind fun shot => (quotedPair r.1.s.u c.hit).map fun q =>
            decide (SpellsPair r.1 (shot.row.dlmm, shot.row.pump) q)) = some false := by
    decide +kernel
  obtain ⟨routes, hroutes, hrun⟩ := Option.bind_eq_some_iff.mp hrun
  obtain ⟨c, hc, hrun⟩ := Option.bind_eq_some_iff.mp hrun
  obtain ⟨plane, hplane, hrun⟩ := Option.bind_eq_some_iff.mp hrun
  obtain ⟨size, hsize, hrun⟩ := Option.bind_eq_some_iff.mp hrun
  obtain ⟨shot, hshot, hrun⟩ := Option.bind_eq_some_iff.mp hrun
  obtain ⟨q, hq, hspell⟩ := Option.map_eq_some_iff.mp hrun
  refine ⟨routes, _, c, plane, size, shot, hroutes, Prod.ext rfl hc, hplane, hsize,
    shotOf_eq_some hshot, ?_⟩
  rintro ⟨d, ds, p, ps, hstates, hpair, -⟩
  rw [auditStates_pair hstates] at hq
  obtain rfl := Option.some.inj hq
  exact of_decide_eq_false hspell hpair

end ShredArb.Orbit
