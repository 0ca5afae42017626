/-
  ShredArb.Gates.Embed — the typed records among the raw ones.

  `Gates.Plane` reads a record, a route and a plane as typed fields.  Written
  out as dicts they are values the raw functions accept: nothing raises, and
  the answer is the typed one.  What is proved about the typed gate is so
  proved about the code on every well typed row.

  Main results:
    * `indexPlane_ofRoutes` — the two loaders build the same plane,
    * `sizeGate_ofRec` — the two gates answer alike.
-/
import ShredArb.Gates.Funnel

namespace ShredArb.Funnel

open ShredArb.Dict ShredArb.Py
open ShredArb.Gates (Text Route PlaneRow OppRec Cool poolPubkey hurdle maxIn minIn)

/-! ## §1. Typed rows as dicts. -/

/-- A route row of `alt_plane.json`. -/
def ofRoute (r : Route) : Val :=
  .dict [("dlmm".toList, .str r.dlmm), ("pump".toList, .str r.pump),
    ("RACE_READY".toList, .bool r.raceReady), ("tmpl0".toList, .str r.tmpl0),
    ("tmpl1".toList, .str r.tmpl1)]

def ofRoutes (rs : List Route) : Val := .list (rs.map ofRoute)

/-- A flag the code keeps as 0 or 1. -/
def ofFlag (b : Bool) : Val := .int (if b then 1 else 0)

/-- A row of a plane. -/
def ofRow (r : PlaneRow Char) : Obj :=
  [("dlmm".toList, .str r.dlmm), ("pump".toList, .str r.pump),
    ("plane_race_ready".toList, ofFlag r.planeRaceReady), ("hops_race_ready".toList, .int 0),
    ("vector_ready".toList, .int 0), ("tmpl0".toList, .str r.tmpl0),
    ("tmpl1".toList, .str r.tmpl1), ("ambiguous".toList, ofFlag r.ambiguous)]

def ofPlane (plane : Gates.Plane Char) : Plane := adjust (fun _ => ofRow) plane

/-- A field that may be missing. -/
def ofOption : Option Int → Val
  | none => .none
  | some n => .int n

/-- An `opp_synced` row of the journal. -/
def ofRec (rec : OppRec) : Obj :=
  [("pool".toList, .str rec.pool), ("frame".toList, .dict [("class".toList, .str rec.frameClass)]),
    ("race_ready".toList, .int rec.raceReady),
    ("arb".toList, .dict [("direction".toList, ofOption rec.direction)]),
    ("send_quote".toList, .dict [("cap_ok".toList, .bool rec.capOk),
      ("cap_gross".toList, .int rec.capGross)]),
    ("seq".toList, .str rec.seq), ("family".toList, ofOption rec.family),
    ("n_hop".toList, ofOption rec.nHop)]

def ofCoolRow (blocked : Bool) : Val := .dict [("SEND_BLOCKED".toList, .bool blocked)]

/-- The cooldowns. -/
def ofCool (cool : Cool) : Val :=
  .dict [("routes".toList, .dict (adjust (fun _ => ofCoolRow) cool))]

variable (rt : Runtime)

/-! ## §2. The planes. -/

/-- A pair of texts. -/
def ofPair (p : Text × Text) : Val × Val := (.str p.1, .str p.2)

def ofOwners (s : Gates.Owners) : Owners := ⟨adjust (fun _ => ofPair) s.owner, s.shared⟩

theorem str_falsy (key : Str) : (!(Val.str key).truthy) = key.isEmpty := by
  rw [Val.truthy, Bool.not_not]

theorem same_pair (p q : Text × Text) :
    (same (ofPair p).1 (ofPair q).1 && same (ofPair p).2 (ofPair q).2) = decide (p = q) := by
  have hsame (s t : Str) : same (.str s) (.str t) = (s == t) := by rw [same]
  show (same (.str p.1) (.str q.1) && same (.str p.2) (.str q.2)) = _
  rw [hsame, hsame, Bool.eq_iff_iff, Bool.and_eq_true, beq_iff_eq, beq_iff_eq, decide_eq_true_iff,
    Prod.ext_iff]

/-- A text key is its own text. -/
theorem ownKey_ofOwners (pair : Text × Text) (s : Gates.Owners) (key : Text) :
    ownKey rt (ofPair pair) (ofOwners s) (.str key) = .ok (ofOwners (Gates.ownKey pair s key)) := by
  unfold ownKey Gates.ownKey
  rw [str_falsy]
  by_cases hkey : key.isEmpty = true
  · rw [if_pos hkey, if_pos hkey]
  · rw [if_neg hkey, if_neg hkey]
    have hget : get (ofOwners s).owners key = (get s.owner key).map ofPair :=
      get_adjust (fun _ => ofPair) s.owner key
    show Except.ok _ = _
    rw [hget]
    cases get s.owner key with
    | none =>
      simp only [Option.map_none]
      rw [show (ofOwners s).owners = adjust (fun _ => ofPair) s.owner from rfl, adjust_set (fun _ => ofPair)]
      rfl
    | some prev =>
      simp only [Option.map_some, same_pair, ne_eq, ite_not, decide_eq_true_eq]
      rw [show (ofOwners s).owners = adjust (fun _ => ofPair) s.owner from rfl, adjust_set (fun _ => ofPair)]
      rfl

theorem ownRoute_ofOwners (s : Gates.Owners) (r : Route) :
    ownRoute rt (ofOwners s) (ofRoute r) =
      .ok (ofOwners ([r.dlmm, r.pump].foldl (Gates.ownKey r.pair) s)) :=
  foldlM_ok ofOwners Val.str (ownKey_ofOwners rt r.pair) [r.dlmm, r.pump] s

theorem routes_iter (rs : List Route) :
    ((ofRoutes rs).orElse (.list [])).iter = .ok (rs.map ofRoute) := by
  cases rs with
  | nil => rfl
  | cons r rs => rfl

theorem ambiguousPoolKeys_ofRoutes (rs : List Route) :
    ambiguousPoolKeys rt (ofRoutes rs) = .ok (Gates.ambiguousPoolKeys rs) := by
  have hloop := foldlM_ok ofOwners ofRoute (ownRoute_ofOwners rt) rs ⟨[], []⟩
  unfold ambiguousPoolKeys
  rw [ok_bind (routes_iter rs)]
  exact ok_bind hloop _

theorem planeRec_ofRoute (r : Route) :
    planeRec rt (ofRoute r) = .ok (ofRow (Gates.indexRow r)) :=
  rfl

theorem markShared_ofRow (ambiguous : List Text) (key : Text) (row : PlaneRow Char) :
    markShared ambiguous key (ofRow row) = ofRow (Gates.markShared ambiguous key row) := by
  unfold markShared Gates.markShared
  split
  · rfl
  · rfl

theorem putKey_ofPlane (ambiguous : List Text) (row : PlaneRow Char) (plane : Gates.Plane Char)
    (key : Text) :
    putKey rt ambiguous (ofRow row) (ofPlane plane) (.str key) = .ok (ofPlane
      (if key.isEmpty then plane
        else set plane key (Gates.markShared ambiguous key row))) := by
  unfold putKey
  rw [str_falsy]
  by_cases hkey : key.isEmpty = true
  · rw [if_pos hkey, if_pos hkey]
  · rw [if_neg hkey, if_neg hkey]
    show Except.ok _ = _
    rw [markShared_ofRow, ofPlane, adjust_set (fun _ => ofRow)]
    rfl

theorem putRoute_ofPlane (ambiguous : List Text) (plane : Gates.Plane Char) (r : Route) :
    putRoute rt ambiguous (ofPlane plane) (ofRoute r) = .ok (ofPlane
      ([r.dlmm, r.pump].foldl (fun d key => if key.isEmpty then d
        else set d key (Gates.markShared ambiguous key (Gates.indexRow r))) plane)) :=
  foldlM_ok ofPlane Val.str (putKey_ofPlane rt ambiguous (Gates.indexRow r)) [r.dlmm, r.pump] plane

/-- **The two `index_plane` build the same plane.** -/
theorem indexPlane_ofRoutes (rs : List Route) :
    indexPlane rt (ofRoutes rs) = .ok (ofPlane (Gates.indexPlane rs)) := by
  unfold indexPlane
  rw [ok_bind (ambiguousPoolKeys_ofRoutes rt rs), ok_bind (routes_iter rs)]
  exact foldlM_ok ofPlane ofRoute (putRoute_ofPlane rt (Gates.ambiguousPoolKeys rs)) rs []

/-! ## §3. The gate. -/

theorem planeRow_ofPlane (plane : Gates.Plane Char) (pool : Text) :
    planeRow (ofPlane plane) pool = (Gates.planeRow plane pool).map ofRow := by
  have hget (key : Text) : get (ofPlane plane) key = (get plane key).map ofRow :=
    get_adjust (fun _ => ofRow) plane key
  unfold planeRow Gates.planeRow
  by_cases hpool : pool.isEmpty = true
  · rw [if_pos hpool, if_pos hpool]
    rfl
  · rw [if_neg hpool, if_neg hpool, hget, hget]
    cases get plane pool <;> rfl

theorem orElse_str (s : Str) : (Val.str s).orElse (.str []) = .str s := by
  cases s with
  | nil => rfl
  | cons c cs => rfl

theorem orElse_int (n : Int) : (Val.int n).orElse (.int 0) = .int n := by
  by_cases hn : n = 0
  · rw [hn]
    rfl
  · rw [Val.orElse, if_pos]
    exact bne_iff_ne.mpr hn

theorem eqInt_int (n m : Int) : (Val.int n).eqInt m = (n == m) := by
  rw [Bool.eq_iff_iff, Val.eqInt, beq_iff_eq, beq_iff_eq]
  show some (n : Rat) = some (m : Rat) ↔ n = m
  rw [Option.some_inj, Rat.intCast_inj]

theorem eqInt_ofFlag (b : Bool) : (ofFlag b).eqInt 1 = b := by
  rw [ofFlag, eqInt_int]
  cases b <;> rfl

theorem text_ofRec (rec : OppRec) :
    text rt ((field (ofRec rec) "pool").orElse (.str [])) = .ok rec.pool := by
  show text rt ((Val.str rec.pool).orElse (.str [])) = _
  rw [orElse_str]
  rfl

theorem framedReady_ofRec (rec : OppRec) (plane : Gates.Plane Char) (readyExists : Bool) :
    framedReady rt (ofRec rec) (ofPlane plane) readyExists =
      .ok (Gates.framedReady rec plane readyExists) := by
  have hcls : ((field (ofRec rec) "frame").orElse (.dict [])).field "class" =
      .ok (.str rec.frameClass) := rfl
  unfold framedReady Gates.framedReady
  rw [ok_bind (text_ofRec rt rec), ok_bind hcls, planeRow_ofPlane, raceFlags_both]
  cases Gates.planeRow plane rec.pool with
  | none =>
    show Except.ok _ = _
    rw [Option.map_none, Bool.and_false]
  | some row =>
    have hrace : (field (ofRec rec) "race_ready").eqInt 1 = (rec.raceReady == 1) :=
      eqInt_int rec.raceReady 1
    have hready : (field (ofRow row) "plane_race_ready").eqInt 1 = row.planeRaceReady :=
      eqInt_ofFlag row.planeRaceReady
    rw [Option.map_some, Option.getD_some, hrace, hready]
    exact congrArg Except.ok
      (Bool.and_assoc _ (!row.tmpl0.isEmpty) (!row.tmpl1.isEmpty)).symm

/-- The blocked rows, each read in turn. -/
theorem anyM_ofCool (cool : Cool) (pref poolText : Text) :
    List.anyM (blockedItem pref poolText) (adjust (fun _ => ofCoolRow) cool) =
      .ok (cool.any fun e => e.2 && (pref.isPrefixOf e.1 || e.1.isPrefixOf poolText)) := by
  induction cool with
  | nil => rfl
  | cons e cool ih =>
    have hitem : blockedItem pref poolText (e.1, ofCoolRow e.2) =
        .ok (e.2 && (pref.isPrefixOf e.1 || e.1.isPrefixOf poolText)) := rfl
    show List.anyM _ ((e.1, ofCoolRow e.2) :: adjust (fun _ => ofCoolRow) cool) = _
    rw [List.anyM, ok_bind hitem, List.any_cons]
    -- the loop returns at the first blocked row
    cases e.2 && (pref.isPrefixOf e.1 || e.1.isPrefixOf poolText) with
    | false => exact ih
    | true => rfl

theorem blockedKey_ofCool (cool : Cool) (key : Text) :
    blockedKey (.dict (adjust (fun _ => ofCoolRow) cool)) key = .ok ((get cool key).getD false) := by
  show ((((get (adjust (fun _ => ofCoolRow) cool) key).getD .none).orElse (.dict [])).field
    "SEND_BLOCKED" >>= fun blocked => Except.ok blocked.truthy) = _
  rw [get_adjust]
  cases get cool key <;> rfl

theorem routeBlocked_ofCool (pool : Text) (cool : Cool) :
    routeBlocked pool (ofCool cool) = .ok (Gates.routeBlocked pool cool) := by
  have hroutes : ((ofCool cool).orElse (.dict [])).field "routes" =
      .ok (.dict (adjust (fun _ => ofCoolRow) cool)) := rfl
  have hdict : (Val.dict (adjust (fun _ => ofCoolRow) cool)).orElse (.dict []) =
      .dict (adjust (fun _ => ofCoolRow) cool) := by
    cases cool <;> rfl
  unfold routeBlocked Gates.routeBlocked
  rw [ok_bind hroutes]
  simp only
  rw [hdict, ok_bind (blockedKey_ofCool cool pool)]
  cases (get cool pool).getD false with
  | true => rfl
  | false =>
    rw [if_neg Bool.false_ne_true, Bool.false_or]
    have hb58 : (if poolPubkey pool ≠ pool then
        blockedKey (.dict (adjust (fun _ => ofCoolRow) cool)) (poolPubkey pool) else pure false) =
        .ok (poolPubkey pool != pool && (get cool (poolPubkey pool)).getD false) := by
      rw [blockedKey_ofCool]
      by_cases heq : poolPubkey pool = pool
      · rw [if_neg (not_not.mpr heq), bne, beq_iff_eq.mpr heq]
        rfl
      · rw [if_pos heq, bne_iff_ne.mpr heq, Bool.true_and]
    rw [ok_bind hb58]
    cases poolPubkey pool != pool && (get cool (poolPubkey pool)).getD false with
    | true => rfl
    | false =>
      rw [if_neg Bool.false_ne_true, Bool.false_or]
      exact anyM_ofCool cool _ _

/-- `arb` of a typed record. -/
theorem arb_ofRec (rec : OppRec) : (field (ofRec rec) "arb").orElse (.dict []) =
    .dict [("direction".toList, ofOption rec.direction)] :=
  rfl

theorem noneGet_ofOption (x : Option Int) (direction : Val) (k : String)
    (hk : (Val.dict [("direction".toList, direction)]).field k = .ok .none) :
    noneGet (ofOption x) (.dict [("direction".toList, direction)]) k = .ok (ofOption x) := by
  cases x with
  | none => exact hk
  | some n => rfl

theorem v1Executable_ofRec (family nHop : Option Int) (seq : Text) :
    v1Executable rt (ofOption family) (ofOption nHop) (if seq.isEmpty then .none else .str seq) =
      .ok (Gates.v1Executable family nHop seq) := by
  cases seq with
  | nil =>
    cases family with
    | none => rfl
    | some fam => cases nHop <;> rfl
  | cons c cs => rfl

theorem shapeOk_ofRec (rec : OppRec) :
    shapeOk rt (ofRec rec) ((field (ofRec rec) "arb").orElse (.dict [])) =
      .ok (!((!rec.seq.isEmpty || rec.family.isSome || rec.nHop.isSome) &&
        !Gates.v1Executable rec.family rec.nHop rec.seq)) := by
  have hisNone (x : Option Int) : (!(ofOption x).isNone) = x.isSome := by cases x <;> rfl
  have hseq : orGet (field (ofRec rec) "seq") ((field (ofRec rec) "arb").orElse (.dict [])) "seq" =
      .ok (if rec.seq.isEmpty then .none else .str rec.seq) := by
    show orGet (.str rec.seq) _ "seq" = _
    cases rec.seq <;> rfl
  have htruthy : (if rec.seq.isEmpty then Val.none else .str rec.seq).truthy = !rec.seq.isEmpty := by
    cases rec.seq <;> rfl
  have htext : seqText rt (if rec.seq.isEmpty then Val.none else .str rec.seq) =
      .ok (if rec.seq.isEmpty then .none else .str rec.seq) := by
    cases rec.seq <;> rfl
  have hfam := noneGet_ofOption rec.family (ofOption rec.direction) "family" rfl
  have hhops := noneGet_ofOption rec.nHop (ofOption rec.direction) "n_hop" rfl
  unfold shapeOk
  rw [ok_bind hseq, arb_ofRec]
  rw [show field (ofRec rec) "family" = ofOption rec.family from rfl,
    show field (ofRec rec) "n_hop" = ofOption rec.nHop from rfl, ok_bind hfam, ok_bind hhops,
    htruthy, hisNone, hisNone]
  cases !rec.seq.isEmpty || rec.family.isSome || rec.nHop.isSome with
  | false => rfl
  | true =>
    rw [if_pos rfl, ok_bind htext, v1Executable_ofRec, Bool.true_and, Bool.not_not]

/-- **The two gates answer alike on every typed record.** -/
theorem sizeGate_ofRec (rec : OppRec) (plane : Gates.Plane Char) (readyExists : Bool)
    (cool : Cool) :
    sizeGate rt (ofRec rec) (ofPlane plane) readyExists (ofCool cool) =
      .ok (Gates.sizeGate rec plane readyExists cool) := by
  have hdirection : ((field (ofRec rec) "arb").orElse (.dict [])).field "direction" =
      .ok (ofOption rec.direction) := rfl
  have hcapOk : ((field (ofRec rec) "send_quote").orElse (.dict [])).field "cap_ok" =
      .ok (.bool rec.capOk) := rfl
  have htruthy : (Val.bool rec.capOk).truthy = rec.capOk := rfl
  have hcapGross : ((field (ofRec rec) "send_quote").orElse (.dict [])).field "cap_gross" =
      .ok (.int rec.capGross) := rfl
  have hgross : toInt rt ((Val.int rec.capGross).orElse (.int 0)) = .ok rec.capGross := by
    rw [orElse_int]
    rfl
  -- test by test: where the typed gate stops, the raw one does
  unfold sizeGate Gates.sizeGate
  rw [ok_bind (framedReady_ofRec rt rec plane readyExists)]
  by_cases hframed : (!Gates.framedReady rec plane readyExists) = true
  · rw [if_pos hframed, if_pos hframed]
    rfl
  · rw [if_neg hframed, if_neg hframed, ok_bind hdirection]
    cases rec.direction with
    | none => rfl
    | some dir =>
      have hdir : toInt rt (ofOption (some dir)) = .ok dir := rfl
      have hsome : (ofOption (some dir)).isNone = false := rfl
      rw [hsome, if_neg Bool.false_ne_true, ok_bind hdir]
      simp only
      by_cases hside : dir ≠ 0 ∧ dir ≠ 1
      · rw [if_pos hside, if_pos hside]
        rfl
      · rw [if_neg hside, if_neg hside, ok_bind (text_ofRec rt rec), ok_bind (routeBlocked_ofCool rec.pool cool)]
        by_cases hblocked : Gates.routeBlocked rec.pool cool = true
        · rw [if_pos hblocked, if_pos hblocked]
          rfl
        · rw [if_neg hblocked, if_neg hblocked, ok_bind hcapOk, htruthy]
          by_cases hcap : (!rec.capOk) = true
          · rw [if_pos hcap, if_pos hcap]
            rfl
          · rw [if_neg hcap, if_neg hcap, ok_bind hcapGross, ok_bind hgross]
            by_cases hhurdle : maxIn < minIn ∨ rec.capGross ≤ hurdle
            · rw [if_pos hhurdle, if_pos hhurdle]
              rfl
            · rw [if_neg hhurdle, if_neg hhurdle, ok_bind (shapeOk_ofRec rt rec), Bool.not_not]
              split <;> rfl

end ShredArb.Funnel
