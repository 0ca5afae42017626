/-
  ShredArb.Gates.Funnel — the bucket of an opportunity and the gate
  (`arb-exec/scripts/exec_gates.py`).

  The funnel sorts every `opp_synced` row of the journal into one bucket; the
  sender asks the gate for a size.  `classify_opp` tests again, in its own
  order and with its own words, what the gate tests, and asks the gate LAST.
  Records, planes and cooldowns are whatever the parsed JSON holds: here the
  fields are Python values and the builtins may raise.

  Main results:
    * `sizeGate_eq_some_iff` — when the gate returns a size,
    * `indexPlane_rows` — the flags of a row of `index_plane`,
    * `classifyOpp_of_clears` — where `classify_opp` asks the gate,
    * `would_fire_iff_size`.
-/
import ShredArb.Gates.Plane
import ShredArb.Lib.Py

namespace ShredArb.Funnel

open ShredArb.Dict ShredArb.Py
open ShredArb.Gates (poolPubkey hurdle maxIn minIn)

/-! ## §1. Planes. -/

/-- A plane: rows by pool key. -/
abbrev Plane := Entries Str Obj

/-- `owners` and `ambiguous` of the loop. -/
structure Owners where
  owners : Entries Str (Val × Val)
  ambiguous : List Str

section Build

variable (rt : Runtime)

/-- One key of a route. -/
def ownKey (pair : Val × Val) (s : Owners) (key : Val) : Except Err Owners :=
  if !key.truthy then .ok s
  else do
    let key ← text rt key
    let ambiguous := match get s.owners key with
      | none => s.ambiguous
      | some prev =>
        if same prev.1 pair.1 && same prev.2 pair.2 then s.ambiguous else key :: s.ambiguous
    .ok ⟨set s.owners key pair, ambiguous⟩

/-- The keys of one route. -/
def ownRoute (s : Owners) (r : Val) : Except Err Owners := do
  let dlmm ← r.field "dlmm"
  let pump ← r.field "pump"
  [dlmm, pump].foldlM (ownKey rt (dlmm, pump)) s

/-- `ambiguous_pool_keys`. -/
def ambiguousPoolKeys (routes : Val) : Except Err (List Str) := do
  let rs ← (routes.orElse (.list [])).iter
  let s ← rs.foldlM (ownRoute rt) ⟨[], []⟩
  .ok s.ambiguous

/-- `rec` of `index_plane`. -/
def planeRec (r : Val) : Except Err Obj := do
  let tmpl0 ← r.field "tmpl0"
  let tmpl1 ← r.field "tmpl1"
  let raceReady ← r.field "RACE_READY"
  let planeReady := raceReady.truthy && tmpl0.truthy && tmpl1.truthy
  let dlmm ← r.field "dlmm"
  let pump ← r.field "pump"
  let hops ← r.field "race_ready"
  let hopsReady ← toInt rt (hops.orElse (.int 0))
  let vector ← r.field "vector_ready"
  let vectorReady ← toInt rt (vector.orElse (.int 0))
  .ok [("dlmm".toList, dlmm), ("pump".toList, pump),
    ("plane_race_ready".toList, .int (if planeReady then 1 else 0)),
    ("hops_race_ready".toList, .int hopsReady), ("vector_ready".toList, .int vectorReady),
    ("tmpl0".toList, tmpl0), ("tmpl1".toList, tmpl1), ("ambiguous".toList, .int 0)]

/-- Mark a shared key: not ready. -/
def markShared (ambiguous : List Str) (key : Str) (row : Obj) : Obj :=
  if ambiguous.contains key then
    set (set row "plane_race_ready".toList (.int 0)) "ambiguous".toList (.int 1)
  else row

/-- One key of a row. -/
def putKey (ambiguous : List Str) (row : Obj) (plane : Plane) (key : Val) : Except Err Plane :=
  if !key.truthy then .ok plane
  else do
    let key ← text rt key
    .ok (set plane key (markShared ambiguous key row))

/-- The keys of one row. -/
def putRoute (ambiguous : List Str) (plane : Plane) (r : Val) : Except Err Plane := do
  let row ← planeRec rt r
  let dlmm ← r.field "dlmm"
  let pump ← r.field "pump"
  [dlmm, pump].foldlM (putKey rt ambiguous row) plane

/-- `index_plane`. -/
def indexPlane (routes : Val) : Except Err Plane := do
  let ambiguous ← ambiguousPoolKeys rt routes
  let rs ← (routes.orElse (.list [])).iter
  rs.foldlM (putRoute rt ambiguous) []

end Build

/-- `plane_row`. -/
def planeRow (plane : Plane) (pool : Str) : Option Obj :=
  if pool.isEmpty then none
  else match get plane pool with
  | some row => some row
  | none => get plane (poolPubkey pool)

/-! ## §2. The gate. -/

/-- The result of `race_flags`. -/
structure RaceFlags where
  txExact : Bool
  planeRaceReady : Bool
  both : Bool

/-- `race_flags`. -/
def raceFlags (journalRaceReady planeRaceReady : Val) : RaceFlags :=
  let txExact := journalRaceReady.eqInt 1 || journalRaceReady.isTrue
  let plane := planeRaceReady.eqInt 1 || planeRaceReady.isTrue
  ⟨txExact, plane, txExact && plane⟩

section Gate

variable (rt : Runtime)

/-- `x in SUPPORTED_SEQ`: a list or a dict has no hash. -/
def supportedSeq : Val → Except Err Bool
  | .list _ => .error .typeError
  | .dict _ => .error .typeError
  | seq => .ok (seq.eqStr "dlmm-pump" || seq.eqStr "pump-dlmm")

/-- `int(x)` under `except (TypeError, ValueError)`. -/
def intOr {α : Type} (x : Val) (caught : α) (f : Int → Except Err α) : Except Err α :=
  match toInt rt x with
  | .ok n => f n
  | .error .typeError => .ok caught
  | .error .valueError => .ok caught
  | .error e => .error e

/-- `v1_executable`. -/
def v1Executable (family nHop seq : Val) : Except Err Bool :=
  if seq.truthy then supportedSeq seq
  else
    intOr rt family false fun fam => do
      let hops ← if nHop.isNone then .ok 0 else intOr rt nHop 0 fun hops => .ok hops
      .ok (if hops ≥ 3 then false else fam == 0 || fam == 5)

/-- The rows of `routes.items()` that `route_blocked` looks for. -/
def blockedItem (pref poolText : Str) (e : Str × Val) : Except Err Bool := do
  let blocked ← e.2.field "SEND_BLOCKED"
  .ok (blocked.truthy && (pref.isPrefixOf e.1 || e.1.isPrefixOf poolText))

/-- `(routes.get(key) or {}).get("SEND_BLOCKED")`. -/
def blockedKey (routes : Val) (key : Str) : Except Err Bool := do
  let row ← routes.getItem key
  let blocked ← (row.orElse (.dict [])).field "SEND_BLOCKED"
  .ok blocked.truthy

/-- `route_blocked`. -/
def routeBlocked (pool : Str) (cool : Val) : Except Err Bool := do
  let routes ← (cool.orElse (.dict [])).field "routes"
  let routes := routes.orElse (.dict [])
  if ← blockedKey routes pool then return true
  let b58 := poolPubkey pool
  if ← (if b58 ≠ pool then blockedKey routes b58 else pure false) then return true
  let poolText := if b58.isEmpty then pool else b58
  let items ← routes.items
  items.anyM (blockedItem (poolText.take 8) poolText)

/-- `framed_ready`. -/
def framedReady (rec : Obj) (plane : Plane) (readyExists : Bool) : Except Err Bool := do
  let fr := (field rec "frame").orElse (.dict [])
  let pool ← text rt ((field rec "pool").orElse (.str []))
  let row := planeRow plane pool
  let flags := raceFlags (field rec "race_ready") (field (row.getD []) "plane_race_ready")
  let cls ← fr.field "class"
  return cls.eqStr "framed" && flags.both && readyExists && !pool.isEmpty &&
    match row with
    | none => false
    | some row => (field row "tmpl0").truthy && (field row "tmpl1").truthy

/-- `x or arb.get(k)`. -/
def orGet (x arb : Val) (k : String) : Except Err Val :=
  if x.truthy then .ok x else arb.field k

/-- `x`, but `arb.get(k)` where `x is None`. -/
def noneGet (x arb : Val) (k : String) : Except Err Val :=
  if x.isNone then arb.field k else .ok x

/-- `str(arb_seq) if arb_seq else None`. -/
def seqText (arbSeq : Val) : Except Err Val :=
  if arbSeq.truthy then (text rt arbSeq).map .str else .ok .none

/-- The shape test of `size_gate`: a record that names none passes. -/
def shapeOk (rec : Obj) (arb : Val) : Except Err Bool := do
  let arbSeq ← orGet (field rec "seq") arb "seq"
  let arbFam ← noneGet (field rec "family") arb "family"
  let arbHops ← noneGet (field rec "n_hop") arb "n_hop"
  if arbSeq.truthy || !arbFam.isNone || !arbHops.isNone then
    let seq ← seqText rt arbSeq
    v1Executable rt arbFam arbHops seq
  else return true

/-- `size_gate`. -/
def sizeGate (rec : Obj) (plane : Plane) (readyExists : Bool) (cool : Val) :
    Except Err (Option (Int × Int)) := do
  let arb := (field rec "arb").orElse (.dict [])
  if !(← framedReady rt rec plane readyExists) then return none
  let direction ← arb.field "direction"
  if direction.isNone then return none
  let dir ← toInt rt direction
  if dir ≠ 0 ∧ dir ≠ 1 then return none
  let pool ← text rt ((field rec "pool").orElse (.str []))
  if ← routeBlocked pool cool then return none
  let sq := (field rec "send_quote").orElse (.dict [])
  let capOk ← sq.field "cap_ok"
  if !capOk.truthy then return none
  let capGross ← sq.field "cap_gross"
  let gross ← toInt rt (capGross.orElse (.int 0))
  if maxIn < minIn ∨ gross ≤ hurdle then return none
  if !(← shapeOk rt rec arb) then return none
  return some (maxIn, gross)

/-- The buckets of `classify_opp`. -/
inductive Bucket where
  | notV1Executable
  | notFramed
  | ixOnly
  | readyFileMissing
  | planeMiss
  | ambiguousPool
  | planeNotRaceReady
  | badDirection
  | cooldown
  | capNotOk
  | belowOneshotHurdle
  | sizeGate
  | wouldFire
  deriving DecidableEq, Repr

/-- `classify_opp`. -/
def classifyOpp (rec : Obj) (plane : Plane) (readyExists : Bool) (cool family nHop seq : Val) :
    Except Err Bucket := do
  if !family.isNone || !nHop.isNone || seq.truthy then
    if !(← v1Executable rt family nHop seq) then return .notV1Executable
  let fr := (field rec "frame").orElse (.dict [])
  let cls ← fr.field "class"
  if !cls.eqStr "framed" then return .notFramed
  if !(field rec "race_ready").eqInt 1 then return .ixOnly
  if !readyExists then return .readyFileMissing
  let pool ← text rt ((field rec "pool").orElse (.str []))
  match planeRow plane pool with
  | none => return .planeMiss
  | some row =>
    let ambiguous ← toInt rt ((field row "ambiguous").orElse (.int 0))
    if ambiguous = 1 then return .ambiguousPool
    let ready ← toInt rt ((field row "plane_race_ready").orElse (.int 0))
    if ready ≠ 1 ∨ (field row "tmpl0").truthy = false ∨ (field row "tmpl1").truthy = false then
      return .planeNotRaceReady
    let arb := (field rec "arb").orElse (.dict [])
    let direction ← arb.field "direction"
    if direction.isNone then return .badDirection
    let dir ← toInt rt direction
    if dir ≠ 0 ∧ dir ≠ 1 then return .badDirection
    if ← routeBlocked pool cool then return .cooldown
    let sq := (field rec "send_quote").orElse (.dict [])
    let capOk ← sq.field "cap_ok"
    if !capOk.truthy then return .capNotOk
    let capGross ← sq.field "cap_gross"
    let gross ← toInt rt (capGross.orElse (.int 0))
    if maxIn < minIn ∨ gross ≤ hurdle then return .belowOneshotHurdle
    match ← sizeGate rt rec plane readyExists cool with
    | none => return .sizeGate
    | some _ => return .wouldFire

end Gate

variable {rt : Runtime}

/-! ## §3. What the two functions read. -/

/-- The values a record is read as. -/
structure Reading (rt : Runtime) (rec : Obj) (plane : Plane) where
  cls : Val
  pool : Str
  row : Obj
  direction : Val
  dir : Int
  capOk : Val
  capGross : Val
  gross : Int
  cls_eq : ((field rec "frame").orElse (.dict [])).field "class" = .ok cls
  pool_eq : text rt ((field rec "pool").orElse (.str [])) = .ok pool
  row_eq : planeRow plane pool = some row
  direction_eq : ((field rec "arb").orElse (.dict [])).field "direction" = .ok direction
  dir_eq : toInt rt direction = .ok dir
  capOk_eq : ((field rec "send_quote").orElse (.dict [])).field "cap_ok" = .ok capOk
  capGross_eq : ((field rec "send_quote").orElse (.dict [])).field "cap_gross" = .ok capGross
  gross_eq : toInt rt (capGross.orElse (.int 0)) = .ok gross

/-- What both functions ask of these values. -/
structure Reading.Clears {rec : Obj} {plane : Plane} (r : Reading rt rec plane)
    (readyExists : Bool) (cool : Val) : Prop where
  framed : r.cls.eqStr "framed" = true
  raceReady : (field rec "race_ready").eqInt 1 = true
  planeReady : (field r.row "plane_race_ready").eqInt 1 = true
  tmpl0 : (field r.row "tmpl0").truthy = true
  tmpl1 : (field r.row "tmpl1").truthy = true
  ready : readyExists = true
  directed : r.direction.isNone = false
  side : r.dir = 0 ∨ r.dir = 1
  warm : routeBlocked r.pool cool = .ok false
  cap : r.capOk.truthy = true
  gross : hurdle < r.gross

theorem Reading.Clears.not_aside {rec : Obj} {plane : Plane} {r : Reading rt rec plane}
    {readyExists : Bool} {cool : Val} (h : r.Clears readyExists cool) :
    ¬ (r.dir ≠ 0 ∧ r.dir ≠ 1) := by
  rintro ⟨h0, h1⟩
  rcases h.side with hd | hd
  · exact h0 hd
  · exact h1 hd

theorem Reading.Clears.not_below {rec : Obj} {plane : Plane} {r : Reading rt rec plane}
    {readyExists : Bool} {cool : Val} (h : r.Clears readyExists cool) :
    ¬ (maxIn < minIn ∨ r.gross ≤ hurdle) := by
  rintro (hin | hgross)
  · exact absurd hin (by decide)
  · exact absurd h.gross (not_lt.mpr hgross)

theorem eqInt_one_of_isTrue {x : Val} (h : x.isTrue = true) : x.eqInt 1 = true := by
  cases x with
  | bool b =>
    cases b with
    | false => cases h
    | true => decide +kernel
  | none | int | float | str | list | dict => cases h

/-- `== 1 or is True` says no more than `== 1`. -/
theorem raceFlags_both (x y : Val) : (raceFlags x y).both = (x.eqInt 1 && y.eqInt 1) := by
  have hflag (v : Val) : (v.eqInt 1 || v.isTrue) = v.eqInt 1 := by
    cases htrue : v.isTrue with
    | false => rw [Bool.or_false]
    | true => rw [eqInt_one_of_isTrue htrue, Bool.or_true]
  show ((x.eqInt 1 || x.isTrue) && (y.eqInt 1 || y.isTrue)) = _
  rw [hflag, hflag]

theorem planeRow_nil (plane : Plane) : planeRow plane [] = none := rfl

variable {rec : Obj} {plane : Plane} {readyExists : Bool} {cool : Val} {size : Int × Int}

/-- What a framed and ready record has. -/
theorem framedReady_true (h : framedReady rt rec plane readyExists = .ok true) :
    ∃ cls pool row, ((field rec "frame").orElse (.dict [])).field "class" = .ok cls ∧
      text rt ((field rec "pool").orElse (.str [])) = .ok pool ∧ planeRow plane pool = some row ∧
      cls.eqStr "framed" = true ∧ (field rec "race_ready").eqInt 1 = true ∧
      (field row "plane_race_ready").eqInt 1 = true ∧ readyExists = true ∧
      (field row "tmpl0").truthy = true ∧ (field row "tmpl1").truthy = true := by
  unfold framedReady at h
  obtain ⟨pool, hpool, h⟩ := bind_ok_iff.mp h
  obtain ⟨cls, hcls, h⟩ := bind_ok_iff.mp h
  have hall := Except.ok.inj h
  rw [raceFlags_both] at hall
  cases hrow : planeRow plane pool with
  | none =>
    rw [hrow, Bool.and_false] at hall
    cases hall
  | some row =>
    rw [hrow, Option.getD_some] at hall
    simp only [Bool.and_eq_true] at hall
    obtain ⟨⟨⟨⟨hframed, hrace, hplane⟩, hready⟩, -⟩, htmpl0, htmpl1⟩ := hall
    exact ⟨cls, pool, row, hcls, hpool, hrow, hframed, hrace, hplane, hready, htmpl0, htmpl1⟩

/-- A size is the size of a record that clears the gate and has a shape. -/
theorem clears_of_sizeGate (h : sizeGate rt rec plane readyExists cool = .ok (some size)) :
    ∃ r : Reading rt rec plane, r.Clears readyExists cool ∧
      shapeOk rt rec ((field rec "arb").orElse (.dict [])) = .ok true ∧
      size = (maxIn, r.gross) := by
  have hne : (none : Option (Int × Int)) ≠ some size := (Option.some_ne_none size).symm
  -- every early return of the gate is `None`, so none was taken
  unfold sizeGate at h
  obtain ⟨framed, hframed, h⟩ := bind_ok_iff.mp h
  obtain ⟨hf, h⟩ := of_unless h hne
  obtain ⟨direction, hdirection, h⟩ := bind_ok_iff.mp h
  obtain ⟨hsome, h⟩ := of_unless h hne
  obtain ⟨dir, hdir, h⟩ := bind_ok_iff.mp h
  obtain ⟨hside, h⟩ := of_unless h hne
  obtain ⟨pool, hpool, h⟩ := bind_ok_iff.mp h
  obtain ⟨blocked, hblocked, h⟩ := bind_ok_iff.mp h
  obtain ⟨hwarm, h⟩ := of_unless h hne
  obtain ⟨capOk, hcapOk, h⟩ := bind_ok_iff.mp h
  obtain ⟨hcap, h⟩ := of_unless h hne
  obtain ⟨capGross, hcapGross, h⟩ := bind_ok_iff.mp h
  obtain ⟨gross, hgross, h⟩ := bind_ok_iff.mp h
  obtain ⟨hhurdle, h⟩ := of_unless h hne
  obtain ⟨shape, hshape, h⟩ := bind_ok_iff.mp h
  obtain ⟨hshaped, h⟩ := of_unless h hne
  rw [Bool.not_eq_true', Bool.not_eq_false] at hf hcap hshaped
  rw [Bool.not_eq_true] at hsome hwarm
  subst hf hwarm hshaped
  obtain ⟨cls, pool', row, hcls, hpool', hrow, hfr, hrace, hplane, hready, htmpl0, htmpl1⟩ :=
    framedReady_true hframed
  obtain rfl := Except.ok.inj (hpool.symm.trans hpool')
  have hdir01 : dir = 0 ∨ dir = 1 := by omega
  have habove : hurdle < gross := by omega
  refine ⟨⟨cls, pool, row, direction, dir, capOk, capGross, gross, hcls, hpool, hrow, hdirection,
    hdir, hcapOk, hcapGross, hgross⟩, ?_, hshape, (Option.some.inj (Except.ok.inj h)).symm⟩
  exact {
    framed := hfr
    raceReady := hrace
    planeReady := hplane
    tmpl0 := htmpl0
    tmpl1 := htmpl1
    ready := hready
    directed := hsome
    side := hdir01
    warm := hblocked
    cap := hcap
    gross := habove }


/-- Past every test but the last, the gate asks for the shape. -/
theorem sizeGate_of_clears (r : Reading rt rec plane) (h : r.Clears readyExists cool) :
    sizeGate rt rec plane readyExists cool =
      (shapeOk rt rec ((field rec "arb").orElse (.dict []))).map fun shape =>
        if shape then some (maxIn, r.gross) else none := by
  have hpool : r.pool.isEmpty = false := by
    -- the empty pool has no row
    cases hp : r.pool with
    | nil =>
      have hrow := r.row_eq
      rw [hp, planeRow_nil] at hrow
      cases hrow
    | cons c cs => rfl
  have hframed : framedReady rt rec plane readyExists = .ok true := by
    unfold framedReady
    rw [ok_bind r.pool_eq, ok_bind r.cls_eq, r.row_eq, raceFlags_both, Option.getD_some, h.framed,
      h.raceReady, h.planeReady, h.ready, hpool]
    simp only
    rw [h.tmpl0, h.tmpl1]
    rfl
  unfold sizeGate
  rw [ok_bind hframed, if_neg (by decide), ok_bind r.direction_eq, h.directed,
    if_neg Bool.false_ne_true, ok_bind r.dir_eq, if_neg h.not_aside, ok_bind r.pool_eq, ok_bind h.warm,
    if_neg Bool.false_ne_true, ok_bind r.capOk_eq, h.cap, if_neg (by decide),
    ok_bind r.capGross_eq, ok_bind r.gross_eq, if_neg h.not_below]
  cases shapeOk rt rec ((field rec "arb").orElse (.dict [])) with
  | error e => rfl
  | ok shape => cases shape <;> rfl

/-- **The gate returns a size exactly for a record that clears it and has a
shape.** -/
theorem sizeGate_eq_some_iff :
    sizeGate rt rec plane readyExists cool = .ok (some size) ↔
      ∃ r : Reading rt rec plane, r.Clears readyExists cool ∧
        shapeOk rt rec ((field rec "arb").orElse (.dict [])) = .ok true ∧
        size = (maxIn, r.gross) := by
  constructor
  · exact clears_of_sizeGate
  · rintro ⟨r, hr, hshape, rfl⟩
    rw [sizeGate_of_clears r hr, hshape]
    rfl

/-! ## §4. Rows of a plane. -/

/-- The flags of a row of `index_plane`. -/
structure IndexedRow (row : Obj) : Prop where
  ready : field row "plane_race_ready" = .int 0 ∨ (field row "plane_race_ready" = .int 1 ∧
    (field row "tmpl0").truthy = true ∧ (field row "tmpl1").truthy = true)
  ambiguous : field row "ambiguous" = .int 0 ∨
    (field row "ambiguous" = .int 1 ∧ field row "plane_race_ready" = .int 0)

theorem planeRec_indexed {r : Val} {row : Obj} (h : planeRec rt r = .ok row) : IndexedRow row := by
  unfold planeRec at h
  obtain ⟨tmpl0, -, h⟩ := bind_ok_iff.mp h
  obtain ⟨tmpl1, -, h⟩ := bind_ok_iff.mp h
  obtain ⟨raceReady, -, h⟩ := bind_ok_iff.mp h
  obtain ⟨dlmm, -, h⟩ := bind_ok_iff.mp h
  obtain ⟨pump, -, h⟩ := bind_ok_iff.mp h
  obtain ⟨hops, -, h⟩ := bind_ok_iff.mp h
  obtain ⟨hopsReady, -, h⟩ := bind_ok_iff.mp h
  obtain ⟨vector, -, h⟩ := bind_ok_iff.mp h
  obtain ⟨vectorReady, -, h⟩ := bind_ok_iff.mp h
  rw [← Except.ok.inj h]
  refine ⟨?_, Or.inl rfl⟩
  cases hready : raceReady.truthy && tmpl0.truthy && tmpl1.truthy with
  | false => exact Or.inl rfl
  | true =>
    rw [Bool.and_eq_true, Bool.and_eq_true] at hready
    exact Or.inr ⟨rfl, hready.1.2, hready.2⟩

theorem markShared_indexed {ambiguous : List Str} {key : Str} {row : Obj} (h : IndexedRow row) :
    IndexedRow (markShared ambiguous key row) := by
  unfold markShared
  split
  · have hready : field (set (set row "plane_race_ready".toList (.int 0)) "ambiguous".toList
        (.int 1)) "plane_race_ready" = .int 0 := by
      rw [field, get_set, if_neg (by decide), get_set, if_pos rfl]
      rfl
    have hshared : field (set (set row "plane_race_ready".toList (.int 0)) "ambiguous".toList
        (.int 1)) "ambiguous" = .int 1 := by
      rw [field, get_set, if_pos rfl]
      rfl
    exact ⟨Or.inl hready, Or.inr ⟨hshared, hready⟩⟩
  · exact h

/-- Every row has its flags. -/
def Indexed (plane : Plane) : Prop := ∀ key row, get plane key = some row → IndexedRow row

theorem putKey_indexed {ambiguous : List Str} {row : Obj} (hrow : IndexedRow row)
    {plane plane' : Plane} {key : Val} (hplane : Indexed plane)
    (h : putKey rt ambiguous row plane key = .ok plane') : Indexed plane' := by
  unfold putKey at h
  split at h
  · rw [← Except.ok.inj h]
    exact hplane
  · obtain ⟨k, -, h⟩ := bind_ok_iff.mp h
    rw [← Except.ok.inj h]
    intro k' row' hget
    rw [get_set] at hget
    split at hget
    · rw [← Option.some.inj hget]
      exact markShared_indexed hrow
    · exact hplane k' row' hget

theorem putRoute_indexed {ambiguous : List Str} {plane plane' : Plane} {r : Val}
    (hplane : Indexed plane) (h : putRoute rt ambiguous plane r = .ok plane') :
    Indexed plane' := by
  unfold putRoute at h
  obtain ⟨row, hrow, h⟩ := bind_ok_iff.mp h
  obtain ⟨dlmm, -, h⟩ := bind_ok_iff.mp h
  obtain ⟨pump, -, h⟩ := bind_ok_iff.mp h
  exact foldlM_invariant [dlmm, pump]
    (fun _ _ _ _ hs hput => putKey_indexed (planeRec_indexed hrow) hs hput) hplane h

/-- **The rows of `index_plane`**: ready only with both templates, and a shared
key never ready. -/
theorem indexPlane_rows {routes : Val} (h : indexPlane rt routes = .ok plane) : Indexed plane := by
  unfold indexPlane at h
  obtain ⟨ambiguous, -, h⟩ := bind_ok_iff.mp h
  obtain ⟨rs, -, h⟩ := bind_ok_iff.mp h
  refine foldlM_invariant rs (fun _ _ _ _ hs hput => putRoute_indexed hs hput) ?_ h
  intro key row hget
  cases hget

theorem planeRow_mem {pool : Str} {row : Obj} (h : planeRow plane pool = some row) :
    ∃ key, get plane key = some row := by
  unfold planeRow at h
  split at h
  · cases h
  · split at h
    · rename_i row' hget
      exact ⟨pool, hget.trans h⟩
    · exact ⟨poolPubkey pool, h⟩

/-- The flags of a ready row, as `classify_opp` converts them. -/
theorem IndexedRow.flags (rt : Runtime) {row : Obj} (h : IndexedRow row)
    (hready : (field row "plane_race_ready").eqInt 1 = true) :
    toInt rt ((field row "ambiguous").orElse (.int 0)) = .ok 0 ∧
      toInt rt ((field row "plane_race_ready").orElse (.int 0)) = .ok 1 := by
  have hzero : (Val.int 0).eqInt 1 = false := by decide +kernel
  rcases h.ready with h0 | ⟨h1, -⟩
  · rw [h0, hzero] at hready
    cases hready
  · -- a shared row would not be ready
    rcases h.ambiguous with ha | ⟨-, h0⟩
    · rw [ha, h1]
      exact ⟨rfl, rfl⟩
    · rw [h0, hzero] at hready
      cases hready

/-! ## §5. The bucket. -/

/-- Past every reason of its own, `classify_opp` asks the gate. -/
theorem classifyOpp_of_clears (r : Reading rt rec plane) (h : r.Clears readyExists cool)
    (hrow : IndexedRow r.row) :
    classifyOpp rt rec plane readyExists cool .none .none .none =
      (sizeGate rt rec plane readyExists cool).map fun size =>
        match size with
        | none => .sizeGate
        | some _ => .wouldFire := by
  obtain ⟨hshared, hready⟩ := hrow.flags rt h.planeReady
  obtain rfl := h.ready
  unfold classifyOpp
  rw [if_neg (by decide), ok_bind r.cls_eq, h.framed, if_neg (by decide), h.raceReady,
    if_neg (by decide), if_neg (by decide), ok_bind r.pool_eq, r.row_eq]
  simp only
  rw [ok_bind hshared, if_neg (by decide), ok_bind hready, h.tmpl0, h.tmpl1, if_neg (by decide),
    ok_bind r.direction_eq, h.directed, if_neg Bool.false_ne_true, ok_bind r.dir_eq, if_neg h.not_aside,
    ok_bind h.warm, if_neg Bool.false_ne_true, ok_bind r.capOk_eq, h.cap, if_neg (by decide),
    ok_bind r.capGross_eq, ok_bind r.gross_eq, if_neg h.not_below]
  cases sizeGate rt rec plane true cool with
  | error e => rfl
  | ok size => cases size <;> rfl

/-- `would_fire` is answered in one place. -/
theorem size_of_would_fire
    (h : classifyOpp rt rec plane readyExists cool .none .none .none = .ok .wouldFire) :
    ∃ size, sizeGate rt rec plane readyExists cool = .ok (some size) := by
  -- no early return answers `would_fire`; the overrides are all `None`
  unfold classifyOpp at h
  rw [if_neg (by decide)] at h
  obtain ⟨cls, -, h⟩ := bind_ok_iff.mp h
  obtain ⟨-, h⟩ := of_unless h (by decide)
  obtain ⟨-, h⟩ := of_unless h (by decide)
  obtain ⟨-, h⟩ := of_unless h (by decide)
  obtain ⟨pool, -, h⟩ := bind_ok_iff.mp h
  cases hrow : planeRow plane pool with
  | none =>
    rw [hrow] at h
    exact absurd (Except.ok.inj h) (by decide)
  | some row =>
    rw [hrow] at h
    obtain ⟨ambiguous, -, h⟩ := bind_ok_iff.mp h
    obtain ⟨-, h⟩ := of_unless h (by decide)
    obtain ⟨ready, -, h⟩ := bind_ok_iff.mp h
    obtain ⟨-, h⟩ := of_unless h (by decide)
    obtain ⟨direction, -, h⟩ := bind_ok_iff.mp h
    obtain ⟨-, h⟩ := of_unless h (by decide)
    obtain ⟨dir, -, h⟩ := bind_ok_iff.mp h
    obtain ⟨-, h⟩ := of_unless h (by decide)
    obtain ⟨blocked, -, h⟩ := bind_ok_iff.mp h
    obtain ⟨-, h⟩ := of_unless h (by decide)
    obtain ⟨capOk, -, h⟩ := bind_ok_iff.mp h
    obtain ⟨-, h⟩ := of_unless h (by decide)
    obtain ⟨capGross, -, h⟩ := bind_ok_iff.mp h
    obtain ⟨gross, -, h⟩ := bind_ok_iff.mp h
    obtain ⟨-, h⟩ := of_unless h (by decide)
    obtain ⟨size, hsize, h⟩ := bind_ok_iff.mp h
    cases size with
    | none => exact absurd (Except.ok.inj h) (by decide)
    | some size => exact ⟨size, hsize⟩

/-- **On a plane of `index_plane`, the bucket is `would_fire` exactly when the
gate returns a size.** -/
theorem would_fire_iff_size (rt : Runtime) {routes : Val} {plane : Plane}
    (hplane : indexPlane rt routes = .ok plane) (rec : Obj) (readyExists : Bool) (cool : Val) :
    classifyOpp rt rec plane readyExists cool .none .none .none = .ok .wouldFire ↔
      ∃ size, sizeGate rt rec plane readyExists cool = .ok (some size) := by
  constructor
  · exact size_of_would_fire
  · rintro ⟨size, hsize⟩
    obtain ⟨r, hclears, -, -⟩ := clears_of_sizeGate hsize
    obtain ⟨key, hget⟩ := planeRow_mem r.row_eq
    have hrow : IndexedRow r.row := indexPlane_rows hplane key r.row hget
    rw [classifyOpp_of_clears r hclears hrow, hsize]
    rfl

/-- One pair, compiled both ways. -/
def demoRoutes : Val :=
  .list [.dict [("dlmm".toList, .str "Pool".toList), ("pump".toList, .str "pump".toList),
    ("RACE_READY".toList, .int 1), ("tmpl0".toList, .str "aa".toList),
    ("tmpl1".toList, .str "bb".toList), ("race_ready".toList, .int 0)]]

/-- A framed record one over the hurdle, oddly typed: a flag, a float, a text. -/
def demoRec : Obj :=
  [("pool".toList, .str "Pool".toList), ("race_ready".toList, .bool true),
    ("frame".toList, .dict [("class".toList, .str "framed".toList)]),
    ("arb".toList, .dict [("direction".toList, .float (.fin false 1 0))]),
    ("send_quote".toList, .dict [("cap_ok".toList, .int 1),
      ("cap_gross".toList, .str "525_001".toList)])]

/-- An interpreter that knows ASCII. -/
def asciiRuntime : Runtime where
  maxDigits := 4300
  space _ := false
  decimal _ := none
  floatText _ := "1.0".toList
  quote s := Char.ofNat 39 :: s ++ [Char.ofNat 39]

def demoPlane : Plane :=
  match indexPlane asciiRuntime demoRoutes with
  | .ok plane => plane
  | .error _ => []

theorem would_fire_iff_size_demo :
    indexPlane asciiRuntime demoRoutes = .ok demoPlane ∧
      classifyOpp asciiRuntime demoRec demoPlane true .none .none .none .none = .ok .wouldFire := by
  have hplane : indexPlane asciiRuntime demoRoutes = .ok demoPlane := rfl
  have hsize : sizeGate asciiRuntime demoRec demoPlane true .none = .ok (some (maxIn, 525001)) := by
    rfl
  exact ⟨hplane, (would_fire_iff_size asciiRuntime hplane demoRec true .none).mpr ⟨_, hsize⟩⟩

/-- A shared row that is ready, as `index_plane` never makes one: the two part. -/
example :
    let plane : Plane := [("Pool".toList, [("plane_race_ready".toList, .int 1),
      ("ambiguous".toList, .int 1), ("tmpl0".toList, .str ['a']), ("tmpl1".toList, .str ['b'])])]
    sizeGate asciiRuntime demoRec plane true .none = .ok (some (maxIn, 525001)) ∧
      classifyOpp asciiRuntime demoRec plane true .none .none .none .none =
        .ok .ambiguousPool :=
  ⟨rfl, rfl⟩

end ShredArb.Funnel
