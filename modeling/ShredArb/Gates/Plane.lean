/-
  ShredArb.Gates.Plane — the send gates and the plane of compiled routes
  (`arb-exec/scripts/exec_gates.py`, `oneshot_live.py`).

  A plane maps pool keys to the row of a compiled route.  Two loaders build
  one from route rows: `index_plane` for the funnel and `load_race_plane` for
  the sender.  The journal writes a pool as 64 hex digits while plane rows
  spell it in base58, so the gate tries both spellings.

  Conventions:
    • a string is its list of characters; a missing field is the empty one,
    • a flag the code only tests for truth is a `Bool`,
    • a plane row keeps what the gates and `fire` read: its pair, its flags and
      the two templates (bytes in the sender's plane, hex text in the funnel's).
-/
import ShredArb.Lib.Dict

namespace ShredArb.Gates

open ShredArb.Dict

/-! ## §1. Texts. -/

abbrev Text := List Char

/-- The value of a hex digit. -/
def hexDigit (c : Char) : Option Nat :=
  if '0' ≤ c ∧ c ≤ '9' then some (c.toNat - '0'.toNat)
  else if 'a' ≤ c ∧ c ≤ 'f' then some (c.toNat - 'a'.toNat + 10)
  else if 'A' ≤ c ∧ c ≤ 'F' then some (c.toNat - 'A'.toNat + 10)
  else none

/-- ASCII white space. -/
def asciiSpace (c : Char) : Bool := c.toNat == 32 || (9 ≤ c.toNat && c.toNat ≤ 13)

/-- `bytes.fromhex`: white space may stand between bytes. -/
def fromHex : Text → Option (List UInt8)
  | [] => some []
  | [c] => if asciiSpace c then some [] else none
  | c :: c' :: cs =>
    if asciiSpace c then fromHex (c' :: cs)
    else match hexDigit c, hexDigit c' with
    | some hi, some lo => (fromHex cs).map (UInt8.ofNat (16 * hi + lo) :: ·)
    | _, _ => none

/-- White space that `str.strip` removes. -/
def pySpace (c : Char) : Bool :=
  asciiSpace c || (28 ≤ c.toNat && c.toNat ≤ 31) || c.toNat == 0x85 || c.toNat == 0xa0 ||
    c.toNat == 0x1680 || (0x2000 ≤ c.toNat && c.toNat ≤ 0x200a) || c.toNat == 0x2028 ||
    c.toNat == 0x2029 || c.toNat == 0x202f || c.toNat == 0x205f || c.toNat == 0x3000

/-- `str.strip`. -/
def strip (t : Text) : Text := ((t.dropWhile pySpace).reverse.dropWhile pySpace).reverse

/-- `_B58`. -/
def b58Alphabet : Text :=
  ['1', '2', '3', '4', '5', '6', '7', '8', '9', 'A', 'B', 'C', 'D', 'E', 'F', 'G', 'H', 'J', 'K',
   'L', 'M', 'N', 'P', 'Q', 'R', 'S', 'T', 'U', 'V', 'W', 'X', 'Y', 'Z', 'a', 'b', 'c', 'd', 'e',
   'f', 'g', 'h', 'i', 'j', 'k', 'm', 'n', 'o', 'p', 'q', 'r', 's', 't', 'u', 'v', 'w', 'x', 'y',
   'z']

/-- The digits of a number, lowest first; two for every byte are enough. -/
def b58Digits : Nat → Nat → Text
  | 0, _ => []
  | fuel + 1, n => if n = 0 then [] else b58Alphabet.getD (n % 58) '1' :: b58Digits fuel (n / 58)

/-- `int.from_bytes(raw, "big")`. -/
def beNat (raw : List UInt8) : Nat := raw.foldl (fun n b => 256 * n + b.toNat) 0

/-- `b58encode`. -/
def b58encode (raw : List UInt8) : Text :=
  List.replicate (raw.takeWhile (· == 0)).length '1' ++
    (b58Digits (2 * raw.length) (beNat raw)).reverse

/-- `pool_pubkey`. -/
def poolPubkey (pool : Text) : Text :=
  let text := strip pool
  if text.length = 64 then
    match fromHex text with
    | none => text
    | some raw => if raw.length = 32 then b58encode raw else text
  else text

/-! ## §2. Planes. -/

/-- A route row of `alt_plane.json`. -/
structure Route where
  raceReady : Bool
  dlmm : Text
  pump : Text
  tmpl0 : Text
  tmpl1 : Text
  deriving DecidableEq, Repr

/-- The pair of a row. -/
def Route.pair (r : Route) : Text × Text := (r.dlmm, r.pump)

/-- RACE_READY and both templates. -/
def Route.ready (r : Route) : Bool := r.raceReady && !r.tmpl0.isEmpty && !r.tmpl1.isEmpty

/-- A row of a plane. -/
structure PlaneRow (τ : Type) where
  dlmm : Text
  pump : Text
  tmpl0 : List τ
  tmpl1 : List τ
  planeRaceReady : Bool
  ambiguous : Bool
  deriving DecidableEq, Repr

abbrev Plane (τ : Type) := Entries Text (PlaneRow τ)

/-- `owners` and `ambiguous` of the loop. -/
structure Owners where
  owner : Entries Text (Text × Text)
  shared : List Text

/-- One key of a row. -/
def ownKey (pair : Text × Text) (s : Owners) (key : Text) : Owners :=
  if key.isEmpty then s
  else
    let shared := match get s.owner key with
      | none => s.shared
      | some prev => if prev ≠ pair then key :: s.shared else s.shared
    ⟨set s.owner key pair, shared⟩

/-- `ambiguous_pool_keys`. -/
def ambiguousPoolKeys (routes : List Route) : List Text :=
  (routes.foldl (fun s r => [r.dlmm, r.pump].foldl (ownKey r.pair) s) ⟨[], []⟩).shared

/-- The rows of `index_plane`. -/
def indexRow (r : Route) : PlaneRow Char := ⟨r.dlmm, r.pump, r.tmpl0, r.tmpl1, r.ready, false⟩

/-- Mark a shared key: not ready. -/
def markShared {τ : Type} (shared : List Text) (key : Text) (row : PlaneRow τ) : PlaneRow τ :=
  if shared.contains key then { row with planeRaceReady := false, ambiguous := true } else row

/-- `index_plane`. -/
def indexPlane (routes : List Route) : Plane Char :=
  let shared := ambiguousPoolKeys routes
  routes.foldl (fun d r =>
    [r.dlmm, r.pump].foldl (fun d key =>
      if key.isEmpty then d else set d key (markShared shared key (indexRow r))) d) []

/-- The rows of `load_race_plane`; a template that is not hex raises. -/
def raceRow (r : Route) : Option (PlaneRow UInt8) :=
  (fromHex r.tmpl0).bind fun t0 => (fromHex r.tmpl1).map fun t1 => ⟨r.dlmm, r.pump, t0, t1, true, false⟩

/-- `load_race_plane`, on the routes of its source files. -/
def loadRacePlane (srcs : List (List Route)) : Option (Plane UInt8) :=
  let seen := srcs.flatten.filter Route.ready
  (seen.foldlM (fun d r => (raceRow r).map fun rec => set (set d r.dlmm rec) r.pump rec) []).map
    (adjust (markShared (ambiguousPoolKeys seen)))

/-- `plane_row`. -/
def planeRow {τ : Type} (plane : Plane τ) (pool : Text) : Option (PlaneRow τ) :=
  if pool.isEmpty then none
  else match get plane pool with
  | some row => some row
  | none => get plane (poolPubkey pool)

/-! ## §3. The gate. -/

/-- An `opp_synced` row of the journal, as the gate and `fire` read it. -/
structure OppRec where
  pool : Text
  frameClass : Text
  raceReady : Int
  direction : Option Int
  capOk : Bool
  capGross : Int
  seq : Text
  family : Option Int
  nHop : Option Int
  deriving DecidableEq, Repr

/-- `SEND_BLOCKED` by route key. -/
abbrev Cool := Entries Text Bool

abbrev maxIn : Int := 50000000
abbrev minIn : Int := 10000000

/-- `wire_hurdle`. -/
def wireHurdle (cuLimit cuPrice : Int) : Int := cuLimit * cuPrice / 1000000 + 5000 + 150000 + 50000

/-- `HURDLE`. -/
def hurdle : Int := wireHurdle 400000 800000

def framed : Text := ['f', 'r', 'a', 'm', 'e', 'd']
def dlmmPump : Text := ['d', 'l', 'm', 'm', '-', 'p', 'u', 'm', 'p']
def pumpDlmm : Text := ['p', 'u', 'm', 'p', '-', 'd', 'l', 'm', 'm']

/-- `v1_executable`. -/
def v1Executable (family nHop : Option Int) (seq : Text) : Bool :=
  if !seq.isEmpty then seq == dlmmPump || seq == pumpDlmm
  else match family with
  | none => false
  | some fam => if nHop.getD 0 ≥ 3 then false else fam == 0 || fam == 5

/-- `route_blocked`. -/
def routeBlocked (pool : Text) (cool : Cool) : Bool :=
  let b58 := poolPubkey pool
  let text := if b58.isEmpty then pool else b58
  (get cool pool).getD false || (b58 != pool && (get cool b58).getD false) ||
    cool.any fun e => e.2 && ((text.take 8).isPrefixOf e.1 || e.1.isPrefixOf text)

/-- `framed_ready`. -/
def framedReady {τ : Type} (rec : OppRec) (plane : Plane τ) (readyExists : Bool) : Bool :=
  match planeRow plane rec.pool with
  | none => false
  | some row =>
    rec.frameClass == framed && (rec.raceReady == 1 && row.planeRaceReady) && readyExists &&
      !rec.pool.isEmpty && !row.tmpl0.isEmpty && !row.tmpl1.isEmpty

/-- `size_gate`. -/
def sizeGate {τ : Type} (rec : OppRec) (plane : Plane τ) (readyExists : Bool) (cool : Cool) :
    Option (Int × Int) :=
  if !framedReady rec plane readyExists then none
  else match rec.direction with
  | none => none
  | some direction =>
    if direction ≠ 0 ∧ direction ≠ 1 then none
    else if routeBlocked rec.pool cool then none
    else if !rec.capOk then none
    else if maxIn < minIn ∨ rec.capGross ≤ hurdle then none
    else if (!rec.seq.isEmpty || rec.family.isSome || rec.nHop.isSome) &&
        !v1Executable rec.family rec.nHop rec.seq then none
    else some (maxIn, rec.capGross)

/-! ## §4. The shot. -/

/-- Why `fire` raises before it signs. -/
inductive FireErr where
  | altPlaneMiss
  | directionMissing
  | badDirection
  | dirTemplateMissing
  deriving DecidableEq, Repr

/-- What `fire` patches and signs. -/
structure Shot (τ : Type) where
  row : PlaneRow τ
  direction : Int
  tmpl : List τ
  deriving DecidableEq, Repr

/-- `fire`, up to the patch of its template. -/
def fire {τ : Type} (plane : Plane τ) (rec : OppRec) : Except FireErr (Shot τ) :=
  match get plane rec.pool with
  | none => .error .altPlaneMiss
  | some row =>
    match rec.direction with
    | none => .error .directionMissing
    | some direction =>
      if direction ≠ 0 ∧ direction ≠ 1 then .error .badDirection
      else
        let tmpl := if direction = 1 then row.tmpl1 else row.tmpl0
        if tmpl.isEmpty then .error .dirTemplateMissing
        else .ok ⟨row, direction, tmpl⟩

end ShredArb.Gates
