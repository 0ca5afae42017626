/-
  ShredArb.Orbit.Drain — the reconciliation file, read while it is written
  (`recon_drain` of `arb-feed/src/paper_orbit.c` against `arb-state/shyft/recon.py`).

  The writer appends records; the reader polls, and what it can see may end in the
  middle of a record.  A turn of the loop either takes one whole record or gives
  up, and only a whole record moves `recon_off`.

  Conventions:
    • the file at a call is the prefix that is VISIBLE then; `fread` fails when it
      comes short, and a seek past the end does not,
    • `q->recon` is `none` until the file could be opened, and then `recon_off`,
    • what the other parts of the process do between two calls is any function of
      the context.

  Main results:
    * `turn_complete`, `turn_cutShort` — one turn at a record boundary,
    * `recon_drain_exactly_once` — every call processes what became visible.
-/
import ShredArb.Orbit.Kernel
import ShredArb.State.Sendable

namespace ShredArb.Orbit

open ShredArb.Bytes ShredArb.Tx

/-! ## §1. The writer. -/

/-- What `write_rec` is called with. -/
structure Rec where
  kind : UInt8
  proto : UInt8
  poolIdx : UInt32
  sig : List UInt8
  slot : UInt64
  body : List UInt8
  deriving DecidableEq

namespace Rec

/-- The signature padded or cut to 64 bytes. -/
def sig64 (r : Rec) : List UInt8 :=
  if r.sig.length ≠ 64 then (r.sig ++ List.replicate 64 0).take 64 else r.sig

/-- The 80 fixed bytes of a record, `"<BBHI"`, the signature, `"<Q"`. -/
def fixed (r : Rec) : List UInt8 :=
  [[r.kind], [r.proto], leBytes 2 0, leBytes 4 r.poolIdx.toNat, r.sig64,
    leBytes 8 r.slot.toNat].flatten

/-- `write_rec`. -/
def bytes (r : Rec) : List UInt8 := leBytes 4 (80 + r.body.length) ++ (r.fixed ++ r.body)

/-- The records that are written: `invalidate`, `plane`, `auth` with a body, and
    `RECON_REJECT` and `RECON_LAND` without one. -/
def Written (r : Rec) : Prop :=
  (r.kind = 1 ∨ r.kind = 2) ∧ r.body = [] ∨
    r.kind = 3 ∧ 1 ≤ r.body.length ∧ r.body.length ≤ 4000 ∨
    (r.kind = 4 ∨ r.kind = 5) ∧ r.body.length ≤ 4000

instance (r : Rec) : Decidable r.Written := inferInstanceAs (Decidable (_ ∨ _ ∨ _))

end Rec

def reconMagic : Nat := 0x36305453

/-- The file header of `open_recon`, `"<IHH"`. -/
def reconHdr : List UInt8 := leBytes 4 reconMagic ++ (leBytes 2 1 ++ leBytes 2 0)

/-- `invalidate`. -/
def Rec.invalidate (proto : UInt8) (poolIdx : UInt32) (rxNs : UInt64) (slot : UInt64) : Rec :=
  ⟨4, proto, poolIdx, leBytes 8 rxNs.toNat ++ leBytes 8 0 ++ List.replicate 48 0, slot, []⟩

/-- `plane`. -/
def Rec.plane (ready : Bool) : Rec := ⟨5, 0, 0, List.replicate 64 0, if ready then 1 else 0, []⟩

/-- `auth`. -/
def Rec.auth (proto : UInt8) (poolIdx : UInt32) (slot : UInt64) (body : List UInt8) : Rec :=
  ⟨3, proto, poolIdx, List.replicate 64 0, slot, body⟩

/-- The file after some records. -/
def reconFile (recs : List Rec) : List UInt8 := reconHdr ++ recs.flatMap Rec.bytes

/-! ## §2. The reader. -/

/-- `fread` of `n` bytes at a position, all of them or nothing. -/
def fread (file : List UInt8) (pos n : Nat) : Option (List UInt8) :=
  if pos + n ≤ file.length then some (field file pos n) else none

/-- The signature of a record. -/
def sigOf (bs : List UInt8) : Sig := BitVec.ofNat 512 (leNat bs)

/-- What a kind does with the rest of a record whose fixed part was read: the new
    context and position, or `none` where the loop breaks. -/
def dispatch (now : UInt64) (file : List UInt8) (o : RaceCtx) (pos ln : Nat) (fixed : List UInt8) :
    Option (RaceCtx × Nat) :=
  let kind := byteAt fixed 0
  let poolIdx := word fixed 4 4
  let slot := UInt64.ofNat (word fixed 72 8)
  let sig := sigOf (field fixed 8 64)
  let body := fread file (pos + 84) (ln - 80)
  if kind = 1 then some (drainOne o (.reject poolIdx sig), pos + 84)
  else if kind = 2 ∧ (pendFind o.pend sig).isSome then some (drainOne o (.land sig now), pos + 84)
  else if kind = 3 ∧ 80 < ln ∧ body.isSome then some (drainOne o (.auth sig), pos + 4 + ln)
  else if kind = 4 then
    if 80 < ln ∧ body.isNone then none
    else some (drainOne o (.invalidate poolIdx (UInt64.ofNat (word fixed 8 8))), pos + 4 + ln)
  else if kind = 5 then
    if 80 < ln ∧ body.isNone then none else some (drainOne o (.plane slot), pos + 4 + ln)
  else if kind = 3 then none
  -- the rest is skipped by a seek, which never comes short
  else some (drainOne o .other, pos + 4 + ln)

/-- One turn of the loop; the clock is read by `state_confirm`. -/
def turn (now : Nat → UInt64) (file : List UInt8) (o : RaceCtx) (pos : Nat) : Option (RaceCtx × Nat) :=
  match fread file pos 4 with
  | none => none
  | some w =>
    let ln := leNat w
    if ln < 80 ∨ 80 + 4000 < ln then none
    else
      match fread file (pos + 4) 80 with
      | none => none
      | some fixed => dispatch (now pos) file o pos ln fixed

/-- The loop.  Every turn reads at least 84 bytes. -/
def drainLoop (now : Nat → UInt64) (file : List UInt8) : Nat → RaceCtx → Nat → RaceCtx × Nat
  | 0, o, off => (o, off)
  | fuel + 1, o, off =>
    match turn now file o off with
    | none => (o, off)
    | some (o', pos) => drainLoop now file fuel o' pos

/-- `recon_open`. -/
def reconOpen (file : List UInt8) : Option Nat :=
  match fread file 0 4 with
  | none => none
  | some w => if leNat w ≠ reconMagic then none else some 8

/-- `recon_drain` on what is visible. -/
def reconDrainFile (now : Nat → UInt64) (file : List UInt8) (o : RaceCtx) (recon : Option Nat) :
    RaceCtx × Option Nat :=
  match recon.or (reconOpen file) with
  | none => (o, none)
  | some off =>
    let off := if file.length < off then 8 else off
    let (o, off) := drainLoop now file (file.length + 1) o off
    (o, some off)

/-- A call of `recon_drain`, and what the process did before it. -/
structure DrainCall where
  visible : Nat
  between : RaceCtx → RaceCtx
  now : Nat → UInt64

/-- The calls one after another, on prefixes of one file. -/
def drainRun (file : List UInt8) (calls : List DrainCall) (q : RaceCtx × Option Nat) :
    RaceCtx × Option Nat :=
  calls.foldl (fun q c => reconDrainFile c.now (file.take c.visible) (c.between q.1) q.2) q

/-! ## §3. The bytes of a record. -/

theorem Rec.length_sig64 (r : Rec) : r.sig64.length = 64 := by
  unfold Rec.sig64
  split
  · rw [List.length_take, List.length_append, List.length_replicate]
    omega
  · rename_i h
    exact not_not.mp h

theorem Rec.length_fixed (r : Rec) : r.fixed.length = 80 := by
  simp [Rec.fixed, length_leBytes, r.length_sig64]

theorem Rec.length_bytes (r : Rec) : r.bytes.length = 84 + r.body.length := by
  rw [Rec.bytes, List.length_append, List.length_append, length_leBytes, r.length_fixed]
  omega

theorem Rec.Written.body_le {r : Rec} (h : r.Written) : r.body.length ≤ 4000 := by
  rcases h with ⟨-, h⟩ | ⟨-, -, h⟩ | ⟨-, h⟩
  · rw [h]
    exact Nat.zero_le _
  · exact h
  · exact h

/-- What a record does. -/
def Rec.toRecon (r : Rec) (now : UInt64) : Recon :=
  if r.kind = 1 then .reject r.poolIdx.toNat (sigOf r.sig64)
  else if r.kind = 2 then .land (sigOf r.sig64) now
  else if r.kind = 3 then .auth (sigOf r.sig64)
  else if r.kind = 4 then .invalidate r.poolIdx.toNat (UInt64.ofNat (leNat (r.sig64.take 8)))
  else if r.kind = 5 then .plane r.slot
  else .other

/-- A field of the fixed part. -/
theorem Rec.field_fixed {r : Rec} {k off n : Nat} {x : List UInt8}
    (hk : ([[r.kind], [r.proto], leBytes 2 0, leBytes 4 r.poolIdx.toNat, r.sig64,
      leBytes 8 r.slot.toNat] : List (List UInt8))[k]? = some x)
    (hoff : off = ((([[r.kind], [r.proto], leBytes 2 0, leBytes 4 r.poolIdx.toNat, r.sig64,
      leBytes 8 r.slot.toNat] : List (List UInt8)).take k).map List.length).sum)
    (hn : n = x.length) : field r.fixed off n = x :=
  field_flatten hk hoff hn

theorem Rec.fixed_kind (r : Rec) : byteAt r.fixed 0 = r.kind := rfl

theorem Rec.fixed_poolIdx (r : Rec) : word r.fixed 4 4 = r.poolIdx.toNat := by
  have hlt : r.poolIdx.toNat < 256 ^ 4 := r.poolIdx.toNat_lt
  rw [word, Rec.field_fixed (k := 3) rfl (by simp [length_leBytes]) (length_leBytes 4 _).symm,
    leNat_leBytes, Nat.mod_eq_of_lt hlt]

theorem Rec.fixed_slot (r : Rec) : UInt64.ofNat (word r.fixed 72 8) = r.slot := by
  have hlt : r.slot.toNat < 256 ^ 8 := r.slot.toNat_lt
  rw [word, Rec.field_fixed (k := 5) rfl (by simp [length_leBytes, r.length_sig64])
    (length_leBytes 8 _).symm, leNat_leBytes, Nat.mod_eq_of_lt hlt, UInt64.ofNat_toNat]

theorem Rec.fixed_sig (r : Rec) : field r.fixed 8 64 = r.sig64 :=
  Rec.field_fixed (k := 4) rfl (by simp [length_leBytes]) r.length_sig64.symm

theorem Rec.fixed_rx (r : Rec) : word r.fixed 8 8 = leNat (r.sig64.take 8) := by
  have hcut : field r.fixed 8 8 = field (field r.fixed 8 64) 0 8 := by
    simp [field, List.take_take]
  rw [word, hcut, r.fixed_sig, field, List.drop_zero]

/-! ## §4. One turn. -/

/-- Reading at a position is reading what follows it. -/
theorem fread_drop {file : List UInt8} {pos : Nat} (h : pos ≤ file.length) (a n : Nat) :
    fread file (pos + a) n = fread (file.drop pos) a n := by
  unfold fread field
  rw [List.drop_drop, List.length_drop]
  by_cases hlen : pos + a + n ≤ file.length
  · rw [if_pos hlen, if_pos (by omega)]
  · rw [if_neg hlen, if_neg (by omega)]

theorem fread_append {a b c : List UInt8} {pos n : Nat} (hpos : pos = a.length) (hn : n = b.length) :
    fread (a ++ (b ++ c)) pos n = some b := by
  have hlen : pos + n ≤ (a ++ (b ++ c)).length := by
    rw [List.length_append, List.length_append]
    omega
  rw [fread, if_pos hlen, field_append_right (by omega), hpos, Nat.sub_self,
    field_append_left (by omega), field, List.drop_zero, hn, List.take_length]

theorem fread_short {file : List UInt8} {pos n : Nat} (h : file.length < pos + n) :
    fread file pos n = none := if_neg (by omega)

/-- **A turn at the start of a record that is there takes the record.** -/
theorem turn_complete {now : Nat → UInt64} {file rest : List UInt8} {o : RaceCtx} {pos : Nat} {r : Rec}
    (hr : r.Written) (hpos : pos ≤ file.length) (hfile : file.drop pos = r.bytes ++ rest) :
    turn now file o pos = some (drainOne o (r.toRecon (now pos)), pos + r.bytes.length) := by
  have hbody := hr.body_le
  have hlen := r.length_bytes
  have hln : leNat (leBytes 4 (80 + r.body.length)) = 80 + r.body.length := by
    rw [leNat_leBytes, Nat.mod_eq_of_lt (by omega)]
  have hw : fread file pos 4 = some (leBytes 4 (80 + r.body.length)) := by
    have h := fread_drop hpos 0 4
    rw [Nat.add_zero] at h
    rw [h, hfile, Rec.bytes, List.append_assoc]
    exact fread_append (a := []) rfl (length_leBytes 4 _).symm
  have hfixed : fread file (pos + 4) 80 = some r.fixed := by
    rw [fread_drop hpos, hfile, Rec.bytes, List.append_assoc, List.append_assoc]
    exact fread_append (length_leBytes 4 _).symm r.length_fixed.symm
  have hrest : fread file (pos + 84) (80 + r.body.length - 80) = some r.body := by
    rw [fread_drop hpos, hfile, Rec.bytes, ← List.append_assoc, List.append_assoc _ r.body rest]
    refine fread_append ?_ (by omega)
    rw [List.length_append, length_leBytes, r.length_fixed]
  rw [turn, hw]
  simp only [hln]
  rw [if_neg (by omega), hfixed]
  simp only [dispatch, r.fixed_kind, r.fixed_poolIdx, r.fixed_slot, r.fixed_sig, r.fixed_rx, hrest,
    Rec.toRecon]
  rcases hr with ⟨hk, hnil⟩ | ⟨hk, hpos, -⟩ | ⟨hk, -⟩
  · have hend : pos + 84 = pos + r.bytes.length := by rw [hlen, hnil]; rfl
    rcases hk with hk | hk
    · simp only [hk, if_true, hend]
    · -- a landing that nobody waits for is passed over
      have h21 : ¬ ((2 : UInt8) = 1) := by decide
      have h23 : ¬ ((2 : UInt8) = 3) := by decide
      have h24 : ¬ ((2 : UInt8) = 4) := by decide
      have h25 : ¬ ((2 : UInt8) = 5) := by decide
      cases hpe : pendFind o.pend (sigOf r.sig64) with
      | some pe =>
        simp only [hk, if_neg h21, Option.isSome_some, and_self, if_true, hend]
      | none =>
        have hother : drainOne o (.land (sigOf r.sig64) (now pos)) = o := by
          simp only [drainOne, hpe]
        have hzero : pos + 4 + (80 + r.body.length) = pos + r.bytes.length := by omega
        simp only [hk, if_neg h21, if_true, h23, h24, h25, Option.isSome_none, Bool.false_eq_true,
          and_false, false_and, if_false, hother, hzero]
        rfl
  · have hend : pos + 4 + (80 + r.body.length) = pos + r.bytes.length := by omega
    have h31 : ¬ ((3 : UInt8) = 1) := by decide
    have h32 : ¬ ((3 : UInt8) = 2) := by decide
    have hlt : 80 < 80 + r.body.length := by omega
    simp only [hk, if_neg h31, h32, false_and, if_false, hlt, Option.isSome_some, and_self, if_true,
      hend]
  · have hend : pos + 4 + (80 + r.body.length) = pos + r.bytes.length := by omega
    rcases hk with hk | hk
    · have h41 : ¬ ((4 : UInt8) = 1) := by decide
      have h42 : ¬ ((4 : UInt8) = 2) := by decide
      have h43 : ¬ ((4 : UInt8) = 3) := by decide
      simp only [hk, h41, h42, h43, false_and, if_false, Option.isNone_some, Bool.false_eq_true,
        and_false, if_true, hend]
    · have h51 : ¬ ((5 : UInt8) = 1) := by decide
      have h52 : ¬ ((5 : UInt8) = 2) := by decide
      have h53 : ¬ ((5 : UInt8) = 3) := by decide
      have h54 : ¬ ((5 : UInt8) = 4) := by decide
      simp only [hk, h51, h52, h53, h54, false_and, if_false, Option.isNone_some,
        Bool.false_eq_true, and_false, if_true, hend]

/-- **A turn at the start of a record that is cut short takes nothing.** -/
theorem turn_cutShort {now : Nat → UInt64} {file : List UInt8} {o : RaceCtx} {pos : Nat} {r : Rec}
    {m : Nat} (hr : r.Written) (hpos : pos ≤ file.length) (hm : m < r.bytes.length)
    (hfile : file.drop pos = r.bytes.take m) : turn now file o pos = none := by
  have hbody := hr.body_le
  have hlen := r.length_bytes
  have hcut : (file.drop pos).length = m := by
    rw [hfile, List.length_take]
    omega
  have hlast : r.bytes.take m ++ r.bytes.drop m = r.bytes := List.take_append_drop m r.bytes
  -- what is visible of a part is the part, or comes short
  have hread : ∀ a n x, field r.bytes a n = x →
      fread file (pos + a) n = if a + n ≤ m then some x else none := by
    intro a n x hx
    rw [fread_drop hpos, fread, hcut, hfile]
    by_cases hle : a + n ≤ m
    · have hwhole : field (r.bytes.take m) a n = field r.bytes a n := by
        rw [← field_append_left (b := r.bytes.drop m) (by rw [List.length_take]; omega), hlast]
      rw [if_pos hle, if_pos hle, hwhole, hx]
    · rw [if_neg hle, if_neg hle]
  have hw := hread 0 4 (leBytes 4 (80 + r.body.length)) (by
    rw [Rec.bytes, field_append_left (by rw [length_leBytes]), field, List.drop_zero,
      List.take_of_length_le (by rw [length_leBytes])])
  have hfixed := hread 4 80 r.fixed (by
    rw [Rec.bytes, field_append_right (by rw [length_leBytes]), length_leBytes,
      field_append_left (by rw [r.length_fixed]), field, List.drop_zero,
      List.take_of_length_le (by rw [r.length_fixed])])
  have hln : leNat (leBytes 4 (80 + r.body.length)) = 80 + r.body.length := by
    rw [leNat_leBytes, Nat.mod_eq_of_lt (by omega)]
  rw [Nat.add_zero] at hw
  rw [turn, hw]
  by_cases h4 : 0 + 4 ≤ m
  · rw [if_pos h4]
    simp only [hln]
    rw [if_neg (by omega), hfixed]
    by_cases h84 : 4 + 80 ≤ m
    · rw [if_pos h84]
      have hshort : fread file (pos + 84) (80 + r.body.length - 80) = none := by
        rw [fread_drop hpos]
        exact fread_short (by omega)
      have hlt : 80 < 80 + r.body.length := by omega
      simp only [dispatch, r.fixed_kind, hshort]
      -- only a kind with a body can be cut behind its fixed part
      rcases hr with ⟨-, hnil⟩ | ⟨hk, -, -⟩ | ⟨hk, -⟩
      · rw [hnil, List.length_nil] at hlen
        omega
      · have h31 : ¬ ((3 : UInt8) = 1) := by decide
        have h32 : ¬ ((3 : UInt8) = 2) := by decide
        have h34 : ¬ ((3 : UInt8) = 4) := by decide
        have h35 : ¬ ((3 : UInt8) = 5) := by decide
        simp only [hk, h31, h32, h34, h35, false_and, if_false, Option.isSome_none,
          Bool.false_eq_true, and_false, if_true]
      · rcases hk with hk | hk
        · have h41 : ¬ ((4 : UInt8) = 1) := by decide
          have h42 : ¬ ((4 : UInt8) = 2) := by decide
          have h43 : ¬ ((4 : UInt8) = 3) := by decide
          simp only [hk, h41, h42, h43, false_and, if_false, hlt, Option.isNone_none, and_self, if_true]
        · have h51 : ¬ ((5 : UInt8) = 1) := by decide
          have h52 : ¬ ((5 : UInt8) = 2) := by decide
          have h53 : ¬ ((5 : UInt8) = 3) := by decide
          have h54 : ¬ ((5 : UInt8) = 4) := by decide
          simp only [hk, h51, h52, h53, h54, false_and, if_false, hlt, Option.isNone_none, and_self,
            if_true]
    · rw [if_neg h84]
  · rw [if_neg h4]

/-! ## §5. The loop. -/

/-- Records processed one after another, the first at a position. -/
def processAll (now : Nat → UInt64) : Nat → RaceCtx → List Rec → RaceCtx
  | _, o, [] => o
  | pos, o, r :: rs => processAll now (pos + r.bytes.length) (drainOne o (r.toRecon (now pos))) rs

/-- How many records are complete in `m` bytes. -/
def complete : List Rec → Nat → Nat
  | [], _ => 0
  | r :: rs, m => if r.bytes.length ≤ m then complete rs (m - r.bytes.length) + 1 else 0

/-- The bytes of records. -/
def sizeOf (recs : List Rec) : Nat := (recs.flatMap Rec.bytes).length

theorem sizeOf_cons (r : Rec) (rs : List Rec) : sizeOf (r :: rs) = r.bytes.length + sizeOf rs := by
  rw [sizeOf, List.flatMap_cons, List.length_append, sizeOf]

/-- The loop takes the complete records and stops at the first that is cut. -/
theorem drainLoop_eq {now : Nat → UInt64} {file : List UInt8} :
    ∀ (recs : List Rec) {fuel : Nat} {o : RaceCtx} {off m : Nat}, (∀ r ∈ recs, r.Written) →
    off ≤ file.length → file.drop off = (recs.flatMap Rec.bytes).take m → (file.drop off).length < fuel →
    drainLoop now file fuel o off
      = (processAll now off o (recs.take (complete recs m)),
          off + sizeOf (recs.take (complete recs m))) := by
  intro recs
  induction recs with
  | nil =>
    intro fuel o off m _ hoff hfile hfuel
    obtain ⟨fuel, rfl⟩ := Nat.exists_eq_add_one_of_ne_zero (Nat.ne_of_gt (Nat.zero_lt_of_lt hfuel))
    have hnone : turn now file o off = none := by
      have hshort : fread file (off + 0) 4 = none := by
        rw [fread_drop hoff, hfile]
        exact fread_short (by simp)
      rw [turn, ← Nat.add_zero off, hshort]
    rw [drainLoop, hnone]
    rfl
  | cons r rs ih =>
    intro fuel o off m hw hoff hfile hfuel
    obtain ⟨fuel, rfl⟩ := Nat.exists_eq_add_one_of_ne_zero (Nat.ne_of_gt (Nat.zero_lt_of_lt hfuel))
    have hr := hw r List.mem_cons_self
    rw [drainLoop, complete]
    by_cases hm : r.bytes.length ≤ m
    · have hsplit : file.drop off
          = r.bytes ++ (rs.flatMap Rec.bytes).take (m - r.bytes.length) := by
        rw [hfile, List.flatMap_cons, List.take_append, List.take_of_length_le hm]
      have hlen := congrArg List.length hsplit
      rw [List.length_drop, List.length_append] at hlen
      have hpos := r.length_bytes
      have hrest : file.drop (off + r.bytes.length)
          = (rs.flatMap Rec.bytes).take (m - r.bytes.length) := by
        rw [← List.drop_drop, hsplit, List.drop_left]
      have hfuel' : (file.drop (off + r.bytes.length)).length < fuel := by
        rw [List.length_drop] at hfuel ⊢
        omega
      rw [turn_complete hr hoff hsplit, if_pos hm, List.take_succ_cons, sizeOf_cons]
      simp only
      rw [ih (fun r' h' => hw r' (List.mem_cons_of_mem r h')) (by omega) hrest hfuel', processAll,
        Nat.add_assoc]
    · have hcut : file.drop off = r.bytes.take m := by
        rw [hfile, List.flatMap_cons, List.take_append_of_le_length (by omega)]
      rw [turn_cutShort hr hoff (by omega) hcut, if_neg hm]
      rfl

/-! ## §6. Calls. -/

/-- The records that are complete in a file of `v` bytes. -/
def visibleRecs (recs : List Rec) (v : Nat) : Nat := complete recs (v - 8)

/-- Where record `k` starts. -/
def boundary (recs : List Rec) (k : Nat) : Nat := 8 + sizeOf (recs.take k)

theorem complete_le_length : ∀ (recs : List Rec) (m : Nat), complete recs m ≤ recs.length
  | [], _ => Nat.le_refl 0
  | r :: rs, m => by
    rw [complete, List.length_cons]
    split
    · exact Nat.succ_le_succ (complete_le_length rs _)
    · exact Nat.zero_le _

theorem sizeOf_complete_le : ∀ (recs : List Rec) (m : Nat), sizeOf (recs.take (complete recs m)) ≤ m
  | [], m => Nat.zero_le m
  | r :: rs, m => by
    rw [complete]
    split
    · have hrest := sizeOf_complete_le rs (m - r.bytes.length)
      rw [List.take_succ_cons, sizeOf_cons]
      omega
    · exact Nat.zero_le m

/-- Behind the records that are complete, the others are counted from there. -/
theorem complete_split : ∀ (recs : List Rec) {m n : Nat}, m ≤ n →
    complete recs n = complete recs m
      + complete (recs.drop (complete recs m)) (n - sizeOf (recs.take (complete recs m)))
  | [], _, _, _ => rfl
  | r :: rs, m, n, h => by
    by_cases hm : r.bytes.length ≤ m
    · have ih := complete_split rs (m := m - r.bytes.length) (n := n - r.bytes.length) (by omega)
      have hn : r.bytes.length ≤ n := hm.trans h
      rw [complete, complete, if_pos hm, if_pos hn, List.drop_succ_cons, List.take_succ_cons,
        sizeOf_cons, ih, Nat.sub_sub]
      omega
    · have hzero : complete (r :: rs) m = 0 := by rw [complete, if_neg hm]
      rw [hzero, List.drop_zero, List.take_zero, Nat.zero_add]
      rfl

theorem length_reconHdr : reconHdr.length = 8 := rfl

theorem reconOpen_eq (recs : List Rec) (v : Nat) :
    reconOpen ((reconFile recs).take v) = if 4 ≤ v then some 8 else none := by
  have hlen : 8 ≤ (reconFile recs).length := by
    rw [reconFile, List.length_append, length_reconHdr]
    omega
  unfold reconOpen
  by_cases hv : 4 ≤ v
  · have hread : fread ((reconFile recs).take v) 0 4 = some (leBytes 4 reconMagic) := by
      have hfit : 0 + 4 ≤ ((reconFile recs).take v).length := by
        rw [List.length_take]
        omega
      rw [fread, if_pos hfit, field, List.drop_zero, List.take_take, Nat.min_eq_left hv, reconFile,
        reconHdr, List.append_assoc, List.take_left' (length_leBytes 4 _)]
    have hmagic : leNat (leBytes 4 reconMagic) = reconMagic := by
      rw [leNat_leBytes, Nat.mod_eq_of_lt (by decide)]
    rw [hread, if_pos hv]
    simp only [hmagic, ne_eq, not_true_eq_false, if_false]
  · rw [fread_short (by rw [List.length_take]; omega), if_neg hv]

/-- The reader after it has seen `v` bytes. -/
def readerAt (recs : List Rec) (v : Nat) : Option Nat :=
  if 4 ≤ v then some (boundary recs (visibleRecs recs v)) else none

theorem complete_zero : ∀ recs : List Rec, complete recs 0 = 0
  | [] => rfl
  | r :: rs => by
    have hlen := r.length_bytes
    rw [complete, if_neg (by omega)]

theorem visibleRecs_small (recs : List Rec) {v : Nat} (h : v ≤ 8) : visibleRecs recs v = 0 := by
  rw [visibleRecs, Nat.sub_eq_zero_of_le h, complete_zero]

theorem sizeOf_append (a b : List Rec) : sizeOf (a ++ b) = sizeOf a + sizeOf b := by
  rw [sizeOf, List.flatMap_append, List.length_append, sizeOf, sizeOf]

theorem length_reconFile (recs : List Rec) : (reconFile recs).length = 8 + sizeOf recs := by
  rw [reconFile, List.length_append, length_reconHdr, sizeOf]

theorem boundary_le_file (recs : List Rec) (k : Nat) : boundary recs k ≤ (reconFile recs).length := by
  have hsplit := sizeOf_append (recs.take k) (recs.drop k)
  rw [List.take_append_drop] at hsplit
  rw [length_reconFile, boundary]
  omega

/-- The file from a boundary on. -/
theorem drop_boundary (recs : List Rec) (k : Nat) :
    (reconFile recs).drop (boundary recs k) = (recs.drop k).flatMap Rec.bytes := by
  have hfile : reconFile recs = (reconHdr ++ (recs.take k).flatMap Rec.bytes)
      ++ (recs.drop k).flatMap Rec.bytes := by
    rw [List.append_assoc, ← List.flatMap_append, List.take_append_drop, reconFile]
  have hlen : (reconHdr ++ (recs.take k).flatMap Rec.bytes).length = boundary recs k := by
    rw [List.length_append, length_reconHdr, boundary, sizeOf]
  rw [hfile, ← hlen, List.drop_left]

theorem boundary_add (recs : List Rec) (k j : Nat) :
    boundary recs (k + j) = boundary recs k + sizeOf ((recs.drop k).take j) := by
  rw [boundary, List.take_add, sizeOf_append, boundary, Nat.add_assoc]

/-- The records that became visible between two lengths. -/
theorem visibleRecs_split (recs : List Rec) {v v' : Nat} (hv : v ≤ v') :
    visibleRecs recs v' = visibleRecs recs v
      + complete (recs.drop (visibleRecs recs v)) (v' - boundary recs (visibleRecs recs v)) := by
  have hsplit := complete_split recs (m := v - 8) (n := v' - 8) (by omega)
  rw [visibleRecs, hsplit, visibleRecs, boundary, Nat.sub_sub]

/-- What the loop starts from: the boundary, whether or not the file was open. -/
theorem start_eq (recs : List Rec) {v v' : Nat} (hv : v ≤ v') :
    (readerAt recs v).or (reconOpen ((reconFile recs).take v'))
      = if 4 ≤ v' then some (boundary recs (visibleRecs recs v)) else none := by
  rw [reconOpen_eq, readerAt]
  by_cases h4 : 4 ≤ v
  · rw [if_pos h4, Option.some_or, if_pos (h4.trans hv)]
  · rw [if_neg h4, Option.none_or, visibleRecs_small recs (by omega)]
    rfl

theorem boundary_le (recs : List Rec) (v : Nat) : boundary recs (visibleRecs recs v) ≤ max 8 v := by
  have hle := sizeOf_complete_le recs (v - 8)
  rw [boundary, visibleRecs]
  omega

/-- **One call from a record boundary takes what became visible.** -/
theorem reconDrainFile_eq {recs : List Rec} (hw : ∀ r ∈ recs, r.Written) {v v' : Nat} (hv : v ≤ v')
    (now : Nat → UInt64) (o : RaceCtx) :
    reconDrainFile now ((reconFile recs).take v') o (readerAt recs v)
      = (processAll now (boundary recs (visibleRecs recs v)) o
          ((recs.drop (visibleRecs recs v)).take (visibleRecs recs v' - visibleRecs recs v)),
        readerAt recs v') := by
  have hlen := length_reconFile recs
  have hle := boundary_le recs v
  have hfile := boundary_le_file recs (visibleRecs recs v)
  rw [reconDrainFile, start_eq recs hv]
  by_cases h8 : 8 ≤ v'
  · have hoff : boundary recs (visibleRecs recs v) ≤ ((reconFile recs).take v').length := by
      rw [List.length_take]
      omega
    have hdrop : ((reconFile recs).take v').drop (boundary recs (visibleRecs recs v))
        = ((recs.drop (visibleRecs recs v)).flatMap Rec.bytes).take
            (v' - boundary recs (visibleRecs recs v)) := by
      rw [List.drop_take, drop_boundary]
    have hfuel : (((reconFile recs).take v').drop (boundary recs (visibleRecs recs v))).length
        < ((reconFile recs).take v').length + 1 := by
      rw [List.length_drop]
      omega
    have hwritten : ∀ r ∈ recs.drop (visibleRecs recs v), r.Written :=
      fun r hr => hw r (List.mem_of_mem_drop hr)
    have hloop : drainLoop now ((reconFile recs).take v') _ o _ = _ :=
      drainLoop_eq (recs.drop (visibleRecs recs v)) hwritten hoff hdrop hfuel
    have hcount : complete (recs.drop (visibleRecs recs v)) (v' - boundary recs (visibleRecs recs v))
        = visibleRecs recs v' - visibleRecs recs v := by
      have hsplit := visibleRecs_split recs hv
      omega
    rw [hcount] at hloop
    have hend : boundary recs (visibleRecs recs v)
        + sizeOf ((recs.drop (visibleRecs recs v)).take (visibleRecs recs v' - visibleRecs recs v))
        = boundary recs (visibleRecs recs v') := by
      have hsplit := visibleRecs_split recs hv
      rw [← boundary_add, Nat.add_sub_cancel' (by omega)]
    rw [if_pos (by omega : 4 ≤ v')]
    simp only [if_neg (Nat.not_lt.mpr hoff), hloop, hend, readerAt, if_pos (by omega : 4 ≤ v')]
  · -- the file ends inside its header
    have hv8 : visibleRecs recs v = 0 := visibleRecs_small recs (by omega)
    have hv8' : visibleRecs recs v' = 0 := visibleRecs_small recs (by omega)
    have hb0 : boundary recs 0 = 8 := rfl
    rw [hv8, hv8', readerAt, hv8', Nat.sub_self, List.take_zero, hb0]
    by_cases h4 : 4 ≤ v'
    · have hnone : turn now ((reconFile recs).take v') o 8 = none := by
        rw [turn, fread_short (by rw [List.length_take]; omega)]
      simp only [if_pos h4, ite_self, drainLoop, hnone, processAll]
    · simp only [if_neg h4, processAll]

/-- What the last call could see. -/
def lastVisible (calls : List DrainCall) : Nat := (calls.map DrainCall.visible).getLast?.getD 0

theorem lastVisible_le {calls : List DrainCall} {c : DrainCall}
    (hmono : ((calls ++ [c]).map DrainCall.visible).Pairwise (· ≤ ·)) :
    (calls.map DrainCall.visible).Pairwise (· ≤ ·) ∧ lastVisible calls ≤ c.visible := by
  rw [List.map_append, List.pairwise_append] at hmono
  obtain ⟨hinit, -, hcross⟩ := hmono
  refine ⟨hinit, ?_⟩
  unfold lastVisible
  cases hlast : (calls.map DrainCall.visible).getLast? with
  | none => exact Nat.zero_le _
  | some v => exact hcross v (List.mem_of_getLast? hlast) c.visible List.mem_cons_self

theorem drainRun_append (file : List UInt8) (calls : List DrainCall) (c : DrainCall)
    (q : RaceCtx × Option Nat) :
    drainRun file (calls ++ [c]) q
      = reconDrainFile c.now (file.take c.visible) (c.between (drainRun file calls q).1)
          (drainRun file calls q).2 := by
  rw [drainRun, List.foldl_append]
  rfl

theorem drainRun_reader {recs : List Rec} (hw : ∀ r ∈ recs, r.Written) (o : RaceCtx)
    (calls : List DrainCall) (hmono : (calls.map DrainCall.visible).Pairwise (· ≤ ·)) :
    (drainRun (reconFile recs) calls (o, none)).2 = readerAt recs (lastVisible calls) := by
  induction calls using List.reverseRecOn with
  | nil => rfl
  | append_singleton calls c ih =>
    obtain ⟨hinit, hle⟩ := lastVisible_le hmono
    rw [drainRun_append, ih hinit, reconDrainFile_eq hw hle]
    simp [lastVisible]

/-- A record is counted exactly when all of it is visible. -/
theorem lt_complete_iff : ∀ (recs : List Rec) {k m : Nat}, k < recs.length →
    (k < complete recs m ↔ sizeOf (recs.take (k + 1)) ≤ m)
  | [], _, _, h => absurd h (Nat.not_lt_zero _)
  | r :: rs, k, m, h => by
    rw [complete, List.take_succ_cons, sizeOf_cons]
    by_cases hm : r.bytes.length ≤ m
    · rw [if_pos hm]
      cases k with
      | zero =>
        rw [List.take_zero]
        exact ⟨fun _ => hm, fun _ => Nat.succ_pos _⟩
      | succ k =>
        have ih := lt_complete_iff rs (k := k) (m := m - r.bytes.length) (Nat.lt_of_succ_lt_succ h)
        rw [Nat.succ_lt_succ_iff, ih]
        omega
    · rw [if_neg hm]
      omega

theorem sizeOf_take_pos {recs : List Rec} {k : Nat} (hk : k < recs.length) :
    0 < sizeOf (recs.take (k + 1)) := by
  cases recs with
  | nil => exact absurd hk (Nat.not_lt_zero _)
  | cons r rs =>
    have hr := r.length_bytes
    rw [List.take_succ_cons, sizeOf_cons]
    omega

/-- **Every call processes what became visible, once and in file order.**  After the
    calls before it the reader stands at the boundary behind the records that were
    complete at the last of them; the call processes exactly the records that are
    complete now and were not then, and moves to the boundary behind them. -/
theorem recon_drain_exactly_once {recs : List Rec} (hw : ∀ r ∈ recs, r.Written) (o : RaceCtx)
    (calls : List DrainCall) (c : DrainCall)
    (hmono : ((calls ++ [c]).map DrainCall.visible).Pairwise (· ≤ ·)) :
    let q := drainRun (reconFile recs) calls (o, none)
    let seen := visibleRecs recs (lastVisible calls)
    let complete := visibleRecs recs c.visible
    q.2 = readerAt recs (lastVisible calls) ∧ seen ≤ complete ∧
      drainRun (reconFile recs) (calls ++ [c]) (o, none)
        = (processAll c.now (boundary recs seen) (c.between q.1)
            ((recs.drop seen).take (complete - seen)), readerAt recs c.visible) ∧
      ∀ k < recs.length, k < complete ↔ boundary recs (k + 1) ≤ c.visible := by
  obtain ⟨hinit, hle⟩ := lastVisible_le hmono
  have hreader := drainRun_reader hw o calls hinit
  have hsplit := visibleRecs_split recs hle
  refine ⟨hreader, by omega, ?_, fun k hk => ?_⟩
  · rw [drainRun_append, hreader, reconDrainFile_eq hw hle]
  · have hcount := lt_complete_iff recs (m := c.visible - 8) hk
    have hfirst := sizeOf_take_pos hk
    rw [visibleRecs, hcount, boundary]
    omega

/-- An `invalidate` behind it an `auth`: the first poll ends inside the header of
the second record, the next sees all of it. -/
theorem recon_drain_exactly_once_demo :
    let recs := [Rec.invalidate 1 0 7 9, Rec.auth 1 0 9 [1, 2, 3]]
    let o := RaceCtx.init State.onePump (fun _ => 0) 1 fun _ => 1
    let first : DrainCall := ⟨100, id, fun _ => 1⟩
    let next : DrainCall := ⟨179, id, fun _ => 2⟩
    let q := drainRun (reconFile recs) [first] (o, none)
    q.2 = some 92 ∧ drainRun (reconFile recs) ([first] ++ [next]) (o, none)
      = (processAll next.now 92 q.1 [Rec.auth 1 0 9 [1, 2, 3]], some 179) := by
  intro recs o first next q
  have hw : ∀ r ∈ recs, r.Written := by decide
  have hmono : (([first] ++ [next]).map DrainCall.visible).Pairwise (· ≤ ·) := by decide
  have hseen : visibleRecs recs (lastVisible [first]) = 1 := by decide +kernel
  have hnow : visibleRecs recs next.visible = 2 := by decide +kernel
  have hfrom : boundary recs 1 = 92 := by decide +kernel
  have hto : readerAt recs next.visible = some 179 := by decide +kernel
  obtain ⟨hreader, -, hrun, -⟩ := recon_drain_exactly_once hw o [first] next hmono
  rw [hseen, hnow, hfrom, hto] at hrun
  refine ⟨hreader.trans (by decide +kernel), ?_⟩
  rw [hrun]
  rfl

end ShredArb.Orbit
