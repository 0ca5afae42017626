/-
  ShredArb.Orbit.Hold — candidates waiting for the rest of their transaction
  (`fslot_get`, `hold_*`, `close_candidate` and the loop over shreds of
  `arb-feed/src/paper_orbit.c`).

  A candidate whose bytes are not all there is put in one of 32 entries and tried
  again with every data shred of its slot; it leaves when it is framed, when it is
  found invalid, or when its slot is dropped.

  Conventions:
    • the counters of `acc_t` are `Nat`; `resolved` counts what the code does not
      count by itself, the entries `hold_retry_slot` clears,
    • a shred comes with the signature of the candidate it decoded to, if any,
      and with what `hot_seen_first` said of it: both are ARBITRARY here,
    • what `close_candidate` does with a framed candidate (admission,
      `consider_framed`) touches neither table nor these counters.

  Main results:
    * `run_tally` — what is missing is what was put into a FULL table,
    * `held_accounted_iff` — when everything is accounted for.
-/
import ShredArb.Orbit.Shreds
import ShredArb.Tx.Around
import ShredArb.Tx.Overlay

namespace ShredArb.Orbit

open ShredArb.Framing

/-! ## §1. The tables. -/

/-- `F_SLOTS`. -/
def fSlots : Nat := 4

/-- `HOLD_MAX`. -/
def holdMax : Nat := 32

/-- `hold_ent_t`; the candidate is its signature. -/
structure HoldEnt where
  sig : Vector UInt8 64
  slot : UInt64
  index : UInt32
  t0Ns : UInt64
  deriving DecidableEq

/-- `g_fslot`, `g_hold` and the frame counters; an entry is `none` when not used. -/
structure HoldSt where
  fslot : List FSlot
  hold : List (Option HoldEnt)
  frameInvalid : Nat
  frameIncomplete : Nat
  frameFramed : Nat
  frameExpired : Nat
  resolved : Nat

/-- The process after its start. -/
def HoldSt.start : HoldSt where
  fslot := List.replicate fSlots ⟨0, false, [], []⟩
  hold := List.replicate holdMax none
  frameInvalid := 0
  frameIncomplete := 0
  frameFramed := 0
  frameExpired := 0
  resolved := 0

/-- An entry that belongs to a slot. -/
def ofSlot (slot : UInt64) (e : Option HoldEnt) : Bool := e.any fun e => e.slot == slot

/-- `hold_expire_slot`. -/
def holdExpireSlot (s : HoldSt) (slot : UInt64) : HoldSt :=
  { s with
    hold := s.hold.map fun e => if ofSlot slot e then none else e
    frameExpired := s.frameExpired + s.hold.countP (ofSlot slot) }

/-- The second loop of `fslot_get`: the first unused place, else the oldest slot. -/
def victimOf : List FSlot → (i victim : Nat) → (oldest : UInt64) → Nat
  | [], _, victim, _ => victim
  | f :: fs, i, victim, oldest =>
    if !f.used then i
    else if f.slot < oldest then victimOf fs (i + 1) i f.slot
    else victimOf fs (i + 1) victim oldest

/-- `fslot_get`, with the place it answered. -/
def fslotGet (s : HoldSt) (slot : UInt64) : HoldSt × Nat :=
  match s.fslot.findIdx? fun f => f.used && f.slot == slot with
  | some i => (s, i)
  | none =>
    let victim := victimOf s.fslot 0 0 0xffffffffffffffff
    let s := match s.fslot[victim]? with
      | some f => if f.used then holdExpireSlot s f.slot else s
      | none => s
    ({ s with fslot := s.fslot.set victim (.fresh slot) }, victim)

/-- `&g_fslot[i]`. -/
def HoldSt.slotAt (s : HoldSt) (i : Nat) : FSlot := s.fslot.getD i (.fresh 0)

/-- `fslot_get` and `fslot_store`. -/
def fslotTake (s : HoldSt) (slot : UInt64) (index : UInt32) (payload : List UInt8) (rx : UInt64) :
    HoldSt × Nat :=
  let r := fslotGet s slot
  ({ r.1 with fslot := r.1.fslot.modify r.2 fun f => (fslotStore f index payload rx).2 }, r.2)

/-- `hold_find`. -/
def holdFind (hold : List (Option HoldEnt)) (sig : Vector UInt8 64) : Option Nat :=
  hold.findIdx? fun e => e.any fun e => e.sig == sig

/-- `hold_put`: the entry of the signature, else the first free one, else the FIRST. -/
def holdPut (hold : List (Option HoldEnt)) (e : HoldEnt) : List (Option HoldEnt) :=
  let i := ((holdFind hold e.sig).or (hold.findIdx? Option.isNone)).getD 0
  hold.set i (some e)

/-! ## §2. Closing a candidate. -/

/-- The class of a candidate, from the bytes around its shred. -/
def classOf (fs : FSlot) (sig : Vector UInt8 64) (around : UInt32) : FrameClass :=
  let buf := (frameConcat (fs.d.length + 1) fs around).getD []
  if buf.length < 65 then .incomplete else frameAroundSig buf sig

/-- `close_candidate`. -/
def closeCandidate (s : HoldSt) (fs : FSlot) (e : HoldEnt) (fromHold : Bool) : FrameClass × HoldSt :=
  match classOf fs e.sig e.index with
  | .invalid => (.invalid, { s with frameInvalid := s.frameInvalid + 1 })
  | .incomplete =>
    (.incomplete,
      if fromHold then s
      else { s with frameIncomplete := s.frameIncomplete + 1, hold := holdPut s.hold e })
  | .framed hit => (.framed hit, { s with frameFramed := s.frameFramed + 1 })

/-- One turn of `hold_retry_slot`. -/
def holdRetryAt (fs : FSlot) (slot : UInt64) (s : HoldSt) (i : Nat) : HoldSt :=
  match (s.hold[i]?).join with
  | none => s
  | some e =>
    if e.slot ≠ slot then s
    else
      let r := closeCandidate s fs e true
      if r.1 = .incomplete then r.2
      else { r.2 with hold := r.2.hold.set i none, resolved := r.2.resolved + 1 }

/-- `hold_retry_slot`. -/
def holdRetrySlot (s : HoldSt) (fs : FSlot) (slot : UInt64) : HoldSt :=
  (List.range holdMax).foldl (holdRetryAt fs slot) s

/-! ## §3. A shred. -/

/-- A shred, the candidate it decodes to, and whether `hot_seen_first` answers 1. -/
structure Arrival where
  slot : UInt64
  index : UInt32
  isData : Bool
  payload : List UInt8
  rxNs : UInt64
  cand : Option (Vector UInt8 64)
  first : Bool

/-- The part before the candidate is looked at: a data shred is stored and the
    entries of its slot are tried again. -/
def arrive (s : HoldSt) (a : Arrival) : HoldSt × Option Nat :=
  if a.isData ∧ 0 < a.payload.length then
    let r := fslotTake s a.slot a.index a.payload a.rxNs
    (holdRetrySlot r.1 (r.1.slotAt r.2) a.slot, some r.2)
  else (s, none)

/-- The state in which `close_candidate` is called for a new candidate, the place of
    its slot, and the entry it would get. -/
def newCandidate (s : HoldSt) (a : Arrival) : Option (HoldSt × Nat × HoldEnt) :=
  match a.cand with
  | none => none
  | some sig =>
    let r := arrive s a
    if (holdFind r.1.hold sig).isSome then none
    else if !a.first then none
    else
      let r := match r.2 with
        | some i => (r.1, i)
        | none => fslotTake r.1 a.slot a.index a.payload a.rxNs
      some (r.1, r.2, ⟨sig, a.slot, a.index, a.rxNs⟩)

/-- One turn of the loop over the shreds. -/
def onShred (s : HoldSt) (a : Arrival) : HoldSt :=
  match newCandidate s a with
  | none => (arrive s a).1
  | some (s, i, e) => (closeCandidate s (s.slotAt i) e false).2

/-- The shreds one after another. -/
def onShreds (s : HoldSt) (as : List Arrival) : HoldSt := as.foldl onShred s

/-! ## §4. The tally. -/

/-- The number of entries in use. -/
def held (s : HoldSt) : Nat := s.hold.countP Option.isSome

/-- What was put on hold, less what was resolved, expired and is held: `lost` candidates. -/
def Tally (s : HoldSt) (lost : Nat) : Prop :=
  s.frameIncomplete = s.resolved + s.frameExpired + held s + lost

/-- Every candidate that was put on hold is accounted for. -/
def Accounted (s : HoldSt) : Prop := s.frameIncomplete = s.resolved + s.frameExpired + held s

instance (s : HoldSt) : Decidable (Accounted s) := inferInstanceAs (Decidable (_ = _))

/-- Every entry is in use. -/
def Full (s : HoldSt) : Prop := ∀ e ∈ s.hold, e.isSome

instance (s : HoldSt) : Decidable (Full s) := inferInstanceAs (Decidable (∀ e ∈ s.hold, e.isSome))

/-- The shred's candidate is put on hold and no entry is free. -/
def Overflows (s : HoldSt) (a : Arrival) : Prop :=
  match newCandidate s a with
  | none => False
  | some (s, i, e) => classOf (s.slotAt i) e.sig e.index = .incomplete ∧ Full s

instance (s : HoldSt) (a : Arrival) : Decidable (Overflows s a) := by
  unfold Overflows
  split <;> infer_instance

/-- No candidate of a run finds the table full. -/
def Fits (s : HoldSt) : List Arrival → Prop
  | [] => True
  | a :: as => ¬Overflows s a ∧ Fits (onShred s a) as

/-- Clearing the entries of a slot takes as many as there are. -/
theorem countP_expire (slot : UInt64) : ∀ hold : List (Option HoldEnt),
    (hold.map fun e => if ofSlot slot e then none else e).countP Option.isSome
      + hold.countP (ofSlot slot) = hold.countP Option.isSome
  | [] => rfl
  | e :: hold => by
    have ih := countP_expire slot hold
    rw [List.map_cons, List.countP_cons, List.countP_cons, List.countP_cons]
    by_cases hslot : ofSlot slot e = true
    · have hsome : e.isSome = true := by
        cases e with
        | none => exact absurd hslot (by simp [ofSlot])
        | some e => rfl
      simp only [hslot, hsome, if_true, Option.isSome_none, Bool.false_eq_true, if_false]
      omega
    · simp only [hslot, if_false, Bool.false_eq_true]
      omega

theorem Tally.expire {s : HoldSt} {lost : Nat} (h : Tally s lost) (slot : UInt64) :
    Tally (holdExpireSlot s slot) lost := by
  have hcount := countP_expire slot s.hold
  unfold Tally held at h ⊢
  simp only [holdExpireSlot]
  omega

/-- The tables after `fslot_get`: what is on hold is as it was, or a slot of it expired. -/
theorem fslotGet_cases (s : HoldSt) (slot : UInt64) :
    ∃ fslot, (fslotGet s slot).1 = { s with fslot := fslot } ∨
      ∃ old, (fslotGet s slot).1 = { holdExpireSlot s old with fslot := fslot } := by
  rw [fslotGet]
  split
  · exact ⟨s.fslot, .inl rfl⟩
  · dsimp only
    split
    · rename_i f _
      by_cases hused : f.used = true
      · rw [if_pos hused]
        exact ⟨_, .inr ⟨f.slot, rfl⟩⟩
      · rw [if_neg hused]
        exact ⟨_, .inl rfl⟩
    · exact ⟨_, .inl rfl⟩

theorem fslotTake_cases (s : HoldSt) (slot : UInt64) (index : UInt32) (payload : List UInt8)
    (rx : UInt64) :
    ∃ fslot, (fslotTake s slot index payload rx).1 = { s with fslot := fslot } ∨
      ∃ old, (fslotTake s slot index payload rx).1 = { holdExpireSlot s old with fslot := fslot } := by
  obtain ⟨_, h⟩ := fslotGet_cases s slot
  refine ⟨(fslotTake s slot index payload rx).1.fslot, ?_⟩
  rcases h with h | ⟨old, h⟩
  · left
    simp only [fslotTake, h]
  · right
    exact ⟨old, by simp only [fslotTake, h]⟩

theorem Tally.take {s : HoldSt} {lost : Nat} (h : Tally s lost) (slot : UInt64) (index : UInt32)
    (payload : List UInt8) (rx : UInt64) : Tally (fslotTake s slot index payload rx).1 lost := by
  obtain ⟨fslot, htake | ⟨old, htake⟩⟩ := fslotTake_cases s slot index payload rx
  · rw [htake]
    exact h
  · rw [htake]
    exact h.expire old

/-- An entry that leaves is resolved. -/
theorem Tally.retryAt {s : HoldSt} {lost : Nat} (h : Tally s lost) (fs : FSlot) (slot : UInt64)
    (i : Nat) : Tally (holdRetryAt fs slot s i) lost := by
  rw [holdRetryAt]
  cases hentry : s.hold[i]?.join with
  | none => exact h
  | some e =>
    dsimp only
    have hget : s.hold[i]? = some (some e) := Option.join_eq_some_iff.mp hentry
    obtain ⟨hi, hval⟩ := List.getElem?_eq_some_iff.mp hget
    have hcount : (s.hold.set i none).countP Option.isSome + 1 = s.hold.countP Option.isSome := by
      have hpos : 0 < s.hold.countP Option.isSome :=
        List.countP_pos_iff.mpr ⟨some e, List.mem_of_getElem? hget, rfl⟩
      rw [List.countP_set hi, hval]
      simp only [Option.isSome_some, Option.isSome_none, if_true, Bool.false_eq_true, if_false]
      omega
    unfold Tally held at h ⊢
    by_cases hslot : e.slot ≠ slot
    · rw [if_pos hslot]
      exact h
    · rw [if_neg hslot, closeCandidate]
      cases hclass : classOf fs e.sig e.index with
      | incomplete => exact h
      | invalid =>
        simp only [reduceCtorEq, if_false]
        omega
      | framed hit =>
        simp only [reduceCtorEq, if_false]
        omega

theorem Tally.retry {s : HoldSt} {lost : Nat} (h : Tally s lost) (fs : FSlot) (slot : UInt64) :
    Tally (holdRetrySlot s fs slot) lost := by
  rw [holdRetrySlot]
  generalize List.range holdMax = is
  induction is generalizing s with
  | nil => exact h
  | cons i is ih => exact ih (h.retryAt fs slot i)

theorem Tally.arrive {s : HoldSt} {lost : Nat} (h : Tally s lost) (a : Arrival) :
    Tally (arrive s a).1 lost := by
  by_cases hdata : a.isData = true ∧ 0 < a.payload.length
  · rw [Orbit.arrive, if_pos hdata]
    dsimp only
    exact (h.take a.slot a.index a.payload a.rxNs).retry _ a.slot
  · rw [Orbit.arrive, if_neg hdata]
    exact h

/-! ## §5. A new candidate. -/

theorem holdFind_eq_none {hold : List (Option HoldEnt)} {sig : Vector UInt8 64} :
    holdFind hold sig = none ↔ ∀ e, some e ∈ hold → e.sig ≠ sig := by
  rw [holdFind, List.findIdx?_eq_none_iff]
  constructor
  · intro h e he heq
    exact absurd (h (some e) he) (by simp [heq])
  · intro h e he
    cases e with
    | none => rfl
    | some e => simpa using h e he

/-- No entry of the signature appears when a slot is taken. -/
theorem holdFind_take {s : HoldSt} {sig : Vector UInt8 64} (h : holdFind s.hold sig = none)
    (slot : UInt64) (index : UInt32) (payload : List UInt8) (rx : UInt64) :
    holdFind (fslotTake s slot index payload rx).1.hold sig = none := by
  rw [holdFind_eq_none] at h ⊢
  obtain ⟨fslot, htake | ⟨old, htake⟩⟩ := fslotTake_cases s slot index payload rx
  · rw [htake]
    exact h
  · rw [htake]
    intro e he
    obtain ⟨e', he', heq⟩ := List.mem_map.mp he
    split at heq
    · exact absurd heq (Option.some_ne_none _).symm
    · exact h e (heq ▸ he')

/-- A candidate that is closed has no entry, and the table is tallied. -/
theorem newCandidate_spec {s s' : HoldSt} {lost i : Nat} {a : Arrival} {e : HoldEnt} (h : Tally s lost)
    (hnew : newCandidate s a = some (s', i, e)) : Tally s' lost ∧ holdFind s'.hold e.sig = none := by
  have harrive := h.arrive a
  rw [newCandidate] at hnew
  split at hnew
  · exact absurd hnew (Option.some_ne_none _).symm
  · rename_i sig _
    dsimp only at hnew
    by_cases hfound : (holdFind (arrive s a).1.hold sig).isSome = true
    · rw [if_pos hfound] at hnew
      exact absurd hnew (Option.some_ne_none _).symm
    · rw [if_neg hfound] at hnew
      have hnone := Option.not_isSome_iff_eq_none.mp hfound
      split at hnew
      · exact absurd hnew (Option.some_ne_none _).symm
      · cases hplace : (arrive s a).2 with
        | some j =>
          rw [hplace] at hnew
          cases hnew
          exact ⟨harrive, hnone⟩
        | none =>
          rw [hplace] at hnew
          cases hnew
          exact ⟨harrive.take _ _ _ _, holdFind_take hnone _ _ _ _⟩

/-- A free entry is taken, or the first is overwritten. -/
theorem countP_holdPut {hold : List (Option HoldEnt)} {e : HoldEnt} (h : holdFind hold e.sig = none) :
    (holdPut hold e).countP Option.isSome
      = hold.countP Option.isSome + if ∀ x ∈ hold, x.isSome then 0 else 1 := by
  rw [holdPut, h, Option.none_or]
  cases hfree : hold.findIdx? Option.isNone with
  | some i =>
    obtain ⟨hi, hnone, -⟩ := List.findIdx?_eq_some_iff_getElem.mp hfree
    have hval : hold[i] = none := Option.isNone_iff_eq_none.mp hnone
    have hnotfull : ¬∀ x ∈ hold, x.isSome = true := by
      intro hfull
      have hsome := hfull hold[i] (List.getElem_mem hi)
      rw [hval] at hsome
      exact absurd hsome (by decide)
    rw [if_neg hnotfull]
    dsimp only [Option.getD_some]
    rw [List.countP_set hi, hval]
    simp
  | none =>
    rw [List.findIdx?_eq_none_iff] at hfree
    have hfull : ∀ x ∈ hold, x.isSome = true := by
      intro x hx
      have hx := hfree x hx
      cases x with
      | none => exact absurd hx (by decide)
      | some e => rfl
    rw [if_pos hfull]
    cases hold with
    | nil => rfl
    | cons x xs =>
      have hx := hfull x List.mem_cons_self
      simp [hx]

/-- What one shred adds to the loss. -/
theorem Tally.onShred {s : HoldSt} {lost : Nat} (h : Tally s lost) (a : Arrival) :
    Tally (onShred s a) (lost + if Overflows s a then 1 else 0) := by
  cases hnew : newCandidate s a with
  | none =>
    have hno : ¬Overflows s a := by
      rw [Overflows, hnew]
      exact not_false
    rw [if_neg hno, Orbit.onShred, hnew]
    exact h.arrive a
  | some r =>
    obtain ⟨s', i, e⟩ := r
    obtain ⟨htally, hnone⟩ := newCandidate_spec h hnew
    have hover : Overflows s a ↔ classOf (s'.slotAt i) e.sig e.index = .incomplete ∧ Full s' := by
      rw [Overflows, hnew]
    have hclosed : Orbit.onShred s a = (closeCandidate s' (s'.slotAt i) e false).2 := by
      rw [Orbit.onShred, hnew]
    rw [hclosed]
    cases hclass : classOf (s'.slotAt i) e.sig e.index with
    | invalid =>
      have hno : ¬Overflows s a := by simp [hover, hclass]
      rw [if_neg hno]
      simp only [closeCandidate, hclass]
      exact htally
    | framed hit =>
      have hno : ¬Overflows s a := by simp [hover, hclass]
      rw [if_neg hno]
      simp only [closeCandidate, hclass]
      exact htally
    | incomplete =>
      have hcount := countP_holdPut hnone
      unfold Tally held at htally ⊢
      simp only [closeCandidate, hclass, Bool.false_eq_true, if_false]
      by_cases hfull : ∀ x ∈ s'.hold, x.isSome = true
      · rw [if_pos hfull] at hcount
        rw [if_pos (hover.mpr ⟨hclass, hfull⟩)]
        omega
      · rw [if_neg hfull] at hcount
        rw [if_neg fun h => hfull (hover.mp h).2]
        omega

/-! ## §6. Runs. -/

/-- How many candidates of a run find the table full. -/
def overflows (s : HoldSt) : List Arrival → Nat
  | [] => 0
  | a :: as => (if Overflows s a then 1 else 0) + overflows (onShred s a) as

theorem Tally.onShreds {s : HoldSt} {lost : Nat} (h : Tally s lost) (as : List Arrival) :
    Tally (onShreds s as) (lost + overflows s as) := by
  induction as generalizing s lost with
  | nil => exact h
  | cons a as ih =>
    rw [overflows, ← Nat.add_assoc]
    exact ih (h.onShred a)

/-- What is missing is what was put into a full table. -/
theorem run_tally (as : List Arrival) :
    Tally (onShreds .start as) (overflows .start as) := by
  have hstart : Tally .start 0 := by
    unfold Tally held
    decide
  simpa using hstart.onShreds as

theorem overflows_eq_zero_iff (as : List Arrival) (s : HoldSt) : overflows s as = 0 ↔ Fits s as := by
  induction as generalizing s with
  | nil => exact ⟨fun _ => trivial, fun _ => rfl⟩
  | cons a as ih =>
    rw [overflows, Fits, Nat.add_eq_zero_iff, ih]
    split
    · rename_i hover
      simp [hover]
    · rename_i hover
      simp [hover]

/-- **When every candidate on hold is accounted for**: exactly in the runs in which
    none is put on hold while every entry is in use. -/
theorem held_accounted_iff (as : List Arrival) :
    Accounted (onShreds .start as) ↔ Fits .start as := by
  have htally := run_tally as
  rw [← overflows_eq_zero_iff]
  unfold Tally at htally
  unfold Accounted
  omega

/-! ## §7. A full table. -/

section Flood

variable {n : Nat} (slot : UInt64) (pay : Nat → List UInt8) (sig : Nat → Vector UInt8 64)

/-- A data shred with the first part of a transaction; the next index stays away. -/
def cutShred (k : Nat) : Arrival :=
  ⟨slot, UInt32.ofNat (2 * k), true, pay k, 0, some (sig k), true⟩

/-- The indices of the first `k` of them. -/
def evens (k : Nat) : Finset UInt32 := (Finset.range k).image fun j => UInt32.ofNat (2 * j)

/-- The payload of an index. -/
def payAt (i : UInt32) : List UInt8 := pay (i.toNat / 2)

/-- All of the first `k` candidates were put on hold, and none left. -/
structure Flooded (s : HoldSt) (k : Nat) : Prop where
  took : ∃ f rest, fslotGet s slot = ({ s with fslot := f :: rest }, 0) ∧ f.used = true ∧
    f.slot = slot ∧ Holds f (evens k) (payAt pay)
  entries : ∀ e, some e ∈ s.hold → ∃ j < k, e.sig = sig j ∧ e.index = UInt32.ofNat (2 * j)
  length : s.hold.length = holdMax
  put : s.frameIncomplete = k
  resolved : s.resolved = 0
  expired : s.frameExpired = 0

variable {slot pay sig}

theorem toNat_even {j : Nat} (hj : j < fShreds) : (UInt32.ofNat (2 * j)).toNat = 2 * j := by
  have hcap : fShreds = 2048 := rfl
  refine UInt32.toNat_ofNat_of_lt' ?_
  show 2 * j < 2 ^ 32
  omega

theorem mem_evens {k : Nat} (hk : k ≤ fShreds) {i : UInt32} :
    i ∈ evens k ↔ i.toNat % 2 = 0 ∧ i.toNat < 2 * k := by
  rw [evens, Finset.mem_image]
  constructor
  · rintro ⟨j, hj, rfl⟩
    have hjk := Finset.mem_range.mp hj
    rw [toNat_even (by omega)]
    omega
  · rintro ⟨heven, hlt⟩
    refine ⟨i.toNat / 2, Finset.mem_range.mpr (by omega), UInt32.toNat_inj.mp ?_⟩
    rw [toNat_even (by omega)]
    omega

theorem evens_succ (k : Nat) : evens (k + 1) = insert (UInt32.ofNat (2 * k)) (evens k) := by
  rw [evens, Finset.range_add_one, Finset.image_insert, evens]

/-- A payload between two gaps stands alone. -/
theorem frameConcat_evens {f : FSlot} {j k : Nat} (hk : k ≤ fShreds) (hj : j < k)
    (hsize : ∑ i ∈ evens k, (payAt pay i).length ≤ fArena) (h : Holds f (evens k) (payAt pay)) :
    frameConcat (f.d.length + 1) f (UInt32.ofNat (2 * j)) = some (pay j) := by
  have hcap : fShreds = 2048 := rfl
  have hidx : ∀ i ∈ evens k, i.toNat < 2 ^ 32 - 1 := by
    intro i hi
    have hbound := (mem_evens hk).mp hi
    omega
  have hnat : (UInt32.ofNat (2 * j)).toNat = 2 * j := toNat_even (by omega)
  have hin : UInt32.ofNat (2 * j) ∈ evens k := by
    rw [mem_evens hk, hnat]
    omega
  have hcard : (evens k).card ≤ fShreds := Finset.card_image_le.trans (by rwa [Finset.card_range])
  have halone : MaximalRun (evens k) (UInt32.ofNat (2 * j)) (UInt32.ofNat (2 * j))
      (UInt32.ofNat (2 * j)) := by
    refine ⟨UInt32.le_refl _, UInt32.le_refl _, ?_, ?_, ?_⟩
    · intro i hlo hhi
      rwa [UInt32.le_antisymm hhi hlo]
    · by_cases h0 : UInt32.ofNat (2 * j) = 0
      · exact .inl h0
      · right
        have hpos : 0 < UInt32.ofNat (2 * j) := UInt32.pos_iff_ne_zero.mpr h0
        have hlt := UInt32.lt_iff_toNat_lt.mp hpos
        rw [hnat] at hlt
        have hlt : 0 < 2 * j := hlt
        rw [mem_evens hk, toNat_pred hpos, hnat]
        omega
    · rw [mem_evens hk, toNat_succ (hidx _ hin), hnat]
      omega
  obtain ⟨lo, hi, hrun, hbytes⟩ := frameConcat_eq h hidx hcard hsize hin (Nat.lt_succ_self _)
  obtain ⟨rfl, rfl⟩ := halone.unique hidx hrun
  rw [h.dn, hbytes, runBytes, hnat, Nat.add_sub_cancel_left, List.range'_one, List.flatMap_singleton,
    payAt, hnat, Nat.mul_div_cancel_left j (by decide)]

/-- Nothing happens to entries that stay incomplete. -/
theorem holdRetrySlot_incomplete {s : HoldSt} {fs : FSlot} {slot : UInt64}
    (h : ∀ e, some e ∈ s.hold → classOf fs e.sig e.index = .incomplete) :
    holdRetrySlot s fs slot = s := by
  have hturn : ∀ i, holdRetryAt fs slot s i = s := by
    intro i
    rw [holdRetryAt]
    cases hentry : s.hold[i]?.join with
    | none => rfl
    | some e =>
      have hmem := List.mem_of_getElem? (Option.join_eq_some_iff.mp hentry)
      dsimp only
      split
      · rfl
      · simp [closeCandidate, h e hmem]
  rw [holdRetrySlot]
  generalize List.range holdMax = is
  induction is with
  | nil => rfl
  | cons i is ih => rw [List.foldl_cons, hturn, ih]

theorem mem_holdPut {hold : List (Option HoldEnt)} {e x : HoldEnt} (h : some x ∈ holdPut hold e) :
    x = e ∨ some x ∈ hold := by
  rcases List.mem_or_eq_of_mem_set h with h | h
  · exact .inr h
  · exact .inl (Option.some.inj h)

theorem Flooded.step {s : HoldSt} {k : Nat} (h : Flooded slot pay sig s k) (hk : k < n)
    (hn : n ≤ fShreds) (hpay : ∀ j < n, pay j ≠ [] ∧ (pay j).length ≤ 1000)
    (hsig : ∀ i < n, ∀ j < n, sig i = sig j → i = j)
    (hclass : ∀ j < n, frameAroundSig (pay j) (sig j) = .incomplete) :
    Flooded slot pay sig (onShred s (cutShred slot pay sig k)) (k + 1) := by
  obtain ⟨f, rest, hget, hused, hslot, hholds⟩ := h.took
  have hcap : fShreds = 2048 := rfl
  have hnat : (UInt32.ofNat (2 * k)).toNat = 2 * k := toNat_even (by omega)
  have hpayk : payAt pay (UInt32.ofNat (2 * k)) = pay k := by
    rw [payAt, hnat, Nat.mul_div_cancel_left k (by decide)]
  have hcard : (evens (k + 1)).card ≤ fShreds :=
    Finset.card_image_le.trans (by rw [Finset.card_range]; omega)
  have hsize : ∑ i ∈ evens (k + 1), (payAt pay i).length ≤ fArena := by
    have hone : ∀ i ∈ evens (k + 1), (payAt pay i).length ≤ 1000 := by
      intro i hi
      have hbound := (mem_evens (by omega)).mp hi
      exact (hpay (i.toNat / 2) (by omega)).2
    have hsum := Finset.sum_le_card_nsmul _ _ _ hone
    have harena : fArena = 2097152 := rfl
    rw [smul_eq_mul] at hsum
    omega
  -- the shred is stored beside the others
  let f' := (fslotStore f (UInt32.ofNat (2 * k)) (pay k) 0).2
  have hholds' : Holds f' (evens (k + 1)) (payAt pay) := by
    have hstore := hholds.store (UInt32.ofNat (2 * k)) 0 (by rw [hpayk]; exact (hpay k hk).1)
      (by rwa [← evens_succ]) (by rwa [← evens_succ])
    rwa [hpayk, ← evens_succ] at hstore
  have hsame : f'.used = true ∧ f'.slot = slot := by
    have hframe : f'.used = f.used ∧ f'.slot = f.slot := by
      show (fslotStore f _ _ _).2.used = _ ∧ (fslotStore f _ _ _).2.slot = _
      rw [fslotStore]
      split <;> try split <;> try split
      all_goals exact ⟨rfl, rfl⟩
    rw [hframe.1, hframe.2]
    exact ⟨hused, hslot⟩
  have htake : fslotTake s slot (UInt32.ofNat (2 * k)) (pay k) 0
      = ({ s with fslot := f' :: rest }, 0) := by
    rw [fslotTake, hget]
    rfl
  -- and every candidate is as incomplete as before
  have hinc : ∀ j < k + 1, classOf f' (sig j) (UInt32.ofNat (2 * j)) = .incomplete := by
    intro j hj
    rw [classOf, frameConcat_evens (by omega) hj hsize hholds', Option.getD_some]
    split
    · rfl
    · exact hclass j (by omega)
  have hretry : holdRetrySlot { s with fslot := f' :: rest } f' slot
      = { s with fslot := f' :: rest } := by
    refine holdRetrySlot_incomplete fun e he => ?_
    obtain ⟨j, hj, hsigj, hidxj⟩ := h.entries e he
    rw [hsigj, hidxj]
    exact hinc j (by omega)
  have hdata : 0 < (pay k).length := List.length_pos_iff.mpr (hpay k hk).1
  have harrive : arrive s (cutShred slot pay sig k) = ({ s with fslot := f' :: rest }, some 0) := by
    rw [arrive, if_pos ⟨rfl, hdata⟩]
    dsimp only [cutShred]
    rw [htake]
    exact congrArg (·, some 0) hretry
  have hfind : holdFind s.hold (sig k) = none := by
    rw [holdFind_eq_none]
    intro e he heq
    obtain ⟨j, hj, hsigj, -⟩ := h.entries e he
    have hjk := hsig j (by omega) k hk (hsigj.symm.trans heq)
    omega
  have hnew : newCandidate s (cutShred slot pay sig k)
      = some ({ s with fslot := f' :: rest }, 0, ⟨sig k, slot, UInt32.ofNat (2 * k), 0⟩) := by
    rw [newCandidate]
    dsimp only [cutShred]
    have harrive' := harrive
    unfold cutShred at harrive'
    rw [harrive']
    simp only [hfind, Option.isSome_none, Bool.false_eq_true, if_false, Bool.not_true]
  have hput : onShred s (cutShred slot pay sig k)
      = { s with
          fslot := f' :: rest
          frameIncomplete := s.frameIncomplete + 1
          hold := holdPut s.hold ⟨sig k, slot, UInt32.ofNat (2 * k), 0⟩ } := by
    rw [onShred, hnew]
    have hclassk := hinc k (Nat.lt_succ_self k)
    simp only [closeCandidate, HoldSt.slotAt, List.getD_cons_zero, hclassk, Bool.false_eq_true,
      if_false]
  rw [hput]
  refine ⟨⟨f', rest, ?_, hsame.1, hsame.2, hholds'⟩, ?_, ?_, ?_, h.resolved, h.expired⟩
  · rw [fslotGet]
    simp [List.findIdx?_cons, hsame.1, hsame.2]
  · intro e he
    rcases mem_holdPut he with rfl | he
    · exact ⟨k, Nat.lt_succ_self k, rfl, rfl⟩
    · obtain ⟨j, hj, hentry⟩ := h.entries e he
      exact ⟨j, by omega, hentry⟩
  · exact (List.length_set ..).trans h.length
  · show s.frameIncomplete + 1 = k + 1
    rw [h.put]

theorem flooded_start : Flooded slot pay sig .start 0 where
  took := ⟨.fresh slot, List.replicate 3 ⟨0, false, [], []⟩, rfl, rfl, rfl, holds_fresh slot _⟩
  entries _ he := absurd (List.eq_of_mem_replicate he) (Option.some_ne_none _)
  length := rfl
  put := rfl
  resolved := rfl
  expired := rfl

/-- Every candidate was put on hold, none left, and 32 are there. -/
theorem flooded_run (hn : n ≤ fShreds) (hpay : ∀ j < n, pay j ≠ [] ∧ (pay j).length ≤ 1000)
    (hsig : ∀ i < n, ∀ j < n, sig i = sig j → i = j)
    (hclass : ∀ j < n, frameAroundSig (pay j) (sig j) = .incomplete) {k : Nat} (hk : k ≤ n) :
    Flooded slot pay sig (onShreds .start ((List.range k).map (cutShred slot pay sig))) k := by
  induction k with
  | zero => exact flooded_start
  | succ k ih =>
    have hstep := (ih (by omega)).step hk hn hpay hsig hclass
    rw [List.range_succ, List.map_append, onShreds, List.foldl_append]
    exact hstep

theorem Flooded.held_le {s : HoldSt} {k : Nat} (h : Flooded slot pay sig s k) : held s ≤ holdMax :=
  List.countP_le_length.trans (Nat.le_of_eq h.length)

end Flood

/-- The signature of a transaction, one byte repeated. -/
def cutSig (k : Nat) : Vector UInt8 64 :=
  ⟨⟨List.replicate 64 (UInt8.ofNat (k + 16))⟩, List.length_replicate⟩

/-- A legacy transaction of two instructions, a Pump sell first; the shred ends
before the second. -/
def cutSell (k : Nat) : List UInt8 :=
  [[1], (cutSig k).toList, [1, 0, 1, 3], List.replicate 32 0xff, List.replicate 32 0xfe,
    Tx.progPumpBytes, List.replicate 32 7, [2], [2, 1, 1, 24], Tx.pumpSellDisc,
    Bytes.leBytes 8 1000, Bytes.leBytes 8 0].flatten

theorem toList_cutSig (k : Nat) : (cutSig k).toList = List.replicate 64 (UInt8.ofNat (k + 16)) := rfl

theorem cutSig_inj {i j : Nat} (hi : i < 33) (hj : j < 33) (h : cutSig i = cutSig j) : i = j := by
  have hlist := congrArg Vector.toList h
  rw [toList_cutSig, toList_cutSig] at hlist
  have hbyte := congrArg UInt8.toNat (List.head_eq_of_cons_eq hlist)
  rw [UInt8.toNat_ofNat', UInt8.toNat_ofNat'] at hbyte
  omega

/-- The signature occurs once: every other window holds a byte of the message that is
not the signature's. -/
theorem sigPlaces_cutSell {k i : Nat} (hk : k < 33) (hi : i ∈ sigPlaces (cutSell k) (cutSig k).toList) :
    i = 1 := by
  obtain ⟨hrange, hwindow⟩ := List.mem_filter.mp hi
  have hlt : i < 163 := List.mem_range.mp hrange
  have hbyte : ∀ m, i ≤ m → m < i + 64 → (cutSell k)[m]? = some (UInt8.ofNat (k + 16)) := by
    intro m him hm
    have hget : (Bytes.field (cutSell k) i 64)[m - i]? = some (UInt8.ofNat (k + 16)) := by
      rw [of_decide_eq_true hwindow, toList_cutSig, List.getElem?_replicate, if_pos (by omega)]
    rw [Bytes.field, List.getElem?_take_of_lt (by omega), List.getElem?_drop] at hget
    rwa [Nat.add_sub_cancel' him] at hget
  have hother : ∀ (m : Nat) (c : UInt8), (cutSell k)[m]? = some c → c.toNat < 16 ∨ 64 < c.toNat →
      ¬(i ≤ m ∧ m < i + 64) := by
    intro m c hc hrange hwin
    obtain ⟨him, hm⟩ := hwin
    have heq := congrArg UInt8.toNat (Option.some.inj (hc.symm.trans (hbyte m him hm)))
    rw [UInt8.toNat_ofNat'] at heq
    omega
  have h0 := hother 0 1 rfl (by decide)
  have h65 := hother 65 1 rfl (by decide)
  have h101 := hother 101 0xfe rfl (by decide)
  have h133 := hother 133 0x0c rfl (by decide)
  have h165 := hother 165 7 rfl (by decide)
  omega

set_option maxRecDepth 4000 in
/-- The second instruction is missing. -/
theorem frameTryAt_cutSell (k : Nat) : frameTryAt (cutSell k) 0 = .need := rfl

theorem aroundAt_cutSell {k : Nat} (hk : k < 33) :
    aroundAt (cutSell k) (cutSig k).toList 1 = .need := by
  have hfirst : tryBack (cutSell k) (cutSig k).toList 1 1 = .need := by
    have hsig : Bytes.field (cutSell k) 1 64 = (cutSig k).toList := rfl
    have hcu : cu16 (cutSell k) 0 = .ok 1 1 := rfl
    have hlen : (cutSell k).length = 226 := rfl
    rw [tryBack, if_neg (by decide)]
    simp [hcu, hlen, hsig, frameTryAt_cutSell, Tx.txSigMax]
  have hv1 : ∀ s < 2, tryV1 true (cutSell k) 1 s = .bad := by
    intro s hs
    rw [tryV1, if_pos]
    match s, hs with
    | 0, _ => exact (by decide : some (1 : UInt8) ≠ some Tx.txV1Prefix)
    | 1, _ =>
      intro hprefix
      have hbyte : some (UInt8.ofNat (k + 16)) = some Tx.txV1Prefix := hprefix
      have hnat := congrArg UInt8.toNat (Option.some.inj hbyte)
      rw [UInt8.toNat_ofNat'] at hnat
      have h81 : Tx.txV1Prefix.toNat = 129 := rfl
      omega
  have hlast : frameV1FromSig0 true (cutSell k) 1 = .bad := by
    have hlen : (cutSell k).length = 226 := rfl
    rw [frameV1FromSig0, if_neg (by rw [hlen]; decide)]
    simp [Tx.txV1Max, List.range'_succ, hv1, Scan.firstOk]
  rw [aroundAt, hfirst, hlast]
  rfl

/-- The candidate of a cut transaction waits. -/
theorem frameAroundSig_cutSell {k : Nat} (hk : k < 33) :
    frameAroundSig (cutSell k) (cutSig k) = .incomplete := by
  have hlen : (cutSell k).length = 226 := rfl
  have hneed : ∀ places : List Nat, (∀ i ∈ places, i = 1) → places ≠ [] →
      Scan.firstOk (places.map (aroundAt (cutSell k) (cutSig k).toList)) = .need := by
    intro places hall hne
    induction places with
    | nil => exact absurd rfl hne
    | cons i places ih =>
      rw [List.map_cons, hall i List.mem_cons_self, aroundAt_cutSell hk, Scan.firstOk]
      cases places with
      | nil => rfl
      | cons j places =>
        rw [ih (fun i hi => hall i (List.mem_cons_of_mem _ hi)) (List.cons_ne_nil _ _)]
  have hmem : 1 ∈ sigPlaces (cutSell k) (cutSig k).toList :=
    List.mem_filter.mpr ⟨List.mem_range.mpr (by rw [hlen]; decide), decide_eq_true rfl⟩
  rw [frameAroundSig, if_neg (by rw [hlen]; decide),
    hneed _ (fun i hi => sigPlaces_cutSell hk hi) (List.ne_nil_of_mem hmem)]

/-- 33 candidates of one slot, each cut off: the last takes the place of the first,
and nothing counts it. -/
theorem full_table_loses_candidate :
    let s := onShreds .start ((List.range 33).map (cutShred 5 cutSell cutSig))
    s.frameIncomplete = 33 ∧ s.resolved = 0 ∧ s.frameExpired = 0 ∧ held s ≤ 32 ∧ ¬Accounted s := by
  have hpay : ∀ j < 33, cutSell j ≠ [] ∧ (cutSell j).length ≤ 1000 := by
    intro j _
    have hlen : (cutSell j).length = 226 := rfl
    exact ⟨List.ne_nil_of_length_pos (by rw [hlen]; decide), by rw [hlen]; decide⟩
  have hflood : Flooded 5 cutSell cutSig
      (onShreds .start ((List.range 33).map (cutShred 5 cutSell cutSig))) 33 :=
    flooded_run (by decide) hpay (fun i hi j hj => cutSig_inj hi hj)
      (fun j hj => frameAroundSig_cutSell hj) (Nat.le_refl 33)
  generalize onShreds .start ((List.range 33).map (cutShred 5 cutSell cutSig)) = s at hflood
  have hheld : held s ≤ 32 := hflood.held_le
  refine ⟨hflood.put, hflood.resolved, hflood.expired, hheld, ?_⟩
  unfold Accounted
  rw [hflood.put, hflood.resolved, hflood.expired]
  omega

end ShredArb.Orbit
