/-
  ShredArb.Feed.Ring — the capture ring (`arb-feed/include/feed.h`,
  `arb-feed/src/recorder.c`).

  The receiver pushes what it received into a ring of slots, the recorder thread
  pops them.  A push that finds the ring full is dropped and counted: the
  receiver never waits.  Both counters are 64-bit words that wrap; the slot of a
  counter is its low bits.

  A step is one atomic load or store, one assignment of a field or one byte of a
  `memcpy`, by either thread; the steps of the two come in ANY order.

  Conventions:
    • what stands in a slot behind `len` is left over from an older packet, and is
      copied with the rest,
    • `accepted` is what was let in and `popped` what was taken, from the start,
    • the counters are read and written sequentially consistently (the source
      orders each load before, each store after the slot it guards).

  Main results:
    * `sim_step` — the code's ring follows `Spsc` step by step,
    * `feed_ring_fifo` — what the recorder takes, over every run.
-/
import ShredArb.Lib.Spsc
import ShredArb.Lib.Word

namespace ShredArb.Feed

open ShredArb.Spsc (State Act Pieces)

/-! ## §1. Slots. -/

/-- `FEED_PKT_MAX`. -/
abbrev feedPktMax : Nat := 2048

/-- `feed_slot_t`. -/
structure FeedSlot where
  rxNs : UInt64
  rxTsc : UInt64
  len : UInt32
  seq : UInt32
  data : Vector UInt8 feedPktMax
  deriving DecidableEq, Repr

/-- A fresh slot (`calloc`). -/
def FeedSlot.zero : FeedSlot := ⟨0, 0, 0, 0, Vector.replicate feedPktMax 0⟩

/-- A received packet with the time and number the receiver gives it. -/
structure Packet where
  data : List UInt8
  rxNs : UInt64
  rxTsc : UInt64
  seq : UInt32
  deriving DecidableEq, Repr

/-- A store into a slot. -/
inductive Store where
  | rxNs (v : UInt64)
  | rxTsc (v : UInt64)
  | len (v : UInt32)
  | seq (v : UInt32)
  | byte (i : Fin feedPktMax) (b : UInt8)
  deriving DecidableEq, Repr

/-- A part of a slot. -/
inductive Part where
  | rxNs
  | rxTsc
  | len
  | seq
  | byte (i : Fin feedPktMax)
  deriving DecidableEq, Repr

def Store.apply (st : Store) (s : FeedSlot) : FeedSlot :=
  match st with
  | .rxNs v => { s with rxNs := v }
  | .rxTsc v => { s with rxTsc := v }
  | .len v => { s with len := v }
  | .seq v => { s with seq := v }
  | .byte i b => { s with data := s.data.set i.val b }

/-- A part of the shared slot `v` goes to the copy `o`. -/
def Part.copy (part : Part) (v o : FeedSlot) : FeedSlot :=
  match part with
  | .rxNs => { o with rxNs := v.rxNs }
  | .rxTsc => { o with rxTsc := v.rxTsc }
  | .len => { o with len := v.len }
  | .seq => { o with seq := v.seq }
  | .byte i => { o with data := o.data.set i.val v.data[i] }

/-- The bytes of a packet that are kept. -/
def Packet.kept (p : Packet) : List UInt8 := p.data.take feedPktMax

/-- The stores of a push, in order. -/
def Packet.stores (p : Packet) : List Store :=
  [.rxNs p.rxNs, .rxTsc p.rxTsc, .len (UInt32.ofNat p.kept.length), .seq p.seq] ++
    ((List.finRange feedPktMax).take p.kept.length).map fun i => .byte i (p.data.getD i 0)

/-- The parts of a pop's `memcpy`. -/
def Part.all : List Part :=
  [.rxNs, .rxTsc, .len, .seq] ++ (List.finRange feedPktMax).map .byte

/-- What a slot holds of a packet: the bytes up to `len`. -/
structure FeedRec where
  rxNs : UInt64
  rxTsc : UInt64
  len : UInt32
  seq : UInt32
  data : List UInt8
  deriving DecidableEq, Repr

def FeedSlot.record (s : FeedSlot) : FeedRec :=
  ⟨s.rxNs, s.rxTsc, s.len, s.seq, s.data.toList.take s.len.toNat⟩

/-- What a slot holds of a packet that was stored in it. -/
def Packet.record (p : Packet) : FeedRec :=
  ⟨p.rxNs, p.rxTsc, UInt32.ofNat p.kept.length, p.seq, p.kept⟩

/-! ## §2. The two threads. -/

/-- `feed_ring_t`. -/
structure FeedRing where
  slot : List FeedSlot
  mask : UInt32
  head : UInt64
  tail : UInt64
  drops : UInt64
  trunc : UInt64
  deriving DecidableEq, Repr

/-- Where `feed_try_push` is: its local `head` and the stores still to do. -/
structure Pushing where
  head : UInt64
  todo : List Store
  deriving DecidableEq, Repr

/-- Where `feed_pop` is: its local `tail`, the parts still to copy, its copy. -/
structure Popping where
  tail : UInt64
  todo : List Part
  out : FeedSlot
  deriving DecidableEq, Repr

/-- The ring, the two threads, and what went in and came out. -/
structure FeedState where
  ring : FeedRing
  push : Option Pushing
  pop : Option Popping
  accepted : List Packet
  popped : List FeedSlot
  deriving DecidableEq, Repr

/-- `feed_ring_init`. -/
def feedRingInit (slots : UInt32) : Option FeedRing :=
  if slots < 2 ∨ slots &&& (slots - 1) ≠ 0 then none
  else some ⟨List.replicate slots.toNat FeedSlot.zero, slots - 1, 0, 0, 0, 0⟩

/-- The slot of a counter. -/
def FeedRing.at (r : FeedRing) (k : UInt64) : Nat := (k &&& r.mask.toUInt64).toNat

/-- Steps of the receiver (`tryPush`, `store`, `advance`) and of the recorder
(`tryPop`, `copy`, `release`). -/
inductive FeedAct where
  | tryPush (p : Packet)
  | store
  | advance
  | tryPop (out : FeedSlot)
  | copy
  | release
  deriving DecidableEq, Repr

/-- One step of one thread; none if the thread is not there. -/
def feedStep (s : FeedState) : FeedAct → Option FeedState
  | .tryPush p =>
    if s.push.isSome then none
    else if s.ring.head - s.ring.tail ≥ s.ring.mask.toUInt64 + 1 then
      some { s with ring := { s.ring with drops := s.ring.drops + 1 } }
    else
      some { s with
        ring := { s.ring with
          trunc := if p.data.length > feedPktMax then s.ring.trunc + 1 else s.ring.trunc }
        push := some ⟨s.ring.head, p.stores⟩
        accepted := s.accepted ++ [p] }
  | .store =>
    match s.push with
    | some ⟨head, st :: todo⟩ =>
      some { s with
        ring := { s.ring with slot := s.ring.slot.modify (s.ring.at head) st.apply }
        push := some ⟨head, todo⟩ }
    | _ => none
  | .advance =>
    match s.push with
    | some ⟨head, []⟩ => some { s with ring := { s.ring with head := head + 1 }, push := none }
    | _ => none
  | .tryPop out =>
    if s.pop.isSome then none
    else if s.ring.tail = s.ring.head then some s
    else some { s with pop := some ⟨s.ring.tail, Part.all, out⟩ }
  | .copy =>
    match s.pop with
    | some ⟨tail, part :: todo, out⟩ =>
      some { s with
        pop := some ⟨tail, todo, part.copy (s.ring.slot.getD (s.ring.at tail) FeedSlot.zero) out⟩ }
    | _ => none
  | .release =>
    match s.pop with
    | some ⟨tail, [], out⟩ =>
      some { s with
        ring := { s.ring with tail := tail + 1 }, pop := none, popped := s.popped ++ [out] }
    | _ => none

/-- Both threads idle on a fresh ring. -/
def FeedState.start (r : FeedRing) : FeedState := ⟨r, none, none, [], []⟩

/-! ## §3. Whole slots. -/

/-- Cells set one after the other, each to what `f` says. -/
theorem getElem_foldl_set {α : Type} {N : Nat} (f : Fin N → α) (l : List (Fin N)) :
    ∀ (d : Vector α N) (j : Fin N),
      (l.foldl (fun d i => d.set i.val (f i)) d)[j] = if j ∈ l then f j else d[j] := by
  induction l with
  | nil => intro d j; simp
  | cons i l ih =>
    intro d j
    rw [List.foldl_cons, ih]
    by_cases hj : j ∈ l
    · rw [if_pos hj, if_pos (List.mem_cons_of_mem _ hj)]
    · rw [if_neg hj]
      by_cases hji : j = i
      · subst hji
        simp
      · rw [if_neg (by simp [hji, hj])]
        have hne : i.val ≠ j.val := fun h => hji (Fin.ext h.symm)
        simp [Vector.getElem_set_ne, hne]

theorem foldl_copy_bytes (l : List (Fin feedPktMax)) : ∀ v o : FeedSlot,
    (l.map Part.byte).foldl (fun o r => r.copy v o) o
      = { o with data := l.foldl (fun d i => d.set i.val v.data[i]) o.data } := by
  induction l with
  | nil => exact fun _ _ => rfl
  | cons i l ih => exact fun v o => ih v (Part.copy (.byte i) v o)

/-- All parts copied, the copy is the slot. -/
theorem copy_all (v o : FeedSlot) : Part.all.foldl (fun o r => r.copy v o) o = v := by
  have hdata : ∀ d, (List.finRange feedPktMax).foldl (fun d i => d.set i.val v.data[i]) d = v.data := by
    intro d
    refine Vector.ext fun j hj => ?_
    have h := getElem_foldl_set (fun i => v.data[i]) (List.finRange feedPktMax) d ⟨j, hj⟩
    rw [if_pos (List.mem_finRange _)] at h
    exact h
  rw [Part.all, List.foldl_append, foldl_copy_bytes, hdata]
  rfl

theorem foldl_store_bytes (f : Fin feedPktMax → UInt8) (l : List (Fin feedPktMax)) :
    ∀ s : FeedSlot, (l.map fun i => Store.byte i (f i)).foldl (fun s st => st.apply s) s
      = { s with data := l.foldl (fun d i => d.set i.val (f i)) s.data } := by
  induction l with
  | nil => exact fun _ => rfl
  | cons i l ih => exact fun s => ih (Store.apply (.byte i (f i)) s)

/-- All stores done, the slot holds the packet, whatever it held before. -/
theorem stores_record (p : Packet) (s : FeedSlot) :
    (p.stores.foldl (fun s st => st.apply s) s).record = p.record := by
  have hkept : p.kept.length ≤ feedPktMax := by
    rw [Packet.kept, List.length_take]
    exact Nat.min_le_left _ _
  have hlen : (UInt32.ofNat p.kept.length).toNat = p.kept.length :=
    UInt32.toNat_ofNat_of_lt' (lt_of_le_of_lt hkept (by decide))
  have hdata : ∀ d : Vector UInt8 feedPktMax,
      (((List.finRange feedPktMax).take p.kept.length).foldl
        (fun d i => d.set i.val (p.data.getD i 0)) d).toList.take p.kept.length = p.kept := by
    intro d
    refine List.ext_getElem (by simp [hkept]) fun j hj hj' => ?_
    have hjN : j < feedPktMax := lt_of_lt_of_le hj' hkept
    have hmem : (⟨j, hjN⟩ : Fin feedPktMax) ∈ (List.finRange feedPktMax).take p.kept.length := by
      rw [List.mem_take_iff_getElem]
      exact ⟨j, by simp; omega, by simp⟩
    have h := getElem_foldl_set (fun i : Fin feedPktMax => p.data.getD i 0)
      ((List.finRange feedPktMax).take p.kept.length) d ⟨j, hjN⟩
    rw [if_pos hmem] at h
    rw [List.getElem_take, Vector.getElem_toList]
    refine h.trans ?_
    have hjdata : j < p.data.length := by
      rw [Packet.kept, List.length_take] at hj'
      omega
    simp only [Packet.kept, List.getElem_take]
    rw [List.getD_eq_getElem?_getD, List.getElem?_eq_getElem hjdata, Option.getD_some]
  rw [Packet.stores, List.foldl_append, foldl_store_bytes, FeedSlot.record, Packet.record]
  refine congrArg _ ?_
  show (Vector.toList _).take (UInt32.ofNat p.kept.length).toNat = p.kept
  rw [hlen]
  exact hdata s.data

/-! ## §4. The counters. -/

/-- A ring of `2 ^ k` slots. -/
structure Sized (r : FeedRing) (k : Nat) : Prop where
  bound : k < 32
  length : r.slot.length = 2 ^ k
  mask : r.mask.toNat = 2 ^ k - 1

/-- `feed_ring_init` takes the powers of two. -/
theorem sized_init {slots : UInt32} {r : FeedRing} (h : feedRingInit slots = some r) :
    ∃ k, slots.toNat = 2 ^ k ∧ Sized r k := by
  rw [feedRingInit] at h
  split at h
  · exact absurd h (by simp)
  · rename_i hok
    rw [not_or, not_not] at hok
    cases h
    have htwo : ¬ slots.toNat < 2 := by
      have := hok.1
      rwa [UInt32.lt_iff_toNat_lt] at this
    have hone : (slots - 1).toNat = slots.toNat - 1 := by
      rw [UInt32.toNat_sub_of_le _ _ (by rw [UInt32.le_iff_toNat_le]; simp; omega)]
      rfl
    have hand : slots.toNat &&& (slots.toNat - 1) = 0 := by
      have := congrArg UInt32.toNat hok.2
      rwa [UInt32.toNat_and, hone] at this
    obtain ⟨k, hk⟩ := (Nat.and_sub_one_eq_zero_iff_isPowerOfTwo (by omega)).mp hand
    refine ⟨k, hk, ?_, ?_, ?_⟩
    · have hlt := slots.toNat_lt
      rw [hk] at hlt
      exact (Nat.pow_lt_pow_iff_right (by norm_num)).mp hlt
    · rw [List.length_replicate, hk]
    · rw [hone, hk]

theorem Sized.toNat_slots {r : FeedRing} {k : Nat} (h : Sized r k) :
    (UInt64.ofNat (2 ^ k)).toNat = 2 ^ k :=
  UInt64.toNat_ofNat_of_lt' (lt_trans (Nat.pow_lt_pow_right (by norm_num) h.bound) (by decide))

theorem Sized.slots {r : FeedRing} {k : Nat} (h : Sized r k) :
    r.mask.toUInt64 + 1 = UInt64.ofNat (2 ^ k) := by
  have hpow : 2 ^ k < 2 ^ 32 := Nat.pow_lt_pow_right (by norm_num) h.bound
  have hpos : 0 < 2 ^ k := Nat.two_pow_pos k
  apply UInt64.toNat_inj.mp
  rw [UInt64.toNat_add, UInt32.toNat_toUInt64, h.mask, h.toNat_slots]
  show (2 ^ k - 1 + 1) % 2 ^ 64 = 2 ^ k
  omega

/-- The low bits of a counter, wrapped or not, are its slot. -/
theorem Sized.at {r : FeedRing} {k : Nat} (h : Sized r k) (c : Nat) :
    r.at (UInt64.ofNat c) = c % 2 ^ k := by
  have hdvd : 2 ^ k ∣ 2 ^ 64 := pow_dvd_pow 2 (by have := h.bound; omega)
  rw [FeedRing.at, UInt64.toNat_and, UInt32.toNat_toUInt64, h.mask, UInt64.toNat_ofNat',
    Nat.and_two_pow_sub_one_eq_mod, Nat.mod_mod_of_dvd _ hdvd]

/-- The distance of two counters that are not far apart. -/
theorem distance {h t : Nat} (hle : t ≤ h) (hnear : h - t < 2 ^ 64) :
    (UInt64.ofNat h - UInt64.ofNat t).toNat = h - t := by
  rw [← UInt64.ofNat_sub hle, UInt64.toNat_ofNat_of_lt' hnear]

theorem counter_eq_iff {h t : Nat} (hle : t ≤ h) (hnear : h - t < 2 ^ 64) :
    UInt64.ofNat t = UInt64.ofNat h ↔ t = h := by
  constructor
  · intro heq
    have hd := distance hle hnear
    rw [heq, UInt64.sub_self] at hd
    have : (0 : UInt64).toNat = 0 := rfl
    omega
  · exact fun heq => by rw [heq]

/-! ## §5. The code follows the counters. -/

/-- The pieces of a slot. -/
def pieces : Pieces FeedSlot Store Part where
  put := Store.apply
  copy := Part.copy
  all := Part.all
  copy_all := copy_all

/-- What the push under way will have stored. -/
def inFlight (n : Nat) (a : State FeedSlot Store Part) : List FeedRec :=
  match a.writing with
  | none => []
  | some todo => [(todo.foldl (fun s st => st.apply s) (a.cells (a.head % n))).record]

/-- The code's ring at the counters of `a`. -/
structure Sim (k : Nat) (s : FeedState) (a : State FeedSlot Store Part) : Prop where
  sized : Sized s.ring k
  cells : ∀ i, i < 2 ^ k → s.ring.slot[i]? = some (a.cells i)
  head : s.ring.head = UInt64.ofNat a.head
  tail : s.ring.tail = UInt64.ofNat a.tail
  push : a.writing = s.push.map Pushing.todo
  pushHead : ∀ q, s.push = some q → q.head = s.ring.head
  pop : a.reading = s.pop.map fun q => (q.todo, q.out)
  popTail : ∀ q, s.pop = some q → q.tail = s.ring.tail
  popped : s.popped = a.got
  accepted : s.accepted.map Packet.record = a.sent.map FeedSlot.record ++ inFlight (2 ^ k) a

theorem sim_start {slots : UInt32} {r : FeedRing} (h : feedRingInit slots = some r) :
    ∃ k, slots.toNat = 2 ^ k ∧ Sim k (FeedState.start r) (Spsc.init fun _ => FeedSlot.zero) := by
  obtain ⟨k, hk, hsized⟩ := sized_init h
  refine ⟨k, hk, hsized, fun i hi => ?_, ?_, ?_, rfl, ?_, rfl, ?_, rfl, rfl⟩
  · rw [feedRingInit] at h
    split at h
    · exact absurd h (by simp)
    · cases h
      show (List.replicate slots.toNat FeedSlot.zero)[i]? = some FeedSlot.zero
      rw [List.getElem?_replicate, if_pos (by omega)]
  · rw [feedRingInit] at h
    split at h
    · exact absurd h (by simp)
    · cases h
      rfl
  · rw [feedRingInit] at h
    split at h
    · exact absurd h (by simp)
    · cases h
      rfl
  · exact fun q hq => absurd hq (by simp [FeedState.start])
  · exact fun q hq => absurd hq (by simp [FeedState.start])

/-- **A step of the code is a step of the counters, or none.** -/
theorem sim_step {k : Nat} {s s' : FeedState} {a : State FeedSlot Store Part} {act : FeedAct}
    (hs : Sim k s a) (ha : Spsc.Inv pieces (2 ^ k) a) (hstep : feedStep s act = some s') :
    ∃ a', Sim k s' a' ∧ Spsc.Inv pieces (2 ^ k) a' := by
  have hle := ha.le
  have hroom := ha.room
  have hpow : 2 ^ k < 2 ^ 32 := Nat.pow_lt_pow_right (by norm_num) hs.sized.bound
  have hnear : a.head - a.tail < 2 ^ 64 := by omega
  cases act with
  | tryPush p =>
    rw [feedStep] at hstep
    split at hstep
    · exact absurd hstep (by simp)
    · rename_i hidle
      have hnone : s.push = none := by simpa using hidle
      split at hstep
      · -- full: only the count of drops changes
        cases hstep
        exact ⟨a, { hs with sized := ⟨hs.sized.bound, hs.sized.length, hs.sized.mask⟩ }, ha⟩
      · rename_i hfree
        cases hstep
        have hfree' : a.head - a.tail < 2 ^ k := by
          rw [hs.head, hs.tail, hs.sized.slots, ge_iff_le, UInt64.le_iff_toNat_le, not_le,
            distance hle hnear, hs.sized.toNat_slots] at hfree
          exact hfree
        have hwriting : a.writing = none := by rw [hs.push, hnone]; rfl
        have hact : Spsc.step pieces (2 ^ k) a (.begin p.stores)
            = some { a with writing := some p.stores } := if_pos ⟨hwriting, hfree'⟩
        refine ⟨_, ?_, Spsc.inv_step ha hact⟩
        refine { hs with
          sized := ⟨hs.sized.bound, hs.sized.length, hs.sized.mask⟩
          push := rfl
          pushHead := fun q hq => by cases hq; rfl
          accepted := ?_ }
        have hold := hs.accepted
        rw [inFlight, hwriting, List.append_nil] at hold
        show (s.accepted ++ [p]).map Packet.record = a.sent.map FeedSlot.record ++ [_]
        rw [List.map_append, hold, stores_record]
        rfl
  | store =>
    rw [feedStep] at hstep
    split at hstep
    · rename_i head st todo hpush
      cases hstep
      have hwriting : a.writing = some (st :: todo) := by rw [hs.push, hpush]; rfl
      have hhead : head = s.ring.head := hs.pushHead _ hpush
      have hat : s.ring.at head = a.head % 2 ^ k := by rw [hhead, hs.head, hs.sized.at]
      have hact : Spsc.step pieces (2 ^ k) a .put = some { a with
          cells := Function.update a.cells (a.head % 2 ^ k) (st.apply (a.cells (a.head % 2 ^ k)))
          writing := some todo } := by
        rw [Spsc.step, hwriting]
        rfl
      generalize hcells : Function.update a.cells (a.head % 2 ^ k)
        (st.apply (a.cells (a.head % 2 ^ k))) = cells at hact
      have hself : cells (a.head % 2 ^ k) = st.apply (a.cells (a.head % 2 ^ k)) := by
        rw [← hcells, Function.update_self]
      refine ⟨_, ?_, Spsc.inv_step ha hact⟩
      refine { hs with
        sized := ⟨hs.sized.bound, ?_, hs.sized.mask⟩
        cells := fun i hi => ?_
        push := rfl
        pushHead := fun q hq => by cases hq; exact hhead
        accepted := ?_ }
      · show (s.ring.slot.modify _ _).length = _
        rw [List.length_modify]
        exact hs.sized.length
      · show (s.ring.slot.modify (s.ring.at head) st.apply)[i]? = some (cells i)
        rw [hat, List.getElem?_modify, hs.cells i hi]
        by_cases hi' : a.head % 2 ^ k = i
        · subst hi'
          rw [hself]
          simp
        · rw [← hcells, Function.update_of_ne (Ne.symm hi')]
          simp [hi']
      · have hold := hs.accepted
        rw [inFlight, hwriting] at hold
        rw [hold]
        show a.sent.map FeedSlot.record ++ [_]
          = a.sent.map FeedSlot.record ++ [(todo.foldl _ (cells (a.head % 2 ^ k))).record]
        rw [hself]
        rfl
    · exact absurd hstep (by simp)
  | advance =>
    rw [feedStep] at hstep
    split at hstep
    · rename_i head hpush
      cases hstep
      have hwriting : a.writing = some [] := by rw [hs.push, hpush]; rfl
      have hhead : head = s.ring.head := hs.pushHead _ hpush
      have hact : Spsc.step pieces (2 ^ k) a .publish = some { a with
          head := a.head + 1, writing := none, sent := a.sent ++ [a.cells (a.head % 2 ^ k)] } := by
        rw [Spsc.step, hwriting]
      refine ⟨_, ?_, Spsc.inv_step ha hact⟩
      refine { hs with
        sized := ⟨hs.sized.bound, hs.sized.length, hs.sized.mask⟩
        head := ?_
        push := rfl
        pushHead := fun q hq => absurd hq (by simp)
        accepted := ?_ }
      · show head + 1 = UInt64.ofNat (a.head + 1)
        rw [hhead, hs.head, UInt64.ofNat_add]
        rfl
      · have hold := hs.accepted
        rw [inFlight, hwriting] at hold
        show s.accepted.map Packet.record = (a.sent ++ [_]).map FeedSlot.record ++ []
        rw [hold, List.map_append, List.append_nil]
        rfl
    · exact absurd hstep (by simp)
  | tryPop out =>
    rw [feedStep] at hstep
    split at hstep
    · exact absurd hstep (by simp)
    · rename_i hidle
      have hnone : s.pop = none := by simpa using hidle
      split at hstep
      · cases hstep
        exact ⟨a, hs, ha⟩
      · rename_i hsome
        cases hstep
        have hlt : a.tail < a.head := by
          rw [hs.head, hs.tail, counter_eq_iff hle hnear] at hsome
          omega
        have hreading : a.reading = none := by rw [hs.pop, hnone]; rfl
        have hact : Spsc.step pieces (2 ^ k) a (.take out)
            = some { a with reading := some (Part.all, out) } := if_pos ⟨hreading, hlt⟩
        refine ⟨_, ?_, Spsc.inv_step ha hact⟩
        exact { hs with
          pop := rfl
          popTail := fun q hq => by cases hq; rfl }
  | copy =>
    rw [feedStep] at hstep
    split at hstep
    · rename_i tail part todo out hpop
      cases hstep
      have hreading : a.reading = some (part :: todo, out) := by rw [hs.pop, hpop]; rfl
      have htail : tail = s.ring.tail := hs.popTail _ hpop
      have hcell : s.ring.slot.getD (s.ring.at tail) FeedSlot.zero = a.cells (a.tail % 2 ^ k) := by
        rw [htail, hs.tail, hs.sized.at, List.getD_eq_getElem?_getD,
          hs.cells _ (Nat.mod_lt _ (Nat.two_pow_pos k))]
        rfl
      have hact : Spsc.step pieces (2 ^ k) a .copy = some { a with
          reading := some (todo, part.copy (a.cells (a.tail % 2 ^ k)) out) } := by
        rw [Spsc.step, hreading]
        rfl
      rw [hcell]
      refine ⟨_, ?_, Spsc.inv_step ha hact⟩
      exact { hs with
        pop := rfl
        popTail := fun q hq => by cases hq; exact htail }
    · exact absurd hstep (by simp)
  | release =>
    rw [feedStep] at hstep
    split at hstep
    · rename_i tail out hpop
      cases hstep
      have hreading : a.reading = some ([], out) := by rw [hs.pop, hpop]; rfl
      have htail : tail = s.ring.tail := hs.popTail _ hpop
      have hact : Spsc.step pieces (2 ^ k) a .release = some { a with
          tail := a.tail + 1, reading := none, got := a.got ++ [out] } := by
        rw [Spsc.step, hreading]
      refine ⟨_, ?_, Spsc.inv_step ha hact⟩
      refine { hs with
        sized := ⟨hs.sized.bound, hs.sized.length, hs.sized.mask⟩
        tail := ?_
        pop := rfl
        popTail := fun q hq => absurd hq (by simp)
        popped := ?_ }
      · show tail + 1 = UInt64.ofNat (a.tail + 1)
        rw [htail, hs.tail, UInt64.ofNat_add]
        rfl
      · show s.popped ++ [out] = a.got ++ [out]
        rw [hs.popped]
    · exact absurd hstep (by simp)

/-- **Every run follows the counters.** -/
theorem sim_run {slots : UInt32} {r : FeedRing} {acts : List FeedAct} {s : FeedState}
    (hr : feedRingInit slots = some r) (hrun : acts.foldlM feedStep (FeedState.start r) = some s) :
    ∃ k a, slots.toNat = 2 ^ k ∧ Sim k s a ∧ Spsc.Inv pieces (2 ^ k) a := by
  obtain ⟨k, hk, hstart⟩ := sim_start hr
  have hinv := Run.foldlM_preserves
    (f := feedStep) (I := fun s => ∃ a, Sim k s a ∧ Spsc.Inv pieces (2 ^ k) a)
    (fun s act s' ⟨a, hs, ha⟩ hstep => sim_step hs ha hstep) acts
    ⟨_, hstart, Spsc.inv_init pieces (2 ^ k) _⟩ hrun
  obtain ⟨a, hs, ha⟩ := hinv
  exact ⟨k, a, hk, hs, ha⟩

/-! ## §6. Every packet once, in order. -/

/-- How often the receiver pushed. -/
def pushes (acts : List FeedAct) : Nat :=
  acts.countP fun act => match act with
    | .tryPush _ => true
    | _ => false

/-- A push is let in or counted; nothing else is. -/
theorem step_counts {s s' : FeedState} {act : FeedAct} (h : feedStep s act = some s') :
    ∃ d, s'.ring.drops = s.ring.drops + UInt64.ofNat d ∧
      pushes [act] + s.accepted.length = d + s'.accepted.length := by
  cases act with
  | tryPush p =>
    rw [feedStep] at h
    split at h
    · exact absurd h (by simp)
    · split at h <;> cases h
      · exact ⟨1, rfl, rfl⟩
      · refine ⟨0, (UInt64.add_zero _).symm, ?_⟩
        show 1 + s.accepted.length = 0 + (s.accepted ++ [p]).length
        rw [List.length_append, List.length_singleton]
        omega
  | store =>
    rw [feedStep] at h
    split at h
    · cases h
      exact ⟨0, (UInt64.add_zero _).symm, rfl⟩
    · exact absurd h (by simp)
  | advance =>
    rw [feedStep] at h
    split at h
    · cases h
      exact ⟨0, (UInt64.add_zero _).symm, rfl⟩
    · exact absurd h (by simp)
  | tryPop out =>
    rw [feedStep] at h
    split at h
    · exact absurd h (by simp)
    · split at h <;> cases h <;> exact ⟨0, (UInt64.add_zero _).symm, rfl⟩
  | copy =>
    rw [feedStep] at h
    split at h
    · cases h
      exact ⟨0, (UInt64.add_zero _).symm, rfl⟩
    · exact absurd h (by simp)
  | release =>
    rw [feedStep] at h
    split at h
    · cases h
      exact ⟨0, (UInt64.add_zero _).symm, rfl⟩
    · exact absurd h (by simp)

theorem run_counts (acts : List FeedAct) : ∀ {s s' : FeedState}, acts.foldlM feedStep s = some s' →
    ∃ d, s'.ring.drops = s.ring.drops + UInt64.ofNat d ∧
      pushes acts + s.accepted.length = d + s'.accepted.length := by
  induction acts with
  | nil =>
    intro s s' h
    cases h
    exact ⟨0, (UInt64.add_zero _).symm, rfl⟩
  | cons act acts ih =>
    intro s s' h
    rw [List.foldlM_cons] at h
    obtain ⟨t, ht, h⟩ := Option.bind_eq_some_iff.mp h
    obtain ⟨d, hd, hcount⟩ := step_counts ht
    obtain ⟨e, he, hcounts⟩ := ih h
    refine ⟨d + e, ?_, ?_⟩
    · rw [he, hd, UInt64.ofNat_add, UInt64.add_assoc]
    · have hcons : pushes (act :: acts) = pushes [act] + pushes acts := by
        rw [pushes, pushes, pushes, ← List.countP_append]
        rfl
      omega

/-- What was taken is the first part of what was let in. -/
theorem Sim.taken {k : Nat} {s : FeedState} {a : State FeedSlot Store Part} (hs : Sim k s a)
    (ha : Spsc.Inv pieces (2 ^ k) a) :
    s.popped.length = a.tail ∧
      s.popped.map FeedSlot.record = (s.accepted.map Packet.record).take s.popped.length := by
  have hle := ha.le
  have hlen : s.popped.length = a.tail := by
    rw [hs.popped, ha.got, List.length_take, ha.sent]
    omega
  refine ⟨hlen, ?_⟩
  rw [hlen, hs.accepted, List.take_append_of_le_length (by rw [List.length_map, ha.sent]; exact hle),
    hs.popped, ha.got, List.map_take]

/-- Without a push under way every packet let in has been handed over. -/
theorem Sim.length_accepted {k : Nat} {s : FeedState} {a : State FeedSlot Store Part} (hs : Sim k s a)
    (ha : Spsc.Inv pieces (2 ^ k) a) (hpush : s.push = none) : s.accepted.length = a.head := by
  have hwriting : a.writing = none := by rw [hs.push, hpush]; rfl
  have h := congrArg List.length hs.accepted
  rw [inFlight, hwriting, List.append_nil, List.length_map, List.length_map, ha.sent] at h
  exact h

/-- **The recorder takes every packet that was let in, once, whole and in
order**, whatever way the two threads interleave and however often the counters
wrap; a packet is refused only when the ring is full of unread ones, and every
refusal is counted. -/
theorem feed_ring_fifo {slots : UInt32} {r : FeedRing} {acts : List FeedAct} {s : FeedState}
    (hr : feedRingInit slots = some r) (hrun : acts.foldlM feedStep (FeedState.start r) = some s) :
    s.popped.map FeedSlot.record = (s.accepted.map Packet.record).take s.popped.length ∧
    (s.push = none →
      (s.ring.tail = s.ring.head ↔ s.popped.length = s.accepted.length) ∧
      ∀ p, feedStep s (.tryPush p) =
        if s.accepted.length - s.popped.length < slots.toNat then
          some { s with
            ring := { s.ring with
              trunc := if p.data.length > feedPktMax then s.ring.trunc + 1 else s.ring.trunc }
            push := some ⟨s.ring.head, p.stores⟩
            accepted := s.accepted ++ [p] }
        else some { s with ring := { s.ring with drops := s.ring.drops + 1 } }) ∧
    s.ring.drops = UInt64.ofNat (pushes acts - s.accepted.length) := by
  obtain ⟨k, a, hk, hs, ha⟩ := sim_run hr hrun
  obtain ⟨htail, htaken⟩ := hs.taken ha
  have hle := ha.le
  have hroom := ha.room
  have hpow : 2 ^ k < 2 ^ 32 := Nat.pow_lt_pow_right (by norm_num) hs.sized.bound
  have hnear : a.head - a.tail < 2 ^ 64 := by omega
  refine ⟨htaken, fun hpush => ⟨?_, fun p => ?_⟩, ?_⟩
  · rw [hs.head, hs.tail, counter_eq_iff hle hnear, htail, hs.length_accepted ha hpush]
  · have hfull : s.ring.head - s.ring.tail ≥ s.ring.mask.toUInt64 + 1 ↔
        ¬ (s.accepted.length - s.popped.length < slots.toNat) := by
      rw [hs.head, hs.tail, hs.sized.slots, ge_iff_le, UInt64.le_iff_toNat_le,
        distance hle hnear, hs.sized.toNat_slots, htail,
        hs.length_accepted ha hpush, hk, not_lt]
    rw [feedStep, if_neg (by rw [hpush]; simp)]
    by_cases hfree : s.accepted.length - s.popped.length < slots.toNat
    · rw [if_neg (fun h => hfull.mp h hfree), if_pos hfree]
    · rw [if_pos (hfull.mpr hfree), if_neg hfree]
  · obtain ⟨d, hdrops, hcount⟩ := run_counts acts hrun
    have hzero : (FeedState.start r).ring.drops = 0 := by
      rw [feedRingInit] at hr
      split at hr
      · exact absurd hr (by simp)
      · cases hr
        rfl
    have hd : d = pushes acts - s.accepted.length := by
      have : (FeedState.start r).accepted.length = 0 := rfl
      omega
    rw [hdrops, hzero, UInt64.zero_add, hd]

/-- Two slots: a packet goes through while the next is being stored, one more
fills the ring, and another is refused. -/
def demoActs : List FeedAct :=
  [.tryPop FeedSlot.zero, .tryPush ⟨[7, 8], 1, 2, 3⟩] ++ List.replicate 6 .store ++
    [.advance, .tryPop FeedSlot.zero, .tryPush ⟨[9], 4, 5, 6⟩] ++
    List.replicate (feedPktMax + 4) .copy ++ [.store, .release] ++ List.replicate 4 .store ++
    [.advance, .tryPush ⟨[], 7, 8, 9⟩] ++ List.replicate 4 .store ++ [.advance, .tryPush ⟨[1], 9, 9, 9⟩]

/-- The ring of two slots. -/
def demoRing : FeedRing := ⟨List.replicate 2 FeedSlot.zero, 1, 0, 0, 0, 0⟩

theorem feed_ring_fifo_demo :
    ∃ s : FeedState, s.popped.length = 1 ∧ s.accepted.length = 3 ∧
      s.popped.map FeedSlot.record = (s.accepted.map Packet.record).take s.popped.length ∧
      s.ring.drops = UInt64.ofNat (pushes demoActs - s.accepted.length) := by
  have hinit : feedRingInit 2 = some demoRing := by rfl
  have hrun : (demoActs.foldlM feedStep (FeedState.start demoRing)).map
      (fun s => (s.popped.length, s.accepted.length)) = some (1, 3) := by decide +kernel
  obtain ⟨s, hs, hlen⟩ := Option.map_eq_some_iff.mp hrun
  rw [Prod.mk.injEq] at hlen
  obtain ⟨htaken, -, hdrops⟩ := feed_ring_fifo hinit hs
  exact ⟨s, hlen.1, hlen.2, htaken, hdrops⟩

end ShredArb.Feed
