/-
  ShredArb.Tx.DexPoolN — the pool a payload names, for up to six venues
  (`arb-core/src/tx_n.c`), behind the classifier of `classify_n.c`.

  `tx_n.c` stands beside the two-venue walk of `tx.c`, with one more argument:
  how many venues, in the order in which they were added.  A payload comes here
  when `classify_n` found an id in it.

  Conventions:
    • the arrays `PROG_N` and `PROTO_N_ID` are one list of pairs,
    • `n_ids` above six is six: a `take` cuts it.

  Main results:
    * `classifyN_bit_iff` — a bit of the classifier is an id in the payload,
    * `named_within_gate` — what is named passed the gate, and venues whose bit
      is not set may be added or left out.
-/
import ShredArb.Tx.DexPool
import ShredArb.Trigger.Classify

namespace ShredArb.Tx

open ShredArb.Univ ShredArb.Bytes ShredArb.Parse
open ShredArb.Classify (Needle needle classifyN classifyNAt classifyNRange classifyNAvx2 classifyNMax
  idEq32 wantMask)

/-! ## §1. The walk for `n` venues. -/

/-- `PROG_N` with `PROTO_N_ID`. -/
def progN : List (List UInt8 × UInt8) :=
  [(progDlmmBytes, protoDlmm), (progPumpBytes, protoPump), (Classify.progClmm, protoClmm),
    (Classify.progCpmm, protoCpmm), (Classify.progDamm, protoDamm), (Classify.progOrca, protoOrca)]

/-- `key_is_dex_n`. -/
def keyIsDexN (n : Nat) (k : Mint) : UInt8 :=
  (((progN.take n).find? fun q => k = BitVec.ofNat 256 (leNat q.1)).map Prod.snd).getD 0

/-- `find_prog_id_n`. -/
def findProgIdN (p : List UInt8) (n : Nat) : Option (Nat × UInt8) :=
  if p.length < 32 then none
  else (List.range (p.length - 31)).findSome? fun i =>
    ((progN.take n).find? fun q => field p i 32 = q.1).map fun q => (i, q.2)

/-- `msg_first_dex_pool_n`. -/
def msgFirstDexPoolN (p : List UInt8) (n : Nat) : Option PoolCand :=
  (findProgIdN p n).bind fun (off, _) =>
    if off > 0xffff ∨ p.length > 0xffff then none
    else (msgKeysFromProg p off).bind (poolAfterKeys (keyIsDexN n) p)

/-! ## §2. The classifier. -/

/-- The 32 bytes stand somewhere in the payload. -/
def Occurs (p id : List UInt8) : Prop := ∃ i, field p i 32 = id

/-- A bit belongs to one needle. -/
theorem needle_bits : ∀ a ∈ needle, ∀ b ∈ needle, a.bit &&& b.bit ≠ 0 →
    a.bit = b.bit ∧ a.id = b.id := by decide

theorem needle_bit_ne : ∀ b ∈ needle, b.bit &&& b.bit ≠ 0 := by decide

theorem needle_length : ∀ b ∈ needle, b.id.length = 32 := by decide

theorem or_and_ne_zero (x y z : UInt32) :
    (x ||| y) &&& z ≠ 0 ↔ x &&& z ≠ 0 ∨ y &&& z ≠ 0 := by
  have hdistrib : (x ||| y) &&& z = (x &&& z) ||| (y &&& z) := by
    rw [← UInt32.toBitVec_inj]
    ext i
    simp [Bool.and_or_distrib_right]
  rw [hdistrib, ne_eq, UInt32.or_eq_zero_iff]
  exact not_and_or

/-- One turn of a window, for the bit of the needle `b`. -/
theorem noteNeedle_bit {p : List UInt8} {i : Nat} {b n : Needle} (hb : b ∈ needle)
    (hn : n ∈ needle) (hit : UInt32) :
    (if hit &&& n.bit = 0 ∧ idEq32 p i n.id = true then hit ||| n.bit else hit) &&& b.bit ≠ 0 ↔
      hit &&& b.bit ≠ 0 ∨ (n.bit &&& b.bit ≠ 0 ∧ idEq32 p i n.id = true) := by
  split
  · rename_i hset
    rw [or_and_ne_zero]
    exact or_congr_right ⟨fun h => ⟨h, hset.2⟩, fun h => h.1⟩
  · rename_i hkeep
    refine ⟨Or.inl, fun h => ?_⟩
    rcases h with h | ⟨hbit, hid⟩
    · exact h
    · -- the bit is set already
      have hold : hit &&& n.bit ≠ 0 := fun hzero => hkeep ⟨hzero, hid⟩
      rwa [(needle_bits n hn b hb hbit).1] at hold

/-- One window sets the bits of the ids that stand in it. -/
theorem noteNeedles_bit {p : List UInt8} {i : Nat} {b : Needle} (hb : b ∈ needle)
    (ns : List Needle) (hns : ∀ n ∈ ns, n ∈ needle) : ∀ hit : UInt32,
    (ns.foldl (fun hit n => if hit &&& n.bit = 0 ∧ idEq32 p i n.id = true then hit ||| n.bit else hit)
        hit) &&& b.bit ≠ 0 ↔
      hit &&& b.bit ≠ 0 ∨ ∃ n ∈ ns, n.bit &&& b.bit ≠ 0 ∧ idEq32 p i n.id = true := by
  induction ns with
  | nil => simp
  | cons n ns ih =>
    intro hit
    rw [List.foldl_cons, ih fun m hm => hns m (List.mem_cons_of_mem n hm),
      noteNeedle_bit hb (hns n List.mem_cons_self), or_assoc, List.exists_mem_cons_iff]

theorem classifyNAt_bit {p : List UInt8} {m i : Nat} {b : Needle} (hb : b ∈ needle.take m)
    (hit : UInt32) :
    classifyNAt p m hit i &&& b.bit ≠ 0 ↔ hit &&& b.bit ≠ 0 ∨ idEq32 p i b.id = true := by
  have hneedle : ∀ n ∈ needle.take m, n ∈ needle := fun n hn => List.mem_of_mem_take hn
  unfold classifyNAt
  rw [noteNeedles_bit (hneedle b hb) _ hneedle]
  apply or_congr_right
  constructor
  · intro h
    obtain ⟨n, hn, hbit, hid⟩ := h
    rwa [(needle_bits n (hneedle n hn) b (hneedle b hb) hbit).2] at hid
  · intro h
    exact ⟨b, hb, needle_bit_ne b (hneedle b hb), h⟩

/-- All windows together. -/
theorem windows_bit {p : List UInt8} {m : Nat} {b : Needle} (hb : b ∈ needle.take m)
    (is : List Nat) : ∀ hit : UInt32,
    is.foldl (classifyNAt p m) hit &&& b.bit ≠ 0 ↔
      hit &&& b.bit ≠ 0 ∨ ∃ i ∈ is, idEq32 p i b.id = true := by
  induction is with
  | nil => simp
  | cons i is ih =>
    intro hit
    rw [List.foldl_cons, ih, classifyNAt_bit hb, or_assoc, List.exists_mem_cons_iff]

/-- An id stands in a window that is inside. -/
theorem occurs_iff {p id : List UInt8} (hid : id.length = 32) :
    Occurs p id ↔ ∃ i, i + 32 ≤ p.length ∧ field p i 32 = id := by
  constructor
  · intro h
    obtain ⟨i, hi⟩ := h
    refine ⟨i, ?_, hi⟩
    have hlen := congrArg List.length hi
    rw [hid, field, List.length_take, List.length_drop] at hlen
    omega
  · intro h
    obtain ⟨i, -, hi⟩ := h
    exact ⟨i, hi⟩

/-- **A bit of the classifier is an id in the payload**, on either path. -/
theorem classifyN_bit_iff {p : List UInt8} (avx2 : Bool) (hlen : p.length < 2 ^ 32) {n : Nat}
    {b : Needle} (hb : b ∈ needle.take n) :
    classifyN avx2 p p.length n &&& b.bit ≠ 0 ↔ Occurs p b.id := by
  rw [occurs_iff (needle_length b (List.mem_of_mem_take hb))]
  have hn : n ≠ 0 := by
    intro hzero
    rw [hzero] at hb
    exact absurd hb List.not_mem_nil
  unfold classifyN
  by_cases hshort : p.length < 32
  · rw [if_pos (Or.inl hshort)]
    refine ⟨fun h => absurd (by simp) h, fun h => ?_⟩
    obtain ⟨i, hi, -⟩ := h
    omega
  rw [if_neg (by omega)]
  -- both paths are the plain scan for at most six ids
  have hmin : (if n > classifyNMax then classifyNMax else n) = min n 6 := by
    split <;> simp only [classifyNMax] at * <;> omega
  have htake : b ∈ needle.take (min n 6) := by
    rwa [show (6 : Nat) = needle.length from rfl, ← List.take_eq_take_min]
  simp only [hmin]
  have hpath : (if avx2 = true then classifyNAvx2 p p.length (min n 6)
      else classifyNRange p 0 ((p.length - 32) % 2 ^ 32) (min n 6) 0)
      = (List.range' 0 (p.length - 31)).foldl (classifyNAt p (min n 6)) 0 := by
    have hrange : classifyNRange p 0 ((p.length - 32) % 2 ^ 32) (min n 6) 0
        = (List.range' 0 (p.length - 31)).foldl (classifyNAt p (min n 6)) 0 := by
      rw [classifyNRange, Lanes.rangeLoop_eq (Classify.classifyNAt_of_want
        (show min n 6 ≤ classifyNMax from Nat.min_le_right n 6) p)]
      congr 2
      omega
    split
    · rw [Classify.classifyNAvx2_eq p hlen (by omega) (Nat.min_le_right n 6) (by omega), hrange]
    · exact hrange
  rw [hpath, windows_bit htake]
  constructor
  · intro h
    obtain ⟨i, hi, hid⟩ := h.resolve_left fun hzero => hzero (by simp)
    have hlt := (List.mem_range'_1.mp hi).2
    exact ⟨i, by omega, of_decide_eq_true hid⟩
  · intro h
    obtain ⟨i, hi, hid⟩ := h
    exact Or.inr ⟨i, List.mem_range'_1.mpr ⟨Nat.zero_le i, by omega⟩, decide_eq_true hid⟩

/-! ## §3. Venues that may be left out. -/

/-- A walk asks for the venues of static keys only. -/
theorem dexLoop_congr {venue venue' : Mint → UInt8} {p : List UInt8} {mk : MsgKeys}
    (h : ∀ i, i < mk.nkeys → venue (mk.key p i) = venue' (mk.key p i)) (n : Nat) :
    ∀ off, dexLoop venue p mk n off = dexLoop venue' p mk n off := by
  induction n with
  | zero => exact fun _ => rfl
  | succ n ih =>
    intro off
    rw [dexLoop, dexLoop]
    by_cases hout : (byteAt p off).toNat = 0 ∨ (byteAt p off).toNat ≥ mk.nkeys
    · simp only [if_pos hout]
    · have hprog := h (byteAt p off).toNat (by omega)
      simp only [if_neg hout, hprog, ih]

theorem poolAfterKeys_congr {venue venue' : Mint → UInt8} {p : List UInt8} {mk : MsgKeys}
    (h : ∀ i, i < mk.nkeys → venue (mk.key p i) = venue' (mk.key p i)) :
    poolAfterKeys venue p mk = poolAfterKeys venue' p mk := by
  unfold poolAfterKeys
  simp only [dexLoop_congr h]

theorem progN_length : ∀ q ∈ progN, q.1.length = 32 := by decide

/-- A key of the payload is a program id when the id stands there. -/
theorem keyAt_eq_iff {p id : List UInt8} {off : Nat} (hin : off + 32 ≤ p.length)
    (hid : id.length = 32) : keyAt p off = BitVec.ofNat 256 (leNat id) ↔ field p off 32 = id := by
  have hlen : (field p off 32).length = id.length := by
    rw [hid, field, List.length_take, List.length_drop]
    omega
  have hleft := leNat_lt (field p off 32)
  have hright := leNat_lt id
  rw [hlen, hid] at hleft
  rw [hid] at hright
  have hpow : (256 : Nat) ^ 32 = 2 ^ 256 := by decide
  unfold keyAt
  rw [← BitVec.toNat_inj, BitVec.toNat_ofNat, BitVec.toNat_ofNat, Nat.mod_eq_of_lt (hpow ▸ hleft),
    Nat.mod_eq_of_lt (hpow ▸ hright)]
  exact ⟨leNat_inj hlen, fun h => by rw [h]⟩

/-- The venue of a key of the payload. -/
theorem keyIsDexN_keyAt {p : List UInt8} {off : Nat} (hin : off + 32 ≤ p.length) (n : Nat) :
    keyIsDexN n (keyAt p off)
      = (((progN.take n).find? fun q => field p off 32 = q.1).map Prod.snd).getD 0 := by
  unfold keyIsDexN
  congr 2
  refine List.find?_congr fun q hq => ?_
  rw [decide_eq_decide]
  exact keyAt_eq_iff hin (progN_length q (List.mem_of_mem_take hq))

/-- Ids that stand nowhere are not found, with more venues or with fewer. -/
theorem find_progN {p : List UInt8} {n m : Nat} (hnm : n ≤ m)
    (habsent : ∀ q ∈ (progN.take m).drop n, ¬ Occurs p q.1) (off : Nat) :
    ((progN.take m).find? fun q => field p off 32 = q.1)
      = (progN.take n).find? fun q => field p off 32 = q.1 := by
  have hsplit : progN.take m = progN.take n ++ (progN.take m).drop n := by
    conv_lhs => rw [← List.take_append_drop n (progN.take m)]
    rw [List.take_take, Nat.min_eq_left hnm]
  have hnone : (((progN.take m).drop n).find? fun q => field p off 32 = q.1) = none := by
    rw [List.find?_eq_none]
    intro q hq hfield
    exact habsent q hq ⟨off, of_decide_eq_true hfield⟩
  rw [hsplit, List.find?_append, hnone, Option.or_none]

/-- The keys of a view, as fields of the payload. -/
theorem key_inPayload {p : List UInt8} {mk : MsgKeys} (h : InPayload p mk) {i : Nat}
    (hi : i < mk.nkeys) : mk.keysOff + 32 * i + 32 ≤ p.length := by
  have hin : mk.keysOff + 32 * mk.nkeys ≤ p.length := h
  omega

/-- The gate's needles are the walk's program ids. -/
theorem needle_progN : ∀ e ∈ needle.zip progN, e.1.id = e.2.1 := by decide

theorem zip_progN : (needle.zip progN).map Prod.snd = progN ∧
    (needle.zip progN).map Prod.fst = needle := ⟨rfl, rfl⟩

/-- A venue among some places has its needle there. -/
theorem needle_of_venue {n m : Nat} {q : List UInt8 × UInt8} (hq : q ∈ (progN.take m).drop n) :
    ∃ b, (b, q) ∈ ((needle.zip progN).take m).drop n ∧ b ∈ (needle.take m).drop n ∧
      b.id = q.1 := by
  obtain ⟨hsnd, hfst⟩ := zip_progN
  rw [← hsnd, ← List.map_take, ← List.map_drop] at hq
  obtain ⟨e, he, rfl⟩ := List.mem_map.mp hq
  refine ⟨e.1, he, ?_, needle_progN e (List.mem_of_mem_take (List.mem_of_mem_drop he))⟩
  rw [← hfst, ← List.map_take, ← List.map_drop]
  exact List.mem_map_of_mem he

theorem msgFirstDexPoolN_congr {p : List UInt8} {n m : Nat} (hnm : n ≤ m)
    (habsent : ∀ q ∈ (progN.take m).drop n, ¬ Occurs p q.1) :
    msgFirstDexPoolN p m = msgFirstDexPoolN p n := by
  have hfind : findProgIdN p m = findProgIdN p n := by
    unfold findProgIdN
    simp only [find_progN hnm habsent]
  unfold msgFirstDexPoolN
  rw [hfind]
  refine Option.bind_congr fun r _ => ?_
  refine if_congr Iff.rfl rfl (Option.bind_congr fun mk hmk => ?_)
  refine poolAfterKeys_congr fun i hi => ?_
  have hin := key_inPayload (msgKeysFromProg_inPayload hmk) hi
  show keyIsDexN m (keyAt p _) = keyIsDexN n (keyAt p _)
  rw [keyIsDexN_keyAt hin, keyIsDexN_keyAt hin, find_progN hnm habsent]

theorem find_pair {α : Type} (f : α → Bool) (a b : α) :
    [a, b].find? f = if f a then some a else if f b then some b else none := by
  rw [List.find?_cons, List.find?_cons, List.find?_nil]
  cases f a <;> cases f b <;> rfl

theorem progN_two : progN.take 2 = [(progDlmmBytes, protoDlmm), (progPumpBytes, protoPump)] := rfl

theorem keyIsDexN_two : keyIsDexN 2 = progProto := by
  funext k
  unfold keyIsDexN progProto
  rw [progN_two, find_pair]
  show (Option.map Prod.snd (if decide (k = progDlmm) = true then _ else
    if decide (k = progPump) = true then _ else _)).getD 0 = _
  by_cases hd : k = progDlmm
  · rw [if_pos (decide_eq_true hd), if_pos hd]
    rfl
  rw [if_neg (by simpa using hd), if_neg hd]
  by_cases hp : k = progPump
  · rw [if_pos (decide_eq_true hp), if_pos hp]
    rfl
  · rw [if_neg (by simpa using hp), if_neg hp]
    rfl

/-- The first place where something is found. -/
theorem findSome?_fst {α β : Type} {f : α → Option (α × β)} {found : α → Bool}
    (h : ∀ a, (f a).map Prod.fst = if found a then some a else none) (l : List α) :
    (l.findSome? f).map Prod.fst = l.find? found := by
  induction l with
  | nil => rfl
  | cons a l ih =>
    have ha := h a
    rw [List.findSome?_cons, List.find?_cons]
    cases hf : f a with
    | none =>
      cases hfound : found a with
      | false => exact ih
      | true =>
        rw [hf, hfound] at ha
        exact absurd ha (by simp)
    | some r =>
      cases hfound : found a with
      | false =>
        rw [hf, hfound] at ha
        exact absurd ha (by simp)
      | true =>
        rw [hf, hfound] at ha
        exact ha

theorem findProgIdN_two (p : List UInt8) : (findProgIdN p 2).map Prod.fst = findProgId p := by
  unfold findProgIdN findProgId
  split
  · rfl
  refine findSome?_fst (fun i => ?_) _
  rw [progN_two, find_pair]
  by_cases hd : field p i 32 = progDlmmBytes
  · rw [if_pos (decide_eq_true hd), decide_eq_true (Or.inl hd)]
    rfl
  rw [if_neg (by simpa using hd)]
  by_cases hp : field p i 32 = progPumpBytes
  · rw [if_pos (decide_eq_true hp), decide_eq_true (Or.inr hp)]
    rfl
  · rw [if_neg (by simpa using hp), decide_eq_false (not_or.mpr ⟨hd, hp⟩)]
    rfl

/-- With two venues the walk is that of `tx.c`. -/
theorem msgFirstDexPoolN_two {p : List UInt8} (hlen : p.length < 2 ^ 16) :
    msgFirstDexPoolN p 2
      = (findProgId p).bind fun off => (msgKeysFromProg p off).bind (msgFirstDexPool p) := by
  have hfst : msgFirstDexPoolN p 2 = ((findProgIdN p 2).map Prod.fst).bind fun off =>
      if off > 0xffff ∨ p.length > 0xffff then none
      else (msgKeysFromProg p off).bind (poolAfterKeys (keyIsDexN 2) p) := by
    rw [Option.bind_map]
    rfl
  rw [hfst, findProgIdN_two, keyIsDexN_two]
  refine Option.bind_congr fun off hoff => ?_
  have hlt : off < p.length := by
    obtain ⟨-, hfind⟩ := Option.ite_none_left_eq_some.mp hoff
    have := List.mem_range.mp (List.mem_of_find?_eq_some hfind)
    omega
  rw [if_neg (by omega)]
  rfl

/-! ## §4. Behind the gate. -/

/-- **What is named passed the gate, and the gate says which venues matter.**  The
protocol of a named pool is one of the first `n`, and its bit is set in the
classifier's answer; further venues whose bits are not set change nothing; and
for two venues this is the walk of `tx.c`. -/
theorem named_within_gate {p : List UInt8} (hlen : p.length < 2 ^ 16) (avx2 : Bool) (n : Nat) :
    (∀ cand, msgFirstDexPoolN p n = some cand →
      ∃ b q, (b, q) ∈ (needle.zip progN).take n ∧ cand.protocol = q.2 ∧
        classifyN avx2 p p.length n &&& b.bit ≠ 0) ∧
    (∀ m, n ≤ m → (∀ b ∈ (needle.take m).drop n, classifyN avx2 p p.length m &&& b.bit = 0) →
      msgFirstDexPoolN p m = msgFirstDexPoolN p n) ∧
    msgFirstDexPoolN p 2
      = (findProgId p).bind fun off => (msgKeysFromProg p off).bind (msgFirstDexPool p) := by
  refine ⟨?_, ?_, msgFirstDexPoolN_two hlen⟩
  · intro cand h
    obtain ⟨⟨off, proto⟩, -, h⟩ := Option.bind_eq_some_iff.mp h
    obtain ⟨-, h⟩ := Option.ite_none_left_eq_some.mp h
    obtain ⟨mk, hmk, h⟩ := Option.bind_eq_some_iff.mp h
    obtain ⟨-, i, hi, hproto, hne⟩ := poolAfterKeys_named h
    have hin := key_inPayload (msgKeysFromProg_inPayload hmk) hi
    have hvenue : cand.protocol = keyIsDexN n (keyAt p (mk.keysOff + 32 * i)) := hproto
    rw [keyIsDexN_keyAt hin] at hvenue
    cases hfind : (progN.take n).find? fun q => field p (mk.keysOff + 32 * i) 32 = q.1 with
    | none =>
      rw [hfind] at hvenue
      exact absurd hvenue hne
    | some q =>
      rw [hfind] at hvenue
      have hq := List.find?_some hfind
      have hfield : field p (mk.keysOff + 32 * i) 32 = q.1 := of_decide_eq_true hq
      obtain ⟨b, hb, hneedle, hid⟩ :=
        @needle_of_venue 0 n q (by rw [List.drop_zero]; exact List.mem_of_find?_eq_some hfind)
      rw [List.drop_zero] at hb hneedle
      refine ⟨b, q, hb, hvenue, (classifyN_bit_iff avx2 (by omega) hneedle).mpr ?_⟩
      exact ⟨_, hfield.trans hid.symm⟩
  · intro m hnm hclear
    refine msgFirstDexPoolN_congr hnm fun q hq hoccurs => ?_
    obtain ⟨b, -, hneedle, hid⟩ := needle_of_venue hq
    refine (classifyN_bit_iff avx2 (by omega) (List.mem_of_mem_drop hneedle)).mpr ?_
      (hclear b hneedle)
    rwa [hid]

/-- Three bytes, and a legacy transaction with one Pump instruction. -/
def pumpPayload : List UInt8 :=
  [5, 1, 0] ++ 1 :: (List.replicate 64 0 ++ [1, 0, 0, 3] ++ List.replicate 32 9 ++ progPumpBytes ++
    List.replicate 32 7 ++ List.replicate 32 0 ++ [1, 1, 1, 2, 0])

theorem named_within_gate_demo :
    (msgFirstDexPoolN pumpPayload 2).isSome = true ∧
      msgFirstDexPoolN pumpPayload 6 = msgFirstDexPoolN pumpPayload 2 := by
  refine ⟨by decide +kernel, ?_⟩
  refine (named_within_gate (by decide +kernel) false 2).2.1 6 (by decide) fun b hb => ?_
  by_contra hbit
  have hoccurs := (classifyN_bit_iff false (by decide +kernel) (List.mem_of_mem_drop hb)).mp hbit
  rw [occurs_iff (needle_length b (List.mem_of_mem_take (List.mem_of_mem_drop hb)))] at hoccurs
  obtain ⟨i, hi, hid⟩ := hoccurs
  have hnowhere : ∀ b ∈ (needle.take 6).drop 2, ∀ i ∈ List.range (pumpPayload.length - 31),
      field pumpPayload i 32 ≠ b.id := by decide +kernel
  exact hnowhere b hb i (List.mem_range.mpr (by omega)) hid

end ShredArb.Tx
