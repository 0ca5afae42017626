/-
  ShredArb.Auth.Ring — what a run of the publisher leaves in the map.

  The abstract publisher keeps, for every pool, the publications since the last
  reset, newest first.  `Rep` says that the map represents it: the header is the
  reader's, every sequence is even, `head` counts the publications, and the last
  16 of them stand in the ring, byte for byte.

  Main results:
    * `Rep.step` — every call keeps the representation,
    * `Rep.run` — so does every run from `create`,
    * `run_completes` — a run raises nothing before its counters overflow.
-/
import ShredArb.Auth.Publish

namespace ShredArb.Auth

open ShredArb.Bytes ShredArb.Mem

/-! ## §1. The abstract publisher. -/

/-- A publication: the version it was given and what was published. -/
structure Published where
  ver : Nat
  args : PublishArgs
  deriving DecidableEq

/-- `publish` writes these; the others it leaves out or raises on. -/
def PublishArgs.Accepted (a : PublishArgs) : Prop :=
  a.blob.length ≤ blobCap ∧ a.txnIndex ≠ some txnIndexUnknown

instance (a : PublishArgs) : Decidable a.Accepted := inferInstanceAs (Decidable (_ ∧ _))

/-- The publications since the last reset, newest first. -/
structure History where
  ver : Nat
  ring : Nat → List Published

/-- A call of the publisher. -/
inductive Call where
  | publish (idx : Nat) (a : PublishArgs)
  | resetHistory
  | setReady (ready : Bool) (nPools : UInt32) (slot : UInt64)
  | reopen

/-- What a call does to the history. -/
def History.step (cap : Nat) (h : History) : Call → History
  | .publish idx a =>
    if idx < cap ∧ a.Accepted then
      ⟨h.ver + 1, Function.update h.ring idx (⟨h.ver + 1, a⟩ :: h.ring idx)⟩
    else h
  | .resetHistory => ⟨h.ver + 1, fun _ => []⟩
  | .setReady _ _ _ => h
  | .reopen => h

/-- The history of a run. -/
def history (cap : Nat) (calls : List Call) : History :=
  calls.foldl (History.step cap) ⟨0, fun _ => []⟩

/-- The publications to one pool since the last `reset_history`, newest first. -/
def sinceReset (cap : Nat) (calls : List Call) (idx : Nat) : List Published :=
  (history cap calls).ring idx

/-- One call on the map.  A `ValueError` comes before the first write. -/
def step (s : AuthPub) : Call → Option AuthPub
  | .publish idx a =>
    match publish s idx a with
    | .ok s' => some s'
    | .error .valueError => some s
    | .error .structError => none
  | .resetHistory => resetHistory s
  | .setReady ready nPools slot => setReady s ready nPools slot
  | .reopen => openMap s.cap s.mm

/-- A run from `create`, over whatever the file held. -/
def run (cap : Nat) (m : Memory) (calls : List Call) : Option AuthPub :=
  (create cap m).bind fun s => calls.foldlM step s

/-! ## §2. The bytes of an entry. -/

/-- The parts of an entry, its header first. -/
def Published.parts (p : Published) : List (List UInt8) :=
  entHdrParts p.ver p.args ++ [p.args.blob, zeros (blobCap - p.args.blob.length)]

/-- The 2176 bytes of an entry. -/
def Published.bytes (p : Published) : List UInt8 := p.parts.flatten

/-- A publication that fits its fields. -/
structure Published.Fits (p : Published) : Prop where
  ver_lt : p.ver < 256 ^ 8
  blob_le : p.args.blob.length ≤ blobCap

@[simp]
theorem length_zeros (n : Nat) : (zeros n).length = n := List.length_replicate

theorem length_sig64 (a : PublishArgs) : a.sig64.length = 64 := by
  unfold PublishArgs.sig64
  split
  · exact length_zeros 64
  · have hraw : a.raw.length ≤ 64 := List.length_take_le 64 _
    rw [List.length_append, length_zeros]
    omega

theorem length_entHdr (ver : Nat) (a : PublishArgs) : (entHdrParts ver a).flatten.length = 128 := by
  simp [entHdrParts, length_leBytes, length_sig64]

theorem length_bytes {p : Published} (h : p.Fits) : p.bytes.length = entSize := by
  have hblob := h.blob_le
  have hhdr := length_entHdr p.ver p.args
  unfold Published.bytes Published.parts
  rw [List.flatten_append, List.length_append, hhdr]
  simp only [List.flatten_cons, List.flatten_nil, List.append_nil, List.length_append,
    length_zeros, blobCap, entSize] at hblob ⊢
  omega

/-! ## §3. Words of the map. -/

theorem packInto_eq_some {m m' : Memory} {off k v : Nat} :
    packInto m off k v = some m' ↔ v < 256 ^ k ∧ m' = write m off (leBytes k v) := by
  unfold packInto
  split
  · rename_i h
    exact ⟨fun he => ⟨h, (Option.some.inj he).symm⟩, fun he => congrArg some he.2.symm⟩
  · rename_i h
    exact ⟨fun he => absurd he (by simp), fun he => absurd he.1 h⟩

theorem unpack_write_self {m : Memory} {off k v : Nat} (h : v < 256 ^ k) :
    unpack (write m off (leBytes k v)) off k = v := by
  rw [unpack, read_write_self (length_leBytes k v), leNat_leBytes, Nat.mod_eq_of_lt h]

theorem unpack_congr {m m' : Memory} {off k : Nat}
    (h : ∀ i, off ≤ i → i < off + k → m' i = m i) : unpack m' off k = unpack m off k := by
  rw [unpack, read_congr h, unpack]

/-- An entry is read back as its bytes. -/
theorem read_writeEnt {m : Memory} {eoff ver : Nat} {a : PublishArgs}
    (hb : a.blob.length ≤ blobCap) :
    read (writeEnt m eoff (entHdrParts ver a).flatten a.blob) eoff entSize
      = (Published.mk ver a).bytes := by
  have hlen : entSize = 128 + (a.blob.length + (blobCap - a.blob.length)) := by
    unfold entSize blobCap at *
    omega
  -- without a blob the area is only cleared, which is what an empty write leaves
  have hwrite : writeEnt m eoff (entHdrParts ver a).flatten a.blob
      = write (write (write m eoff (entHdrParts ver a).flatten) (eoff + 128) (zeros blobCap))
          (eoff + 128) a.blob := by
    unfold writeEnt
    cases hblob : a.blob with
    | nil =>
      funext i
      simp [write]
    | cons b bs => rfl
  have hz : read (write (write m eoff (entHdrParts ver a).flatten) (eoff + 128) (zeros blobCap))
      (eoff + 128 + a.blob.length) (blobCap - a.blob.length)
      = zeros (blobCap - a.blob.length) := by
    rw [read_write_within (by rw [length_zeros]; omega), field, zeros, List.drop_replicate,
      List.take_replicate, Nat.min_self, zeros]
  have hdr : read (write (write (write m eoff (entHdrParts ver a).flatten) (eoff + 128)
      (zeros blobCap)) (eoff + 128) a.blob) eoff 128 = (entHdrParts ver a).flatten := by
    rw [read_write_of_disjoint (Or.inl (Nat.le_refl _)),
      read_write_of_disjoint (Or.inl (Nat.le_refl _)), read_write_self (length_entHdr ver a)]
  rw [hlen, read_add, read_add, hwrite, hdr, read_write_self rfl,
    read_write_of_disjoint (Or.inr (Nat.le_refl _)), hz]
  simp [Published.bytes, Published.parts]

/-- An entry is written inside its own 2176 bytes. -/
theorem writeEnt_outside {m : Memory} {eoff ver i : Nat} {a : PublishArgs}
    (hb : a.blob.length ≤ blobCap) (hi : i < eoff ∨ eoff + entSize ≤ i) :
    writeEnt m eoff (entHdrParts ver a).flatten a.blob i = m i := by
  have hhdr := length_entHdr ver a
  have harea : ∀ (m : Memory) (bs : List UInt8), bs.length ≤ blobCap →
      write m (eoff + 128) bs i = m i := by
    intro m bs hbs
    rcases hi with hlt | hge
    · exact write_of_lt (by omega)
    · exact write_of_ge (by unfold entSize blobCap at *; omega)
  have hhead : write m eoff (entHdrParts ver a).flatten i = m i := by
    rcases hi with hlt | hge
    · exact write_of_lt hlt
    · exact write_of_ge (by unfold entSize at hge; omega)
  unfold writeEnt
  split
  · rw [harea _ _ (length_zeros _).le, hhead]
  · rw [harea _ _ hb, harea _ _ (length_zeros _).le, hhead]

/-! ## §4. What one publication writes. -/

/-- The words of a pool's header that the readers use. -/
def seqOf (m : Memory) (idx : Nat) : Nat := unpack m (poolOff idx) 8

def headOf (m : Memory) (idx : Nat) : Nat := unpack m (poolOff idx + 8) 4

/-- Entry `k` of a pool's ring. -/
def entBytes (m : Memory) (idx k : Nat) : List UInt8 := read m (entOff idx k) entSize

/-- Everything an accepted publication does to the map. -/
structure Wrote (s s' : AuthPub) (idx : Nat) (a : PublishArgs) : Prop where
  ver_lt : s.ver + 1 < 256 ^ 8
  cap_eq : s'.cap = s.cap
  ver_eq : s'.ver = s.ver + 1
  stamp : unpack s'.mm 24 8 = s.ver + 1
  seq_eq : seqOf s'.mm idx = seqOf s.mm idx + 2
  head_eq : headOf s'.mm idx = headOf s.mm idx + 1
  newest : entBytes s'.mm idx (headOf s.mm idx % ringCap) = (Published.mk (s.ver + 1) a).bytes
  others : ∀ k, k ≠ headOf s.mm idx % ringCap → entBytes s'.mm idx k = entBytes s.mm idx k
  frame : ∀ i, i < 24 ∨ 32 ≤ i → i < poolOff idx ∨ poolOff (idx + 1) ≤ i → s'.mm i = s.mm i

/-- The memory after the writes of one publication. -/
def pubMem (m : Memory) (idx ver : Nat) (a : PublishArgs) : Memory :=
  let off := poolOff idx
  let m1 := write m off (leBytes 8 (seqOf m idx + 1))
  let m2 := writeEnt m1 (entOff idx (headOf m idx % ringCap)) (entHdrParts ver a).flatten a.blob
  let m3 := write m2 (off + 8) (leBytes 4 (headOf m idx + 1))
  let m4 := write m3 (off + 12) (leBytes 4 a.flagWord.toNat)
  let m5 := write m4 (off + 16) (leBytes 8 ver)
  let m6 := write m5 24 (leBytes 8 ver)
  write m6 off (leBytes 8 (seqOf m idx + 2))

/-- The counters a publication packs. -/
structure Fit (s : AuthPub) (idx : Nat) : Prop where
  seq_lt : seqOf s.mm idx + 2 < 256 ^ 8
  head_lt : headOf s.mm idx + 1 < 256 ^ 4
  ver_lt : s.ver + 1 < 256 ^ 8

theorem headOf_write_seq (m : Memory) (idx v : Nat) :
    unpack (write m (poolOff idx) (leBytes 8 v)) (poolOff idx + 8) 4 = headOf m idx := by
  rw [unpack, read_write_of_disjoint (Or.inr (by rw [length_leBytes]))]
  rfl

theorem writePub_eq_some {s s' : AuthPub} {idx : Nat} {a : PublishArgs} :
    writePub s idx a = some s' ↔
      Fit s idx ∧ s' = { s with mm := pubMem s.mm idx (s.ver + 1) a, ver := s.ver + 1 } := by
  have hflag : a.flagWord.toNat < 256 ^ 4 := a.flagWord.toNat_lt
  unfold writePub packEntHdr
  simp only [Option.bind_eq_bind, Option.bind_eq_some_iff, packInto_eq_some, Option.some.injEq]
  constructor
  · rintro ⟨_, ⟨hseq, rfl⟩, hdr, hhdr, _, ⟨hhead, rfl⟩, _, ⟨-, rfl⟩, _, ⟨hver, rfl⟩, _, ⟨-, rfl⟩,
      _, ⟨hseq2, rfl⟩, rfl⟩
    rw [if_pos hver] at hhdr
    obtain rfl := Option.some.inj hhdr
    rw [headOf_write_seq] at hhead ⊢
    exact ⟨⟨hseq2, hhead, hver⟩, rfl⟩
  · rintro ⟨hfit, rfl⟩
    refine ⟨_, ⟨Nat.lt_of_succ_lt hfit.seq_lt, rfl⟩, _, if_pos hfit.ver_lt, _, ⟨?_, rfl⟩, _,
      ⟨hflag, rfl⟩, _, ⟨hfit.ver_lt, rfl⟩, _, ⟨hfit.ver_lt, rfl⟩, _, ⟨hfit.seq_lt, rfl⟩, ?_⟩
    · rw [headOf_write_seq]
      exact hfit.head_lt
    · rw [headOf_write_seq]
      rfl

/-- The header words stand before the entries. -/
theorem poolOff_add_le_entOff (idx k : Nat) : poolOff idx + 64 ≤ entOff idx k := by
  unfold entOff poolHdr
  omega

theorem entOff_add_le (idx : Nat) {k : Nat} (hk : k < ringCap) :
    entOff idx k + entSize ≤ poolOff (idx + 1) := by
  unfold entOff poolOff poolSize poolHdr ringCap entSize at *
  omega

theorem hdrSize_le_poolOff (idx : Nat) : 256 ≤ poolOff idx := by
  unfold poolOff hdrSize
  omega

theorem poolOff_add_le_next (idx : Nat) : poolOff idx + 64 ≤ poolOff (idx + 1) := by
  unfold poolOff poolSize poolHdr ringCap entSize
  omega

/-- Two pools do not overlap. -/
theorem poolOff_disjoint {i j : Nat} (h : i ≠ j) :
    poolOff (i + 1) ≤ poolOff j ∨ poolOff (j + 1) ≤ poolOff i := by
  unfold poolOff poolSize poolHdr ringCap entSize
  omega

/-- Two entries of a ring do not overlap. -/
theorem entOff_disjoint (idx : Nat) {k l : Nat} (h : k ≠ l) :
    entOff idx k + entSize ≤ entOff idx l ∨ entOff idx l + entSize ≤ entOff idx k := by
  unfold entOff entSize
  omega

section PubMem

variable (m : Memory) (idx ver : Nat) (a : PublishArgs)

/-- Only the entry is written past the header words. -/
theorem read_pubMem_ent (k : Nat) :
    entBytes (pubMem m idx ver a) idx k
      = entBytes (writeEnt (write m (poolOff idx) (leBytes 8 (seqOf m idx + 1)))
          (entOff idx (headOf m idx % ringCap)) (entHdrParts ver a).flatten a.blob) idx k := by
  have hoff := poolOff_add_le_entOff idx k
  have hhdr := hdrSize_le_poolOff idx
  refine read_congr fun i hlo hhi => ?_
  unfold pubMem
  rw [write_of_ge (by rw [length_leBytes]; omega), write_of_ge (by rw [length_leBytes]; omega),
    write_of_ge (by rw [length_leBytes]; omega), write_of_ge (by rw [length_leBytes]; omega),
    write_of_ge (by rw [length_leBytes]; omega)]

theorem pubMem_newest (hb : a.blob.length ≤ blobCap) :
    entBytes (pubMem m idx ver a) idx (headOf m idx % ringCap) = (Published.mk ver a).bytes := by
  rw [read_pubMem_ent, entBytes, read_writeEnt hb]

theorem pubMem_others (hb : a.blob.length ≤ blobCap) {k : Nat}
    (hne : k ≠ headOf m idx % ringCap) :
    entBytes (pubMem m idx ver a) idx k = entBytes m idx k := by
  have hoff := poolOff_add_le_entOff idx k
  rw [read_pubMem_ent]
  refine read_congr fun i hlo hhi => ?_
  have hout : i < entOff idx (headOf m idx % ringCap)
      ∨ entOff idx (headOf m idx % ringCap) + entSize ≤ i := by
    rcases entOff_disjoint idx hne with hbefore | hafter
    · exact Or.inl (by omega)
    · exact Or.inr (by omega)
  rw [writeEnt_outside hb hout, write_of_ge (by rw [length_leBytes]; omega)]

theorem pubMem_seq (h : seqOf m idx + 2 < 256 ^ 8) :
    seqOf (pubMem m idx ver a) idx = seqOf m idx + 2 := unpack_write_self h

theorem pubMem_head (h : headOf m idx + 1 < 256 ^ 4) :
    headOf (pubMem m idx ver a) idx = headOf m idx + 1 := by
  have hhdr := hdrSize_le_poolOff idx
  have hdown : headOf (pubMem m idx ver a) idx = unpack (write (writeEnt
      (write m (poolOff idx) (leBytes 8 (seqOf m idx + 1)))
      (entOff idx (headOf m idx % ringCap)) (entHdrParts ver a).flatten a.blob)
      (poolOff idx + 8) (leBytes 4 (headOf m idx + 1))) (poolOff idx + 8) 4 := by
    refine unpack_congr fun i hlo hhi => ?_
    unfold pubMem
    rw [write_of_ge (by rw [length_leBytes]; omega), write_of_ge (by rw [length_leBytes]; omega),
      write_of_lt (by omega), write_of_lt (by omega)]
  rw [hdown, unpack_write_self h]

theorem pubMem_stamp (h : ver < 256 ^ 8) : unpack (pubMem m idx ver a) 24 8 = ver := by
  have hhdr := hdrSize_le_poolOff idx
  unfold pubMem
  rw [unpack, read_write_of_disjoint (Or.inl (by omega)), ← unpack, unpack_write_self h]

theorem pubMem_frame (hb : a.blob.length ≤ blobCap) {i : Nat} (hi : i < 24 ∨ 32 ≤ i)
    (hpool : i < poolOff idx ∨ poolOff (idx + 1) ≤ i) : pubMem m idx ver a i = m i := by
  have hk : headOf m idx % ringCap < ringCap := Nat.mod_lt _ (by decide)
  have hlo := poolOff_add_le_entOff idx (headOf m idx % ringCap)
  have hhi := entOff_add_le idx hk
  -- a word of the pool's header
  have hword : ∀ (m : Memory) (k n v : Nat), k + n ≤ 64 →
      write m (poolOff idx + k) (leBytes n v) i = m i := by
    intro m k n v hkn
    rcases hpool with hlt | hge
    · exact write_of_lt (by omega)
    · exact write_of_ge (by rw [length_leBytes]; omega)
  have hstamp : ∀ (m : Memory) (v : Nat), write m 24 (leBytes 8 v) i = m i := by
    intro m v
    rcases hi with hlt | hge
    · exact write_of_lt hlt
    · exact write_of_ge (by rw [length_leBytes]; omega)
  have hout : i < entOff idx (headOf m idx % ringCap)
      ∨ entOff idx (headOf m idx % ringCap) + entSize ≤ i := by
    rcases hpool with hlt | hge
    · exact Or.inl (by omega)
    · exact Or.inr (by omega)
  have hseq : ∀ (m : Memory) (v : Nat), write m (poolOff idx) (leBytes 8 v) i = m i :=
    fun m v => hword m 0 8 v (by omega)
  unfold pubMem
  rw [hseq, hstamp, hword _ 16 8 _ (by omega), hword _ 12 4 _ (by omega), hword _ 8 4 _ (by omega),
    writeEnt_outside hb hout, hseq]

end PubMem

theorem Wrote.of_writePub {s s' : AuthPub} {idx : Nat} {a : PublishArgs}
    (hb : a.blob.length ≤ blobCap) (h : writePub s idx a = some s') : Wrote s s' idx a := by
  obtain ⟨hfit, rfl⟩ := writePub_eq_some.mp h
  exact
    { ver_lt := hfit.ver_lt
      cap_eq := rfl
      ver_eq := rfl
      stamp := pubMem_stamp s.mm idx _ a hfit.ver_lt
      seq_eq := pubMem_seq s.mm idx _ a hfit.seq_lt
      head_eq := pubMem_head s.mm idx _ a hfit.head_lt
      newest := pubMem_newest s.mm idx _ a hb
      others := fun k hne => pubMem_others s.mm idx _ a hb hne
      frame := fun i hi hpool => pubMem_frame s.mm idx _ a hb hi hpool }

/-! ## §5. The representation. -/

/-- The map of one pool represents its publications, newest first. -/
structure RingAt (m : Memory) (idx : Nat) (ring : List Published) : Prop where
  seq_even : seqOf m idx % 2 = 0
  head_eq : headOf m idx = ring.length
  ents : ∀ i p, i < ringCap → ring[i]? = some p →
    entBytes m idx ((ring.length - 1 - i) % ringCap) = p.bytes
  fits : ∀ p ∈ ring, p.Fits

/-- The words of the file header that do not change. -/
structure HeaderAt (m : Memory) (cap : Nat) : Prop where
  cap_lt : cap < 256 ^ 4
  magic_eq : unpack m 0 4 = magic
  ver_eq : unpack m 4 2 = ver
  ring_eq : unpack m 6 2 = ringCap
  cap_eq : unpack m 12 4 = cap
  blob_eq : unpack m 16 4 = blobCap

/-- The map represents the history. -/
structure Rep (cap : Nat) (s : AuthPub) (h : History) : Prop where
  cap_eq : s.cap = cap
  ver_eq : s.ver = h.ver
  stamp : unpack s.mm 24 8 = h.ver
  header : HeaderAt s.mm cap
  pools : ∀ idx < cap, RingAt s.mm idx (h.ring idx)

theorem HeaderAt.congr {m m' : Memory} {cap : Nat} (h : HeaderAt m cap)
    (heq : ∀ i, i < 8 ∨ 12 ≤ i ∧ i < 20 → m' i = m i) : HeaderAt m' cap where
  cap_lt := h.cap_lt
  magic_eq := (unpack_congr fun i _ hi => heq i (Or.inl (by omega))).trans h.magic_eq
  ver_eq := (unpack_congr fun i _ hi => heq i (Or.inl (by omega))).trans h.ver_eq
  ring_eq := (unpack_congr fun i _ hi => heq i (Or.inl (by omega))).trans h.ring_eq
  cap_eq := (unpack_congr fun i hlo hi => heq i (Or.inr (by omega))).trans h.cap_eq
  blob_eq := (unpack_congr fun i hlo hi => heq i (Or.inr (by omega))).trans h.blob_eq

theorem RingAt.congr {m m' : Memory} {idx : Nat} {ring : List Published} (h : RingAt m idx ring)
    (heq : ∀ i, poolOff idx ≤ i → i < poolOff (idx + 1) → m' i = m i) : RingAt m' idx ring where
  seq_even := by
    have hend := poolOff_add_le_next idx
    rw [seqOf, unpack_congr fun i hlo hhi => heq i hlo (by omega)]
    exact h.seq_even
  head_eq := by
    have hend := poolOff_add_le_next idx
    rw [headOf, unpack_congr fun i hlo hhi => heq i (by omega) (by omega)]
    exact h.head_eq
  ents := by
    intro i p hi hp
    have hlo := poolOff_add_le_entOff idx ((ring.length - 1 - i) % ringCap)
    have hhi := entOff_add_le idx (k := (ring.length - 1 - i) % ringCap) (Nat.mod_lt _ (by decide))
    rw [← h.ents i p hi hp]
    exact read_congr fun j hj hj' => heq j (by omega) (by omega)
  fits := h.fits

/-- A publication goes to the front of its ring. -/
theorem RingAt.push {s s' : AuthPub} {idx : Nat} {a : PublishArgs} {ring : List Published}
    (hw : Wrote s s' idx a) (hb : a.blob.length ≤ blobCap) (h : RingAt s.mm idx ring) :
    RingAt s'.mm idx (⟨s.ver + 1, a⟩ :: ring) where
  seq_even := by
    have hold := h.seq_even
    rw [hw.seq_eq]
    omega
  head_eq := by rw [hw.head_eq, h.head_eq, List.length_cons]
  ents := by
    intro i p hi hp
    have hnew := hw.newest
    rw [h.head_eq] at hnew
    cases i with
    | zero =>
      obtain rfl := Option.some.inj hp
      rw [List.length_cons, Nat.add_sub_cancel, Nat.sub_zero]
      exact hnew
    | succ i =>
      rw [List.getElem?_cons_succ] at hp
      have hlen : i < ring.length := (List.getElem?_eq_some_iff.mp hp).1
      have hidx : (⟨s.ver + 1, a⟩ :: ring : List Published).length - 1 - (i + 1)
          = ring.length - 1 - i := by
        rw [List.length_cons]
        omega
      -- fewer than 16 back, so not the entry just written
      have hne : (ring.length - 1 - i) % ringCap ≠ headOf s.mm idx % ringCap := by
        rw [h.head_eq]
        unfold ringCap at *
        omega
      rw [hidx, hw.others _ hne]
      exact h.ents i p (by omega) hp
  fits := by
    intro p hp
    rcases List.mem_cons.mp hp with rfl | hp
    · exact ⟨hw.ver_lt, hb⟩
    · exact h.fits p hp

/-! ## §6. The other calls. -/

theorem exists_setReady (s : AuthPub) (ready : Bool) (nPools : UInt32) (slot : UInt64) :
    ∃ m, setReady s ready nPools slot = some { s with mm := m } ∧
      ∀ i, i < 8 ∨ 12 ≤ i ∧ i < 20 ∨ 24 ≤ i ∧ i < 40 ∨ 48 ≤ i → m i = s.mm i := by
  have hn : nPools.toNat < 256 ^ 4 := nPools.toNat_lt
  have hs : slot.toNat < 256 ^ 8 := slot.toNat_lt
  have hr : (if ready then 1 else 0) < 256 ^ 4 := by split <;> decide
  refine ⟨write (write (write s.mm 8 (leBytes 4 nPools.toNat)) 20
    (leBytes 4 (if ready then 1 else 0))) 40 (leBytes 8 slot.toNat), ?_, ?_⟩
  · unfold setReady packInto
    simp only [if_pos hn, if_pos hr, if_pos hs, Option.bind_eq_bind, Option.bind_some]
  · intro i hi
    have hword : ∀ (m : Memory) (off k v : Nat), i < off ∨ off + k ≤ i →
        write m off (leBytes k v) i = m i := by
      intro m off k v h
      rcases h with hlt | hge
      · exact write_of_lt hlt
      · exact write_of_ge (by rw [length_leBytes]; omega)
    rw [hword _ 40 8 _ (by omega), hword _ 20 4 _ (by omega), hword _ 8 4 _ (by omega)]

theorem setReady_rep {cap : Nat} {s : AuthPub} {h : History} (hrep : Rep cap s h) (m : Memory)
    (heq : ∀ i, i < 8 ∨ 12 ≤ i ∧ i < 20 ∨ 24 ≤ i ∧ i < 40 ∨ 48 ≤ i → m i = s.mm i) :
    Rep cap { s with mm := m } h where
  cap_eq := hrep.cap_eq
  ver_eq := hrep.ver_eq
  stamp := (unpack_congr fun i hlo hhi => heq i (by omega)).trans hrep.stamp
  header := hrep.header.congr fun i hi => heq i (by omega)
  pools := by
    intro idx hidx
    refine (hrep.pools idx hidx).congr fun i hlo _ => heq i ?_
    have := hdrSize_le_poolOff idx
    omega

/-- What `reset_history` does to one pool. -/
structure Cleared (m m' : Memory) (idx : Nat) : Prop where
  seq_eq : seqOf m' idx = seqOf m idx + seqOf m idx % 2 + 2
  head_eq : headOf m' idx = 0
  frame : ∀ i, i < poolOff idx ∨ poolOff (idx + 1) ≤ i → m' i = m i

theorem resetPool_cleared {m m' : Memory} {ver idx : Nat} (h : resetPool ver m idx = some m') :
    Cleared m m' idx := by
  unfold resetPool at h
  simp only [Option.bind_eq_bind, Option.bind_eq_some_iff, packInto_eq_some] at h
  obtain ⟨_, ⟨-, rfl⟩, m2, hm2, hseq, rfl⟩ := h
  unfold packGapped at hm2
  split at hm2
  case isFalse => exact absurd hm2 (by simp)
  obtain rfl := Option.some.inj hm2
  have hnext := poolOff_add_le_next idx
  refine ⟨unpack_write_self hseq, ?_, ?_⟩
  · have hzero : read (write (write m (poolOff idx) (leBytes 8 (seqOf m idx + seqOf m idx % 2 + 1)))
        (poolOff idx + 8) (leBytes 4 0 ++ leBytes 4 gapped.toNat ++ leBytes 8 ver))
        (poolOff idx + 8 + 0) 4 = leBytes 4 0 := by
      rw [read_write_within (by simp [length_leBytes]), List.append_assoc,
        field_append_left (by rw [length_leBytes]), field, List.drop_zero,
        List.take_of_length_le (by rw [length_leBytes])]
    rw [headOf, unpack, read_write_of_disjoint (Or.inr (by rw [length_leBytes]))]
    exact congrArg leNat hzero
  · intro i hi
    have hword : ∀ (m : Memory) (k : Nat) (bs : List UInt8), k + bs.length ≤ 64 →
        write m (poolOff idx + k) bs i = m i := by
      intro m k bs hk
      rcases hi with hlt | hge
      · exact write_of_lt (by omega)
      · exact write_of_ge (by omega)
    have hseqw : ∀ (m : Memory) (v : Nat), write m (poolOff idx) (leBytes 8 v) i = m i :=
      fun m v => hword m 0 _ (by rw [length_leBytes]; omega)
    rw [hseqw, hword _ 8 _ (by simp [length_leBytes]), hseqw]

theorem exists_resetPool {m : Memory} {ver idx : Nat} (hver : ver < 256 ^ 8)
    (hseq : seqOf m idx + seqOf m idx % 2 + 2 < 256 ^ 8) : ∃ m', resetPool ver m idx = some m' := by
  unfold resetPool packInto packGapped
  rw [seqOf] at hseq
  simp only [if_pos hver, if_pos hseq, if_pos (Nat.lt_of_succ_lt hseq), Option.bind_eq_bind,
    Option.bind_some]
  exact ⟨_, rfl⟩

/-- `reset_history` over the first `n` pools. -/
structure ClearedBelow (m m' : Memory) (n : Nat) : Prop where
  seq_eq : ∀ idx < n, seqOf m' idx = seqOf m idx + seqOf m idx % 2 + 2
  head_eq : ∀ idx < n, headOf m' idx = 0
  frame : ∀ i, i < poolOff 0 ∨ poolOff n ≤ i → m' i = m i

theorem seqOf_congr {m m' : Memory} {idx : Nat}
    (h : ∀ i, poolOff idx ≤ i → i < poolOff (idx + 1) → m' i = m i) : seqOf m' idx = seqOf m idx := by
  have hnext := poolOff_add_le_next idx
  exact unpack_congr fun i hlo hhi => h i hlo (by omega)

theorem headOf_congr {m m' : Memory} {idx : Nat}
    (h : ∀ i, poolOff idx ≤ i → i < poolOff (idx + 1) → m' i = m i) :
    headOf m' idx = headOf m idx := by
  have hnext := poolOff_add_le_next idx
  exact unpack_congr fun i hlo hhi => h i (by omega) (by omega)

theorem poolOff_mono {i j : Nat} (h : i ≤ j) : poolOff i ≤ poolOff j := by
  unfold poolOff poolSize poolHdr ringCap entSize
  omega

theorem ClearedBelow.succ {m m1 m' : Memory} {n : Nat} (h : ClearedBelow m m1 n)
    (hlast : Cleared m1 m' n) : ClearedBelow m m' (n + 1) := by
  have hnext := poolOff_mono (show n ≤ n + 1 by omega)
  have hsame : ∀ i, poolOff n ≤ i → i < poolOff (n + 1) → m1 i = m i := fun i hlo _ =>
    h.frame i (Or.inr hlo)
  have hold : ∀ idx < n, ∀ i, poolOff idx ≤ i → i < poolOff (idx + 1) → m' i = m1 i := by
    intro idx hidx i _ hhi
    have hle := poolOff_mono (show idx + 1 ≤ n from hidx)
    exact hlast.frame i (Or.inl (by omega))
  refine ⟨fun idx hidx => ?_, fun idx hidx => ?_, fun i hi => ?_⟩
  · rcases Nat.lt_succ_iff_lt_or_eq.mp hidx with hlt | rfl
    · rw [seqOf_congr (hold idx hlt), h.seq_eq idx hlt]
    · rw [hlast.seq_eq, seqOf_congr hsame]
  · rcases Nat.lt_succ_iff_lt_or_eq.mp hidx with hlt | rfl
    · rw [headOf_congr (hold idx hlt), h.head_eq idx hlt]
    · exact hlast.head_eq
  · have hzero := poolOff_mono (Nat.zero_le n)
    rw [hlast.frame i (by omega), h.frame i (by omega)]

theorem foldlM_resetPool {ver : Nat} {m : Memory} :
    ∀ n {m' : Memory}, (List.range n).foldlM (resetPool ver) m = some m' → ClearedBelow m m' n := by
  intro n
  induction n with
  | zero =>
    intro m' h
    obtain rfl := Option.some.inj h
    exact ⟨fun _ h => absurd h (Nat.not_lt_zero _), fun _ h => absurd h (Nat.not_lt_zero _),
      fun _ _ => rfl⟩
  | succ n ih =>
    intro m' h
    rw [List.range_succ, List.foldlM_append, Option.bind_eq_bind, Option.bind_eq_some_iff] at h
    obtain ⟨m1, hm1, hlast⟩ := h
    rw [List.foldlM_cons, Option.bind_eq_bind, Option.bind_eq_some_iff] at hlast
    obtain ⟨m2, hm2, hend⟩ := hlast
    obtain rfl := Option.some.inj hend
    exact (ih hm1).succ (resetPool_cleared hm2)

theorem exists_foldlM_resetPool {ver : Nat} {m : Memory} (hver : ver < 256 ^ 8) :
    ∀ n, (∀ idx < n, seqOf m idx + seqOf m idx % 2 + 2 < 256 ^ 8) →
      ∃ m', (List.range n).foldlM (resetPool ver) m = some m' := by
  intro n
  induction n with
  | zero => exact fun _ => ⟨m, rfl⟩
  | succ n ih =>
    intro hseq
    obtain ⟨m1, hm1⟩ := ih fun idx hidx => hseq idx (by omega)
    have hsame : seqOf m1 n = seqOf m n :=
      seqOf_congr fun i hlo _ => (foldlM_resetPool n hm1).frame i (Or.inr hlo)
    have hnext : seqOf m1 n + seqOf m1 n % 2 + 2 < 256 ^ 8 := by
      rw [hsame]
      exact hseq n (by omega)
    obtain ⟨m2, hm2⟩ := exists_resetPool hver hnext
    refine ⟨m2, ?_⟩
    rw [List.range_succ, List.foldlM_append, hm1, Option.bind_eq_bind, Option.bind_some,
      List.foldlM_cons, hm2, Option.bind_eq_bind, Option.bind_some, List.foldlM_nil]
    rfl

theorem RingAt.empty {m : Memory} {idx : Nat} (hseq : seqOf m idx % 2 = 0) (hhead : headOf m idx = 0) :
    RingAt m idx [] where
  seq_even := hseq
  head_eq := hhead
  ents := fun _ _ _ h => absurd h (by simp)
  fits := fun _ h => absurd h (by simp)

theorem resetHistory_rep {cap : Nat} {s s' : AuthPub} {h : History} (hrep : Rep cap s h)
    (hs : resetHistory s = some s') : Rep cap s' ⟨h.ver + 1, fun _ => []⟩ := by
  obtain ⟨m, hm, heq⟩ := exists_setReady s false 0 0
  have hrep1 := setReady_rep hrep m heq
  unfold resetHistory at hs
  rw [hm] at hs
  simp only [Option.bind_eq_bind, Option.bind_some, Option.bind_eq_some_iff, packInto_eq_some,
    Option.some.injEq] at hs
  obtain ⟨m1, hm1, _, ⟨hver, rfl⟩, rfl⟩ := hs
  have hclear := foldlM_resetPool _ hm1
  rw [hrep.cap_eq] at hclear
  have hzero : 256 ≤ poolOff 0 := hdrSize_le_poolOff 0
  exact
    { cap_eq := hrep.cap_eq
      ver_eq := congrArg (· + 1) hrep.ver_eq
      stamp := by rw [unpack_write_self hver, hrep.ver_eq]
      header := by
        refine hrep1.header.congr fun i hi => ?_
        show write m1 24 (leBytes 8 (s.ver + 1)) i = m i
        rw [write_of_lt (by omega), hclear.frame i (Or.inl (by omega))]
      pools := by
        intro idx hidx
        have hlo := hdrSize_le_poolOff idx
        have hcut : ∀ i, poolOff idx ≤ i → i < poolOff (idx + 1) →
            write m1 24 (leBytes 8 (s.ver + 1)) i = m1 i := fun i hi _ =>
          write_of_ge (by rw [length_leBytes]; omega)
        refine RingAt.empty ?_ ?_
        · rw [seqOf_congr hcut, hclear.seq_eq idx hidx]
          omega
        · rw [headOf_congr hcut, hclear.head_eq idx hidx] }

theorem publish_rep {cap : Nat} {s s' : AuthPub} {h : History} {idx : Nat} {a : PublishArgs}
    (hrep : Rep cap s h) (hidx : idx < cap) (hb : a.blob.length ≤ blobCap)
    (hs : writePub s idx a = some s') :
    Rep cap s' ⟨h.ver + 1, Function.update h.ring idx (⟨h.ver + 1, a⟩ :: h.ring idx)⟩ := by
  have hw := Wrote.of_writePub hb hs
  have hlo := hdrSize_le_poolOff idx
  exact
    { cap_eq := hw.cap_eq.trans hrep.cap_eq
      ver_eq := by rw [hw.ver_eq, hrep.ver_eq]
      stamp := by rw [hw.stamp, hrep.ver_eq]
      header := hrep.header.congr fun i hi => hw.frame i (by omega) (Or.inl (by omega))
      pools := by
        intro j hj
        by_cases hji : j = idx
        · subst hji
          have hpush := RingAt.push hw hb (hrep.pools j hj)
          simp only [Function.update_self]
          rwa [hrep.ver_eq] at hpush
        · simp only [Function.update_of_ne hji]
          have hjlo := hdrSize_le_poolOff j
          refine (hrep.pools j hj).congr fun i hi hi' => hw.frame i (by omega) ?_
          rcases poolOff_disjoint hji with hbefore | hafter
          · exact Or.inl (by omega)
          · exact Or.inr (by omega) }

/-- A map with the header is opened as it is. -/
theorem openMap_eq {cap : Nat} {s : AuthPub} {h : History} (hrep : Rep cap s h) :
    openMap s.cap s.mm = some s := by
  have hcond : ¬ (unpack s.mm 0 4 ≠ magic ∨ unpack s.mm 4 2 ≠ ver ∨ unpack s.mm 6 2 ≠ ringCap) := by
    simp [hrep.header.magic_eq, hrep.header.ver_eq, hrep.header.ring_eq]
  rw [openMap, if_neg hcond, hrep.stamp, ← hrep.ver_eq]

/-! ## §7. Runs. -/

/-- A publication is either written or leaves the map as it was. -/
theorem step_publish_cases (s : AuthPub) (idx : Nat) (a : PublishArgs) :
    (idx < s.cap ∧ a.Accepted ∧ step s (.publish idx a) = writePub s idx a) ∨
      (¬ (idx < s.cap ∧ a.Accepted) ∧ step s (.publish idx a) = some s) := by
  by_cases hidx : s.cap ≤ idx
  · have hp : publish s idx a = .ok s := if_pos hidx
    exact Or.inr ⟨fun h => absurd h.1 (by omega), by simp only [step, hp]⟩
  by_cases hb : blobCap < a.blob.length
  · have hp : publish s idx a = .ok s := by rw [publish, if_neg hidx, if_pos hb]
    exact Or.inr ⟨fun h => absurd h.2.1 (by omega), by simp only [step, hp]⟩
  by_cases ht : a.txnIndex = some txnIndexUnknown
  · have hp : publish s idx a = .error .valueError := by
      rw [publish, if_neg hidx, if_neg hb, if_pos ht]
    exact Or.inr ⟨fun h => absurd ht h.2.2, by simp only [step, hp]⟩
  · have hp : publish s idx a = (writePub s idx a).elim (.error .structError) .ok := by
      rw [publish, if_neg hidx, if_neg hb, if_neg ht]
    refine Or.inl ⟨by omega, ⟨by omega, ht⟩, ?_⟩
    simp only [step, hp]
    cases writePub s idx a <;> rfl

/-- Every call keeps the representation. -/
theorem Rep.step {cap : Nat} {s s' : AuthPub} {h : History} (hrep : Rep cap s h) (c : Call)
    (hs : Auth.step s c = some s') : Rep cap s' (h.step cap c) := by
  cases c with
  | publish idx a =>
    rcases step_publish_cases s idx a with ⟨hidx, hacc, heq⟩ | ⟨hno, heq⟩
    · rw [hrep.cap_eq] at hidx
      rw [heq] at hs
      rw [History.step, if_pos ⟨hidx, hacc⟩]
      exact publish_rep hrep hidx hacc.1 hs
    · rw [hrep.cap_eq] at hno
      rw [heq] at hs
      obtain rfl := Option.some.inj hs
      rwa [History.step, if_neg hno]
  | resetHistory => exact resetHistory_rep hrep hs
  | setReady ready nPools slot =>
    obtain ⟨m, hm, heq⟩ := exists_setReady s ready nPools slot
    obtain rfl := Option.some.inj (hm.symm.trans hs)
    exact setReady_rep hrep m heq
  | reopen =>
    obtain rfl := Option.some.inj ((openMap_eq hrep).symm.trans hs)
    exact hrep

theorem foldl_zeroPools (m : Memory) : ∀ n i,
    (List.range n).foldl (fun m k => write m (poolOff k) (zeros poolSize)) m i
      = if poolOff 0 ≤ i ∧ i < poolOff n then 0 else m i := by
  intro n
  induction n with
  | zero =>
    intro i
    rw [if_neg (by omega)]
    rfl
  | succ n ih =>
    intro i
    have hmono := poolOff_mono (Nat.zero_le n)
    have hsize : poolOff (n + 1) = poolOff n + poolSize := by
      unfold poolOff
      rw [Nat.succ_mul, Nat.add_assoc]
    rw [List.range_succ, List.foldl_append, List.foldl_cons, List.foldl_nil]
    by_cases hlt : i < poolOff n
    · rw [write_of_lt hlt, ih]
      simp only [hlt, show i < poolOff (n + 1) by omega]
    by_cases hge : poolOff (n + 1) ≤ i
    · rw [write_of_ge (by rw [length_zeros]; omega), ih, if_neg (by omega), if_neg (by omega)]
    · rw [if_pos (by omega), write, if_neg hlt, zeros, List.getD_eq_getElem _ _ (by simp; omega),
        List.getElem_replicate]

theorem unpack_zero {m : Memory} {off k : Nat} (h : ∀ i, off ≤ i → i < off + k → m i = 0) :
    unpack m off k = 0 := by
  have hz : unpack (fun _ => 0) off k = 0 := by
    unfold unpack Mem.read
    induction k with
    | zero => rfl
    | succ k ih =>
      rw [List.map_const', List.length_range] at ih ⊢
      rw [List.replicate_succ, leNat, ih fun i hlo hhi => h i hlo (by omega)]
      rfl
  rw [← hz]
  exact unpack_congr h

/-- `create` clears every pool. -/
theorem create_pools {cap : Nat} {m : Memory} {s : AuthPub} (h : create cap m = some s) :
    ∀ idx < cap, ∀ i, poolOff idx ≤ i → i < poolOff (idx + 1) → s.mm i = 0 := by
  intro idx hidx i hlo hhi
  unfold create at h
  split at h
  case isFalse => exact absurd h (by simp)
  obtain rfl := Option.some.inj h
  have hlow := poolOff_mono (Nat.zero_le idx)
  have hhigh := poolOff_mono (show idx + 1 ≤ cap from hidx)
  simp only [foldl_zeroPools]
  rw [if_pos (by omega)]

theorem create_seq {cap : Nat} {m : Memory} {s : AuthPub} (h : create cap m = some s) {idx : Nat}
    (hidx : idx < cap) : seqOf s.mm idx = 0 := by
  have hnext := poolOff_add_le_next idx
  exact unpack_zero fun i hlo hhi => create_pools h idx hidx i hlo (by omega)

theorem create_head {cap : Nat} {m : Memory} {s : AuthPub} (h : create cap m = some s) {idx : Nat}
    (hidx : idx < cap) : headOf s.mm idx = 0 := by
  have hnext := poolOff_add_le_next idx
  exact unpack_zero fun i hlo hhi => create_pools h idx hidx i (by omega) (by omega)

/-- `create` leaves a map with nothing published. -/
theorem create_rep {cap : Nat} {m : Memory} {s : AuthPub} (h : create cap m = some s) :
    Rep cap s ⟨0, fun _ => []⟩ := by
  have hseq := fun idx (hidx : idx < cap) => create_seq h hidx
  have hhead := fun idx (hidx : idx < cap) => create_head h hidx
  unfold create at h
  split at h
  case isFalse => exact absurd h (by simp)
  rename_i hcap
  obtain rfl := Option.some.inj h
  have hlen : (fileHdrParts cap).flatten.length = 48 := by simp [fileHdrParts, length_leBytes]
  have hcell := foldl_zeroPools (write (write m 0 (zeros hdrSize)) 0 (fileHdrParts cap).flatten) cap
  have hzero : poolOff 0 = 256 := rfl
  -- a word of the header is one of the packed parts
  have hword : ∀ k off n v, (fileHdrParts cap)[k]? = some (leBytes n v) → v < 256 ^ n →
      off = (((fileHdrParts cap).take k).map List.length).sum → off + n ≤ 48 →
      unpack ((List.range cap).foldl (fun m k => write m (poolOff k) (zeros poolSize))
        (write (write m 0 (zeros hdrSize)) 0 (fileHdrParts cap).flatten)) off n = v := by
    intro k off n v hk hv hoff hle
    have hin : read (write (write m 0 (zeros hdrSize)) 0 (fileHdrParts cap).flatten) (0 + off) n
        = field (fileHdrParts cap).flatten off n := read_write_within (by omega)
    rw [Nat.zero_add] at hin
    rw [unpack_congr fun i _ hhi => (hcell i).trans (if_neg (by omega)), unpack, hin,
      field_flatten hk hoff (length_leBytes n v).symm, leNat_leBytes, Nat.mod_eq_of_lt hv]
  exact
    { cap_eq := rfl
      ver_eq := rfl
      stamp := hword 7 24 8 0 rfl (by decide) (by simp [fileHdrParts, length_leBytes]) (by omega)
      header :=
        { cap_lt := hcap
          magic_eq := hword 0 0 4 _ rfl (by decide) rfl (by omega)
          ver_eq := hword 1 4 2 _ rfl (by decide) (by simp [fileHdrParts, length_leBytes]) (by omega)
          ring_eq := hword 2 6 2 _ rfl (by decide) (by simp [fileHdrParts, length_leBytes]) (by omega)
          cap_eq := hword 4 12 4 _ rfl hcap (by simp [fileHdrParts, length_leBytes]) (by omega)
          blob_eq := hword 5 16 4 _ rfl (by decide) (by simp [fileHdrParts, length_leBytes])
            (by omega) }
      pools := fun idx hidx => RingAt.empty (by rw [hseq idx hidx]) (hhead idx hidx) }

theorem foldlM_rep {cap : Nat} : ∀ (calls : List Call) {s s' : AuthPub} {h : History},
    Rep cap s h → calls.foldlM step s = some s' → Rep cap s' (calls.foldl (History.step cap) h) := by
  intro calls
  induction calls with
  | nil =>
    intro s s' h hrep hs
    obtain rfl := Option.some.inj hs
    exact hrep
  | cons c calls ih =>
    intro s s' h hrep hs
    rw [List.foldlM_cons, Option.bind_eq_bind, Option.bind_eq_some_iff] at hs
    obtain ⟨s1, hs1, hs⟩ := hs
    exact ih (hrep.step c hs1) hs

/-- **Every run of the publisher leaves a map that represents its history.** -/
theorem Rep.run {cap : Nat} {m : Memory} {calls : List Call} {s : AuthPub}
    (h : Auth.run cap m calls = some s) : Rep cap s (history cap calls) := by
  rw [Auth.run, Option.bind_eq_some_iff] at h
  obtain ⟨s0, hs0, hs⟩ := h
  exact foldlM_rep calls (create_rep hs0) hs

/-! ## §8. No call raises before a counter overflows. -/

/-- The sequences and the version after `n` calls. -/
structure Bounded (cap : Nat) (s : AuthPub) (n : Nat) : Prop where
  ver_le : s.ver ≤ n
  seq_le : ∀ idx < cap, seqOf s.mm idx ≤ 2 * n

/-- The call publishes to the pool. -/
def Call.publishesTo (idx : Nat) : Call → Bool
  | .publish i a => decide (i = idx ∧ a.Accepted)
  | _ => false

theorem Bounded.setReady {cap : Nat} {s : AuthPub} {n : Nat} (hb : Bounded cap s n) (m : Memory)
    (heq : ∀ i, i < 8 ∨ 12 ≤ i ∧ i < 20 ∨ 24 ≤ i ∧ i < 40 ∨ 48 ≤ i → m i = s.mm i) :
    Bounded cap { s with mm := m } n := by
  refine ⟨hb.ver_le, fun idx hidx => ?_⟩
  have hlo := hdrSize_le_poolOff idx
  rw [seqOf_congr fun i hi _ => heq i (by omega)]
  exact hb.seq_le idx hidx

theorem Bounded.mono {cap : Nat} {s : AuthPub} {n : Nat} (hb : Bounded cap s n) :
    Bounded cap s (n + 1) :=
  ⟨hb.ver_le.trans (Nat.le_succ n), fun idx hidx => (hb.seq_le idx hidx).trans (by omega)⟩

theorem exists_resetHistory {cap : Nat} {s : AuthPub} {h : History} {n : Nat} (hrep : Rep cap s h)
    (hb : Bounded cap s n) (hn : 2 * (n + 1) < 256 ^ 8) :
    ∃ s', resetHistory s = some s' ∧ Bounded cap s' (n + 1) := by
  obtain ⟨m, hm, heq⟩ := exists_setReady s false 0 0
  have hrep1 := setReady_rep hrep m heq
  have hb1 := hb.setReady m heq
  have hver : s.ver + 1 < 256 ^ 8 := by
    have := hb.ver_le
    omega
  have hseq : ∀ idx < cap, seqOf m idx + seqOf m idx % 2 + 2 < 256 ^ 8 := by
    intro idx hidx
    have heven := (hrep1.pools idx hidx).seq_even
    have hle := hb1.seq_le idx hidx
    simp only at heven hle
    omega
  obtain ⟨m1, hm1⟩ := exists_foldlM_resetPool hver cap hseq
  have hclear := foldlM_resetPool _ hm1
  refine ⟨⟨write m1 24 (leBytes 8 (s.ver + 1)), s.ver + 1, s.cap⟩, ?_, ?_, ?_⟩
  · unfold resetHistory
    simp only [hm, Option.bind_eq_bind, Option.bind_some, hrep.cap_eq, hm1, packInto, if_pos hver]
  · exact Nat.succ_le_succ hb.ver_le
  · intro idx hidx
    have hlo := hdrSize_le_poolOff idx
    have heven := (hrep1.pools idx hidx).seq_even
    have hle := hb1.seq_le idx hidx
    show seqOf (write m1 24 (leBytes 8 (s.ver + 1))) idx ≤ 2 * (n + 1)
    rw [seqOf_congr fun i hi _ => write_of_ge (by rw [length_leBytes]; omega), hclear.seq_eq idx hidx]
    simp only at heven hle
    omega

theorem exists_writePub {cap : Nat} {s : AuthPub} {h : History} {n idx : Nat} {a : PublishArgs}
    (hrep : Rep cap s h) (hb : Bounded cap s n) (hidx : idx < cap) (ha : a.blob.length ≤ blobCap)
    (hn : 2 * (n + 1) < 256 ^ 8) (hhead : (h.ring idx).length + 1 < 256 ^ 4) :
    ∃ s', writePub s idx a = some s' ∧ Bounded cap s' (n + 1) := by
  have hver := hb.ver_le
  have hseq := hb.seq_le idx hidx
  have hfit : Fit s idx := by
    refine ⟨by omega, ?_, by omega⟩
    rw [(hrep.pools idx hidx).head_eq]
    exact hhead
  have hs := (writePub_eq_some (a := a)).mpr ⟨hfit, rfl⟩
  have hw := Wrote.of_writePub ha hs
  refine ⟨_, hs, Nat.succ_le_succ hver, fun j hj => ?_⟩
  by_cases hji : j = idx
  · subst hji
    rw [hw.seq_eq]
    omega
  · have hjlo := hdrSize_le_poolOff j
    have hsame : ∀ i, poolOff j ≤ i → i < poolOff (j + 1) →
        pubMem s.mm idx (s.ver + 1) a i = s.mm i := by
      intro i hi hi'
      refine hw.frame i (by omega) ?_
      rcases poolOff_disjoint hji with hbefore | hafter
      · exact Or.inl (by omega)
      · exact Or.inr (by omega)
    rw [seqOf_congr hsame]
    exact (hb.seq_le j hj).trans (by omega)

theorem length_ring_step (cap : Nat) (h : History) (c : Call) (idx : Nat) :
    ((h.step cap c).ring idx).length ≤ (h.ring idx).length + (if c.publishesTo idx then 1 else 0) := by
  cases c with
  | publish i a =>
    simp only [History.step]
    split
    · rename_i hacc
      by_cases hi : idx = i
      · subst hi
        simp [Call.publishesTo, hacc.2]
      · simp [Function.update_of_ne hi]
    · omega
  | resetHistory => simp [History.step]
  | setReady ready nPools slot => simp [History.step]
  | reopen => simp [History.step]

theorem foldlM_completes {cap : Nat} : ∀ (calls : List Call) {s : AuthPub} {h : History} {n : Nat},
    Rep cap s h → Bounded cap s n → n + calls.length < 2 ^ 63 →
    (∀ idx, (h.ring idx).length + calls.countP (Call.publishesTo idx) < 2 ^ 32) →
    ∃ s', calls.foldlM step s = some s' := by
  intro calls
  induction calls with
  | nil =>
    intro s h n _ _ _ _
    exact ⟨s, rfl⟩
  | cons c calls ih =>
    intro s h n hrep hb hn hring
    rw [List.length_cons] at hn
    have hroom : 2 * (n + 1) < 256 ^ 8 := by
      have : (2 : Nat) * 2 ^ 63 = 256 ^ 8 := by decide
      omega
    have hstep : ∃ s', step s c = some s' ∧ Bounded cap s' (n + 1) := by
      cases c with
      | publish idx a =>
        rcases step_publish_cases s idx a with ⟨hidx, hacc, heq⟩ | ⟨hno, heq⟩
        · rw [hrep.cap_eq] at hidx
          rw [heq]
          refine exists_writePub hrep hb hidx hacc.1 hroom ?_
          have hlt := hring idx
          rw [List.countP_cons_of_pos (by simp [Call.publishesTo, hacc])] at hlt
          have : (2 : Nat) ^ 32 = 256 ^ 4 := by decide
          omega
        · exact ⟨s, heq, hb.mono⟩
      | resetHistory => exact exists_resetHistory hrep hb hroom
      | setReady ready nPools slot =>
        obtain ⟨m, hm, heq⟩ := exists_setReady s ready nPools slot
        exact ⟨_, hm, (hb.setReady m heq).mono⟩
      | reopen => exact ⟨s, openMap_eq hrep, hb.mono⟩
    obtain ⟨s1, hs1, hb1⟩ := hstep
    rw [List.foldlM_cons, hs1, Option.bind_eq_bind, Option.bind_some]
    refine ih (hrep.step c hs1) hb1 (by omega) fun idx => ?_
    have hgrow := length_ring_step cap h c idx
    have hlt := hring idx
    rw [List.countP_cons] at hlt
    omega

/-- **A run raises nothing before its counters overflow.** -/
theorem run_completes {cap : Nat} (hcap : cap < 2 ^ 32) (m : Memory) (calls : List Call)
    (hlen : calls.length < 2 ^ 63) (hpub : ∀ idx, calls.countP (Call.publishesTo idx) < 2 ^ 32) :
    ∃ s, run cap m calls = some s := by
  have hcap' : cap < 256 ^ 4 := hcap
  have hcreate : ∃ s, create cap m = some s := by
    rw [create, if_pos hcap']
    exact ⟨_, rfl⟩
  obtain ⟨s, hs⟩ := hcreate
  have hrep := create_rep hs
  have hb : Bounded cap s 0 := by
    refine ⟨hrep.ver_eq.le, fun idx hidx => ?_⟩
    rw [create_seq hs hidx]
  rw [run, hs, Option.bind_some]
  refine foldlM_completes calls hrep hb (by omega) fun idx => ?_
  rw [List.length_nil, Nat.zero_add]
  exact hpub idx

end ShredArb.Auth
