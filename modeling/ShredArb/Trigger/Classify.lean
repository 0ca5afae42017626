/-
  ShredArb.Trigger.Classify — which programs a payload names
  (`arb-core/src/classify.c`, `arb-core/src/classify_n.c`, `proto.h`).

  A payload is scanned for program ids of 32 bytes.  The vector paths compare
  bytes 0 and 7 of an id in 32 or 64 windows at a time and look closely at those
  that are left; a block is taken while the LAST window of the block is inside,
  and the windows after the last block are looked at one by one.

  Conventions:
    • a load takes the bytes that are there; a window that is not inside the
      payload equals no id,
    • window numbers stay below 2¹⁶ (below 2³² in `classify_n`), as lengths do.

  Main results:
    * `classifyVector_eq` — a scan in blocks of any width is the plain one,
    * `classify_paths_agree` — the three paths, and `classify_n`'s two.
-/
import ShredArb.Lib.Lanes

namespace ShredArb.Classify

open ShredArb.Lanes

/-! ## §1. Windows and program ids. -/

/-- `id_eq32`, at `p + i`. -/
def idEq32 (p : List UInt8) (i : Nat) (id : List UInt8) : Bool := (p.drop i).take 32 = id

/-- `_mm256_cmpeq_epi8` (and its sibling of 512 bits) of the bytes at `p + i`
with one byte. -/
def cmpeqEpi8 (p : List UInt8) (i : Nat) (b : UInt8) : Nat → Bool := fun c => p[i + c]? = some b

/-- `PROG_DLMM`. -/
def progDlmm : List UInt8 :=
  [0x04, 0xe9, 0xe1, 0x2f, 0xbc, 0x84, 0xe8, 0x26, 0xc9, 0x32, 0xcc, 0xe9, 0xe2, 0x64, 0x0c, 0xce,
   0x15, 0x59, 0x0c, 0x1c, 0x62, 0x73, 0xb0, 0x92, 0x57, 0x08, 0xba, 0x3b, 0x85, 0x20, 0xb0, 0xbc]

/-- `PROG_PUMP`. -/
def progPump : List UInt8 :=
  [0x0c, 0x14, 0xde, 0xfc, 0x82, 0x5e, 0xc6, 0x76, 0x94, 0x25, 0x08, 0x18, 0xbb, 0x65, 0x40, 0x65,
   0xf4, 0x29, 0x8d, 0x31, 0x56, 0xd5, 0x71, 0xb4, 0xd4, 0xf8, 0x09, 0x0c, 0x18, 0xe9, 0xa8, 0x63]

/-- `PROG_CLMM`. -/
def progClmm : List UInt8 :=
  [0xa5, 0xd5, 0xca, 0x9e, 0x04, 0xcf, 0x5d, 0xb5, 0x90, 0xb7, 0x14, 0xba, 0x2f, 0xe3, 0x2c, 0xb1,
   0x59, 0x13, 0x3f, 0xc1, 0xc1, 0x92, 0xb7, 0x22, 0x57, 0xfd, 0x07, 0xd3, 0x9c, 0xb0, 0x40, 0x1e]

/-- `PROG_CPMM`. -/
def progCpmm : List UInt8 :=
  [0xa9, 0x2a, 0x5a, 0x8b, 0x4f, 0x29, 0x59, 0x52, 0x84, 0x25, 0x50, 0xaa, 0x93, 0xfd, 0x5b, 0x95,
   0xb5, 0xac, 0xe6, 0xa8, 0xeb, 0x92, 0x0c, 0x93, 0x94, 0x2e, 0x43, 0x69, 0x0c, 0x20, 0xec, 0x73]

/-- `PROG_DAMM`. -/
def progDamm : List UInt8 :=
  [0x09, 0x2d, 0x21, 0x35, 0x65, 0x7a, 0x15, 0x9c, 0x2b, 0x87, 0xd4, 0xb6, 0x6a, 0x70, 0xdb, 0x8e,
   0x97, 0x52, 0x38, 0x9f, 0xf7, 0x6a, 0xaf, 0x20, 0x6c, 0xed, 0x06, 0x3a, 0x38, 0xf9, 0x5a, 0xed]

/-- `PROG_ORCA`. -/
def progOrca : List UInt8 :=
  [0x0e, 0x03, 0x68, 0x5f, 0x8e, 0x90, 0x90, 0x53, 0xe4, 0x58, 0x12, 0x1c, 0x66, 0xf5, 0xa7, 0x6a,
   0xed, 0xc7, 0x70, 0x6a, 0xa1, 0x1c, 0x82, 0xf8, 0xaa, 0x95, 0x2a, 0x8f, 0x2b, 0x78, 0x79, 0xa9]

/-! ## §2. Two ids (`classify.c`). -/

abbrev relNone : UInt32 := 0
abbrev relDlmm : UInt32 := 1
abbrev relPump : UInt32 := 2
/-- `REL_BOTH`. -/
abbrev relBoth : UInt32 := 3

/-- `CLASSIFY_DISC0`. -/
abbrev classifyDisc0 : Nat := 0
/-- `CLASSIFY_DISC1`. -/
abbrev classifyDisc1 : Nat := 7

/-- One window. -/
def classifyAt (p : List UInt8) (hit : UInt32) (i : Nat) : UInt32 :=
  let hit := if hit &&& relDlmm = 0 ∧ idEq32 p i progDlmm then hit ||| relDlmm else hit
  if hit &&& relPump = 0 ∧ idEq32 p i progPump then hit ||| relPump else hit

/-- `classify_range`. -/
def classifyRange (p : List UInt8) (start last : Nat) (hit : UInt32) : UInt32 :=
  rangeLoop (fun hit => hit = relBoth) (classifyAt p) last start hit

/-- `classify_scalar`. -/
def classifyScalar (payload : List UInt8) (len : UInt16) : UInt32 :=
  if len < 32 then relNone else classifyRange payload 0 (len - 32).toNat relNone

/-- One window that a block's masks leave. -/
def classifyCand {w : Nat} (p : List UInt8) (md mp : BitVec w) (i : Nat) (hit : UInt32) (c : Nat) :
    UInt32 :=
  let hit :=
    if md.getLsbD c = true ∧ hit &&& relDlmm = 0 ∧ idEq32 p (i + c) progDlmm then hit ||| relDlmm
    else hit
  if mp.getLsbD c = true ∧ hit &&& relPump = 0 ∧ idEq32 p (i + c) progPump then hit ||| relPump
  else hit

/-- The body that `classify_avx2` and `classify_avx512` share: `reach` bytes
make a block, and `md`, `mp` are its masks. -/
def classifyVector {w : Nat} [NeZero w] (reach : Nat) (md mp : List UInt8 → Nat → BitVec w)
    (payload : List UInt8) (len : UInt16) : UInt32 :=
  if len < 32 then relNone
  else
    blockScan (fun hit => hit = relBoth) reach len.toNat (fun i => md payload i ||| mp payload i)
      (fun i => classifyCand payload (md payload i) (mp payload i) i)
      (fun i => classifyRange payload i (len - 32).toNat) 0 relNone

/-- The mask of 32 windows: the compares are joined lane by lane. -/
def avx2Mask (id : List UInt8) (p : List UInt8) (i : Nat) : BitVec 32 :=
  movemask 32 fun c =>
    cmpeqEpi8 p i (id.getD classifyDisc0 0) c
      && cmpeqEpi8 p (i + classifyDisc1) (id.getD classifyDisc1 0) c

/-- `classify_avx2`. -/
def classifyAvx2 (payload : List UInt8) (len : UInt16) : UInt32 :=
  classifyVector 63 (avx2Mask progDlmm) (avx2Mask progPump) payload len

/-- The mask of 64 windows: the compares are masks. -/
def avx512Mask (id : List UInt8) (p : List UInt8) (i : Nat) : BitVec 64 :=
  movemask 64 (cmpeqEpi8 p i (id.getD classifyDisc0 0))
    &&& movemask 64 (cmpeqEpi8 p (i + classifyDisc1) (id.getD classifyDisc1 0))

/-- `classify_avx512`. -/
def classifyAvx512 (payload : List UInt8) (len : UInt16) : UInt32 :=
  classifyVector 95 (avx512Mask progDlmm) (avx512Mask progPump) payload len

/-! ## §3. Up to six ids (`classify_n.c`). -/

/-- `needle_t`. -/
structure Needle where
  id : List UInt8
  disc0 : UInt8
  disc7 : UInt8
  bit : UInt32

/-- `NEEDLE`. -/
def needle : List Needle :=
  [⟨progDlmm, 0x04, 0x26, 1⟩, ⟨progPump, 0x0c, 0x76, 2⟩, ⟨progClmm, 0xa5, 0xb5, 4⟩,
   ⟨progCpmm, 0xa9, 0x52, 8⟩, ⟨progDamm, 0x09, 0x9c, 16⟩, ⟨progOrca, 0x0e, 0x53, 32⟩]

/-- `CLASSIFY_N_MAX`. -/
abbrev classifyNMax : Nat := 6

/-- `want_mask`. -/
def wantMask (nIds : Nat) : UInt32 :=
  (needle.take (if nIds > classifyNMax then classifyNMax else nIds)).foldl (fun m n => m ||| n.bit) 0

/-- One window, for the first `n_ids` needles. -/
def classifyNAt (p : List UInt8) (nIds : Nat) (hit : UInt32) (i : Nat) : UInt32 :=
  (needle.take nIds).foldl
    (fun hit n => if hit &&& n.bit = 0 ∧ idEq32 p i n.id then hit ||| n.bit else hit) hit

/-- `classify_n_range`. -/
def classifyNRange (p : List UInt8) (start last nIds : Nat) (hit : UInt32) : UInt32 :=
  rangeLoop (fun hit => hit = wantMask nIds) (classifyNAt p nIds) last start hit

/-- `masks[n]`. -/
def needleMask (p : List UInt8) (i : Nat) (n : Needle) : BitVec 32 :=
  movemask 32 fun c => cmpeqEpi8 p i n.disc0 c && cmpeqEpi8 p (i + 7) n.disc7 c

/-- `masks`, with their needles. -/
def needleMasks (p : List UInt8) (nIds i : Nat) : List (Needle × BitVec 32) :=
  (needle.take nIds).map fun n => (n, needleMask p i n)

/-- One window that a block's masks leave. -/
def classifyNCand (p : List UInt8) (masks : List (Needle × BitVec 32)) (i : Nat) (hit : UInt32)
    (c : Nat) : UInt32 :=
  masks.foldl
    (fun hit m =>
      if m.2.getLsbD c = true ∧ hit &&& m.1.bit = 0 ∧ idEq32 p (i + c) m.1.id then hit ||| m.1.bit
      else hit) hit

/-- `classify_n_avx2`. -/
def classifyNAvx2 (payload : List UInt8) (len nIds : Nat) : UInt32 :=
  if len < 32 ∨ nIds = 0 then 0
  else
    let nIds := if nIds > classifyNMax then classifyNMax else nIds
    blockScan (fun hit => hit = wantMask nIds) 63 (len % 2 ^ 32)
      (fun i => (needleMasks payload nIds i).foldl (fun any m => any ||| m.2) 0#32)
      (fun i => classifyNCand payload (needleMasks payload nIds i) i)
      (fun i => classifyNRange payload i ((len - 32) % 2 ^ 32) nIds) 0 0

/-- `classify_n`; `avx2` is what `classify_have_avx2` answers. -/
def classifyN (avx2 : Bool) (payload : List UInt8) (len nIds : Nat) : UInt32 :=
  if len < 32 ∨ nIds = 0 then 0
  else
    let nIds := if nIds > classifyNMax then classifyNMax else nIds
    if avx2 then classifyNAvx2 payload len nIds
    else classifyNRange payload 0 ((len - 32) % 2 ^ 32) nIds 0

/-! ## §4. The prefilter. -/

/-- A window with the id has its bytes. -/
theorem getElem?_of_idEq32 {p id : List UInt8} {i : Nat} (h : idEq32 p i id = true) {k : Nat}
    (hk : k < id.length) : p[i + k]? = id[k]? := by
  have hid : (p.drop i).take 32 = id := of_decide_eq_true h
  have hlen : id.length ≤ 32 := by
    rw [← hid]
    exact List.length_take_le 32 _
  rw [← hid, List.getElem?_take_of_lt (by omega), List.getElem?_drop]

/-- **The prefilter drops no window with the id**, where it compares bytes 0
and 7 of it. -/
theorem cmpeq_of_idEq32 {p id : List UInt8} {d0 d7 : UInt8} (h0 : id[0]? = some d0)
    (h7 : id[7]? = some d7) {i c : Nat} (h : idEq32 p (i + c) id = true) :
    cmpeqEpi8 p i d0 c = true ∧ cmpeqEpi8 p (i + 7) d7 c = true := by
  have hlen : 7 < id.length := (List.getElem?_eq_some_iff.mp h7).1
  constructor
  · have hbyte := getElem?_of_idEq32 h (Nat.zero_lt_of_lt hlen)
    exact decide_eq_true (hbyte.trans h0)
  · have hbyte := getElem?_of_idEq32 h hlen
    rw [show i + c + 7 = i + 7 + c by omega] at hbyte
    exact decide_eq_true (hbyte.trans h7)

/-- A mask that keeps every window with the id. -/
def Keeps {w : Nat} (id : List UInt8) (mask : List UInt8 → Nat → BitVec w) : Prop :=
  ∀ p i c, c < w → idEq32 p (i + c) id = true → (mask p i).getLsbD c = true

theorem getElem?_of_lt {id : List UInt8} {k : Nat} (h : k < id.length) :
    id[k]? = some (id.getD k 0) := by
  rw [List.getD_eq_getElem?_getD, List.getElem?_eq_getElem h]
  rfl

theorem keeps_avx2Mask {id : List UInt8} (h : 7 < id.length) : Keeps id (avx2Mask id) := by
  intro p i c hc heq
  obtain ⟨h0, h7⟩ := cmpeq_of_idEq32 (getElem?_of_lt (Nat.zero_lt_of_lt h)) (getElem?_of_lt h) heq
  rw [avx2Mask, getLsbD_movemask hc]
  show (cmpeqEpi8 p i (id.getD 0 0) c && cmpeqEpi8 p (i + 7) (id.getD 7 0) c) = true
  rw [h0, h7, Bool.and_true]

theorem keeps_avx512Mask {id : List UInt8} (h : 7 < id.length) : Keeps id (avx512Mask id) := by
  intro p i c hc heq
  obtain ⟨h0, h7⟩ := cmpeq_of_idEq32 (getElem?_of_lt (Nat.zero_lt_of_lt h)) (getElem?_of_lt h) heq
  rw [avx512Mask, BitVec.getLsbD_and, getLsbD_movemask hc, getLsbD_movemask hc]
  show (cmpeqEpi8 p i (id.getD 0 0) c && cmpeqEpi8 p (i + 7) (id.getD 7 0) c) = true
  rw [h0, h7, Bool.and_true]

/-! ## §5. Two ids: the scans agree. -/

theorem classifyAt_of_both (p : List UInt8) (hit : UInt32) (i : Nat)
    (h : decide (hit = relBoth) = true) : classifyAt p hit i = hit := by
  obtain rfl : hit = relBoth := of_decide_eq_true h
  have hdlmm : ¬ (relBoth &&& relDlmm = 0 ∧ idEq32 p i progDlmm = true) :=
    fun hand => absurd hand.1 (by decide)
  have hpump : ¬ (relBoth &&& relPump = 0 ∧ idEq32 p i progPump = true) :=
    fun hand => absurd hand.1 (by decide)
  rw [classifyAt]
  simp only [if_neg hdlmm, if_neg hpump]

/-- A mask that keeps the id may be asked first. -/
theorem classifyCand_eq {w : Nat} {md mp : List UInt8 → Nat → BitVec w} (hd : Keeps progDlmm md)
    (hp : Keeps progPump mp) (p : List UInt8) (i : Nat) (hit : UInt32) (c : Nat) (hc : c < w) :
    classifyCand p (md p i) (mp p i) i hit c = classifyAt p hit (i + c) := by
  have hmask : ∀ (mask : BitVec w) (id : List UInt8) (hit bit : UInt32),
      (idEq32 p (i + c) id = true → mask.getLsbD c = true) →
      (mask.getLsbD c = true ∧ hit &&& bit = 0 ∧ idEq32 p (i + c) id = true ↔
        hit &&& bit = 0 ∧ idEq32 p (i + c) id = true) :=
    fun mask id hit bit hkeep => ⟨fun h => h.2, fun h => ⟨hkeep h.2, h⟩⟩
  unfold classifyCand classifyAt
  simp only [hmask _ progDlmm _ relDlmm (hd p i c hc), hmask _ progPump _ relPump (hp p i c hc)]

/-- A window that no mask leaves changes nothing. -/
theorem classifyAt_of_skip {w : Nat} {md mp : List UInt8 → Nat → BitVec w} (hd : Keeps progDlmm md)
    (hp : Keeps progPump mp) (p : List UInt8) (i : Nat) (hit : UInt32) (c : Nat) (hc : c < w)
    (h : (md p i ||| mp p i).getLsbD c = false) : classifyAt p hit (i + c) = hit := by
  rw [BitVec.getLsbD_or, Bool.or_eq_false_iff] at h
  rw [← classifyCand_eq hd hp p i hit c hc]
  unfold classifyCand
  simp [h.1, h.2]

/-- **A scan in blocks is the plain one**, for blocks of any width. -/
theorem classifyVector_eq {w : Nat} [NeZero w] {md mp : List UInt8 → Nat → BitVec w}
    (hd : Keeps progDlmm md) (hp : Keeps progPump mp) (payload : List UInt8) (len : UInt16) :
    classifyVector (w + 31) md mp payload len = classifyScalar payload len := by
  unfold classifyVector classifyScalar
  split
  · rfl
  · rename_i hlen
    have hge : 32 ≤ len.toNat := by
      rw [UInt16.lt_iff_toNat_lt] at hlen
      exact Nat.not_lt.mp hlen
    have hlast : (len - 32).toNat + 1 = len.toNat - 31 := by
      have hle : (32 : UInt16) ≤ len := UInt16.le_iff_toNat_le.mpr hge
      rw [UInt16.toNat_sub_of_le _ _ hle]
      show len.toNat - 32 + 1 = _
      omega
    have hrange : ∀ i hit, classifyRange payload i (len - 32).toNat hit
        = (List.range' i (len.toNat - 31 - i)).foldl (classifyAt payload) hit := by
      intro i hit
      rw [classifyRange, rangeLoop_eq (classifyAt_of_both payload), hlast]
    rw [blockScan_eq (classifyAt_of_both payload) (classifyCand_eq hd hp payload)
      (classifyAt_of_skip hd hp payload) hrange, hrange]

/-! ## §6. Up to six ids: the scans agree. -/

/-- The needles' prefilter bytes are bytes 0 and 7 of their ids. -/
theorem needle_discs : ∀ n ∈ needle, n.id[0]? = some n.disc0 ∧ n.id[7]? = some n.disc7 := by
  decide

/-- What is wanted has every bit that a needle sets. -/
theorem wantMask_bit : ∀ nIds ≤ classifyNMax, ∀ n ∈ needle.take nIds, wantMask nIds &&& n.bit ≠ 0 := by
  decide

theorem foldl_of_fixed {α β : Type} {f : β → α → β} {s : β} : ∀ {l : List α},
    (∀ x ∈ l, f s x = s) → l.foldl f s = s := by
  intro l
  induction l with
  | nil => exact fun _ => rfl
  | cons x l ih =>
    intro h
    rw [List.foldl_cons, h x List.mem_cons_self]
    exact ih fun y hy => h y (List.mem_cons_of_mem x hy)

theorem classifyNAt_of_want {nIds : Nat} (hn : nIds ≤ classifyNMax) (p : List UInt8) (hit : UInt32)
    (i : Nat) (h : decide (hit = wantMask nIds) = true) : classifyNAt p nIds hit i = hit := by
  obtain rfl : hit = wantMask nIds := of_decide_eq_true h
  refine foldl_of_fixed fun n hmem => if_neg fun hand => ?_
  exact wantMask_bit nIds hn n hmem hand.1

theorem keeps_needleMask {n : Needle} (hn : n ∈ needle) :
    Keeps n.id fun p i => needleMask p i n := by
  intro p i c hc heq
  obtain ⟨hd0, hd7⟩ := needle_discs n hn
  obtain ⟨h0, h7⟩ := cmpeq_of_idEq32 hd0 hd7 heq
  show (needleMask p i n).getLsbD c = true
  rw [needleMask, getLsbD_movemask hc, h0, h7, Bool.and_true]

/-- A mask that keeps its needle's id may be asked first. -/
theorem classifyNCand_eq (p : List UInt8) (nIds i : Nat) (hit : UInt32) (c : Nat) (hc : c < 32) :
    classifyNCand p (needleMasks p nIds i) i hit c = classifyNAt p nIds hit (i + c) := by
  unfold classifyNCand needleMasks classifyNAt
  rw [List.foldl_map]
  refine List.foldl_ext _ _ _ fun hit n hn => ?_
  have hkeep := keeps_needleMask (List.mem_of_mem_take hn) p i c hc
  refine if_congr ⟨fun h => h.2, fun h => ⟨hkeep h.2, h⟩⟩ rfl rfl

/-- A lane is left by the masks together when one of them leaves it. -/
theorem getLsbD_foldl_or (c : Nat) : ∀ (masks : List (Needle × BitVec 32)) (any : BitVec 32),
    (masks.foldl (fun any m => any ||| m.2) any).getLsbD c = false →
    ∀ m ∈ masks, m.2.getLsbD c = false := by
  have hmono : ∀ (masks : List (Needle × BitVec 32)) (any : BitVec 32),
      any.getLsbD c = true → (masks.foldl (fun any m => any ||| m.2) any).getLsbD c = true := by
    intro masks
    induction masks with
    | nil => exact fun any h => h
    | cons m masks ih =>
      intro any h
      exact ih _ (by rw [BitVec.getLsbD_or, h, Bool.true_or])
  intro masks
  induction masks with
  | nil => exact fun any _ m hm => absurd hm List.not_mem_nil
  | cons m masks ih =>
    intro any h m' hm'
    rcases List.mem_cons.mp hm' with rfl | hm'
    · by_contra hbit
      rw [Bool.not_eq_false] at hbit
      have htrue := hmono masks (any ||| m'.2) (by rw [BitVec.getLsbD_or, hbit, Bool.or_true])
      exact absurd (h.symm.trans htrue) (by decide)
    · exact ih _ h m' hm'

/-- A window that no mask leaves changes nothing. -/
theorem classifyNAt_of_skip (p : List UInt8) (nIds i : Nat) (hit : UInt32) (c : Nat) (hc : c < 32)
    (h : ((needleMasks p nIds i).foldl (fun any m => any ||| m.2) 0#32).getLsbD c = false) :
    classifyNAt p nIds hit (i + c) = hit := by
  rw [← classifyNCand_eq p nIds i hit c hc]
  refine foldl_of_fixed fun m hm => if_neg fun hand => ?_
  exact absurd (hand.1.symm.trans (getLsbD_foldl_or c _ _ h m hm)) (by decide)

/-- The AVX2 path of `classify_n` is its plain scan. -/
theorem classifyNAvx2_eq (payload : List UInt8) {len nIds : Nat} (hlen : len < 2 ^ 32) (h32 : 32 ≤ len)
    (hn : nIds ≤ classifyNMax) (hpos : nIds ≠ 0) :
    classifyNAvx2 payload len nIds = classifyNRange payload 0 ((len - 32) % 2 ^ 32) nIds 0 := by
  have hguard : ¬ (len < 32 ∨ nIds = 0) := by
    rintro (h | h)
    · omega
    · exact hpos h
  have hrange : ∀ i hit, classifyNRange payload i ((len - 32) % 2 ^ 32) nIds hit
      = (List.range' i (len % 2 ^ 32 - 31 - i)).foldl (classifyNAt payload nIds) hit := by
    intro i hit
    rw [classifyNRange, rangeLoop_eq (classifyNAt_of_want hn payload),
      show (len - 32) % 2 ^ 32 + 1 - i = len % 2 ^ 32 - 31 - i by omega]
  rw [classifyNAvx2, if_neg hguard]
  simp only [if_neg (Nat.not_lt.mpr hn)]
  rw [blockScan_eq (w := 32) (classifyNAt_of_want hn payload)
    (classifyNCand_eq payload nIds) (classifyNAt_of_skip payload nIds) hrange, hrange]

/-! ## §7. The paths. -/

/-- **All paths agree**: the vector paths of `classify` with the scalar one, and
the AVX2 path of `classify_n` with the plain scan, for every number of ids. -/
theorem classify_paths_agree (payload : List UInt8) (len : UInt16) :
    classifyAvx2 payload len = classifyScalar payload len ∧
      classifyAvx512 payload len = classifyScalar payload len ∧
      ∀ nIds, classifyN true payload len.toNat nIds = classifyN false payload len.toNat nIds := by
  refine ⟨?_, ?_, fun nIds => ?_⟩
  · exact classifyVector_eq (keeps_avx2Mask (by decide)) (keeps_avx2Mask (by decide)) payload len
  · exact classifyVector_eq (keeps_avx512Mask (by decide)) (keeps_avx512Mask (by decide)) payload len
  · unfold classifyN
    split
    · rfl
    · rename_i hguard
      rw [not_or] at hguard
      have hlt := len.toNat_lt
      refine classifyNAvx2_eq payload (by omega) (by omega) ?_ ?_
      · split <;> omega
      · split
        · decide
        · exact hguard.2

end ShredArb.Classify
