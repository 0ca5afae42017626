/-
  ShredArb.Lib.Bytes — little-endian words and fields at fixed offsets.

  A field of a byte string is what `field` reads at an offset, and `patch`
  overwrites it in place.  A template that is a concatenation is patched part
  by part.

  Main results:
    * `leNat_leBytes`, `loadU64_u64le` — words round trip,
    * `field_flatten` — a field of a layout is the part that stands there,
    * `patch_append`, `patch_flatten` — overwriting one part of a concatenation,
    * `field_patch` / `field_patch_of_le` / `patch_patch` — a patch is read back
      where it stands, unseen before it, and undone by the next one,
    * `getElem?_patchAll`, `field_patchAll` — the same for several patches,
    * `putWithin_all`, `putWithin_eq_some` — what is put behind a cursor.
-/
import Mathlib.Tactic

namespace ShredArb.Bytes

/-! ## §1. Little-endian words. -/

/-- The `k` low bytes of a number, lowest first. -/
def leBytes : (k : Nat) → Nat → List UInt8
  | 0, _ => []
  | k + 1, n => UInt8.ofNat n :: leBytes k (n / 256)

/-- The number a byte string denotes, lowest byte first. -/
def leNat : List UInt8 → Nat
  | [] => 0
  | b :: bs => b.toNat + 256 * leNat bs

theorem length_leBytes (k n : Nat) : (leBytes k n).length = k := by
  induction k generalizing n with
  | zero => rfl
  | succ k ih => rw [leBytes, List.length_cons, ih]

theorem leNat_leBytes (k n : Nat) : leNat (leBytes k n) = n % 256 ^ k := by
  induction k generalizing n with
  | zero => rw [leBytes, leNat, Nat.pow_zero, Nat.mod_one]
  | succ k ih =>
    have hb : (UInt8.ofNat n).toNat = n % 256 := UInt8.toNat_ofNat'
    rw [leBytes, leNat, ih, hb, Nat.pow_succ, Nat.mul_comm (256 ^ k) 256, Nat.mod_mul]

theorem leNat_lt (bs : List UInt8) : leNat bs < 256 ^ bs.length := by
  induction bs with
  | nil => decide
  | cons b bs ih =>
    have hb : b.toNat < 256 := b.toNat_lt
    rw [leNat, List.length_cons, Nat.pow_succ]
    omega

theorem leNat_append (a b : List UInt8) : leNat (a ++ b) = leNat a + 256 ^ a.length * leNat b := by
  induction a with
  | nil => rw [List.nil_append, leNat, List.length_nil, Nat.pow_zero, Nat.one_mul, Nat.zero_add]
  | cons x a ih =>
    rw [List.cons_append, leNat, ih, leNat, List.length_cons, Nat.pow_succ]
    ring

/-- The bytes of the number that bytes denote. -/
theorem leBytes_leNat (bs : List UInt8) : leBytes bs.length (leNat bs) = bs := by
  induction bs with
  | nil => rfl
  | cons b bs ih =>
    have hb : b.toNat < 256 := b.toNat_lt
    have hlow : UInt8.ofNat (b.toNat + 256 * leNat bs) = b := by
      rw [← UInt8.toNat_inj, UInt8.toNat_ofNat']
      omega
    have hhigh : (b.toNat + 256 * leNat bs) / 256 = leNat bs := by omega
    rw [leNat, List.length_cons, leBytes, hlow, hhigh, ih]

/-- Byte strings of one length denote different numbers. -/
theorem leNat_inj {a b : List UInt8} (hlen : a.length = b.length) (h : leNat a = leNat b) : a = b := by
  rw [← leBytes_leNat a, ← leBytes_leNat b, hlen, h]

/-- The bytes of a 64-bit word. -/
def u64le (x : UInt64) : List UInt8 := leBytes 8 x.toNat

/-- The word eight bytes hold. -/
def loadU64 (bs : List UInt8) : UInt64 := UInt64.ofNat (leNat bs)

theorem length_u64le (x : UInt64) : (u64le x).length = 8 := length_leBytes 8 _

theorem loadU64_u64le (x : UInt64) : loadU64 (u64le x) = x := by
  have h : leNat (u64le x) = x.toNat := by
    rw [u64le, leNat_leBytes, Nat.mod_eq_of_lt]
    exact UInt64.toNat_lt x
  rw [loadU64, h]
  exact UInt64.ofNat_toNat

/-- The bytes of a 32-bit word. -/
def u32le (x : UInt32) : List UInt8 := leBytes 4 x.toNat

/-- The word four bytes hold. -/
def loadU32 (bs : List UInt8) : UInt32 := UInt32.ofNat (leNat bs)

theorem length_u32le (x : UInt32) : (u32le x).length = 4 := length_leBytes 4 _

theorem loadU32_u32le (x : UInt32) : loadU32 (u32le x) = x := by
  have h : leNat (u32le x) = x.toNat := by
    rw [u32le, leNat_leBytes, Nat.mod_eq_of_lt]
    exact UInt32.toNat_lt x
  rw [loadU32, h]
  exact UInt32.ofNat_toNat

/-- The bytes of a 16-bit word. -/
def u16le (x : UInt16) : List UInt8 := leBytes 2 x.toNat

/-- The word two bytes hold. -/
def loadU16 (bs : List UInt8) : UInt16 := UInt16.ofNat (leNat bs)

theorem length_u16le (x : UInt16) : (u16le x).length = 2 := length_leBytes 2 _

theorem loadU16_u16le (x : UInt16) : loadU16 (u16le x) = x := by
  have h : leNat (u16le x) = x.toNat := by
    rw [u16le, leNat_leBytes, Nat.mod_eq_of_lt]
    exact UInt16.toNat_lt x
  rw [loadU16, h]
  exact UInt16.ofNat_toNat

/-! ## §2. Fields. -/

/-- The `n` bytes at an offset. -/
def field (bs : List UInt8) (off n : Nat) : List UInt8 := (bs.drop off).take n

/-- Overwrite the bytes at an offset. -/
def patch (bs : List UInt8) (off : Nat) (new : List UInt8) : List UInt8 :=
  bs.take off ++ new ++ bs.drop (off + new.length)

theorem field_field {bs : List UInt8} {start len off n : Nat} (h : off + n ≤ len) :
    field (field bs start len) off n = field bs (start + off) n := by
  unfold field
  rw [List.drop_take, List.drop_drop, List.take_take, Nat.min_eq_left (by omega)]

theorem length_field {bs : List UInt8} {start len : Nat} (h : start + len ≤ bs.length) :
    (field bs start len).length = len := by
  rw [field, List.length_take, List.length_drop]
  omega

theorem getElem?_field {bs : List UInt8} {start len i : Nat} (h : i < len) :
    (field bs start len)[i]? = bs[start + i]? := by
  rw [field, List.getElem?_take_of_lt h, List.getElem?_drop]

theorem field_append_left {a b : List UInt8} {off n : Nat} (h : off + n ≤ a.length) :
    field (a ++ b) off n = field a off n := by
  unfold field
  rw [List.drop_append_of_le_length (by omega), List.take_append_of_le_length]
  rw [List.length_drop]
  omega

theorem field_append_right {a b : List UInt8} {off n : Nat} (h : a.length ≤ off) :
    field (a ++ b) off n = field b (off - a.length) n := by
  unfold field
  rw [List.drop_append, List.drop_eq_nil_of_le h, List.nil_append]

/-- One part of a concatenation of many. -/
theorem field_flatten {parts : List (List UInt8)} {k off n : Nat} {x : List UInt8}
    (hx : parts[k]? = some x) (hoff : off = ((parts.take k).map List.length).sum)
    (hn : n = x.length) : field parts.flatten off n = x := by
  induction parts generalizing k off with
  | nil => exact absurd hx (by simp)
  | cons p parts ih =>
    rw [List.flatten_cons]
    cases k with
    | zero =>
      obtain rfl : p = x := Option.some.inj hx
      simp only [List.take_zero, List.map_nil, List.sum_nil] at hoff
      subst hoff hn
      rw [field_append_left (by omega), field, List.drop_zero, List.take_length]
    | succ k =>
      rw [List.take_succ_cons, List.map_cons, List.sum_cons] at hoff
      rw [field_append_right (by omega)]
      exact ih hx (by omega)

/-- Overwriting one part of a concatenation. -/
theorem patch_append {a old b new : List UInt8} {off : Nat} (ho : off = a.length)
    (hn : new.length = old.length) : patch (a ++ old ++ b) off new = a ++ new ++ b := by
  have htake : (a ++ old ++ b).take off = a := by
    rw [List.append_assoc, ho, List.take_left]
  have hdrop : (a ++ old ++ b).drop (off + new.length) = b := by
    rw [hn, ho, ← List.length_append, List.drop_left]
  rw [patch, htake, hdrop]

/-- Overwriting one part of a concatenation of many. -/
theorem patch_flatten {parts : List (List UInt8)} {k off : Nat} (old : List UInt8)
    {new : List UInt8} (hold : parts[k]? = some old) (hoff : off = ((parts.take k).map List.length).sum)
    (hn : new.length = old.length) : patch parts.flatten off new = (parts.set k new).flatten := by
  induction parts generalizing k off with
  | nil => exact absurd hold (by simp)
  | cons p parts ih =>
    cases k with
    | zero =>
      obtain rfl : p = old := Option.some.inj hold
      exact patch_append (a := []) hoff hn
    | succ k =>
      rw [List.take_succ_cons, List.map_cons, List.sum_cons] at hoff
      have hoff' : off - p.length = ((parts.take k).map List.length).sum := by omega
      have hrest := ih hold hoff'
      rw [List.flatten_cons, List.set_cons_succ, List.flatten_cons, ← hrest, patch, patch, hoff,
        Nat.add_sub_cancel_left, Nat.add_assoc, List.take_length_add_append, List.drop_length_add_append,
        List.append_assoc, List.append_assoc, List.append_assoc]

section Patch

variable {bs new : List UInt8} {off : Nat}

theorem length_patch (h : off + new.length ≤ bs.length) :
    (patch bs off new).length = bs.length := by
  unfold patch
  rw [List.length_append, List.length_append, List.length_take, List.length_drop]
  omega

theorem field_patch (h : off + new.length ≤ bs.length) :
    field (patch bs off new) off new.length = new := by
  have hoff : (bs.take off).length = off := by
    rw [List.length_take]
    omega
  unfold patch
  rw [List.append_assoc, field_append_right (by omega), hoff, Nat.sub_self,
    field_append_left (by omega), field, List.drop_zero, List.take_length]

theorem field_patch_of_le {at_ n : Nat} (hn : at_ + n ≤ off)
    (h : off + new.length ≤ bs.length) : field (patch bs off new) at_ n = field bs at_ n := by
  have hoff : (bs.take off).length = off := by
    rw [List.length_take]
    omega
  unfold patch
  rw [List.append_assoc, field_append_left (by omega)]
  unfold field
  rw [List.drop_take, List.take_take, Nat.min_eq_left (by omega)]

/-- What stands outside is unchanged. -/
theorem getElem?_patch {i : Nat} (hi : i < off ∨ off + new.length ≤ i) (h : off + new.length ≤ bs.length) :
    (patch bs off new)[i]? = bs[i]? := by
  have hoff : (bs.take off).length = off := by
    rw [List.length_take]
    omega
  unfold patch
  rcases hi with hi | hi
  · rw [List.append_assoc, List.getElem?_append_left (by omega), List.getElem?_take_of_lt hi]
  · have hlen : (bs.take off ++ new).length = off + new.length := by rw [List.length_append, hoff]
    rw [List.getElem?_append_right (by omega), hlen, List.getElem?_drop, Nat.add_sub_cancel' hi]

theorem patch_patch {new' : List UInt8} (hl : new'.length = new.length)
    (h : off + new.length ≤ bs.length) :
    patch (patch bs off new) off new' = patch bs off new' := by
  have hoff : off = (bs.take off).length := by
    rw [List.length_take]
    omega
  have hold : patch bs off new = bs.take off ++ new ++ bs.drop (off + new.length) := rfl
  rw [hold, patch_append hoff hl, patch, hl]

end Patch

/-! ## §3. Several patches. -/

/-- One patch after another, each with its offset. -/
def patchAll (bs : List UInt8) (ps : List (Nat × List UInt8)) : List UInt8 :=
  ps.foldl (fun bs p => patch bs p.1 p.2) bs

section PatchAll

variable {bs : List UInt8} {ps : List (Nat × List UInt8)}

theorem patchAll_cons (p : Nat × List UInt8) :
    patchAll bs (p :: ps) = patchAll (patch bs p.1 p.2) ps := rfl

theorem length_patchAll (hfit : ∀ p ∈ ps, p.1 + p.2.length ≤ bs.length) :
    (patchAll bs ps).length = bs.length := by
  induction ps generalizing bs with
  | nil => rfl
  | cons p ps ih =>
    have hlen := length_patch (hfit p List.mem_cons_self)
    rw [patchAll_cons, ih fun q hq => by rw [hlen]; exact hfit q (List.mem_cons_of_mem p hq), hlen]

/-- What stands outside of all patches is unchanged. -/
theorem getElem?_patchAll {i : Nat} (hfit : ∀ p ∈ ps, p.1 + p.2.length ≤ bs.length)
    (hi : ∀ p ∈ ps, i < p.1 ∨ p.1 + p.2.length ≤ i) : (patchAll bs ps)[i]? = bs[i]? := by
  induction ps generalizing bs with
  | nil => rfl
  | cons p ps ih =>
    have hlen := length_patch (hfit p List.mem_cons_self)
    rw [patchAll_cons, ih (fun q hq => by rw [hlen]; exact hfit q (List.mem_cons_of_mem p hq))
      fun q hq => hi q (List.mem_cons_of_mem p hq)]
    exact getElem?_patch (hi p List.mem_cons_self) (hfit p List.mem_cons_self)

/-- A field before all patches is unchanged. -/
theorem field_patchAll_of_le {off n : Nat} (hfit : ∀ p ∈ ps, p.1 + p.2.length ≤ bs.length)
    (hoff : ∀ p ∈ ps, off + n ≤ p.1) : field (patchAll bs ps) off n = field bs off n := by
  induction ps generalizing bs with
  | nil => rfl
  | cons p ps ih =>
    have hlen := length_patch (hfit p List.mem_cons_self)
    rw [patchAll_cons, ih (fun q hq => by rw [hlen]; exact hfit q (List.mem_cons_of_mem p hq))
      fun q hq => hoff q (List.mem_cons_of_mem p hq)]
    exact field_patch_of_le (hoff p List.mem_cons_self) (hfit p List.mem_cons_self)

/-- **Patches at ascending offsets are all read back.** -/
theorem field_patchAll (hfit : ∀ p ∈ ps, p.1 + p.2.length ≤ bs.length)
    (hord : ps.Pairwise fun p q => p.1 + p.2.length ≤ q.1) :
    ∀ p ∈ ps, field (patchAll bs ps) p.1 p.2.length = p.2 := by
  induction ps generalizing bs with
  | nil => exact fun p hp => absurd hp (by simp)
  | cons p ps ih =>
    have hlen := length_patch (hfit p List.mem_cons_self)
    have hrest : ∀ q ∈ ps, q.1 + q.2.length ≤ (patch bs p.1 p.2).length := fun q hq => by
      rw [hlen]
      exact hfit q (List.mem_cons_of_mem p hq)
    obtain ⟨hhead, htail⟩ := List.pairwise_cons.mp hord
    intro q hq
    rcases List.mem_cons.mp hq with rfl | hq
    · rw [patchAll_cons, field_patchAll_of_le hrest hhead]
      exact field_patch (hfit q List.mem_cons_self)
    · rw [patchAll_cons]
      exact ih hrest htail q hq

end PatchAll

/-! ## §4. Bytes behind a cursor. -/

/-- Bytes put behind what is there, within a capacity. -/
def putWithin (cap : Nat) (buf p : List UInt8) : Option (List UInt8) :=
  if buf.length + p.length > cap then none else some (buf ++ p)

/-- Puts that fit together fit one after another. -/
theorem putWithin_all {cap : Nat} : ∀ (ps : List (List UInt8)) (buf : List UInt8),
    buf.length + ps.flatten.length ≤ cap → ps.foldlM (putWithin cap) buf = some (buf ++ ps.flatten) := by
  intro ps
  induction ps with
  | nil =>
    intro buf _
    rw [List.flatten_nil, List.append_nil]
    rfl
  | cons p ps ih =>
    intro buf h
    rw [List.flatten_cons, List.length_append] at h
    have hrest := ih (buf ++ p) (by rw [List.length_append]; omega)
    rw [List.foldlM_cons, putWithin, if_neg (by omega), List.flatten_cons, ← List.append_assoc]
    exact hrest

/-- What puts leave is what was put. -/
theorem putWithin_eq_some {cap : Nat} : ∀ (ps : List (List UInt8)) {buf out : List UInt8},
    ps.foldlM (putWithin cap) buf = some out → out = buf ++ ps.flatten := by
  intro ps
  induction ps with
  | nil =>
    intro buf out h
    rw [List.flatten_nil, List.append_nil]
    exact (Option.some.inj h).symm
  | cons p ps ih =>
    intro buf out h
    rw [List.foldlM_cons] at h
    obtain ⟨mid, hmid, hrest⟩ := Option.bind_eq_some_iff.mp h
    obtain ⟨-, hmid⟩ := Option.ite_none_left_eq_some.mp hmid
    rw [ih hrest, ← Option.some.inj hmid, List.flatten_cons, List.append_assoc]

end ShredArb.Bytes
