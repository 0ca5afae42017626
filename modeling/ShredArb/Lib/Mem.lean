/-
  ShredArb.Lib.Mem — byte-addressed memory and the regions of it.

  A memory is a function of addresses; `write` lays a byte string over it and
  `read` takes one out.  A region is read back part by part, and a write that
  touches NONE of its bytes leaves it alone.

  Main results:
    * `read_write_within` — what a write put there,
    * `read_write_of_disjoint` — what it did not touch,
    * `field_read` — a field of a region is a region.
-/
import Mathlib.Data.List.GetD
import ShredArb.Lib.Bytes

namespace ShredArb.Mem

open ShredArb.Bytes

/-! ## §1. Reading and writing. -/

/-- The byte at every address. -/
abbrev Memory := Nat → UInt8

/-- The `n` bytes at an address. -/
def read (m : Memory) (off n : Nat) : List UInt8 := (List.range n).map fun i => m (off + i)

/-- Lay a byte string over the memory at an address. -/
def write (m : Memory) (off : Nat) (bs : List UInt8) : Memory := fun i =>
  if i < off then m i else bs.getD (i - off) (m i)

@[simp]
theorem length_read (m : Memory) (off n : Nat) : (read m off n).length = n := by
  rw [read, List.length_map, List.length_range]

theorem write_of_lt {m : Memory} {off i : Nat} {bs : List UInt8} (h : i < off) :
    write m off bs i = m i := by
  rw [write, if_pos h]

theorem write_of_ge {m : Memory} {off i : Nat} {bs : List UInt8} (h : off + bs.length ≤ i) :
    write m off bs i = m i := by
  rw [write, if_neg (by omega), List.getD_eq_default]
  omega

/-- Equal bytes are read alike. -/
theorem read_congr {m m' : Memory} {off n : Nat}
    (h : ∀ i, off ≤ i → i < off + n → m' i = m i) : read m' off n = read m off n := by
  unfold read
  refine List.map_congr_left fun i hi => ?_
  have hlt : i < n := List.mem_range.mp hi
  exact h (off + i) (by omega) (by omega)

/-! ## §2. Reading after a write. -/

theorem read_write_of_disjoint {m : Memory} {off off' n : Nat} {bs : List UInt8}
    (h : off' + n ≤ off ∨ off + bs.length ≤ off') :
    read (write m off bs) off' n = read m off' n := by
  refine read_congr fun i hlo hhi => ?_
  rcases h with hbefore | hafter
  · exact write_of_lt (by omega)
  · exact write_of_ge (by omega)

theorem read_write_within {m : Memory} {off k n : Nat} {bs : List UInt8} (h : k + n ≤ bs.length) :
    read (write m off bs) (off + k) n = field bs k n := by
  apply List.ext_getElem
  · rw [length_read, field, List.length_take, List.length_drop]
    omega
  · intro i hi hi'
    rw [length_read] at hi
    have hget : (field bs k n)[i] = bs[k + i] := by
      simp only [field, List.getElem_take, List.getElem_drop]
    have hbyte : (read (write m off bs) (off + k) n)[i] = write m off bs (off + k + i) := by
      simp only [read, List.getElem_map, List.getElem_range]
    have hidx : off + k + i - off = k + i := by omega
    rw [hget, hbyte, write, if_neg (by omega), hidx, List.getD_eq_getElem _ _ (by omega)]

theorem read_write_self {m : Memory} {off n : Nat} {bs : List UInt8} (h : bs.length = n) :
    read (write m off bs) off n = bs := by
  have hin : read (write m off bs) (off + 0) n = field bs 0 n := read_write_within (by omega)
  rwa [Nat.add_zero, field, List.drop_zero, List.take_of_length_le (by omega)] at hin

/-! ## §3. Parts of a region. -/

theorem read_add (m : Memory) (off a b : Nat) :
    read m off (a + b) = read m off a ++ read m (off + a) b := by
  unfold read
  rw [List.range_add, List.map_append, List.map_map]
  congr 1
  refine List.map_congr_left fun i _ => ?_
  rw [Function.comp_apply, Nat.add_assoc]

theorem field_read (m : Memory) {off k n len : Nat} (h : k + n ≤ len) :
    field (read m off len) k n = read m (off + k) n := by
  obtain ⟨rest, rfl⟩ := Nat.exists_eq_add_of_le h
  rw [read_add, read_add, field_append_left (by simp), field_append_right (by simp)]
  rw [length_read, Nat.sub_self, field, List.drop_zero, List.take_of_length_le (by simp)]

end ShredArb.Mem
