/-
  ShredArb.Lib.Buckets — count, lay out end to end, fill.

  Items with a bucket number each are packed into one array: a first pass
  counts each bucket, a running sum gives every bucket its start, a last pass
  writes each item at the start of its bucket plus the number of items the
  bucket already has.

  Main results:
    * `layout_prefixSum` — running sums give ranges that do not overlap,
    * `Filled.step`, `Filled.slice_eq` — the slice of a bucket is the list of
      its items, in the order they came.
-/
import Mathlib.Tactic

namespace ShredArb.Buckets

variable {α : Type*}

/-! ## §1. Buckets. -/

/-- The items of a bucket, in order. -/
def bucketOf (items : List (Nat × α)) (b : Nat) : List α :=
  (items.filter fun p => p.1 = b).map (·.2)

theorem bucketOf_append (l m : List (Nat × α)) (b : Nat) :
    bucketOf (l ++ m) b = bucketOf l b ++ bucketOf m b := by
  rw [bucketOf, List.filter_append, List.map_append]
  rfl

theorem bucketOf_single_self (b : Nat) (a : α) : bucketOf [(b, a)] b = [a] := by
  simp [bucketOf]

theorem bucketOf_single_ne {b c : Nat} (a : α) (h : b ≠ c) : bucketOf [(b, a)] c = [] := by
  simp [bucketOf, h]

theorem mem_bucketOf {items : List (Nat × α)} {b : Nat} {a : α} :
    a ∈ bucketOf items b ↔ (b, a) ∈ items := by
  rw [bucketOf, List.mem_map]
  constructor
  · rintro ⟨⟨c, x⟩, hmem, rfl⟩
    rw [List.mem_filter] at hmem
    have hc : c = b := by simpa using hmem.2
    exact hc ▸ hmem.1
  · intro h
    exact ⟨(b, a), List.mem_filter.mpr ⟨h, by simp⟩, rfl⟩

/-! ## §2. Layout. -/

/-- Where bucket `b` starts when buckets of these sizes are laid end to end. -/
def prefixSum (cnt : Nat → Nat) : Nat → Nat
  | 0 => 0
  | b + 1 => prefixSum cnt b + cnt b

theorem prefixSum_le (cnt : Nat → Nat) {b c : Nat} (h : b < c) :
    prefixSum cnt b + cnt b ≤ prefixSum cnt c := by
  induction c with
  | zero => omega
  | succ c ih =>
    rw [prefixSum]
    rcases Nat.lt_succ_iff_lt_or_eq.mp h with h | rfl
    · have := ih h
      omega
    · omega

theorem prefixSum_succ_shift (cnt : Nat → Nat) (b : Nat) :
    prefixSum cnt (b + 1) = cnt 0 + prefixSum (fun i => cnt (i + 1)) b := by
  induction b with
  | zero => rw [prefixSum, prefixSum, prefixSum]; omega
  | succ b ih =>
    rw [prefixSum, ih, prefixSum]
    omega

theorem prefixSum_congr {cnt cnt' : Nat → Nat} (h : ∀ b, cnt b = cnt' b) (b : Nat) :
    prefixSum cnt b = prefixSum cnt' b := by
  rw [funext h]

/-- The first `n` buckets hold no more than all the items. -/
theorem prefixSum_bucketOf_le (items : List (Nat × α)) (n : Nat) :
    prefixSum (fun b => (bucketOf items b).length) n ≤ items.length := by
  have hcount : ∀ n, prefixSum (fun b => (bucketOf items b).length) n
      = items.countP fun p => p.1 < n := by
    intro n
    induction n with
    | zero => simp [prefixSum]
    | succ n ih =>
      rw [prefixSum, ih, bucketOf, List.length_map, ← List.countP_eq_length_filter]
      clear ih
      induction items with
      | nil => rfl
      | cons it items ih =>
        simp only [List.countP_cons, decide_eq_true_eq]
        rcases Nat.lt_trichotomy it.1 n with h | h | h
        · rw [if_pos h, if_neg (by omega), if_pos (by omega)]
          omega
        · rw [if_neg (by omega), if_pos h, if_pos (by omega)]
          omega
        · rw [if_neg (by omega), if_neg (by omega), if_neg (by omega)]
          omega
  rw [hcount]
  exact List.countP_le_length

/-- Ranges of an array that stay inside it and do not overlap. -/
structure Layout (off cnt : Nat → Nat) (len : Nat) : Prop where
  bounded : ∀ b k, k < cnt b → off b + k < len
  separate : ∀ b c k l, k < cnt b → l < cnt c → off b + k = off c + l → b = c

theorem layout_prefixSum {off cnt : Nat → Nat} {B len : Nat}
    (hoff : ∀ b, 0 < cnt b → off b = prefixSum cnt b) (hB : ∀ b, 0 < cnt b → b < B)
    (hlen : prefixSum cnt B ≤ len) : Layout off cnt len where
  bounded := by
    intro b k hk
    have h1 := hoff b (by omega)
    have h2 := prefixSum_le cnt (hB b (by omega))
    omega
  separate := by
    intro b c k l hk hl heq
    have h1 := hoff b (by omega)
    have h2 := hoff c (by omega)
    rcases Nat.lt_trichotomy b c with h | h | h
    · have := prefixSum_le cnt h
      omega
    · exact h
    · have := prefixSum_le cnt h
      omega

/-! ## §3. Filling. -/

/-- `n` entries from `off` on. -/
def slice (arr : List α) (off n : Nat) : List α := (arr.drop off).take n

theorem slice_zero (arr : List α) (off : Nat) : slice arr off 0 = [] := List.take_zero

/-- The items `done` so far are in place: `n b` of them in bucket `b`. -/
structure Filled (off : Nat → Nat) (arr : List α) (n : Nat → Nat)
    (done : List (Nat × α)) : Prop where
  count : ∀ b, n b = (bucketOf done b).length
  get : ∀ b k, k < n b → arr[off b + k]? = (bucketOf done b)[k]?

theorem Filled.nil (off : Nat → Nat) (arr : List α) : Filled off arr (fun _ => 0) [] where
  count := fun _ => rfl
  get := fun _ _ hk => absurd hk (Nat.not_lt_zero _)

/-- **One more item.** -/
theorem Filled.step {off cnt n : Nat → Nat} {arr : List α} {done : List (Nat × α)} {b : Nat}
    {a : α} (hlay : Layout off cnt arr.length) (hle : ∀ c, n c ≤ cnt c) (hroom : n b < cnt b)
    (hf : Filled off arr n done) :
    Filled off (arr.set (off b + n b) a) (Function.update n b (n b + 1))
      (done ++ [(b, a)]) where
  count := by
    intro c
    rw [bucketOf_append, List.length_append, ← hf.count]
    by_cases hc : c = b
    · subst hc
      rw [Function.update_self, bucketOf_single_self, List.length_singleton]
    · rw [Function.update_of_ne hc, bucketOf_single_ne a (Ne.symm hc), List.length_nil]
      rfl
  get := by
    intro c k hk
    have hcnt := hf.count
    by_cases hc : c = b
    · subst hc
      rw [Function.update_self] at hk
      rw [bucketOf_append, bucketOf_single_self]
      by_cases hkn : k = n c
      · subst hkn
        rw [List.getElem?_set_self (hlay.bounded c _ hroom), hcnt, List.getElem?_concat_length]
      · have hlt : k < n c := by omega
        rw [List.getElem?_set_ne (by omega), hf.get c k hlt,
          List.getElem?_append_left (by rw [← hcnt]; exact hlt)]
    · rw [Function.update_of_ne hc] at hk
      have hne : off b + n b ≠ off c + k := fun heq =>
        hc (hlay.separate b c _ _ hroom (Nat.lt_of_lt_of_le hk (hle c)) heq).symm
      rw [List.getElem?_set_ne hne, hf.get c k hk, bucketOf_append,
        bucketOf_single_ne a (Ne.symm hc), List.append_nil]

/-- **The slice of a bucket is the list of its items.** -/
theorem Filled.slice_eq {off n : Nat → Nat} {arr : List α} {done : List (Nat × α)}
    (hf : Filled off arr n done) (b : Nat) : slice arr (off b) (n b) = bucketOf done b := by
  apply List.ext_getElem?
  intro k
  rw [slice, List.getElem?_take]
  by_cases hk : k < n b
  · rw [if_pos hk, List.getElem?_drop, hf.get b k hk]
  · rw [if_neg hk, List.getElem?_eq_none]
    rw [← hf.count]
    omega

end ShredArb.Buckets
