/-
  ShredArb.Lib.Lanes — scanning in blocks, with a prefilter.

  A vector compare gives one bit for each lane.  The set bits are walked from
  the lowest up: `ctz` names it, and `mask & (mask - 1)` clears it.  A scan that
  looks only at the lanes the prefilter leaves, block after block, and at the
  rest one by one, is the plain scan, provided that what the prefilter drops
  CHANGES NOTHING.

  A scan may stop early: `stop` tells the states that no position changes any
  more.

  Main results:
    * `maskLoop_eq` — the walk over a mask is the fold over its set bits,
    * `rangeLoop_eq` — the plain scan is the fold over all positions,
    * `blockScan_eq` — and so is the scan in blocks.
-/
import Mathlib.Tactic

namespace ShredArb.Lanes

variable {σ : Type*} {w : Nat}

/-! ## §1. Masks. -/

/-- One bit for each lane. -/
def movemask : (w : Nat) → (Nat → Bool) → BitVec w
  | 0, _ => 0#0
  | w + 1, lanes => BitVec.cons (lanes w) (movemask w lanes)

theorem getLsbD_movemask {lanes : Nat → Bool} : ∀ {w c : Nat}, c < w →
    (movemask w lanes).getLsbD c = lanes c := by
  intro w
  induction w with
  | zero => exact fun h => absurd h (Nat.not_lt_zero _)
  | succ w ih =>
    intro c h
    rw [movemask, BitVec.getLsbD_cons]
    split
    · rename_i hc
      rw [hc]
    · exact ih (by omega)

/-- Less one, and with itself, a number loses its lowest bit only. -/
theorem testBit_and_sub_one : ∀ {c m : Nat}, m.testBit c = true → (∀ k < c, m.testBit k = false) →
    ∀ i, (m &&& (m - 1)).testBit i = (m.testBit i && decide (i ≠ c)) := by
  intro c
  induction c with
  | zero =>
    intro m hbit _ i
    have hodd : m % 2 = 1 := by simpa [Nat.testBit_zero] using hbit
    have hhalf : (m - 1) / 2 = m / 2 := by omega
    cases i with
    | zero =>
      have heven : (m - 1) % 2 = 0 := by omega
      simp [Nat.testBit_zero, heven]
    | succ i => rw [Nat.testBit_and, Nat.testBit_succ, Nat.testBit_succ, hhalf]; simp
  | succ c ih =>
    intro m hbit hlow i
    have heven : m % 2 = 0 := by simpa [Nat.testBit_zero] using hlow 0 (Nat.succ_pos c)
    have hhalf : (m - 1) / 2 = m / 2 - 1 := by omega
    cases i with
    | zero => simp [Nat.testBit_zero, heven]
    | succ i =>
      have hrest := ih (m := m / 2) (by rwa [Nat.testBit_succ] at hbit) (fun k hk => by
        rw [← Nat.testBit_succ]
        exact hlow (k + 1) (Nat.succ_lt_succ hk)) i
      rw [Nat.testBit_and, Nat.testBit_succ, Nat.testBit_succ, hhalf, ← Nat.testBit_and, hrest]
      simp

/-- The next mask of the walk. -/
theorem getLsbD_and_sub_one {mask : BitVec w} (h : mask ≠ 0#w) (i : Nat) :
    (mask &&& (mask - 1#w)).getLsbD i = (mask.getLsbD i && decide (i ≠ mask.ctz.toNat)) := by
  have hpos : 1 ≤ mask.toNat := Nat.pos_of_ne_zero fun h0 => h (BitVec.eq_of_toNat_eq h0)
  have hlt := mask.isLt
  have hsub : (mask - 1#w).toNat = mask.toNat - 1 := by
    have hone : 1 % 2 ^ w = 1 := Nat.mod_eq_of_lt (by omega)
    rw [BitVec.toNat_sub, BitVec.toNat_ofNat, hone]
    rw [show 2 ^ w - 1 + mask.toNat = 2 ^ w + (mask.toNat - 1) by omega, Nat.add_mod_left]
    exact Nat.mod_eq_of_lt (by omega)
  have hbit := BitVec.getLsbD_true_ctz_of_ne_zero h
  have hlow : ∀ k < mask.ctz.toNat, mask.getLsbD k = false :=
    fun k hk => BitVec.getLsbD_false_of_lt_ctz hk
  have hclear := testBit_and_sub_one (m := mask.toNat) hbit hlow i
  rw [← hsub, ← BitVec.toNat_and] at hclear
  exact hclear

/-! ## §2. Walks over a mask. -/

/-- The walk from the lowest bit up; `error` is an early return. -/
def maskLoop (stop : σ → Bool) (step : σ → Nat → σ) (mask : BitVec w) (s : σ) : Except σ σ :=
  if mask = 0#w then .ok s
  else
    let s := step s mask.ctz.toNat
    if stop s then .error s else maskLoop stop step (mask &&& (mask - 1#w)) s
  termination_by mask.toNat
  decreasing_by
    rename_i h _
    have hbit := BitVec.getLsbD_true_ctz_of_ne_zero h
    refine Nat.lt_of_le_of_ne ?_ fun heq => ?_
    · rw [BitVec.toNat_and]
      exact Nat.and_le_left
    · have hsame := getLsbD_and_sub_one h mask.ctz.toNat
      rw [BitVec.eq_of_toNat_eq heq, hbit] at hsame
      simp at hsame

/-- The state, returned early or not. -/
def settle : Except σ σ → σ
  | .ok s => s
  | .error s => s

/-- The set bits, in order. -/
def setBits (mask : BitVec w) : List Nat := (List.range w).filter fun c => mask.getLsbD c

theorem setBits_zero : setBits (0#w) = [] := by
  rw [setBits, List.filter_eq_nil_iff]
  intro c _
  simp

/-- The lowest bit, and those of the next mask. -/
theorem setBits_of_ne_zero {mask : BitVec w} (h : mask ≠ 0#w) :
    setBits mask = mask.ctz.toNat :: setBits (mask &&& (mask - 1#w)) := by
  have hbit := BitVec.getLsbD_true_ctz_of_ne_zero h
  have hw : mask.ctz.toNat < w := BitVec.lt_of_getLsbD hbit
  obtain ⟨c, hc⟩ : ∃ c, mask.ctz.toNat = c := ⟨_, rfl⟩
  rw [hc] at hbit hw ⊢
  -- what comes before the lowest bit is clear in both masks
  have hsplit : List.range w = List.range c ++ c :: List.range' (c + 1) (w - c - 1) := by
    rw [List.range_eq_range', List.range_eq_range',
      show w = c + (w - c - 1 + 1) by omega, ← List.range'_append_1, List.range'_succ]
    simp
  have hbefore : ∀ m : BitVec w, (∀ k < c, m.getLsbD k = false) →
      (List.range c).filter (fun k => m.getLsbD k) = [] := by
    intro m hm
    rw [List.filter_eq_nil_iff]
    intro k hk
    rw [hm k (List.mem_range.mp hk)]
    simp
  have hnext := getLsbD_and_sub_one h
  rw [hc] at hnext
  have hlow : ∀ k < c, mask.getLsbD k = false :=
    fun k hk => BitVec.getLsbD_false_of_lt_ctz (hc ▸ hk)
  rw [setBits, setBits, hsplit, List.filter_append, List.filter_append, hbefore mask hlow,
    hbefore _ (fun k hk => by rw [hnext, hlow k hk, Bool.false_and]), List.nil_append,
    List.nil_append, List.filter_cons_of_pos (p := fun k => mask.getLsbD k) hbit,
    List.filter_cons_of_neg (p := fun k => (mask &&& (mask - 1#w)).getLsbD k) (by
      rw [hnext]
      simp)]
  congr 1
  refine List.filter_congr fun k hk => ?_
  have hne : k ≠ c := by
    have hge := List.mem_range'_1.mp hk
    omega
  rw [hnext, decide_eq_true hne, Bool.and_true]

section Scan

variable {stop : σ → Bool} {step : σ → Nat → σ}

/-- A state that nothing changes is the outcome of every scan from it. -/
theorem foldl_of_stop (hstop : ∀ s i, stop s = true → step s i = s) {s : σ} (h : stop s = true) :
    ∀ l : List Nat, l.foldl step s = s := by
  intro l
  induction l with
  | nil => rfl
  | cons i l ih =>
    rw [List.foldl_cons, hstop s i h]
    exact ih

/-- **The walk over a mask** is the fold over its set bits. -/
theorem maskLoop_eq (hstop : ∀ s i, stop s = true → step s i = s) (mask : BitVec w) (s : σ) :
    settle (maskLoop stop step mask s) = (setBits mask).foldl step s ∧
      ∀ s', maskLoop stop step mask s = .error s' → stop s' = true := by
  fun_induction maskLoop stop step mask s with
  | case1 s =>
    refine ⟨?_, fun s' h => absurd h (by simp)⟩
    rw [setBits_zero]
    rfl
  | case2 mask s h s₁ hs =>
    refine ⟨?_, fun s' he => ?_⟩
    · rw [setBits_of_ne_zero h, List.foldl_cons, foldl_of_stop hstop hs]
      rfl
    · rwa [← Except.error.inj he]
  | case3 mask s h s₁ hs ih =>
    rw [setBits_of_ne_zero h, List.foldl_cons]
    exact ih

/-- The walk asks for lanes only. -/
theorem maskLoop_congr {step' : σ → Nat → σ} (h : ∀ s c, c < w → step s c = step' s c)
    (mask : BitVec w) (s : σ) : maskLoop stop step mask s = maskLoop stop step' mask s := by
  fun_induction maskLoop stop step mask s with
  | case1 s => rw [maskLoop, if_pos rfl]
  | case2 mask s hm s₁ hs =>
    have hc : mask.ctz.toNat < w := BitVec.lt_of_getLsbD (BitVec.getLsbD_true_ctz_of_ne_zero hm)
    rw [maskLoop, if_neg hm, ← h s _ hc]
    exact (if_pos hs).symm
  | case3 mask s hm s₁ hs ih =>
    have hc : mask.ctz.toNat < w := BitVec.lt_of_getLsbD (BitVec.getLsbD_true_ctz_of_ne_zero hm)
    rw [ih, maskLoop.eq_def stop step' mask, if_neg hm, ← h s _ hc]
    exact (if_neg hs).symm

/-! ## §3. Plain scans and scans in blocks. -/

/-- The positions from `i` to `last`, one by one. -/
def rangeLoop (stop : σ → Bool) (step : σ → Nat → σ) (last i : Nat) (s : σ) : σ :=
  if i ≤ last then
    let s := step s i
    if stop s then s else rangeLoop stop step last (i + 1) s
  else s
  termination_by last + 1 - i

/-- **The plain scan** is the fold over all positions. -/
theorem rangeLoop_eq (hstop : ∀ s i, stop s = true → step s i = s) (last i : Nat) (s : σ) :
    rangeLoop stop step last i s = (List.range' i (last + 1 - i)).foldl step s := by
  fun_induction rangeLoop stop step last i s with
  | case1 i s h s₁ hs =>
    rw [show last + 1 - i = last - i + 1 by omega, List.range'_succ, List.foldl_cons]
    exact (foldl_of_stop hstop hs _).symm
  | case2 i s h s₁ hs ih =>
    rw [ih, show last + 1 - i = last + 1 - (i + 1) + 1 by omega, List.range'_succ, List.foldl_cons]
  | case3 i s h =>
    rw [show last + 1 - i = 0 by omega]
    rfl

/-- Blocks of `w` positions as long as `reach` more bytes are there; then the
tail. -/
def blockScan [NeZero w] (stop : σ → Bool) (reach len : Nat) (mask : Nat → BitVec w)
    (hit : Nat → σ → Nat → σ) (tail : Nat → σ → σ) (i : Nat) (s : σ) : σ :=
  if i + reach ≤ len then
    match maskLoop stop (hit i) (mask i) s with
    | .error s => s
    | .ok s => blockScan stop reach len mask hit tail (i + w) s
  else tail i s
  termination_by len + 1 - (i + reach)
  decreasing_by
    have hw := Nat.pos_of_ne_zero (NeZero.ne w)
    omega

/-- Positions that change nothing may be left out. -/
theorem foldl_filter_of_skip {keep : Nat → Bool} :
    ∀ (l : List Nat) (s : σ), (∀ s, ∀ i ∈ l, keep i = false → step s i = s) →
    (l.filter keep).foldl step s = l.foldl step s := by
  intro l
  induction l with
  | nil => exact fun s _ => rfl
  | cons i l ih =>
    intro s hskip
    have hrest := fun s => ih s fun s j hj => hskip s j (List.mem_cons_of_mem i hj)
    cases hk : keep i with
    | true => rw [List.filter_cons_of_pos hk, List.foldl_cons, List.foldl_cons, hrest]
    | false =>
      rw [List.filter_cons_of_neg (by rw [hk]; simp), List.foldl_cons,
        hskip s i List.mem_cons_self hk, hrest]

/-- **The scan in blocks** is the fold over all positions: a lane is looked at
as its position is, and the lanes left out change nothing. -/
theorem blockScan_eq [NeZero w] {past len : Nat} {mask : Nat → BitVec w} {hit : Nat → σ → Nat → σ}
    {tail : Nat → σ → σ} (hstop : ∀ s i, stop s = true → step s i = s)
    (hhit : ∀ i s c, c < w → hit i s c = step s (i + c))
    (hskip : ∀ i s c, c < w → (mask i).getLsbD c = false → step s (i + c) = s)
    (htail : ∀ i s, tail i s = (List.range' i (len - past - i)).foldl step s) (i : Nat) (s : σ) :
    blockScan stop (w + past) len mask hit tail i s
      = (List.range' i (len - past - i)).foldl step s := by
  have hwalk : ∀ i s, maskLoop stop (hit i) (mask i) s
      = maskLoop stop (fun s c => step s (i + c)) (mask i) s :=
    fun i s => maskLoop_congr (hhit i) (mask i) s
  -- a block is the fold over its positions
  have hblock : ∀ i s, (setBits (mask i)).foldl (fun s c => step s (i + c)) s
      = (List.range' i w).foldl step s := by
    intro i s
    rw [setBits, foldl_filter_of_skip _ _ fun s c hc hk => hskip i s c (List.mem_range.mp hc) hk,
      List.range'_eq_map_range, List.foldl_map]
  fun_induction blockScan stop (w + past) len mask hit tail i s with
  | case1 i s h s' hloop =>
    obtain ⟨hvalue, herror⟩ := maskLoop_eq (fun s c => hstop s (i + c)) (mask i) s
    rw [hwalk] at hloop
    rw [hloop, hblock] at hvalue
    rw [show len - past - i = w + (len - past - (i + w)) by omega, ← List.range'_append_1,
      List.foldl_append, ← hvalue]
    exact (foldl_of_stop hstop (herror s' hloop) _).symm
  | case2 i s h s' hloop ih =>
    obtain ⟨hvalue, -⟩ := maskLoop_eq (fun s c => hstop s (i + c)) (mask i) s
    rw [hwalk] at hloop
    rw [hloop, hblock] at hvalue
    rw [ih, show len - past - i = w + (len - past - (i + w)) by omega, ← List.range'_append_1,
      List.foldl_append, ← hvalue]
    rfl
  | case3 i s h => exact htail i s

end Scan

end ShredArb.Lanes
