/-
  ShredArb.Univ.Adjacency — the three passes over the pools.

  After counting, offsets and filling, the slice of the edge array that belongs
  to a mint is the list of the pool sides with that mint, in pool order
  (`sidesOf`); a mint with no slot has no side.  This is `Adjacent`, the only
  thing the search needs to know about the table, and every later `mint_put`
  keeps it.

  Main results:
    * `passes_adjacent` — the passes establish it,
    * `Adjacent.put` — `mint_put` keeps it and finds the sides of its mint.
-/
import ShredArb.Univ.Kernel
import Mathlib.Data.List.Count
import Mathlib.Data.List.Infix

namespace ShredArb.Univ

open ShredArb.Probe ShredArb.Buckets

/-! ## §1. The sides of the admitted pools. -/

/-- The sides of a pool that the mask admits, each with its mint. -/
def poolSides (mask : UInt32) (p : PoolMeta × Nat) : List (Mint × Edge) :=
  if allowed p.1.protocol mask then [(p.1.mintX, ⟨p.2, 0⟩), (p.1.mintY, ⟨p.2, 1⟩)] else []

/-- All admitted sides, in pool order. -/
def allSides (mask : UInt32) (pools : List PoolMeta) : List (Mint × Edge) :=
  pools.zipIdx.flatMap (poolSides mask)

/-- The admitted sides with a mint. -/
def sidesOf (mask : UInt32) (pools : List PoolMeta) (m : Mint) : List Edge :=
  ((allSides mask pools).filter fun s => s.1 = m).map (·.2)

/-- A pool has two different mints, so no mint has more sides than there are
pools. -/
theorem count_poolSides_le (mask : UInt32) (p : PoolMeta × Nat) (m : Mint) :
    ((poolSides mask p).map (·.1)).count m ≤ 1 := by
  unfold poolSides
  split
  · have hd := p.1.distinct
    simp only [List.map_cons, List.map_nil, List.count_cons, List.count_nil]
    by_cases hx : p.1.mintX = m
    · have hy : p.1.mintY ≠ m := fun hy => hd (hx.trans hy.symm)
      simp [hx, hy]
    · simp only [beq_iff_eq, hx, if_false]
      split <;> omega
  · simp

theorem count_flatMap_poolSides_le (mask : UInt32) (m : Mint) (ps : List (PoolMeta × Nat)) :
    ((ps.flatMap (poolSides mask)).map (·.1)).count m ≤ ps.length := by
  induction ps with
  | nil => simp
  | cons p ps ih =>
    rw [List.flatMap_cons, List.map_append, List.count_append, List.length_cons]
    have := count_poolSides_le mask p m
    omega

/-! ## §2. The mint table. -/

abbrev keyOf (tab : List MintSlot) (j : Nat) : Option Mint := keyAt MintSlot.key tab j

/-- Where the search for a mint ends. -/
def mintFind (tab : List MintSlot) (m : Mint) : Option Nat :=
  probe MintSlot.key tab m mintTab ((mintHash m).toNat % mintTab)

/-- Every stored mint is where its search ends; free slots are zero. -/
structure TabOk (tab : List MintSlot) : Prop where
  length_eq : tab.length = mintTab
  found : ∀ j m, keyOf tab j = some m → mintFind tab m = some j
  free : ∀ j, keyOf tab j = none → cntAt tab j = 0

theorem TabOk.unique {tab : List MintSlot} (h : TabOk tab) {i j : Nat} {m : Mint}
    (hi : keyOf tab i = some m) (hj : keyOf tab j = some m) : i = j :=
  Option.some.inj ((h.found i m hi).symm.trans (h.found j m hj))

/-- A table with the same keys finds the same slots. -/
theorem mintFind_congr {tab tab' : List MintSlot} (hlen : tab'.length = tab.length)
    (hkey : ∀ j, keyOf tab' j = keyOf tab j) {m : Mint} {j : Nat}
    (h : mintFind tab m = some j) : mintFind tab' m = some j := by
  refine probe_stable hlen (fun i k hk => by rw [← hk]; exact hkey i) h ?_
  rw [show keyAt MintSlot.key tab' j = keyAt MintSlot.key tab j from hkey j]
  exact keyAt_of_probe h

theorem emptyTab_ok : TabOk emptyTab where
  length_eq := List.length_replicate
  found := by
    intro j m h
    have hfree : keyOf emptyTab j = none := by
      unfold keyOf keyAt emptyTab
      rw [List.getElem?_replicate]
      split <;> rfl
    exact absurd h (by rw [hfree]; simp)
  free := by
    intro j _
    unfold cntAt emptyTab
    rw [List.getElem?_replicate]
    split <;> rfl

theorem mintPut_eq_some {tab tab' : List MintSlot} {m : Mint} {j : Nat} :
    mintPut tab m = some (tab', j) ↔ mintFind tab m = some j ∧
      tab' = if (keyOf tab j).isSome then tab else tab.set j ⟨m, 0, 0, true⟩ := by
  rw [mintPut, Option.map_eq_some_iff]
  constructor
  · rintro ⟨i, hi, heq⟩
    rw [Prod.mk.injEq] at heq
    obtain ⟨h1, rfl⟩ := heq
    exact ⟨hi, h1.symm⟩
  · rintro ⟨hj, rfl⟩
    exact ⟨j, hj, rfl⟩

/-- A stored mint: `mint_put` finds it and changes nothing. -/
theorem mintPut_of_key {tab : List MintSlot} (h : TabOk tab) {j : Nat} {m : Mint}
    (hj : keyOf tab j = some m) : mintPut tab m = some (tab, j) := by
  rw [mintPut_eq_some]
  refine ⟨h.found j m hj, ?_⟩
  rw [hj]
  rfl

/-- What `mint_put` does: the mint is at `j` afterwards, and every other slot
is as it was; a slot it took was free. -/
theorem mintPut_spec {tab tab' : List MintSlot} (h : TabOk tab) {m : Mint} {j : Nat}
    (hput : mintPut tab m = some (tab', j)) :
    TabOk tab' ∧ keyOf tab' j = some m ∧ (∀ i, i ≠ j → tab'[i]? = tab[i]?) ∧
      (tab' = tab ∨ (keyOf tab j = none ∧ cntAt tab' j = 0)) := by
  obtain ⟨hfind, htab⟩ := mintPut_eq_some.mp hput
  have hlt : j < tab.length := by
    refine probe_lt ?_ hfind
    rw [h.length_eq]
    exact Nat.mod_lt _ (by decide)
  rcases keyAt_of_probe hfind with hfree | hkey
  · -- a free slot: the mint is written there
    rw [show keyOf tab j = none from hfree] at htab
    simp only [Option.isSome_none, Bool.false_eq_true, if_false] at htab
    subst htab
    have hself : (tab.set j ⟨m, 0, 0, true⟩)[j]? = some ⟨m, 0, 0, true⟩ :=
      List.getElem?_set_self hlt
    have hother : ∀ i, i ≠ j → (tab.set j ⟨m, 0, 0, true⟩)[i]? = tab[i]? :=
      fun i hi => List.getElem?_set_ne (Ne.symm hi)
    have hkeyj : keyOf (tab.set j ⟨m, 0, 0, true⟩) j = some m := by
      unfold keyOf keyAt
      rw [hself]
      rfl
    have hkeyi : ∀ i, i ≠ j → keyOf (tab.set j ⟨m, 0, 0, true⟩) i = keyOf tab i := by
      intro i hi
      unfold keyOf keyAt
      rw [hother i hi]
    have hcntj : cntAt (tab.set j ⟨m, 0, 0, true⟩) j = 0 := by
      unfold cntAt
      rw [hself]
      rfl
    have hkeep : ∀ i k, keyAt MintSlot.key tab i = some k →
        keyAt MintSlot.key (tab.set j ⟨m, 0, 0, true⟩) i = some k := by
      intro i k hk
      have hi : i ≠ j := by
        rintro rfl
        exact absurd hk (by rw [hfree]; simp)
      exact (hkeyi i hi).trans hk
    refine ⟨⟨?_, ?_, ?_⟩, hkeyj, hother, Or.inr ⟨hfree, hcntj⟩⟩
    · rw [List.length_set]
      exact h.length_eq
    · intro i m' hi
      by_cases hij : i = j
      · subst hij
        have hm : m = m' := Option.some.inj (hkeyj.symm.trans hi)
        subst hm
        exact probe_stable List.length_set hkeep hfind (Or.inr hi)
      · have hold : keyOf tab i = some m' := (hkeyi i hij).symm.trans hi
        exact probe_stable List.length_set hkeep (h.found i m' hold) (Or.inr hi)
    · intro i hi
      have hij : i ≠ j := by
        rintro rfl
        exact absurd hi (by rw [hkeyj]; simp)
      have hold := h.free i ((hkeyi i hij).symm.trans hi)
      unfold cntAt at hold ⊢
      rw [hother i hij]
      exact hold
  · rw [show keyOf tab j = some m from hkey] at htab
    simp only [Option.isSome_some, if_true] at htab
    subst htab
    exact ⟨h, hkey, fun _ _ => rfl, Or.inl rfl⟩

theorem keyOf_of_getElem? {tab tab' : List MintSlot} {i : Nat} (h : tab'[i]? = tab[i]?) :
    keyOf tab' i = keyOf tab i := by
  unfold keyOf keyAt
  rw [h]

theorem mintPut_keeps {tab tab' : List MintSlot} (h : TabOk tab) {m : Mint} {j : Nat}
    (hput : mintPut tab m = some (tab', j)) {i : Nat} {k : Mint} (hi : keyOf tab i = some k) :
    keyOf tab' i = some k ∧ tab'[i]? = tab[i]? := by
  obtain ⟨-, -, hother, hcase⟩ := mintPut_spec h hput
  rcases hcase with rfl | ⟨hfree, -⟩
  · exact ⟨hi, rfl⟩
  · have hij : i ≠ j := by
      rintro rfl
      exact absurd hi (by rw [hfree]; simp)
    exact ⟨(keyOf_of_getElem? (hother i hij)).trans hi, hother i hij⟩

theorem keyOf_isNone_of_mintPut_none {tab : List MintSlot} (h : TabOk tab) {m : Mint}
    (hput : mintPut tab m = none) (j : Nat) : keyOf tab j ≠ some m := by
  intro hj
  rw [mintPut_of_key h hj] at hput
  exact absurd hput (by simp)

theorem cntAt_mintPut {tab tab' : List MintSlot} (h : TabOk tab) {m : Mint} {j : Nat}
    (hput : mintPut tab m = some (tab', j)) (i : Nat) : cntAt tab' i = cntAt tab i := by
  obtain ⟨-, -, hother, hcase⟩ := mintPut_spec h hput
  rcases hcase with rfl | ⟨hfree, hzero⟩
  · rfl
  · by_cases hij : i = j
    · subst hij
      rw [hzero, h.free i hfree]
    · unfold cntAt
      rw [hother i hij]

/-! ## §3. Counting one side. -/

theorem getElem?_bumpN (tab : List MintSlot) (j i : Nat) :
    (bumpN tab j)[i]? = (tab[i]?).map fun s => if j = i then { s with n := s.n + 1 } else s := by
  rw [bumpN, List.getElem?_modify]
  rfl

theorem keyOf_bumpN (tab : List MintSlot) (j i : Nat) : keyOf (bumpN tab j) i = keyOf tab i := by
  unfold keyOf keyAt
  rw [getElem?_bumpN]
  cases tab[i]? with
  | none => rfl
  | some s =>
    simp only [Option.map_some, Option.bind_some]
    split <;> rfl

theorem offAt_bumpN (tab : List MintSlot) (j i : Nat) : offAt (bumpN tab j) i = offAt tab i := by
  unfold offAt
  rw [getElem?_bumpN]
  cases tab[i]? with
  | none => rfl
  | some s =>
    simp only [Option.map_some, Option.getD_some]
    split <;> rfl

theorem cntAt_bumpN_ne {tab : List MintSlot} {j i : Nat} (h : j ≠ i) :
    cntAt (bumpN tab j) i = cntAt tab i := by
  unfold cntAt
  rw [getElem?_bumpN]
  simp [h]

theorem cntAt_bumpN_self {tab : List MintSlot} {j : Nat} (hj : j < tab.length)
    (hn : cntAt tab j < 65535) : cntAt (bumpN tab j) j = cntAt tab j + 1 := by
  unfold cntAt at hn ⊢
  rw [getElem?_bumpN]
  rw [List.getElem?_eq_getElem hj] at hn ⊢
  simp only [Option.map_some, Option.getD_some, if_true] at hn ⊢
  rw [UInt16.toNat_add]
  simp only [UInt16.toNat_ofNat, Nat.reducePow, Nat.reduceMod] at hn ⊢
  omega

theorem lt_of_keyOf {tab : List MintSlot} {j : Nat} {m : Mint} (h : keyOf tab j = some m) :
    j < tab.length := by
  by_contra hge
  unfold keyOf keyAt at h
  rw [List.getElem?_eq_none (by omega)] at h
  exact absurd h (by simp)

theorem TabOk.bumpN {tab : List MintSlot} (h : TabOk tab) {j : Nat} {m : Mint}
    (hj : keyOf tab j = some m) : TabOk (bumpN tab j) where
  length_eq := by
    rw [Univ.bumpN, List.length_modify]
    exact h.length_eq
  found := by
    intro i k hi
    rw [keyOf_bumpN] at hi
    exact mintFind_congr (by rw [Univ.bumpN, List.length_modify]) (keyOf_bumpN tab j)
      (h.found i k hi)
  free := by
    intro i hi
    rw [keyOf_bumpN] at hi
    have hji : j ≠ i := by
      rintro rfl
      exact absurd hi (by rw [hj]; simp)
    rw [cntAt_bumpN_ne hji]
    exact h.free i hi

/-! ## §4. The counting pass. -/

/-- The mints of the sides in `D` are stored, and each slot counts its own. -/
structure Counted (tab : List MintSlot) (D : List Mint) : Prop where
  ok : TabOk tab
  stored : ∀ m ∈ D, ∃ j, keyOf tab j = some m
  count : ∀ j m, keyOf tab j = some m → cntAt tab j = D.count m

theorem Counted.put {tab tab' : List MintSlot} {D : List Mint} (h : Counted tab D) {m : Mint}
    {j : Nat} (hput : mintPut tab m = some (tab', j)) : Counted tab' D := by
  obtain ⟨hok, hkeyj, hother, hcase⟩ := mintPut_spec h.ok hput
  refine ⟨hok, ?_, ?_⟩
  · intro k hk
    obtain ⟨i, hi⟩ := h.stored k hk
    exact ⟨i, (mintPut_keeps h.ok hput hi).1⟩
  · intro i k hi
    rw [cntAt_mintPut h.ok hput]
    rcases hcase with rfl | ⟨hfree, -⟩
    · exact h.count i k hi
    · by_cases hij : i = j
      · -- a slot just taken: its mint was stored nowhere, so it is not in `D`
        subst hij
        have hmk : m = k := Option.some.inj (hkeyj.symm.trans hi)
        subst hmk
        have hnot : m ∉ D := by
          intro hm
          obtain ⟨l, hl⟩ := h.stored m hm
          have hli : l = i := hok.unique (mintPut_keeps h.ok hput hl).1 hkeyj
          subst hli
          exact absurd hl (by rw [hfree]; simp)
        rw [h.ok.free i hfree, List.count_eq_zero_of_not_mem hnot]
      · exact h.count i k ((keyOf_of_getElem? (hother i hij)).symm.trans hi)

theorem Counted.bump {tab : List MintSlot} {D : List Mint} (h : Counted tab D) {m : Mint}
    {j : Nat} (hj : keyOf tab j = some m) (hm : D.count m < 65535) :
    Counted (bumpN tab j) (D ++ [m]) where
  ok := h.ok.bumpN hj
  stored := by
    intro k hk
    rw [List.mem_append, List.mem_singleton] at hk
    rcases hk with hk | rfl
    · obtain ⟨i, hi⟩ := h.stored k hk
      exact ⟨i, (keyOf_bumpN tab j i).trans hi⟩
    · exact ⟨j, (keyOf_bumpN tab j j).trans hj⟩
  count := by
    intro i k hi
    rw [keyOf_bumpN] at hi
    rw [List.count_append]
    by_cases hij : j = i
    · subst hij
      have hmk : m = k := Option.some.inj (hj.symm.trans hi)
      subst hmk
      rw [cntAt_bumpN_self (lt_of_keyOf hj) (by rw [h.count j m hj]; exact hm), h.count j m hj,
        List.count_singleton_self]
    · have hmk : m ≠ k := by
        rintro rfl
        exact hij (h.ok.unique hj hi)
      rw [cntAt_bumpN_ne hij, h.count i k hi, List.count_singleton]
      simp [hmk]

/-- The mints of the admitted sides of a pool. -/
def sideMints (mask : UInt32) (p : PoolMeta) : List Mint :=
  if allowed p.protocol mask then [p.mintX, p.mintY] else []

theorem map_fst_poolSides (mask : UInt32) (p : PoolMeta × Nat) :
    (poolSides mask p).map (·.1) = sideMints mask p.1 := by
  unfold poolSides sideMints
  split <;> rfl

theorem map_fst_allSides (mask : UInt32) (pools : List PoolMeta) :
    (allSides mask pools).map (·.1) = pools.flatMap (sideMints mask) := by
  rw [allSides, List.map_flatMap]
  simp only [map_fst_poolSides]
  rw [← List.flatMap_map, List.zipIdx_map_fst]

theorem countPool_counted {mask : UInt32} {tab tab' : List MintSlot} {D : List Mint}
    {p : PoolMeta} (h : Counted tab D)
    (hfit : ∀ m, (D ++ sideMints mask p).count m ≤ 65535)
    (hstep : countPool mask tab p = some tab') : Counted tab' (D ++ sideMints mask p) := by
  unfold countPool at hstep
  unfold sideMints at hfit ⊢
  by_cases hal : allowed p.protocol mask = true
  · rw [hal] at hstep
    simp only [Bool.not_true, Bool.false_eq_true, if_false, Option.bind_eq_some_iff,
      Option.map_eq_some_iff] at hstep
    obtain ⟨⟨tab1, ix⟩, hx, ⟨tab2, iy⟩, hy, rfl⟩ := hstep
    simp only [if_pos hal] at hfit ⊢
    have h1 := h.put hx
    have h2 := h1.put hy
    have hkx : keyOf tab2 ix = some p.mintX :=
      (mintPut_keeps h1.ok hy (mintPut_spec h.ok hx).2.1).1
    have hky : keyOf tab2 iy = some p.mintY := (mintPut_spec h1.ok hy).2.1
    have hcx : D.count p.mintX < 65535 := by
      have := hfit p.mintX
      simp only [List.count_append, List.count_cons_self] at this
      omega
    have hcy : (D ++ [p.mintX]).count p.mintY < 65535 := by
      have := hfit p.mintY
      rw [List.append_cons, List.count_append, List.count_singleton_self] at this
      omega
    have h3 := (h2.bump hkx hcx).bump ((keyOf_bumpN tab2 ix iy).trans hky) hcy
    rw [List.append_assoc] at h3
    exact h3
  · rw [if_pos (by simpa using hal)] at hstep
    rw [← Option.some.inj hstep, if_neg hal, List.append_nil]
    exact h

theorem countPass_counted {mask : UInt32} : ∀ (ps : List PoolMeta) {tab tab' : List MintSlot}
    {D : List Mint}, Counted tab D →
    (∀ m, (D ++ ps.flatMap (sideMints mask)).count m ≤ 65535) →
    ps.foldlM (countPool mask) tab = some tab' →
    Counted tab' (D ++ ps.flatMap (sideMints mask)) := by
  intro ps
  induction ps with
  | nil =>
    intro tab tab' D h _ hrun
    rw [List.foldlM_nil] at hrun
    rw [← Option.some.inj hrun, List.flatMap_nil, List.append_nil]
    exact h
  | cons p ps ih =>
    intro tab tab' D h hfit hrun
    rw [List.foldlM_cons] at hrun
    obtain ⟨tab1, hstep, hrun⟩ := Option.bind_eq_some_iff.mp hrun
    rw [List.flatMap_cons, ← List.append_assoc] at hfit ⊢
    have hp : ∀ m, (D ++ sideMints mask p).count m ≤ 65535 := by
      intro m
      have := hfit m
      rw [List.count_append] at this
      omega
    exact ih (countPool_counted h hp hstep) hfit hrun

/-! ## §5. The offset pass. -/

/-- What the offset loop reads at a slot. -/
def usedCnt (tab : List MintSlot) (j : Nat) : Nat :=
  ((tab[j]?).map fun s => if s.used then s.n.toNat else 0).getD 0

theorem usedCnt_eq_cntAt {tab : List MintSlot} (h : TabOk tab) (j : Nat) :
    usedCnt tab j = cntAt tab j := by
  have hfree := h.free j
  unfold usedCnt
  unfold keyOf keyAt cntAt at hfree
  unfold cntAt
  cases hs : tab[j]? with
  | none => rfl
  | some s =>
    rw [hs] at hfree
    simp only [Option.map_some, Option.getD_some, Option.bind_some] at hfree ⊢
    by_cases hu : s.used = true
    · rw [if_pos hu]
    · rw [if_neg hu]
      exact (hfree (by rw [MintSlot.key, if_neg hu])).symm

theorem assignOffsets_getElem? : ∀ (ss : List MintSlot) (off j : Nat),
    (assignOffsets ss off).1[j]? = (ss[j]?).map fun s =>
      if s.used then { s with off := off + prefixSum (usedCnt ss) j, n := 0 } else s := by
  intro ss
  induction ss with
  | nil => intro off j; rfl
  | cons s ss ih =>
    intro off j
    -- the head's own count is what moves the start of the rest
    have htail : ∀ j, usedCnt (s :: ss) (j + 1) = usedCnt ss j := fun _ => rfl
    have hhead : usedCnt (s :: ss) 0 = if s.used then s.n.toNat else 0 := rfl
    unfold assignOffsets
    by_cases hu : s.used = true
    · rw [if_pos hu]
      cases j with
      | zero => simp [hu, prefixSum]
      | succ j =>
        simp only [List.getElem?_cons_succ]
        rw [ih, prefixSum_succ_shift, prefixSum_congr htail, hhead, if_pos hu, Nat.add_assoc]
    · rw [if_neg hu]
      cases j with
      | zero => simp [hu]
      | succ j =>
        simp only [List.getElem?_cons_succ]
        rw [ih, prefixSum_succ_shift, prefixSum_congr htail, hhead, if_neg hu, Nat.zero_add]

theorem assignOffsets_total : ∀ (ss : List MintSlot) (off : Nat),
    (assignOffsets ss off).2 = off + prefixSum (usedCnt ss) ss.length ∧
      (assignOffsets ss off).1.length = ss.length := by
  intro ss
  induction ss with
  | nil => intro off; exact ⟨rfl, rfl⟩
  | cons s ss ih =>
    intro off
    have htail : ∀ j, usedCnt (s :: ss) (j + 1) = usedCnt ss j := fun _ => rfl
    have hhead : usedCnt (s :: ss) 0 = if s.used then s.n.toNat else 0 := rfl
    unfold assignOffsets
    rw [List.length_cons, prefixSum_succ_shift, prefixSum_congr htail, hhead]
    by_cases hu : s.used = true
    · rw [if_pos hu, if_pos hu]
      simp only [List.length_cons]
      rw [(ih _).1, (ih _).2, Nat.add_assoc]
      exact ⟨rfl, rfl⟩
    · rw [if_neg hu, if_neg hu]
      simp only [List.length_cons]
      rw [(ih _).1, (ih _).2, Nat.zero_add]
      exact ⟨rfl, rfl⟩

section OffsetPass

variable {tab : List MintSlot} (h : TabOk tab)

theorem keyOf_assignOffsets (tab : List MintSlot) (j : Nat) :
    keyOf (assignOffsets tab 0).1 j = keyOf tab j := by
  unfold keyOf keyAt
  rw [assignOffsets_getElem?]
  cases tab[j]? with
  | none => rfl
  | some s =>
    simp only [Option.map_some, Option.bind_some]
    split <;> rfl

include h in
theorem cntAt_assignOffsets (j : Nat) : cntAt (assignOffsets tab 0).1 j = 0 := by
  have hfree := h.free j
  unfold keyOf keyAt cntAt at hfree
  unfold cntAt
  rw [assignOffsets_getElem?]
  cases hs : tab[j]? with
  | none => rfl
  | some s =>
    rw [hs] at hfree
    simp only [Option.map_some, Option.getD_some, Option.bind_some] at hfree ⊢
    by_cases hu : s.used = true
    · rw [if_pos hu]
      rfl
    · rw [if_neg hu]
      exact hfree (by rw [MintSlot.key, if_neg hu])

include h in
theorem offAt_assignOffsets {j : Nat} {m : Mint} (hj : keyOf tab j = some m) :
    offAt (assignOffsets tab 0).1 j = prefixSum (cntAt tab) j := by
  unfold keyOf keyAt at hj
  unfold offAt
  rw [assignOffsets_getElem?]
  cases hs : tab[j]? with
  | none =>
    rw [hs] at hj
    exact absurd hj (by simp)
  | some s =>
    rw [hs, Option.bind_some, MintSlot.key] at hj
    have hu : s.used = true := by
      by_contra hu
      rw [if_neg hu] at hj
      exact absurd hj (by simp)
    simp only [Option.map_some, Option.getD_some, if_pos hu, Nat.zero_add]
    exact prefixSum_congr (usedCnt_eq_cntAt h) j

include h in
theorem assignOffsets_ok : TabOk (assignOffsets tab 0).1 where
  length_eq := ((assignOffsets_total tab 0).2).trans h.length_eq
  found := by
    intro j m hj
    rw [keyOf_assignOffsets] at hj
    exact mintFind_congr (assignOffsets_total tab 0).2 (keyOf_assignOffsets tab)
      (h.found j m hj)
  free := fun j _ => cntAt_assignOffsets h j

end OffsetPass

/-! ## §6. The filling pass. -/

/-- The slot of a mint, 0 for a mint that has none. -/
def slotOf (tab : List MintSlot) (m : Mint) : Nat := (mintFind tab m).getD 0

/-- A side as an item of the bucket of its mint. -/
def sideItem (tab : List MintSlot) (s : Mint × Edge) : Nat × Edge := (slotOf tab s.1, s.2)

theorem slotOf_eq_iff {tab : List MintSlot} (h : TabOk tab) {m k : Mint} {j : Nat}
    (hk : ∃ i, keyOf tab i = some k) (hj : keyOf tab j = some m) :
    slotOf tab k = j ↔ k = m := by
  obtain ⟨i, hi⟩ := hk
  have hslot : slotOf tab k = i := by
    rw [slotOf, h.found i k hi]
    rfl
  rw [hslot]
  constructor
  · rintro rfl
    exact Option.some.inj (hi.symm.trans hj)
  · rintro rfl
    exact h.unique hi hj

/-- The bucket of a stored mint holds the sides with that mint. -/
theorem bucketOf_sideItem {tab : List MintSlot} (h : TabOk tab) {m : Mint} {j : Nat}
    (hj : keyOf tab j = some m) : ∀ {l : List (Mint × Edge)},
    (∀ s ∈ l, ∃ i, keyOf tab i = some s.1) →
    bucketOf (l.map (sideItem tab)) j = (l.filter fun s => s.1 = m).map (·.2) := by
  intro l hl
  rw [bucketOf, List.filter_map, List.map_map]
  congr 1
  apply List.filter_congr
  intro s hs
  show decide (slotOf tab s.1 = j) = decide (s.1 = m)
  rw [decide_eq_decide]
  exact slotOf_eq_iff h (hl s hs) hj

theorem bucketOf_sideItem_free {tab : List MintSlot} (h : TabOk tab) {j : Nat}
    (hj : keyOf tab j = none) {l : List (Mint × Edge)}
    (hl : ∀ s ∈ l, ∃ i, keyOf tab i = some s.1) : bucketOf (l.map (sideItem tab)) j = [] := by
  rw [bucketOf, List.map_eq_nil_iff, List.filter_eq_nil_iff]
  intro it hit
  obtain ⟨s, hs, rfl⟩ := List.mem_map.mp hit
  obtain ⟨i, hi⟩ := hl s hs
  have hne : slotOf tab s.1 ≠ j := by
    intro heq
    have hslot : slotOf tab s.1 = i := (slotOf_eq_iff h ⟨i, hi⟩ hi).mpr rfl
    rw [← heq, hslot, hi] at hj
    exact absurd hj (by simp)
  exact fun hdec => hne (of_decide_eq_true hdec)

/-- The state of the filling pass after the sides `done`; `base` is the table
the pass started from. -/
structure Filling (base tab : List MintSlot) (edges : List Edge) (ecap : Nat)
    (done : List (Mint × Edge)) : Prop where
  ok : TabOk tab
  keys : ∀ j, keyOf tab j = keyOf base j
  offs : ∀ j, offAt tab j = offAt base j
  filled : Filled (offAt base) edges (cntAt tab) (done.map (sideItem base))
  length_eq : edges.length = ecap

section FillingPass

variable {base : List MintSlot} {cnt : Nat → Nat} {ecap : Nat}

theorem cntAt_bumpN_eq_update {tab : List MintSlot} {j : Nat} (hj : j < tab.length)
    (hn : cntAt tab j < 65535) :
    cntAt (bumpN tab j) = Function.update (cntAt tab) j (cntAt tab j + 1) := by
  funext i
  by_cases hij : i = j
  · subst hij
    rw [Function.update_self, cntAt_bumpN_self hj hn]
  · rw [Function.update_of_ne hij, cntAt_bumpN_ne (Ne.symm hij)]

/-- One side put in its place. -/
theorem Filling.putEdge (hlay : Layout (offAt base) cnt ecap) (hcnt : ∀ j, cnt j ≤ 65535)
    {tab : List MintSlot} {edges : List Edge} {done : List (Mint × Edge)} {m : Mint} {e : Edge}
    {j : Nat} (hbase : TabOk base) (h : Filling base tab edges ecap done)
    (hj : keyOf base j = some m)
    (hroom : ∀ c, (bucketOf ((done ++ [(m, e)]).map (sideItem base)) c).length ≤ cnt c) :
    Filling base (Univ.putEdge (tab, edges) j e).1 (Univ.putEdge (tab, edges) j e).2 ecap
      (done ++ [(m, e)]) := by
  have hj' : keyOf tab j = some m := (h.keys j).trans hj
  have hitem : sideItem base (m, e) = (j, e) := by
    rw [sideItem, (slotOf_eq_iff hbase ⟨j, hj⟩ hj).mpr rfl]
  have hmap : (done ++ [(m, e)]).map (sideItem base) = done.map (sideItem base) ++ [(j, e)] := by
    rw [List.map_append, List.map_singleton, hitem]
  have hle : ∀ c, cntAt tab c ≤ cnt c := by
    intro c
    have := hroom c
    rw [hmap, bucketOf_append, List.length_append, ← h.filled.count] at this
    omega
  have hlt : cntAt tab j < cnt j := by
    have := hroom j
    rw [hmap, bucketOf_append, List.length_append, ← h.filled.count, bucketOf_single_self,
      List.length_singleton] at this
    omega
  have hn : cntAt tab j < 65535 := Nat.lt_of_lt_of_le hlt (hcnt j)
  refine ⟨h.ok.bumpN hj', ?_, ?_, ?_, ?_⟩
  · intro i
    exact (keyOf_bumpN tab j i).trans (h.keys i)
  · intro i
    exact (offAt_bumpN tab j i).trans (h.offs i)
  · show Filled (offAt base) (edges.set (offAt tab j + cntAt tab j) e) (cntAt (bumpN tab j)) _
    rw [hmap, cntAt_bumpN_eq_update (lt_of_keyOf hj') hn, h.offs]
    exact h.filled.step (h.length_eq ▸ hlay) hle hlt
  · show (edges.set _ e).length = ecap
    rw [List.length_set]
    exact h.length_eq

theorem fillPool_filling {mask : UInt32} (hlay : Layout (offAt base) cnt ecap)
    (hcnt : ∀ j, cnt j ≤ 65535) (hbase : TabOk base) {st st' : List MintSlot × List Edge}
    {done : List (Mint × Edge)} {p : PoolMeta × Nat}
    (h : Filling base st.1 st.2 ecap done)
    (hkeys : ∀ s ∈ poolSides mask p, ∃ i, keyOf base i = some s.1)
    (hroom : ∀ c, (bucketOf ((done ++ poolSides mask p).map (sideItem base)) c).length ≤ cnt c)
    (hstep : fillPool mask st p = some st') :
    Filling base st'.1 st'.2 ecap (done ++ poolSides mask p) := by
  unfold fillPool at hstep
  unfold poolSides at hkeys hroom ⊢
  by_cases hal : allowed p.1.protocol mask = true
  · simp only [if_pos hal] at hkeys hroom ⊢
    obtain ⟨ix, hix⟩ := hkeys _ List.mem_cons_self
    obtain ⟨iy, hiy⟩ := hkeys _ (List.mem_cons_of_mem _ List.mem_cons_self)
    -- both mints are stored: `mint_put` changes nothing in this pass
    have hx := mintPut_of_key h.ok ((h.keys ix).trans hix)
    have hy := mintPut_of_key h.ok ((h.keys iy).trans hiy)
    rw [hal] at hstep
    simp only [Bool.not_true, Bool.false_eq_true, if_false] at hstep
    rw [hx, Option.bind_some] at hstep
    simp only at hstep
    rw [hy, Option.map_some, Option.some.injEq] at hstep
    subst hstep
    have hroom1 : ∀ c, (bucketOf ((done ++ [(p.1.mintX, (⟨p.2, 0⟩ : Edge))]).map
        (sideItem base)) c).length ≤ cnt c := by
      intro c
      have := hroom c
      rw [List.append_cons, List.map_append, bucketOf_append, List.length_append] at this
      omega
    have h1 := h.putEdge hlay hcnt hbase hix hroom1
    rw [List.append_cons] at hroom ⊢
    exact h1.putEdge hlay hcnt hbase hiy hroom
  · rw [if_pos (by simpa using hal)] at hstep
    rw [← Option.some.inj hstep, if_neg hal, List.append_nil]
    exact h

theorem fillPass_filling {mask : UInt32} (hlay : Layout (offAt base) cnt ecap)
    (hcnt : ∀ j, cnt j ≤ 65535) (hbase : TabOk base) : ∀ (ps : List (PoolMeta × Nat))
    {st st' : List MintSlot × List Edge} {done : List (Mint × Edge)},
    Filling base st.1 st.2 ecap done →
    (∀ s ∈ ps.flatMap (poolSides mask), ∃ i, keyOf base i = some s.1) →
    (∀ c, (bucketOf ((done ++ ps.flatMap (poolSides mask)).map (sideItem base)) c).length
      ≤ cnt c) →
    ps.foldlM (fillPool mask) st = some st' →
    Filling base st'.1 st'.2 ecap (done ++ ps.flatMap (poolSides mask)) := by
  intro ps
  induction ps with
  | nil =>
    intro st st' done h _ _ hrun
    rw [List.foldlM_nil] at hrun
    rw [← Option.some.inj hrun, List.flatMap_nil, List.append_nil]
    exact h
  | cons p ps ih =>
    intro st st' done h hkeys hroom hrun
    rw [List.foldlM_cons] at hrun
    obtain ⟨st1, hstep, hrun⟩ := Option.bind_eq_some_iff.mp hrun
    rw [List.flatMap_cons] at hkeys hroom ⊢
    rw [← List.append_assoc] at hroom ⊢
    have hroom1 : ∀ c, (bucketOf ((done ++ poolSides mask p).map (sideItem base)) c).length
        ≤ cnt c := by
      intro c
      have := hroom c
      rw [List.map_append, bucketOf_append, List.length_append] at this
      omega
    refine ih (fillPool_filling hlay hcnt hbase h ?_ hroom1 hstep) ?_ hroom hrun
    · exact fun s hs => hkeys s (List.mem_append_left _ hs)
    · exact fun s hs => hkeys s (List.mem_append_right _ hs)

end FillingPass

/-! ## §7. Adjacency. -/

/-- What the search relies on: a stored mint's slice is the list of its sides,
and a mint that is not stored has none. -/
structure Adjacent (mask : UInt32) (pools : List PoolMeta) (edges : List Edge)
    (tab : List MintSlot) : Prop where
  ok : TabOk tab
  sides : ∀ j m, keyOf tab j = some m → edgesAt tab edges j = sidesOf mask pools m
  none_of_unstored : ∀ m, (∀ j, keyOf tab j ≠ some m) → sidesOf mask pools m = []

theorem edgesAt_congr {tab tab' : List MintSlot} {i : Nat} (h : tab'[i]? = tab[i]?)
    (edges : List Edge) : edgesAt tab' edges i = edgesAt tab edges i := by
  unfold edgesAt offAt cntAt
  rw [h]

/-- **`mint_put` keeps the adjacency and finds the sides of its mint.** -/
theorem Adjacent.put {mask : UInt32} {pools : List PoolMeta} {edges : List Edge}
    {tab tab' : List MintSlot} (h : Adjacent mask pools edges tab) {m : Mint} {j : Nat}
    (hput : mintPut tab m = some (tab', j)) :
    Adjacent mask pools edges tab' ∧ edgesAt tab' edges j = sidesOf mask pools m := by
  obtain ⟨hok, hkeyj, hother, hcase⟩ := mintPut_spec h.ok hput
  have hj : edgesAt tab' edges j = sidesOf mask pools m := by
    rcases hcase with rfl | ⟨hfree, hzero⟩
    · exact h.sides j m hkeyj
    · have hno : ∀ i, keyOf tab i ≠ some m := by
        intro i hi
        have hij : i = j := hok.unique (mintPut_keeps h.ok hput hi).1 hkeyj
        subst hij
        exact absurd hi (by rw [hfree]; simp)
      rw [h.none_of_unstored m hno, edgesAt, hzero, slice_zero]
  refine ⟨⟨hok, ?_, ?_⟩, hj⟩
  · intro i k hi
    by_cases hij : i = j
    · subst hij
      have hmk : m = k := Option.some.inj (hkeyj.symm.trans hi)
      exact hmk ▸ hj
    · rw [edgesAt_congr (hother i hij)]
      exact h.sides i k ((keyOf_of_getElem? (hother i hij)).symm.trans hi)
  · intro k hk
    refine h.none_of_unstored k fun i hi => hk i ?_
    exact (mintPut_keeps h.ok hput hi).1

theorem Adjacent.put_none {mask : UInt32} {pools : List PoolMeta} {edges : List Edge}
    {tab : List MintSlot} (h : Adjacent mask pools edges tab) {m : Mint}
    (hput : mintPut tab m = none) : sidesOf mask pools m = [] :=
  h.none_of_unstored m (keyOf_isNone_of_mintPut_none h.ok hput)

theorem cntAt_le (tab : List MintSlot) (j : Nat) : cntAt tab j ≤ 65535 := by
  unfold cntAt
  cases tab[j]? with
  | none => exact Nat.zero_le _
  | some s =>
    have := UInt16.toNat_lt s.n
    simp only [Option.map_some, Option.getD_some]
    omega

/-- **The three passes establish the adjacency.** -/
theorem passes_adjacent {mask : UInt32} {pools : List PoolMeta} {tab : List MintSlot}
    {st : List MintSlot × List Edge} (hn : pools.length ≤ 65535)
    (hcount : pools.foldlM (countPool mask) emptyTab = some tab)
    (htotal : (assignOffsets tab 0).2 ≤ pools.length * 2)
    (hfill : pools.zipIdx.foldlM (fillPool mask)
      ((assignOffsets tab 0).1, List.replicate (pools.length * 2) default) = some st) :
    Adjacent mask pools st.2 st.1 := by
  -- the counts
  have hempty : Counted emptyTab [] := by
    refine ⟨emptyTab_ok, fun m hm => absurd hm List.not_mem_nil, ?_⟩
    intro j m hj
    have := emptyTab_ok.found j m hj
    unfold keyOf keyAt emptyTab at hj
    rw [List.getElem?_replicate] at hj
    split at hj <;> exact absurd hj (by simp [MintSlot.key])
  have hbound : ∀ m, (pools.flatMap (sideMints mask)).count m ≤ 65535 := by
    intro m
    rw [← map_fst_allSides, allSides]
    refine Nat.le_trans (count_flatMap_poolSides_le mask m _) ?_
    rw [List.length_zipIdx]
    exact hn
  have hcounted := countPass_counted pools hempty (by simpa using hbound) hcount
  rw [List.nil_append, ← map_fst_allSides] at hcounted
  -- the offsets
  have hbase := assignOffsets_ok hcounted.ok
  have hkeys := keyOf_assignOffsets tab
  have hstored : ∀ s ∈ allSides mask pools, ∃ i, keyOf (assignOffsets tab 0).1 i = some s.1 := by
    intro s hs
    obtain ⟨i, hi⟩ := hcounted.stored s.1 (List.mem_map_of_mem hs)
    exact ⟨i, (hkeys i).trans hi⟩
  have hlay : Layout (offAt (assignOffsets tab 0).1) (cntAt tab) (pools.length * 2) := by
    have hkey : ∀ b, 0 < cntAt tab b → ∃ m, keyOf tab b = some m := by
      intro b hb
      cases hk : keyOf tab b with
      | none => exact absurd (hcounted.ok.free b hk) (by omega)
      | some m => exact ⟨m, rfl⟩
    refine layout_prefixSum (B := mintTab) ?_ ?_ ?_
    · intro b hb
      obtain ⟨m, hm⟩ := hkey b hb
      exact offAt_assignOffsets hcounted.ok hm
    · intro b hb
      obtain ⟨m, hm⟩ := hkey b hb
      rw [← hcounted.ok.length_eq]
      exact lt_of_keyOf hm
    · have htot := (assignOffsets_total tab 0).1
      rw [Nat.zero_add, prefixSum_congr (usedCnt_eq_cntAt hcounted.ok),
        hcounted.ok.length_eq] at htot
      omega
  -- every bucket holds what was counted for it
  have hroom : ∀ c, (bucketOf ((allSides mask pools).map
      (sideItem (assignOffsets tab 0).1)) c).length ≤ cntAt tab c := by
    intro c
    cases hk : keyOf (assignOffsets tab 0).1 c with
    | none =>
      rw [bucketOf_sideItem_free hbase hk hstored]
      exact Nat.zero_le _
    | some m =>
      rw [bucketOf_sideItem hbase hk hstored, List.length_map,
        hcounted.count c m ((hkeys c).symm.trans hk), List.count, List.countP_map,
        List.countP_eq_length_filter]
      refine le_of_eq (congrArg List.length (List.filter_congr fun s _ => ?_))
      exact (beq_eq_decide s.1 m).symm
  -- the filling
  have hstart : Filling (assignOffsets tab 0).1 (assignOffsets tab 0).1
      (List.replicate (pools.length * 2) default) (pools.length * 2) [] := by
    refine ⟨hbase, fun _ => rfl, fun _ => rfl, ?_, List.length_replicate⟩
    rw [funext (cntAt_assignOffsets hcounted.ok)]
    exact Filled.nil _ _
  have hdone := fillPass_filling hlay (cntAt_le tab) hbase pools.zipIdx hstart
    (by simpa [allSides] using hstored) (by simpa [allSides] using hroom) hfill
  rw [List.nil_append] at hdone
  change Filling _ st.1 st.2 _ (allSides mask pools) at hdone
  refine ⟨hdone.ok, ?_, ?_⟩
  · intro j m hj
    have hj' : keyOf (assignOffsets tab 0).1 j = some m := (hdone.keys j).symm.trans hj
    rw [edgesAt, hdone.offs, hdone.filled.slice_eq, bucketOf_sideItem hbase hj' hstored]
    rfl
  · intro m hm
    rw [sidesOf, List.map_eq_nil_iff, List.filter_eq_nil_iff]
    intro s hs heq
    obtain ⟨i, hi⟩ := hstored s hs
    have hsm : s.1 = m := by simpa using heq
    exact hm i ((hdone.keys i).trans (hsm ▸ hi))

end ShredArb.Univ
