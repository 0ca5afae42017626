/-
  ShredArb.Dlmm.CacheRefinement — the hot cache refines the full pool.

  A hot entry TRACKS a full state when their fields are equal and every id of
  the window holds the same amounts in both.  `dlmm_cache_put` establishes it,
  a predicted and committed swap keeps it, and a predict that is dropped
  leaves the cache alone; the swaps themselves are compared by
  `Dlmm.Agreement`.

  Main results:
    * `cache_refines_full` — over whole runs, in both directions.
-/
import ShredArb.Dlmm.Agreement
import ShredArb.Dlmm.Cache
import ShredArb.Lib.Run

namespace ShredArb.Dlmm

open ShredArb.Run

/-! ## §1. Slots and the ids they are for. -/

/-- The ids within `DLMM_CACHE_K` of a centre. -/
def InWindow (center id : Int32) : Prop :=
  (id.toInt - center.toInt).natAbs ≤ dlmmCacheK

instance (center id : Int32) : Decidable (InWindow center id) :=
  inferInstanceAs (Decidable (_ ≤ _))

/-- Slot `i` live implies its bin id equals `window_center - K + i`. -/
def SlotsLabelled (h : DlmmPoolHot) : Prop :=
  ∀ i, h.live i = true → (h.bin i).id.toInt = slotId h.windowCenter i

def DlmmHotBin.holding (b : DlmmHotBin) : Holding := ⟨b.id, b.amountX, b.amountY⟩

/-- What a hot entry knows about an id. -/
def hotHolding (h : DlmmPoolHot) (id : Int32) : Option Holding :=
  (dlmmHotSlot h id).bind fun i => if h.live i then some (h.bin i).holding else none

theorem dlmmHotSlot_eq_some {h : DlmmPoolHot} {id : Int32} {i : Fin dlmmCacheWindow} :
    dlmmHotSlot h id = some i ↔ id.toInt = slotId h.windowCenter i := by
  have hi := i.isLt
  unfold dlmmHotSlot slotId
  simp only
  constructor
  · intro hs
    split at hs
    · rename_i hoff
      rw [Option.some.injEq] at hs
      rw [← hs]
      simp only
      omega
    · exact absurd hs (by simp)
  · intro hid
    rw [dif_pos (by omega)]
    rw [Option.some.injEq]
    apply Fin.ext
    simp only
    omega

theorem dlmmHotSlot_of_inWindow {h : DlmmPoolHot} {id : Int32}
    (hid : InWindow h.windowCenter id) : ∃ i, dlmmHotSlot h id = some i := by
  unfold InWindow dlmmCacheK at hid
  refine ⟨⟨(id.toInt - h.windowCenter.toInt + 16).toNat, by unfold dlmmCacheWindow; omega⟩, ?_⟩
  rw [dlmmHotSlot_eq_some]
  unfold slotId dlmmCacheK
  simp only
  omega

theorem inWindow_of_slotId {center id : Int32} {i : Fin dlmmCacheWindow}
    (hid : id.toInt = slotId center i) : InWindow center id := by
  have hi := i.isLt
  unfold slotId dlmmCacheK at hid
  unfold dlmmCacheWindow at hi
  unfold InWindow dlmmCacheK
  omega

theorem slotId_injective (center : Int32) : Function.Injective (slotId center) := by
  intro i j hij
  unfold slotId at hij
  exact Fin.ext (by omega)

/-! ## §2. From the entry to a state. -/

theorem mem_hotToState {h : DlmmPoolHot} {b : DlmmBin} :
    b ∈ (dlmmHotToState h).bins ↔
      ∃ i, h.live i = true ∧ b = ⟨(h.bin i).id, (h.bin i).amountX, (h.bin i).amountY, 0⟩ := by
  show b ∈ (List.finRange dlmmCacheWindow).filterMap (hotBinAt h) ↔ _
  rw [List.mem_filterMap]
  constructor
  · rintro ⟨i, -, hb⟩
    unfold hotBinAt at hb
    split at hb
    · rename_i hlive
      exact ⟨i, hlive, (Option.some.inj hb).symm⟩
    · exact absurd hb (by simp)
  · rintro ⟨i, hlive, rfl⟩
    refine ⟨i, List.mem_finRange i, ?_⟩
    rw [hotBinAt, if_pos hlive]

/-- A lookup finds `b` when it is the only bin with its id. -/
theorem findBin_eq_of_unique {l : List DlmmBin} {b : DlmmBin} (hb : b ∈ l)
    (huniq : ∀ c ∈ l, c.id = b.id → c = b) : findBin l b.id = some b := by
  cases hf : findBin l b.id with
  | none =>
    exact absurd (decide_eq_true rfl) (List.find?_eq_none.mp hf b hb)
  | some c =>
    rw [huniq c (List.mem_of_find?_eq_some hf) (findBin_id hf)]

theorem holdingAt_hotToState {h : DlmmPoolHot} (hl : SlotsLabelled h) (id : Int32) :
    holdingAt (dlmmHotToState h).bins id = hotHolding h id := by
  cases hh : hotHolding h id with
  | some x =>
    rw [hotHolding, Option.bind_eq_some_iff] at hh
    obtain ⟨i, hi, hx⟩ := hh
    split at hx
    · rename_i hlive
      have hid : (h.bin i).id = id :=
        Int32.toInt_inj.mp ((hl i hlive).trans (dlmmHotSlot_eq_some.mp hi).symm)
      have hmem := mem_hotToState.mpr ⟨i, hlive, rfl⟩
      have hfind := findBin_eq_of_unique hmem (by
        intro c hc hcid
        obtain ⟨j, hj, rfl⟩ := mem_hotToState.mp hc
        have hij : j = i := slotId_injective h.windowCenter
          ((hl j hj).symm.trans ((congrArg Int32.toInt hcid).trans (hl i hlive)))
        rw [hij])
      have hfind' : findBin (dlmmHotToState h).bins id
          = some ⟨(h.bin i).id, (h.bin i).amountX, (h.bin i).amountY, 0⟩ := by
        rw [← hid]
        exact hfind
      rw [holdingAt, hfind', ← Option.some.inj hx]
      rfl
    · exact absurd hx (by simp)
  | none =>
    rw [holdingAt, Option.map_eq_none_iff]
    rw [findBin, List.find?_eq_none]
    intro b hb hbid
    obtain ⟨i, hlive, rfl⟩ := mem_hotToState.mp hb
    have hid : (h.bin i).id = id := by simpa using hbid
    have hslot : dlmmHotSlot h id = some i :=
      dlmmHotSlot_eq_some.mpr (hid ▸ hl i hlive)
    rw [hotHolding, hslot, Option.bind_some, if_pos hlive] at hh
    exact absurd hh (by simp)

theorem hotToState_ids_nodup {h : DlmmPoolHot} (hl : SlotsLabelled h) :
    ((dlmmHotToState h).bins.map (·.id)).Nodup := by
  show (((List.finRange dlmmCacheWindow).filterMap (hotBinAt h)).map (·.id)).Nodup
  rw [List.Nodup, List.pairwise_map, List.pairwise_filterMap]
  refine List.Pairwise.imp ?_ (List.nodup_finRange dlmmCacheWindow)
  intro i j hij b hb c hc hid
  have hslot : ∀ k d, hotBinAt h k = some d → d.id.toInt = slotId h.windowCenter k := by
    intro k d hd
    unfold hotBinAt at hd
    split at hd
    · rename_i hlive
      rw [← Option.some.inj hd]
      exact hl k hlive
    · exact absurd hd (by simp)
  exact hij (slotId_injective h.windowCenter
    ((hslot i b hb).symm.trans ((congrArg Int32.toInt hid).trans (hslot j c hc))))

/-! ## §3. From a state back into the entry. -/

theorem storeBin_of_slot {h : DlmmPoolHot} {b : DlmmBin} {i : Fin dlmmCacheWindow}
    (hs : dlmmHotSlot h b.id = some i) :
    storeBin h b = { h with
      bin := Function.update h.bin i ⟨b.id, b.amountX, b.amountY⟩
      live := Function.update h.live i true } := by
  rw [storeBin, hs]

theorem storeBin_of_no_slot {h : DlmmPoolHot} {b : DlmmBin}
    (hs : dlmmHotSlot h b.id = none) : storeBin h b = h := by
  rw [storeBin, hs]

/-- One stored bin: its slot is labelled and holds it, the rest is untouched. -/
theorem storeBin_spec {h : DlmmPoolHot} (hl : SlotsLabelled h) (b : DlmmBin) :
    SlotsLabelled (storeBin h b) ∧
      storeBin h b = { h with bin := (storeBin h b).bin, live := (storeBin h b).live } ∧
      ∀ id, InWindow h.windowCenter id →
        hotHolding (storeBin h b) id = if b.id = id then some b.holding else hotHolding h id := by
  cases hs : dlmmHotSlot h b.id with
  | none =>
    rw [storeBin_of_no_slot hs]
    refine ⟨hl, rfl, ?_⟩
    intro id hid
    by_cases hb : b.id = id
    · subst hb
      obtain ⟨i, hi⟩ := dlmmHotSlot_of_inWindow hid
      exact absurd hi (by rw [hs]; simp)
    · rw [if_neg hb]
  | some i =>
    have hlab := dlmmHotSlot_eq_some.mp hs
    rw [storeBin_of_slot hs]
    refine ⟨?_, rfl, ?_⟩
    · intro j hj
      simp only at hj ⊢
      by_cases hji : j = i
      · subst hji
        rw [Function.update_self]
        exact hlab
      · rw [Function.update_of_ne hji] at hj ⊢
        exact hl j hj
    · intro id hid
      obtain ⟨j, hj⟩ := dlmmHotSlot_of_inWindow hid
      -- the write moves no slot, so the lookup goes to the same one
      have hj' : ∀ f g, dlmmHotSlot { h with bin := f, live := g } id = some j := fun _ _ => hj
      rw [hotHolding, hj', Option.bind_some, hotHolding, hj, Option.bind_some]
      simp only
      by_cases hb : b.id = id
      · subst hb
        have hij : i = j := Option.some.inj (hs.symm.trans hj)
        subst hij
        rw [if_pos rfl, Function.update_self, Function.update_self, if_pos rfl]
        rfl
      · have hji : j ≠ i := by
          intro hji
          subst hji
          exact hb (Int32.toInt_inj.mp (hlab.trans (dlmmHotSlot_eq_some.mp hj).symm))
        rw [if_neg hb, Function.update_of_ne hji, Function.update_of_ne hji]

/-- **Storing all the bins of a state**: an id of the window holds what the
state has for it, or else what the entry had. -/
theorem foldl_storeBin_spec (bins : List DlmmBin) : ∀ (h : DlmmPoolHot),
    (bins.map (·.id)).Nodup → SlotsLabelled h →
    SlotsLabelled (bins.foldl storeBin h) ∧
      bins.foldl storeBin h = { h with
        bin := (bins.foldl storeBin h).bin, live := (bins.foldl storeBin h).live } ∧
      ∀ id, InWindow h.windowCenter id →
        hotHolding (bins.foldl storeBin h) id
          = (holdingAt bins id).or (hotHolding h id) := by
  induction bins with
  | nil =>
    intro h _ hl
    exact ⟨hl, rfl, fun id _ => rfl⟩
  | cons b bs ih =>
    intro h hnd hl
    rw [List.map_cons, List.nodup_cons] at hnd
    obtain ⟨hl1, heq1, hold1⟩ := storeBin_spec hl b
    obtain ⟨hl2, heq2, hold2⟩ := ih (storeBin h b) hnd.2 hl1
    have hc : (storeBin h b).windowCenter = h.windowCenter := by rw [heq1]
    rw [List.foldl_cons]
    refine ⟨hl2, ?_, ?_⟩
    · have hrest : ∀ f g, { storeBin h b with bin := f, live := g }
          = { h with bin := f, live := g } := by
        intro f g
        rw [heq1]
      rw [← hrest]
      exact heq2
    · intro id hid
      rw [hold2 id (hc ▸ hid), hold1 id hid]
      by_cases hb : b.id = id
      · -- a later bin with this id would repeat it
        have hnone : holdingAt bs id = none := by
          rw [holdingAt, Option.map_eq_none_iff, findBin, List.find?_eq_none]
          intro c hcm hcid
          exact hnd.1 (List.mem_map.mpr ⟨c, hcm, by rw [hb]; simpa using hcid⟩)
        have hhead : holdingAt (b :: bs) id = some b.holding := by
          rw [holdingAt, findBin, List.find?_cons_of_pos (by simpa using hb)]
          rfl
        rw [hnone, hhead, if_pos hb]
        rfl
      · have hhead : holdingAt (b :: bs) id = holdingAt bs id := by
          rw [holdingAt, findBin, List.find?_cons_of_neg (by simpa using hb)]
          rfl
        rw [hhead, if_neg hb]

/-- **What `dlmm_state_into_hot` leaves in the entry.** -/
theorem dlmmStateIntoHot_spec {h : DlmmPoolHot} {s : DlmmState}
    (hnd : (s.bins.map (·.id)).Nodup) (hl : SlotsLabelled h) :
    SlotsLabelled (dlmmStateIntoHot s h) ∧
      dlmmStateIntoHot s h = { h with
        activeId := s.activeId
        binStep := s.binStep
        status := s.status
        parameters := s.parameters
        vParameters := s.vParameters
        reserveX := s.reserveX
        reserveY := s.reserveY
        nowTs := s.nowTs
        bin := (dlmmStateIntoHot s h).bin
        live := (dlmmStateIntoHot s h).live } ∧
      ∀ id, InWindow h.windowCenter id →
        hotHolding (dlmmStateIntoHot s h) id = (holdingAt s.bins id).or (hotHolding h id) := by
  unfold dlmmStateIntoHot
  obtain ⟨hlab, heq, hhold⟩ := foldl_storeBin_spec s.bins { h with
    activeId := s.activeId, binStep := s.binStep, status := s.status,
    parameters := s.parameters, vParameters := s.vParameters,
    reserveX := s.reserveX, reserveY := s.reserveY, nowTs := s.nowTs } hnd hl
  exact ⟨hlab, heq, hhold⟩

/-! ## §4. The entry tracks the full state. -/

/-- The cached entry and the full state agree: on the active bin, the reserves,
the parameters and the volatility fields, and on every id of the window. -/
structure Tracks (center : Int32) (h : DlmmPoolHot) (s : DlmmState) : Prop where
  occupied : h.occupied = true
  windowCenter_eq : h.windowCenter = center
  labelled : SlotsLabelled h
  activeId_eq : h.activeId = s.activeId
  binStep_eq : h.binStep = s.binStep
  status_eq : h.status = s.status
  parameters_eq : h.parameters = s.parameters
  vParameters_eq : h.vParameters = s.vParameters
  reserveX_eq : h.reserveX = s.reserveX
  reserveY_eq : h.reserveY = s.reserveY
  nowTs_eq : h.nowTs = s.nowTs
  window : ∀ id, InWindow center id → hotHolding h id = holdingAt s.bins id

section Tracks

variable {center : Int32} {h : DlmmPoolHot} {s : DlmmState} {ix : DlmmSwapIx}
  {r : DlmmApplyResult}

theorem Tracks.agree (ht : Tracks center h s) (hp : PricesDerived s.binStep s.bins) :
    Agree (InWindow center) (dlmmHotToState h) s where
  fields := by
    unfold dlmmHotToState
    rw [ht.activeId_eq, ht.binStep_eq, ht.status_eq, ht.parameters_eq, ht.vParameters_eq,
      ht.reserveX_eq, ht.reserveY_eq, ht.nowTs_eq]
  holdings := by
    intro id hid
    rw [holdingAt_hotToState ht.labelled, ht.window id hid]
  derivedL := by
    intro b hb
    obtain ⟨i, -, rfl⟩ := mem_hotToState.mp hb
    exact Or.inl rfl
  derivedR := hp

/-- Write a state back into an entry whose slots it came from. -/
theorem dlmmStateIntoHot_tracks {after s' : DlmmState} (hocc : h.occupied = true)
    (hcenter : h.windowCenter = center) (hl : SlotsLabelled h)
    (hids : after.bins.map (·.id) = (dlmmHotToState h).bins.map (·.id))
    (hagree : Agree (InWindow center) after s') :
    Tracks center (dlmmStateIntoHot after h) s' := by
  have hnd : (after.bins.map (·.id)).Nodup := by
    rw [hids]
    exact hotToState_ids_nodup hl
  obtain ⟨hlab, heq, hhold⟩ := dlmmStateIntoHot_spec hnd hl
  have hf := hagree.fields
  constructor
  · rw [heq]
    exact hocc
  · rw [heq]
    exact hcenter
  · exact hlab
  · rw [heq, hf]
  · rw [heq, hf]
  · rw [heq, hf]
  · rw [heq, hf]
  · rw [heq, hf]
  · rw [heq, hf]
  · rw [heq, hf]
  · rw [heq, hf]
  · intro id hid
    rw [hhold id (hcenter ▸ hid), ← hagree.holdings id hid]
    cases hc : holdingAt after.bins id with
    | some x => rfl
    | none =>
      -- the state kept the ids it was built with, so the slot was dead before
      have hnone : holdingAt (dlmmHotToState h).bins id = none := by
        rw [holdingAt, Option.map_eq_none_iff, findBin, List.find?_eq_none] at hc ⊢
        intro b hb hbid
        have hmem : b.id ∈ after.bins.map (·.id) := by
          rw [hids]
          exact List.mem_map_of_mem hb
        obtain ⟨c, hcm, hcid⟩ := List.mem_map.mp hmem
        exact hc c hcm (by simpa [hcid] using hbid)
      rw [holdingAt_hotToState hl] at hnone
      rw [hnone]
      rfl

/-- **One predicted swap**: it is the full swap, and the speculative entry
tracks the full state after it. -/
theorem Tracks.swap (ht : Tracks center h s) (hp : PricesDerived s.binStep s.bins)
    {after : DlmmState} (hswap : dlmmApplySwap (dlmmHotToState h) ix = some (after, r)) :
    ∃ s', dlmmApplySwap s ix = some (s', r) ∧ Tracks center (dlmmStateIntoHot after h) s' ∧
      PricesDerived s'.binStep s'.bins := by
  obtain ⟨hvis, hids⟩ := dlmmApplySwap_ids hswap
  have hwin : ∀ id ∈ swapVisits (dlmmHotToState h) ix, InWindow center id := by
    intro id hid
    obtain ⟨b, hb, rfl⟩ := List.mem_map.mp (hvis id hid)
    obtain ⟨i, hlive, rfl⟩ := mem_hotToState.mp hb
    exact inWindow_of_slotId (ht.windowCenter_eq ▸ ht.labelled i hlive)
  obtain ⟨s', hs', hagree⟩ := dlmmApplySwap_agree (ht.agree hp) hwin hswap
  exact ⟨s', hs', dlmmStateIntoHot_tracks ht.occupied ht.windowCenter_eq ht.labelled hids hagree,
    hagree.derivedR⟩

/-- **The converse**: a full swap that stays in the window is predicted. -/
theorem Tracks.predicts (ht : Tracks center h s) (hp : PricesDerived s.binStep s.bins)
    {s' : DlmmState} (hswap : dlmmApplySwap s ix = some (s', r))
    (hvis : ∀ id ∈ swapVisits s ix, InWindow center id) :
    ∃ after, dlmmApplySwap (dlmmHotToState h) ix = some (after, r) := by
  obtain ⟨after, hafter, -⟩ := dlmmApplySwap_agree (ht.agree hp).symm hvis hswap
  exact ⟨after, hafter⟩

end Tracks

/-- `dlmm_cache_put` installs an entry that tracks the state. -/
theorem hotOfState_tracks {s : DlmmState} (hids : (s.bins.map (·.id)).Nodup) :
    Tracks s.activeId (hotOfState s) s := by
  have hdead : SlotsLabelled
      { DlmmPoolHot.zero with occupied := true, windowCenter := s.activeId } := by
    intro i hi
    exact absurd hi (by simp [DlmmPoolHot.zero])
  obtain ⟨hlab, heq, hhold⟩ := dlmmStateIntoHot_spec hids hdead
  unfold hotOfState
  generalize dlmmStateIntoHot s
    { DlmmPoolHot.zero with occupied := true, windowCenter := s.activeId } = h at hlab heq hhold ⊢
  simp only
  constructor
  · rw [heq]
  · rw [heq]
  · intro i hi
    simp only at hi ⊢
    rw [if_pos hi]
    exact hlab i hi
  · rw [heq]
  · rw [heq]
  · rw [heq]
  · rw [heq]
  · rw [heq]
  · rw [heq]
  · rw [heq]
  · rw [heq]
  · intro id hid
    have hempty : hotHolding
        { DlmmPoolHot.zero with occupied := true, windowCenter := s.activeId } id = none := by
      rw [hotHolding, Option.bind_eq_none_iff]
      intro i _
      exact if_neg (by simp [DlmmPoolHot.zero])
    have hold := hhold id hid
    rw [hempty, Option.or_none] at hold
    rw [← hold]
    -- labelling the dead slots changes no lookup
    unfold hotHolding
    show (dlmmHotSlot h id).bind _ = (dlmmHotSlot h id).bind _
    congr 1
    funext i
    by_cases hi : h.live i = true
    · rw [if_pos hi, if_pos hi]
      simp only [if_pos hi]
    · rw [if_neg hi, if_neg hi]

/-! ## §5. Runs. -/

/-- What a caller does with the cache: predict and commit, or predict and
drop. -/
inductive CacheAct where
  | swap (ix : DlmmSwapIx)
  | peek (ix : DlmmSwapIx)
  deriving DecidableEq, Repr

def CacheAct.ix : CacheAct → DlmmSwapIx
  | .swap ix => ix
  | .peek ix => ix

/-- One action on the cached pool. -/
def cachedAct (poolIdx : Nat) (c : DlmmCache) :
    CacheAct → Option (DlmmCache × Option DlmmApplyResult)
  | .swap ix => (dlmmCachePredict c poolIdx ix).bind fun p =>
      (dlmmCacheCommit c poolIdx p.1).map fun c' => (c', some p.2)
  | .peek ix => some (c, (dlmmCachePredict c poolIdx ix).map (·.2))

/-- The same action on the full state. -/
def fullAct (s : DlmmState) : CacheAct → Option (DlmmState × Option DlmmApplyResult)
  | .swap ix => (dlmmApplySwap s ix).map fun p => (p.1, some p.2)
  | .peek ix => some (s, (dlmmApplySwap s ix).map (·.2))

/-- The cache's entry at `poolIdx` tracks the full state. -/
def CacheTracks (poolIdx : Nat) (center : Int32) (c : DlmmCache) (s : DlmmState) : Prop :=
  ∃ h, dlmmCacheGet c poolIdx = some h ∧ Tracks center h s

theorem dlmmCacheGet_eq_some {c : DlmmCache} {i : Nat} {h : DlmmPoolHot} :
    dlmmCacheGet c i = some h ↔ c.pool[i]? = some h ∧ h.occupied = true := by
  rw [dlmmCacheGet, Option.bind_eq_some_iff]
  constructor
  · rintro ⟨g, hg, hocc⟩
    split at hocc
    · rename_i ho
      rw [Option.some.injEq] at hocc
      subst hocc
      exact ⟨hg, ho⟩
    · exact absurd hocc (by simp)
  · rintro ⟨hg, ho⟩
    exact ⟨h, hg, if_pos ho⟩

theorem dlmmCacheGet_set {c : DlmmCache} {i n : Nat} {h g : DlmmPoolHot}
    (hi : i < c.pool.length) (ho : h.occupied = true) :
    dlmmCacheGet { pool := c.pool.set i h, n := n } i = some g ↔ g = h := by
  rw [dlmmCacheGet_eq_some]
  show (c.pool.set i h)[i]? = some g ∧ _ ↔ _
  rw [List.getElem?_set_self hi, Option.some.injEq]
  constructor
  · rintro ⟨rfl, -⟩
    rfl
  · rintro rfl
    exact ⟨rfl, ho⟩

/-- The doubling loop passes the index. -/
theorem lt_growCap {poolIdx : Nat} (hmax : poolIdx < dlmmCacheMaxPools) :
    ∀ (fuel nc : Nat), poolIdx < nc * 2 ^ fuel → poolIdx < growCap poolIdx fuel nc := by
  intro fuel
  induction fuel with
  | zero =>
    intro nc hnc
    rw [growCap]
    omega
  | succ fuel ih =>
    intro nc hnc
    rw [growCap]
    split
    · split
      · exact hmax
      · apply ih
        rw [pow_succ] at hnc
        calc poolIdx < nc * (2 ^ fuel * 2) := hnc
          _ = nc * 2 * 2 ^ fuel := by ring
    · omega

theorem dlmmCacheReserve_length {c c' : DlmmCache} {cap : Nat}
    (h : dlmmCacheReserve c cap = some c') : cap ≤ c'.pool.length := by
  unfold dlmmCacheReserve at h
  split at h
  · exact absurd h (by simp)
  · split at h
    · rename_i hge
      rw [← Option.some.inj h]
      exact hge
    · rw [← Option.some.inj h]
      simp only [List.length_append, List.length_replicate, DlmmCache.cap]
      omega

theorem dlmmCachePut_get {c c' : DlmmCache} {poolIdx : Nat} {s : DlmmState}
    (h : dlmmCachePut c poolIdx s = some c') (hocc : (hotOfState s).occupied = true) :
    dlmmCacheGet c' poolIdx = some (hotOfState s) := by
  unfold dlmmCachePut at h
  split at h
  · exact absurd h (by simp)
  · rename_i hmax
    obtain ⟨c1, hc1, rfl⟩ := Option.map_eq_some_iff.mp h
    refine (dlmmCacheGet_set ?_ hocc).mpr rfl
    by_cases hcap : poolIdx ≥ c.cap
    · rw [if_pos hcap] at hc1
      have hpos : 1 ≤ (if c.cap ≠ 0 then c.cap else 8) := by
        split <;> omega
      refine lt_of_lt_of_le (lt_growCap (by omega) 16 _ ?_) (dlmmCacheReserve_length hc1)
      unfold dlmmCacheMaxPools at hmax
      calc poolIdx < 1 * 2 ^ 16 := by omega
        _ ≤ _ := Nat.mul_le_mul_right _ hpos
    · rw [if_neg hcap, Option.some.injEq] at hc1
      subst hc1
      unfold DlmmCache.cap at hcap
      omega

/-- **One action of the cache is the action of the full pool.** -/
theorem cachedAct_sim {poolIdx : Nat} {center : Int32} {c : DlmmCache} {s : DlmmState}
    {a : CacheAct} {p : DlmmCache × Option DlmmApplyResult}
    (ht : CacheTracks poolIdx center c s) (hp : PricesDerived s.binStep s.bins)
    (hact : cachedAct poolIdx c a = some p) :
    ∃ q, fullAct s a = some q ∧ CacheTracks poolIdx center p.1 q.1 ∧
      PricesDerived q.1.binStep q.1.bins ∧ ∀ r, p.2 = some r → q.2 = some r := by
  obtain ⟨h, hget, htr⟩ := ht
  cases a with
  | swap ix =>
    rw [cachedAct, Option.bind_eq_some_iff] at hact
    obtain ⟨⟨spec, r⟩, hpred, hcommit⟩ := hact
    obtain ⟨c', hc', rfl⟩ := Option.map_eq_some_iff.mp hcommit
    rw [dlmmCachePredict, hget, Option.bind_some] at hpred
    obtain ⟨⟨after, r'⟩, hswap, hspec⟩ := Option.map_eq_some_iff.mp hpred
    rw [Prod.mk.injEq] at hspec
    obtain ⟨rfl, rfl⟩ := hspec
    obtain ⟨s', hs', htr', hp'⟩ := htr.swap hp hswap
    refine ⟨(s', some r'), ?_, ?_, hp', fun r hr => hr⟩
    · rw [fullAct, hs']
      rfl
    · obtain ⟨hpool, hocc⟩ := dlmmCacheGet_eq_some.mp hget
      simp only at hc'
      rw [dlmmCacheCommit, hpool] at hc'
      simp only [hocc, htr'.occupied, Bool.not_true, Bool.or_self, Bool.false_eq_true,
        if_false, Option.some.injEq] at hc'
      have hlt : poolIdx < c.pool.length := (List.getElem?_eq_some_iff.mp hpool).1
      refine ⟨_, ?_, htr'⟩
      show dlmmCacheGet c' poolIdx = _
      rw [← hc']
      exact (dlmmCacheGet_set hlt htr'.occupied).mpr rfl
  | peek ix =>
    rw [cachedAct, Option.some.injEq] at hact
    subst hact
    refine ⟨(s, (dlmmApplySwap s ix).map (·.2)), rfl, ⟨h, hget, htr⟩, hp, ?_⟩
    intro r hr
    obtain ⟨⟨spec, r'⟩, hpred, rfl⟩ := Option.map_eq_some_iff.mp hr
    rw [dlmmCachePredict, hget, Option.bind_some] at hpred
    obtain ⟨⟨after, r''⟩, hswap, hspec⟩ := Option.map_eq_some_iff.mp hpred
    rw [Prod.mk.injEq] at hspec
    obtain ⟨-, rfl⟩ := hspec
    obtain ⟨s', hs', -⟩ := htr.swap hp hswap
    show (dlmmApplySwap s ix).map (·.2) = _
    rw [hs']
    rfl

/-- **And back, as long as the full swap stays in the window.** -/
theorem fullAct_sim {poolIdx : Nat} {center : Int32} {c : DlmmCache} {s : DlmmState}
    {a : CacheAct} {q : DlmmState × Option DlmmApplyResult}
    (ht : CacheTracks poolIdx center c s) (hp : PricesDerived s.binStep s.bins)
    (hvis : ∀ id ∈ swapVisits s a.ix, InWindow center id) (hact : fullAct s a = some q) :
    ∃ p, cachedAct poolIdx c a = some p ∧ CacheTracks poolIdx center p.1 q.1 ∧
      PricesDerived q.1.binStep q.1.bins ∧ ∀ r, q.2 = some r → p.2 = some r := by
  obtain ⟨h, hget, htr⟩ := ht
  have hpredict : ∀ {ix : DlmmSwapIx} {s' r}, (∀ id ∈ swapVisits s ix, InWindow center id) →
      dlmmApplySwap s ix = some (s', r) →
      ∃ after, dlmmCachePredict c poolIdx ix = some (dlmmStateIntoHot after h, r) ∧
        dlmmApplySwap (dlmmHotToState h) ix = some (after, r) := by
    intro ix s' r hv hswap
    obtain ⟨after, hafter⟩ := htr.predicts hp hswap hv
    refine ⟨after, ?_, hafter⟩
    rw [dlmmCachePredict, hget, Option.bind_some, hafter]
    rfl
  cases a with
  | swap ix =>
    rw [fullAct] at hact
    obtain ⟨⟨s', r⟩, hswap, rfl⟩ := Option.map_eq_some_iff.mp hact
    have hv : ∀ id ∈ swapVisits s ix, InWindow center id := hvis
    obtain ⟨after, hpred, hafter⟩ := hpredict hv hswap
    obtain ⟨s2, hs2, htr', -⟩ := htr.swap hp hafter
    obtain ⟨hpool, hocc⟩ := dlmmCacheGet_eq_some.mp hget
    have hcached : ∃ c', cachedAct poolIdx c (.swap ix) = some (c', some r) := by
      rw [cachedAct, hpred, Option.bind_some, dlmmCacheCommit, hpool]
      simp [hocc, htr'.occupied]
    obtain ⟨c', hc'⟩ := hcached
    obtain ⟨q, hq, htrq, hpq, -⟩ := cachedAct_sim ⟨h, hget, htr⟩ hp hc'
    have hqs : q = (s', some r) := by
      rw [fullAct, hswap] at hq
      exact (Option.some.inj hq).symm
    subst hqs
    exact ⟨_, hc', htrq, hpq, fun _ hr => hr⟩
  | peek ix =>
    rw [fullAct, Option.some.injEq] at hact
    subst hact
    refine ⟨_, rfl, ⟨h, hget, htr⟩, hp, ?_⟩
    intro r hr
    obtain ⟨⟨s', r'⟩, hswap, rfl⟩ := Option.map_eq_some_iff.mp hr
    have hv : ∀ id ∈ swapVisits s ix, InWindow center id := hvis
    obtain ⟨after, hpred, -⟩ := hpredict hv hswap
    simp only [hpred, Option.map_some]

/-- **The cache refines the full pool over whole runs.**  After
`dlmm_cache_put`, every run of the cache is a run of the full pool with the
same results, and after each of its actions the entry tracks the full state;
and every run of the full pool whose swaps visit only the window is a run of
the cache. -/
theorem cache_refines_full {c₀ c : DlmmCache} {poolIdx : Nat} {s : DlmmState}
    (hids : (s.bins.map (·.id)).Nodup) (hprices : ∀ b ∈ s.bins, b.price = 0)
    (hput : dlmmCachePut c₀ poolIdx s = some c) (acts : List CacheAct) :
    (∀ tr, runTrace (cachedAct poolIdx) c acts = some tr →
      ∃ full, runTrace fullAct s acts = some full ∧
        List.Forall₂ (fun p q => (∀ r, p.2 = some r → q.2 = some r) ∧
          CacheTracks poolIdx s.activeId p.1 q.1) tr full) ∧
    (∀ full, runTrace fullAct s acts = some full →
      AlongRun fullAct (fun s' a => ∀ id ∈ swapVisits s' a.ix, InWindow s.activeId id) s acts →
      ∃ tr, runTrace (cachedAct poolIdx) c acts = some tr ∧
        List.Forall₂ (fun q p => (∀ r, q.2 = some r → p.2 = some r) ∧
          CacheTracks poolIdx s.activeId p.1 q.1) full tr) := by
  have htr := hotOfState_tracks hids
  have hstart : CacheTracks poolIdx s.activeId c s :=
    ⟨hotOfState s, dlmmCachePut_get hput htr.occupied, htr⟩
  have hp : PricesDerived s.binStep s.bins := fun b hb => Or.inl (hprices b hb)
  constructor
  · intro tr hrun
    refine runTrace_sim (G := fun _ _ => True)
      (R := fun c s' => CacheTracks poolIdx s.activeId c s' ∧ PricesDerived s'.binStep s'.bins)
      ?_ acts c s tr ⟨hstart, hp⟩ (alongRun_of_forall (fun _ _ => trivial) acts c) hrun
    intro c1 s1 a p hR _ hact
    obtain ⟨q, hq, ht, hpq, hres⟩ := cachedAct_sim hR.1 hR.2 hact
    exact ⟨q, hq, ⟨ht, hpq⟩, hres, ht⟩
  · intro full hrun hvis
    refine runTrace_sim
      (R := fun s' c => CacheTracks poolIdx s.activeId c s' ∧ PricesDerived s'.binStep s'.bins)
      ?_ acts s c full ⟨hstart, hp⟩ hvis hrun
    intro s1 c1 a q hR hG hact
    obtain ⟨p, hpact, ht, hpq, hres⟩ := fullAct_sim hR.1 hR.2 hG hact
    exact ⟨p, hpact, ⟨ht, hpq⟩, hres, ht⟩

/-- Three bins, prices to be derived. -/
def demoWindow : DlmmState where
  activeId := 0
  binStep := 10
  status := 0
  parameters := { (default : DlmmStaticParams) with baseFactor := 10000 }
  vParameters := default
  reserveX := 1500
  reserveY := 1500
  bins := [⟨-1, 0, 1000, 0⟩, ⟨0, 500, 500, 0⟩, ⟨1, 1000, 0, 0⟩]
  nowTs := 0

/-- A dropped predict, a sell that leaves the active bin, and a buy back. -/
def demoActs : List CacheAct :=
  [.peek ⟨900, 0, 1⟩, .swap ⟨600, 0, 1⟩, .swap ⟨300, 0, 0⟩]

theorem cache_refines_full_demo :
    ∃ c tr full, dlmmCachePut ⟨[], 0⟩ 3 demoWindow = some c ∧
      runTrace (cachedAct 3) c demoActs = some tr ∧
      runTrace fullAct demoWindow demoActs = some full ∧
      List.Forall₂ (fun p q => (∀ r, p.2 = some r → q.2 = some r) ∧
        CacheTracks 3 demoWindow.activeId p.1 q.1) tr full ∧
      ∃ tr₁, runTrace (cachedAct 3) c [.swap ⟨600, 0, 1⟩] = some tr₁ := by
  have hids : (demoWindow.bins.map (·.id)).Nodup := by decide
  have hprices : ∀ b ∈ demoWindow.bins, b.price = 0 := by decide
  have hrun : ((dlmmCachePut ⟨[], 0⟩ 3 demoWindow).bind fun c =>
      runTrace (cachedAct 3) c demoActs).isSome = true := by decide +kernel
  obtain ⟨tr, hrun⟩ := Option.isSome_iff_exists.mp hrun
  obtain ⟨c, hput, htr⟩ := Option.bind_eq_some_iff.mp hrun
  obtain ⟨full, hfull, hall⟩ := (cache_refines_full hids hprices hput demoActs).1 tr htr
  have hone : (runTrace fullAct demoWindow [.swap ⟨600, 0, 1⟩]).isSome = true := by
    decide +kernel
  obtain ⟨full₁, hfull₁⟩ := Option.isSome_iff_exists.mp hone
  -- by a run over the list: the ids are too many to go through
  have hall₁ : ((swapVisits demoWindow ⟨600, 0, 1⟩).all fun id =>
      decide (InWindow demoWindow.activeId id)) = true := by
    decide +kernel
  have hvis : ∀ id ∈ swapVisits demoWindow ⟨600, 0, 1⟩, InWindow demoWindow.activeId id :=
    fun id hid => of_decide_eq_true (List.all_eq_true.mp hall₁ id hid)
  obtain ⟨tr₁, htr₁, -⟩ := (cache_refines_full hids hprices hput [.swap ⟨600, 0, 1⟩]).2
    full₁ hfull₁ ⟨hvis, fun _ _ => trivial⟩
  exact ⟨c, tr, full, hput, htr, hfull, hall, tr₁, htr₁⟩

end ShredArb.Dlmm
