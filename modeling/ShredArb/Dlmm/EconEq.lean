/-
  ShredArb.Dlmm.EconEq — economic equality of hot entries (`dlmm_hot_econ_eq`
  of `arb-core/src/dex/dlmm_cache.c`) and what it says about quotes.

  The comparison reads eight scalars and the LIVE bins.  It does not read the
  static parameters or the clock, and both reach the fee; a quote sees of the
  clock only how much the volatility reference has decayed.

  An entry that nobody initialised holds any bytes, so a live flag is a byte
  here (`RawHot`); the entries of the cache are the raw ones with flags 0 and 1.

  Main results:
    * `rawIntoHot_raw` — the raw conversion is the cache's,
    * `dlmmHotToState_of_econEq` — equal entries differ in parameters and clock,
    * `dlmmQuoteExactIn_withClock` — the clock enters by its decay class.
-/
import ShredArb.Dlmm.Cache

namespace ShredArb.Dlmm

/-! ## §1. Raw entries. -/

/-- A `dlmm_pool_hot_t` of any bytes, as far as it is read. -/
structure RawHot where
  status : UInt8
  binStep : UInt16
  activeId : Int32
  windowCenter : Int32
  parameters : DlmmStaticParams
  vParameters : DlmmVParams
  reserveX : UInt64
  reserveY : UInt64
  nowTs : Int64
  bin : Fin dlmmCacheWindow → DlmmHotBin
  live : Fin dlmmCacheWindow → UInt8
  deriving DecidableEq

/-- The entry of the cache as bytes. -/
def DlmmPoolHot.raw (h : DlmmPoolHot) : RawHot where
  status := h.status
  binStep := h.binStep
  activeId := h.activeId
  windowCenter := h.windowCenter
  parameters := h.parameters
  vParameters := h.vParameters
  reserveX := h.reserveX
  reserveY := h.reserveY
  nowTs := h.nowTs
  bin := h.bin
  live := fun i => if h.live i then 1 else 0

/-- `dlmm_hot_slot`, which reads the centre of the window only. -/
def slotAround (center : Int32) (id : Int32) : Option (Fin dlmmCacheWindow) :=
  dlmmHotSlot { DlmmPoolHot.zero with windowCenter := center } id

/-- One turn of the loop of `dlmm_state_into_hot`. -/
def rawStoreBin (h : RawHot) (b : DlmmBin) : RawHot :=
  match slotAround h.windowCenter b.id with
  | none => h
  | some i => { h with
      bin := Function.update h.bin i ⟨b.id, b.amountX, b.amountY⟩
      live := Function.update h.live i 1 }

/-- `dlmm_state_into_hot`, into an entry of any bytes. -/
def rawIntoHot (s : DlmmState) (h : RawHot) : RawHot :=
  s.bins.foldl rawStoreBin { h with
    activeId := s.activeId
    binStep := s.binStep
    status := s.status
    parameters := s.parameters
    vParameters := s.vParameters
    reserveX := s.reserveX
    reserveY := s.reserveY
    nowTs := s.nowTs }

/-- The scalars `dlmm_hot_econ_eq` compares. -/
def scalarsEq (a b : RawHot) : Bool :=
  a.activeId == b.activeId && a.binStep == b.binStep && a.status == b.status &&
  a.reserveX == b.reserveX && a.reserveY == b.reserveY &&
  a.vParameters.volatilityAccumulator == b.vParameters.volatilityAccumulator &&
  a.vParameters.volatilityReference == b.vParameters.volatilityReference &&
  a.vParameters.indexReference == b.vParameters.indexReference

/-- One turn of its loop: the flags, and the bin when it is live. -/
def slotEq (a b : RawHot) (i : Fin dlmmCacheWindow) : Bool :=
  a.live i == b.live i && (a.live i == 0 || a.bin i == b.bin i)

/-- `dlmm_hot_econ_eq`. -/
def rawEconEq (a b : RawHot) : Bool :=
  scalarsEq a b && (List.finRange dlmmCacheWindow).all (slotEq a b)

/-- `dlmm_hot_econ_eq` on two entries of the cache. -/
def dlmmHotEconEq (a b : DlmmPoolHot) : Bool := rawEconEq a.raw b.raw

theorem rawEconEq_iff {a b : RawHot} :
    rawEconEq a b = true ↔ scalarsEq a b = true ∧
      ∀ i, a.live i = b.live i ∧ (a.live i ≠ 0 → a.bin i = b.bin i) := by
  have hslot : ∀ i, slotEq a b i = true ↔
      a.live i = b.live i ∧ (a.live i ≠ 0 → a.bin i = b.bin i) := by
    intro i
    rw [slotEq, Bool.and_eq_true, Bool.or_eq_true, beq_iff_eq, beq_iff_eq, beq_iff_eq, or_iff_not_imp_left]
  rw [rawEconEq, Bool.and_eq_true, List.all_eq_true]
  exact and_congr_right fun _ =>
    ⟨fun h i => (hslot i).mp (h i (List.mem_finRange i)), fun h i _ => (hslot i).mpr (h i)⟩

/-! ## §2. The conversion. -/

theorem dlmmHotSlot_eq (h : DlmmPoolHot) (id : Int32) :
    dlmmHotSlot h id = slotAround h.windowCenter id := rfl

theorem rawStoreBin_raw (h : DlmmPoolHot) (b : DlmmBin) : rawStoreBin h.raw b = (storeBin h b).raw := by
  unfold rawStoreBin storeBin
  rw [dlmmHotSlot_eq]
  show (match slotAround h.windowCenter b.id with | none => _ | some i => _) = _
  cases slotAround h.windowCenter b.id with
  | none => rfl
  | some i =>
    have hlive : Function.update h.raw.live i 1
        = fun j => if Function.update h.live i true j then (1 : UInt8) else 0 := by
      funext j
      by_cases hj : j = i
      · rw [hj, Function.update_self, Function.update_self, if_pos rfl]
      · rw [Function.update_of_ne hj, Function.update_of_ne hj]
        rfl
    simp only [hlive]
    rfl

/-- **The raw conversion is the cache's.** -/
theorem rawIntoHot_raw (s : DlmmState) (h : DlmmPoolHot) :
    rawIntoHot s h.raw = (dlmmStateIntoHot s h).raw := by
  have hfold : ∀ (bins : List DlmmBin) (h : DlmmPoolHot),
      bins.foldl rawStoreBin h.raw = (bins.foldl storeBin h).raw := by
    intro bins
    induction bins with
    | nil => intro h; rfl
    | cons b bins ih =>
      intro h
      rw [List.foldl_cons, List.foldl_cons, rawStoreBin_raw]
      exact ih (storeBin h b)
  exact hfold s.bins { h with
    activeId := s.activeId
    binStep := s.binStep
    status := s.status
    parameters := s.parameters
    vParameters := s.vParameters
    reserveX := s.reserveX
    reserveY := s.reserveY
    nowTs := s.nowTs }

/-- Bins outside the window leave the slots alone. -/
theorem rawIntoHot_outside {s : DlmmState} {h : RawHot}
    (hout : ∀ b ∈ s.bins, slotAround h.windowCenter b.id = none) :
    rawIntoHot s h = { h with
      activeId := s.activeId
      binStep := s.binStep
      status := s.status
      parameters := s.parameters
      vParameters := s.vParameters
      reserveX := s.reserveX
      reserveY := s.reserveY
      nowTs := s.nowTs } := by
  have hfold : ∀ (bins : List DlmmBin) (h : RawHot),
      (∀ b ∈ bins, slotAround h.windowCenter b.id = none) → bins.foldl rawStoreBin h = h := by
    intro bins
    induction bins with
    | nil => intro h _; rfl
    | cons b bins ih =>
      intro h hb
      have hkeep : rawStoreBin h b = h := by rw [rawStoreBin, hb b List.mem_cons_self]
      rw [List.foldl_cons, hkeep]
      exact ih h fun c hc => hb c (List.mem_cons_of_mem _ hc)
  exact hfold s.bins _ hout

/-- The scalars come from the state, whatever was in the entry. -/
theorem scalarsEq_rawIntoHot (a : RawHot) (s : DlmmState) (h h' : RawHot) :
    scalarsEq a (rawIntoHot s h) = scalarsEq a (rawIntoHot s h') := by
  have hstore : ∀ (h : RawHot) (b : DlmmBin), scalarsEq a (rawStoreBin h b) = scalarsEq a h := by
    intro h b
    unfold rawStoreBin
    split <;> rfl
  have hfold : ∀ (bins : List DlmmBin) (h : RawHot),
      scalarsEq a (bins.foldl rawStoreBin h) = scalarsEq a h := by
    intro bins
    induction bins with
    | nil => intro h; rfl
    | cons b bins ih =>
      intro h
      rw [List.foldl_cons, ih, hstore]
  rw [rawIntoHot, rawIntoHot, hfold, hfold]
  rfl

/-- What `dlmm_cache_put` installs is, to the comparison, the state written into
a cleared entry around its active bin. -/
theorem rawEconEq_hotOfState (a : RawHot) (s : DlmmState) :
    rawEconEq a (hotOfState s).raw = rawEconEq a (rawIntoHot s
      ({ DlmmPoolHot.zero with occupied := true, windowCenter := s.activeId } : DlmmPoolHot).raw) := by
  rw [rawIntoHot_raw, Bool.eq_iff_iff, rawEconEq_iff, rawEconEq_iff]
  refine and_congr Iff.rfl (forall_congr' fun i => and_congr_right fun hl => imp_congr_right fun hne => ?_)
  -- only the ids of dead slots differ, and those are not read
  have hlive : (dlmmStateIntoHot s
      { DlmmPoolHot.zero with occupied := true, windowCenter := s.activeId }).live i = true := by
    by_contra hdead
    apply hne
    rw [hl]
    exact if_neg hdead
  have hbin : (hotOfState s).raw.bin i = (dlmmStateIntoHot s
      { DlmmPoolHot.zero with occupied := true, windowCenter := s.activeId }).raw.bin i := if_pos hlive
  rw [hbin]

/-! ## §3. The clock. -/

/-- The state with another clock: `now_ts` and the time of the last update. -/
def DlmmState.withClock (now last : Int64) (s : DlmmState) : DlmmState :=
  { s with nowTs := now, vParameters := { s.vParameters with lastUpdateTimestamp := last } }

/-- How much `update_references` decays: not yet, by the reduction factor, or to
nothing. -/
def decayClass (s : DlmmState) : Bool × Bool :=
  let elapsed := s.nowTs.toInt - s.vParameters.lastUpdateTimestamp.toInt
  (decide (elapsed ≥ s.parameters.filterPeriod.toNat),
    decide (elapsed ≥ s.parameters.filterPeriod.toNat ∧ elapsed < s.parameters.decayPeriod.toNat))

section Clock

variable {now last : Int64}

theorem updateReferences_withClock {s : DlmmState}
    (h : decayClass (s.withClock now last) = decayClass s) :
    updateReferences (s.withClock now last) = (updateReferences s).withClock now last := by
  obtain ⟨hfilter, hdecay⟩ := Prod.mk.inj h
  have hfilter' := decide_eq_decide.mp hfilter
  have hdecay' := decide_eq_decide.mp hdecay
  unfold updateReferences
  by_cases hf : s.nowTs.toInt - s.vParameters.lastUpdateTimestamp.toInt ≥ s.parameters.filterPeriod.toNat
  · simp only [if_pos hf, if_pos (hfilter'.mpr hf)]
    by_cases hd : s.nowTs.toInt - s.vParameters.lastUpdateTimestamp.toInt < s.parameters.decayPeriod.toNat
    · simp only [if_pos hd, if_pos (hdecay'.mpr ⟨hf, hd⟩).2]
      rfl
    · have hd' := fun h' => hd (hdecay'.mp ⟨hfilter'.mpr hf, h'⟩).2
      simp only [if_neg hd, if_neg hd']
      rfl
  · simp only [if_neg hf, if_neg fun h' => hf (hfilter'.mp h')]

theorem visitBin_withClock (s : DlmmState) :
    visitBin (s.withClock now last)
      = (visitBin s).map fun v => (v.1.withClock now last, v.2) := by
  show ((findBin s.bins s.activeId).bind fun bin => _) = _
  unfold visitBin
  cases findBin s.bins s.activeId with
  | none => rfl
  | some bin =>
    rw [Option.bind_some, Option.bind_some, Option.map_map]
    rfl

theorem bookFill_withClock (s : DlmmState) (bin : DlmmBin) (f : BinFill) (sfy : Bool) :
    bookFill (s.withClock now last) bin f sfy
      = (bookFill s bin f sfy).map (DlmmState.withClock now last) := by
  unfold bookFill
  split <;> split <;> rfl

theorem stepActive_withClock (s : DlmmState) (sfy : Bool) :
    stepActive (s.withClock now last) sfy
      = (stepActive s sfy).map (DlmmState.withClock now last) := by
  unfold stepActive
  show (if sfy then (if s.activeId.toInt ≤ _ then _ else _) else (if s.activeId.toInt ≥ _ then _ else _)) = _
  split <;> split <;> rfl

/-- The loop variables with another clock. -/
def Walk.withClock (now last : Int64) (w : Walk) : Walk :=
  { w with after := w.after.withClock now last }

theorem walkStep_withClock (foi sfy : Bool) (w : Walk) :
    walkStep foi sfy (w.withClock now last) = (walkStep foi sfy w).map (Walk.withClock now last) := by
  show ((visitBin (w.after.withClock now last)).bind fun v => _) = _
  unfold walkStep
  rw [visitBin_withClock, Option.bind_map]
  cases visitBin w.after with
  | none => rfl
  | some v =>
    rw [Option.bind_some, Option.bind_some, Function.comp_apply]
    show ((takeFill v.1 v.2 w.left foi sfy).bind fun f => _) = _
    cases takeFill v.1 v.2 w.left foi sfy with
    | none => rfl
    | some f =>
      rw [Option.bind_some, Option.bind_some, bookFill_withClock, Option.bind_map]
      cases bookFill v.1 v.2 f sfy with
      | none => rfl
      | some s =>
        rw [Option.bind_some, Option.bind_some, Function.comp_apply]
        show (if f.included > w.left then _ else _) = Option.map _ (if f.included > w.left then _ else _)
        split
        · rfl
        · by_cases hleft : w.left - f.included > 0
          · have hleft' : (w.withClock now last).left - f.included > 0 := hleft
            simp only [if_pos hleft, if_pos hleft', stepActive_withClock, Option.map_map]
            rfl
          · have hleft' : ¬ (w.withClock now last).left - f.included > 0 := hleft
            simp only [if_neg hleft, if_neg hleft', Option.map_some]
            rfl

theorem walkLoop_withClock (foi sfy : Bool) : ∀ (n : Nat) (w : Walk),
    walkLoop foi sfy n (w.withClock now last) = (walkLoop foi sfy n w).map (Walk.withClock now last) := by
  intro n
  induction n with
  | zero => intro w; rfl
  | succ n ih =>
    intro w
    unfold walkLoop
    show (if w.left = 0 then _ else _) = _
    split
    · rfl
    · rw [walkStep_withClock, Option.bind_map]
      cases walkStep foi sfy w with
      | none => rfl
      | some w' => exact ih w'

/-- **A quote sees of the clock its decay class.** -/
theorem dlmmQuoteExactIn_withClock {s : DlmmState}
    (h : decayClass (s.withClock now last) = decayClass s) (ain : UInt64) (sfy : UInt8) :
    dlmmQuoteExactIn (s.withClock now last) ain sfy = dlmmQuoteExactIn s ain sfy := by
  have hswap : ∀ ix, dlmmApplySwap (s.withClock now last) ix
      = (dlmmApplySwap s ix).map fun r => (r.1.withClock now last, r.2) := by
    intro ix
    have hinit : walkInit (s.withClock now last) ix = (walkInit s ix).withClock now last := by
      rw [walkInit, updateReferences_withClock h]
      rfl
    have hfoi : feeOnInput (updateReferences (s.withClock now last)) (ix.swapForY != 0)
        = feeOnInput (updateReferences s) (ix.swapForY != 0) := by
      rw [updateReferences_withClock h]
      rfl
    unfold dlmmApplySwap
    show (if s.status ≠ 0 ∨ ix.amountIn = 0 then _ else _) = _
    split
    · rfl
    · simp only [hinit, hfoi, walkLoop_withClock, Option.bind_map]
      cases walkLoop (feeOnInput (updateReferences s) (ix.swapForY != 0)) (ix.swapForY != 0) 256
          (walkInit s ix) with
      | none => rfl
      | some w =>
        rw [Option.bind_some, Option.bind_some, Function.comp_apply]
        show (if w.left > 0 then _ else if w.totalOut < _ then _ else _) = _
        split
        · rfl
        · split <;> rfl
  unfold dlmmQuoteExactIn
  split
  · rfl
  · simp only [hswap, Option.map_map]
    rfl

end Clock

/-! ## §4. Equal entries. -/

/-- **Economically equal entries with the same static parameters give states that
differ in the clock only.** -/
theorem dlmmHotToState_of_econEq {a b : DlmmPoolHot} (h : dlmmHotEconEq a b = true)
    (hparams : a.parameters = b.parameters) :
    dlmmHotToState a
      = (dlmmHotToState b).withClock a.nowTs a.vParameters.lastUpdateTimestamp := by
  obtain ⟨hscalars, hslots⟩ := rawEconEq_iff.mp h
  simp only [scalarsEq, Bool.and_eq_true, beq_iff_eq, DlmmPoolHot.raw] at hscalars
  obtain ⟨⟨⟨⟨⟨⟨⟨hact, hstep⟩, hstat⟩, hrx⟩, hry⟩, hacc⟩, hvref⟩, hidx⟩ := hscalars
  have hbins : hotBinAt a = hotBinAt b := by
    funext i
    obtain ⟨hl, hb⟩ := hslots i
    unfold hotBinAt
    cases hal : a.live i <;> cases hbl : b.live i <;>
      simp only [DlmmPoolHot.raw, hal, hbl, if_true, if_false, Bool.false_eq_true] at hl hb ⊢
    · exact absurd hl (by decide)
    · exact absurd hl (by decide)
    · rw [hb (by decide)]
  have hv : a.vParameters = { b.vParameters with
      lastUpdateTimestamp := a.vParameters.lastUpdateTimestamp } := by
    simp only [← hacc, ← hvref, ← hidx]
  unfold dlmmHotToState DlmmState.withClock
  simp only [hact, hstep, hstat, hparams, hrx, hry, hbins]
  rw [← hv]

end ShredArb.Dlmm
