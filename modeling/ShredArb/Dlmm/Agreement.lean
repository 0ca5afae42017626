/-
  ShredArb.Dlmm.Agreement — a swap sees a pool only through the bins it VISITS.

  Two states agree on a set of bin ids when they have the same fields and the
  same holdings at every id of the set; one may lack bins outside it, and one
  may have stored a price the other still has to derive.  `dlmmApplySwap_agree`:
  a swap that succeeds on one of them and visits only ids of the set succeeds
  on the other with the same result, and the states after it agree again.

  The relation is symmetric, so one lemma serves both directions of a
  refinement between a partial and a full copy of a pool.
-/
import ShredArb.Dlmm.Walk

namespace ShredArb.Dlmm

open ShredArb.Word ShredArb.Slots

/-! ## §1. What a lookup sees of a bin. -/

/-- The holdings of a bin, without its stored price. -/
structure Holding where
  id : Int32
  amountX : UInt64
  amountY : UInt64
  deriving DecidableEq, Repr

def DlmmBin.holding (b : DlmmBin) : Holding := ⟨b.id, b.amountX, b.amountY⟩

/-- The holdings of the bin with the id, if the array has it. -/
def holdingAt (bins : List DlmmBin) (id : Int32) : Option Holding :=
  (findBin bins id).map (·.holding)

/-- A stored price is the one the id and the bin step give. -/
def PricesDerived (step : UInt16) (bins : List DlmmBin) : Prop :=
  ∀ b ∈ bins, b.price = 0 ∨ dlmmPriceFromId b.id step = some b.price

theorem findBin_setBin (l : List DlmmBin) (b : DlmmBin) (id : Int32) :
    findBin (setBin l b) id
      = if b.id = id then (findBin l id).map fun _ => b else findBin l id := by
  rw [setBin_eq]
  exact findSlot_setSlot l b id

theorem holdingAt_setBin (l : List DlmmBin) (b : DlmmBin) (id : Int32) :
    holdingAt (setBin l b) id
      = if b.id = id then (holdingAt l id).map fun _ => b.holding else holdingAt l id := by
  rw [holdingAt, findBin_setBin, holdingAt]
  by_cases hid : b.id = id
  · rw [if_pos hid, if_pos hid, Option.map_map, Option.map_map]
    rfl
  · rw [if_neg hid, if_neg hid]

theorem mem_of_mem_setBin {l : List DlmmBin} {b c : DlmmBin} (hc : c ∈ setBin l b) :
    c = b ∨ c ∈ l := by
  rw [setBin_eq] at hc
  exact mem_of_mem_setSlot hc

theorem PricesDerived.setBin {step : UInt16} {l : List DlmmBin} {b : DlmmBin}
    (hl : PricesDerived step l) (hb : b.price = 0 ∨ dlmmPriceFromId b.id step = some b.price) :
    PricesDerived step (setBin l b) := by
  intro c hc
  rcases mem_of_mem_setBin hc with rfl | hc
  · exact hb
  · exact hl c hc

/-- With derived prices, `ensure_price` depends on the holdings alone. -/
theorem ensurePrice_derived {b : DlmmBin} {step : UInt16}
    (hb : b.price = 0 ∨ dlmmPriceFromId b.id step = some b.price) :
    ensurePrice b step = (dlmmPriceFromId b.id step).map
      fun p => ⟨b.holding.id, b.holding.amountX, b.holding.amountY, p⟩ := by
  unfold ensurePrice
  by_cases hp : b.price = 0
  · rw [if_neg (not_not_intro hp)]
    rfl
  · rw [if_pos hp, hb.resolve_left hp]
    rfl

/-! ## §2. States that agree on a set of ids. -/

/-- `t` and `s` have the same fields and, at every id of `P`, the same
holdings. -/
structure Agree (P : Int32 → Prop) (t s : DlmmState) : Prop where
  fields : t = { s with bins := t.bins }
  holdings : ∀ id, P id → holdingAt t.bins id = holdingAt s.bins id
  derivedL : PricesDerived s.binStep t.bins
  derivedR : PricesDerived s.binStep s.bins

theorem Agree.symm {P : Int32 → Prop} {t s : DlmmState} (h : Agree P t s) :
    Agree P s t := by
  obtain ⟨hf, hb, hl, hr⟩ := h
  have hstep : t.binStep = s.binStep := by rw [hf]
  refine ⟨?_, fun id hid => (hb id hid).symm, hstep ▸ hr, hstep ▸ hl⟩
  rw [hf]

/-- Writing the same bin in both keeps the agreement. -/
theorem Agree.setBin {P : Int32 → Prop} {t s : DlmmState} (h : Agree P t s) {b : DlmmBin}
    (hb : b.price = 0 ∨ dlmmPriceFromId b.id s.binStep = some b.price) :
    Agree P { t with bins := setBin t.bins b } { s with bins := setBin s.bins b } where
  fields := by rw [h.fields]
  holdings := by
    intro id hid
    show holdingAt (Dlmm.setBin t.bins b) id = holdingAt (Dlmm.setBin s.bins b) id
    rw [holdingAt_setBin, holdingAt_setBin, h.holdings id hid]
  derivedL := h.derivedL.setBin hb
  derivedR := h.derivedR.setBin hb

/-- A change of the fields that does not look at the bins keeps it. -/
theorem Agree.mapFields {P : Int32 → Prop} {t s : DlmmState} (h : Agree P t s)
    (f : DlmmState → DlmmState) (hbins : ∀ u l, f { u with bins := l } = { f u with bins := l })
    (hkeep : ∀ u, (f u).bins = u.bins) (hstep : ∀ u, (f u).binStep = u.binStep) :
    Agree P (f t) (f s) where
  fields := by
    have ht : f t = { f s with bins := t.bins } := by
      rw [← hbins, ← h.fields]
    rw [hkeep t]
    exact ht
  holdings := by
    intro id hid
    rw [hkeep, hkeep]
    exact h.holdings id hid
  derivedL := by
    rw [hkeep, hstep]
    exact h.derivedL
  derivedR := by
    rw [hkeep, hstep]
    exact h.derivedR

/-! ## §3. One iteration. -/

section Iteration

variable {P : Int32 → Prop} {t s : DlmmState}

theorem visitBin_agree (h : Agree P t s) (hP : P t.activeId) {v : DlmmState × DlmmBin}
    (hv : visitBin t = some v) :
    ∃ u, visitBin s = some (u, v.2) ∧ Agree P v.1 u ∧
      dlmmPriceFromId v.2.id u.binStep = some v.2.price := by
  unfold visitBin at hv
  simp only [Option.bind_eq_some_iff, Option.map_eq_some_iff] at hv
  obtain ⟨b, hfind, b', hprice, rfl⟩ := hv
  have hact : t.activeId = s.activeId := by rw [h.fields]
  have hstep : t.binStep = s.binStep := by rw [h.fields]
  -- the other state has a bin with the same holdings there
  have hlook : holdingAt s.bins s.activeId = some b.holding := by
    rw [← hact, ← h.holdings _ hP, holdingAt, hfind]
    rfl
  obtain ⟨d, hd, hdb⟩ := Option.map_eq_some_iff.mp hlook
  have hb := h.derivedL b (List.mem_of_find?_eq_some hfind)
  have hdd := h.derivedR d (List.mem_of_find?_eq_some hd)
  have hdb' : d.id = b.id := congrArg Holding.id hdb
  rw [hstep, ensurePrice_derived hb] at hprice
  have hprice' : ensurePrice d s.binStep = some b' := by
    rw [ensurePrice_derived hdd, hdb, hdb']
    exact hprice
  obtain ⟨p, hp, hpb⟩ := Option.map_eq_some_iff.mp hprice
  have hder : dlmmPriceFromId b'.id s.binStep = some b'.price := by
    rw [← hpb]
    exact hp
  refine ⟨updateVolatility { s with bins := setBin s.bins b' }, ?_, ?_, ?_⟩
  · rw [visitBin, hd, Option.bind_some, hprice']
    rfl
  · exact (h.setBin (Or.inr hder)).mapFields updateVolatility
      (fun _ _ => rfl) (fun _ => rfl) (fun _ => rfl)
  · exact hder

theorem takeFill_agree (h : Agree P t s) (bin : DlmmBin) (left : Nat) (foi sfy : Bool) :
    takeFill t bin left foi sfy = takeFill s bin left foi sfy := by
  rw [h.fields]
  rfl

theorem bookFill_agree (h : Agree P t s) {bin : DlmmBin} {f : BinFill} {sfy : Bool}
    (hp : dlmmPriceFromId bin.id s.binStep = some bin.price) {t' : DlmmState}
    (ht : bookFill t bin f sfy = some t') :
    ∃ s', bookFill s bin f sfy = some s' ∧ Agree P t' s' := by
  unfold bookFill at ht ⊢
  simp only at ht ⊢
  cases sfy with
  | true =>
    simp only [if_true] at ht ⊢
    by_cases hlt : bin.amountY.toNat < f.outAmt
    · rw [if_pos hlt] at ht
      exact absurd ht (by simp)
    · rw [if_neg hlt] at ht ⊢
      refine ⟨_, rfl, ?_⟩
      rw [← Option.some.inj ht]
      have hset := h.setBin (b := ⟨bin.id, bin.amountX + UInt64.ofNat f.intoBin,
        bin.amountY - UInt64.ofNat f.outAmt, bin.price⟩) (Or.inr hp)
      exact hset.mapFields (fun u => { u with
        reserveX := u.reserveX + UInt64.ofNat f.intoBin
        reserveY := u.reserveY - UInt64.ofNat f.outAmt })
        (fun _ _ => rfl) (fun _ => rfl) (fun _ => rfl)
  | false =>
    simp only [Bool.false_eq_true, if_false] at ht ⊢
    by_cases hlt : bin.amountX.toNat < f.outAmt
    · rw [if_pos hlt] at ht
      exact absurd ht (by simp)
    · rw [if_neg hlt] at ht ⊢
      refine ⟨_, rfl, ?_⟩
      rw [← Option.some.inj ht]
      have hset := h.setBin (b := ⟨bin.id, bin.amountX - UInt64.ofNat f.outAmt,
        bin.amountY + UInt64.ofNat f.intoBin, bin.price⟩) (Or.inr hp)
      exact hset.mapFields (fun u => { u with
        reserveX := u.reserveX - UInt64.ofNat f.outAmt
        reserveY := u.reserveY + UInt64.ofNat f.intoBin })
        (fun _ _ => rfl) (fun _ => rfl) (fun _ => rfl)

theorem stepActive_agree (h : Agree P t s) {sfy : Bool} {t' : DlmmState}
    (ht : stepActive t sfy = some t') :
    ∃ s', stepActive s sfy = some s' ∧ Agree P t' s' := by
  have hact : t.activeId = s.activeId := by rw [h.fields]
  have hmove : ∀ a : Int32, Agree P { t with activeId := a } { s with activeId := a } :=
    fun a => h.mapFields (fun u => { u with activeId := a })
      (fun _ _ => rfl) (fun _ => rfl) (fun _ => rfl)
  unfold stepActive at ht ⊢
  rw [hact] at ht
  split at ht
  · rename_i hsfy
    rw [if_pos hsfy]
    split at ht
    · exact absurd ht (by simp)
    · rename_i hmin
      rw [if_neg hmin, ← Option.some.inj ht]
      exact ⟨_, rfl, hmove _⟩
  · rename_i hsfy
    rw [if_neg hsfy]
    split at ht
    · exact absurd ht (by simp)
    · rename_i hmax
      rw [if_neg hmax, ← Option.some.inj ht]
      exact ⟨_, rfl, hmove _⟩

end Iteration

/-- Two walks that agree: their states do, their amounts are equal. -/
structure WalkAgree (P : Int32 → Prop) (w v : Walk) : Prop where
  after : Agree P w.after v.after
  amounts : w = { v with after := w.after }

/-- **One iteration of the loop sees the active bin only.** -/
theorem walkStep_agree {P : Int32 → Prop} {foi sfy : Bool} {w v w' : Walk}
    (h : WalkAgree P w v) (hP : P w.after.activeId) (hw : walkStep foi sfy w = some w') :
    ∃ v', walkStep foi sfy v = some v' ∧ WalkAgree P w' v' := by
  have hleft : w.left = v.left := by rw [h.amounts]
  unfold walkStep at hw
  simp only [Option.bind_eq_some_iff] at hw
  obtain ⟨x, hx, f, hf, s1, hs1, hw⟩ := hw
  obtain ⟨y, hy, hxy, hder⟩ := visitBin_agree h.after hP hx
  rw [takeFill_agree hxy, hleft] at hf
  obtain ⟨s2, hs2, hs12⟩ := bookFill_agree hxy hder hs1
  by_cases hinc : f.included > w.left
  · rw [if_pos hinc] at hw
    exact absurd hw (by simp)
  · rw [if_neg hinc] at hw
    simp only [Option.map_eq_some_iff] at hw
    obtain ⟨s3, hs3, rfl⟩ := hw
    have hmove : ∃ s4, (if v.left - f.included > 0 then stepActive s2 sfy else some s2)
        = some s4 ∧ Agree P s3 s4 := by
      rw [hleft] at hs3
      split at hs3
      · rename_i hpos
        rw [if_pos hpos]
        exact stepActive_agree hs12 hs3
      · rename_i hpos
        rw [if_neg hpos, ← Option.some.inj hs3]
        exact ⟨s2, rfl, hs12⟩
    obtain ⟨s4, hs4, hs34⟩ := hmove
    refine ⟨⟨s4, v.left - f.included, wrap64 (v.totalIn + f.included),
        wrap64 (v.totalOut + f.outAmt), wrap64 (v.totalFee + f.fee),
        wrap64 (v.totalProto + f.proto)⟩, ?_, ⟨hs34, ?_⟩⟩
    · rw [walkStep, hy, Option.bind_some]
      simp only
      rw [hf, Option.bind_some, hs2, Option.bind_some, if_neg (hleft ▸ hinc), hs4]
      rfl
    · rw [h.amounts]

/-! ## §4. A whole swap. -/

/-- The ids the loop looks up, in order. -/
def walkVisits (foi sfy : Bool) : Nat → Walk → List Int32
  | 0, _ => []
  | n + 1, w =>
      if w.left = 0 then []
      else w.after.activeId ::
        ((walkStep foi sfy w).map (walkVisits foi sfy n)).getD []

/-- The bins a swap visits. -/
def swapVisits (before : DlmmState) (ix : DlmmSwapIx) : List Int32 :=
  let sfy := ix.swapForY != 0
  walkVisits (feeOnInput (updateReferences before) sfy) sfy 256 (walkInit before ix)

theorem walkLoop_agree {P : Int32 → Prop} {foi sfy : Bool} :
    ∀ (n : Nat) {w v w' : Walk}, WalkAgree P w v →
      (∀ id ∈ walkVisits foi sfy n w, P id) → walkLoop foi sfy n w = some w' →
      ∃ v', walkLoop foi sfy n v = some v' ∧ WalkAgree P w' v' := by
  intro n
  induction n with
  | zero =>
    intro w v w' h _ hw
    rw [walkLoop, Option.some.injEq] at hw
    subst hw
    exact ⟨v, rfl, h⟩
  | succ n ih =>
    intro w v w' h hvis hw
    have hleft : w.left = v.left := by rw [h.amounts]
    unfold walkLoop at hw ⊢
    by_cases h0 : w.left = 0
    · rw [if_pos h0, Option.some.injEq] at hw
      subst hw
      exact ⟨v, if_pos (hleft ▸ h0), h⟩
    · rw [if_neg h0, Option.bind_eq_some_iff] at hw
      obtain ⟨w1, hw1, hw⟩ := hw
      rw [walkVisits, if_neg h0, hw1, Option.map_some, Option.getD_some] at hvis
      obtain ⟨v1, hv1, h1⟩ := walkStep_agree h (hvis _ List.mem_cons_self) hw1
      obtain ⟨v', hv', h'⟩ := ih h1 (fun id hid => hvis id (List.mem_cons_of_mem _ hid)) hw
      refine ⟨v', ?_, h'⟩
      rw [if_neg (hleft ▸ h0), hv1, Option.bind_some, hv']

/-- `update_references` rewrites the volatility fields, or nothing. -/
theorem updateReferences_eq (s : DlmmState) :
    updateReferences s = { s with vParameters := (updateReferences s).vParameters } := by
  unfold updateReferences
  simp only
  split <;> rfl

theorem updateReferences_bins (s : DlmmState) : (updateReferences s).bins = s.bins := by
  rw [updateReferences_eq]

theorem updateReferences_binStep (s : DlmmState) :
    (updateReferences s).binStep = s.binStep := by
  rw [updateReferences_eq]

theorem updateReferences_parameters (s : DlmmState) :
    (updateReferences s).parameters = s.parameters := by
  rw [updateReferences_eq]

theorem updateReferences_withBins (s : DlmmState) (l : List DlmmBin) :
    updateReferences { s with bins := l } = { updateReferences s with bins := l } := by
  unfold updateReferences
  simp only
  split
  · rfl
  · rfl

/-- **A swap that visits only ids of `P` cannot tell two states apart that
agree on `P`.** -/
theorem dlmmApplySwap_agree {P : Int32 → Prop} {t s t' : DlmmState} {ix : DlmmSwapIx}
    {r : DlmmApplyResult} (h : Agree P t s) (hvis : ∀ id ∈ swapVisits t ix, P id)
    (ht : dlmmApplySwap t ix = some (t', r)) :
    ∃ s', dlmmApplySwap s ix = some (s', r) ∧ Agree P t' s' := by
  have hstatus : t.status = s.status := by rw [h.fields]
  have hrefs : Agree P (updateReferences t) (updateReferences s) :=
    h.mapFields updateReferences updateReferences_withBins updateReferences_bins
      updateReferences_binStep
  have hfoi : ∀ sfy, feeOnInput (updateReferences t) sfy
      = feeOnInput (updateReferences s) sfy := by
    intro sfy
    have hpar : t.parameters = s.parameters := by rw [h.fields]
    unfold feeOnInput
    rw [updateReferences_parameters, updateReferences_parameters, hpar]
  unfold swapVisits at hvis
  unfold dlmmApplySwap at ht ⊢
  by_cases hbad : t.status ≠ 0 ∨ ix.amountIn = 0
  · rw [if_pos hbad] at ht
    exact absurd ht (by simp)
  · rw [if_neg hbad] at ht
    rw [if_neg (hstatus ▸ hbad)]
    simp only [Option.bind_eq_some_iff] at ht ⊢
    obtain ⟨w, hw, ht⟩ := ht
    have hinit : WalkAgree P (walkInit t ix) (walkInit s ix) := ⟨hrefs, rfl⟩
    obtain ⟨v, hv, hwv⟩ := walkLoop_agree 256 hinit hvis hw
    rw [hfoi] at hv
    have hleft : w.left = v.left := by rw [hwv.amounts]
    have hout : w.totalOut = v.totalOut := by rw [hwv.amounts]
    have hact : w.after.activeId = v.after.activeId := by rw [hwv.after.fields]
    refine ⟨v.after, ⟨v, hv, ?_⟩, ?_⟩
    · split at ht
      · exact absurd ht (by simp)
      · rename_i hl
        split at ht
        · exact absurd ht (by simp)
        · rename_i hm
          rw [if_neg (hleft ▸ hl), if_neg (hout ▸ hm)]
          simp only [Option.some.injEq, Prod.mk.injEq] at ht ⊢
          refine ⟨trivial, ?_⟩
          rw [← ht.2, ← hact, hwv.amounts]
    · split at ht
      · exact absurd ht (by simp)
      · split at ht
        · exact absurd ht (by simp)
        · simp only [Option.some.injEq, Prod.mk.injEq] at ht
          rw [← ht.1]
          exact hwv.after

/-! ## §5. The walk stays on the bins of the state. -/

theorem bookFill_bins {s s' : DlmmState} {bin : DlmmBin} {f : BinFill} {sfy : Bool}
    (h : bookFill s bin f sfy = some s') : s'.bins.map (·.id) = s.bins.map (·.id) := by
  obtain ⟨bin', hbins, -⟩ := bookFill_spec h
  rw [hbins, setBin_ids]

theorem walkStep_ids {foi sfy : Bool} {w w' : Walk} (h : walkStep foi sfy w = some w') :
    w.after.activeId ∈ w.after.bins.map (·.id) ∧
      w'.after.bins.map (·.id) = w.after.bins.map (·.id) := by
  unfold walkStep at h
  simp only [Option.bind_eq_some_iff] at h
  obtain ⟨v, hv, f, -, s, hs, h⟩ := h
  unfold visitBin at hv
  simp only [Option.bind_eq_some_iff, Option.map_eq_some_iff] at hv
  obtain ⟨bin, hfind, pbin, hprice, rfl⟩ := hv
  refine ⟨List.mem_map.mpr ⟨bin, List.mem_of_find?_eq_some hfind, findBin_id hfind⟩, ?_⟩
  have hids : s.bins.map (·.id) = w.after.bins.map (·.id) := by
    rw [bookFill_bins hs]
    exact setBin_ids _ _
  split at h
  · exact absurd h (by simp)
  · simp only [Option.map_eq_some_iff] at h
    obtain ⟨s2, hs2, rfl⟩ := h
    show s2.bins.map (·.id) = _
    rw [← hids]
    split at hs2
    · rw [(stepActive_spec hs2).1]
    · rw [Option.some.inj hs2]

theorem walkLoop_ids {foi sfy : Bool} : ∀ (n : Nat) {w w' : Walk},
    walkLoop foi sfy n w = some w' →
      (∀ id ∈ walkVisits foi sfy n w, id ∈ w.after.bins.map (·.id)) ∧
      w'.after.bins.map (·.id) = w.after.bins.map (·.id) := by
  intro n
  induction n with
  | zero =>
    intro w w' h
    rw [walkLoop, Option.some.injEq] at h
    subst h
    exact ⟨fun id hid => absurd hid (by simp [walkVisits]), rfl⟩
  | succ n ih =>
    intro w w' h
    unfold walkLoop at h
    by_cases h0 : w.left = 0
    · rw [if_pos h0, Option.some.injEq] at h
      subst h
      exact ⟨fun id hid => absurd hid (by simp [walkVisits, h0]), rfl⟩
    · rw [if_neg h0, Option.bind_eq_some_iff] at h
      obtain ⟨w1, hw1, h⟩ := h
      obtain ⟨hact, hids⟩ := walkStep_ids hw1
      obtain ⟨hvis, hids'⟩ := ih h
      refine ⟨?_, hids'.trans hids⟩
      intro id hid
      rw [walkVisits, if_neg h0, hw1, Option.map_some, Option.getD_some] at hid
      rcases List.mem_cons.mp hid with rfl | hid
      · exact hact
      · rw [← hids]
        exact hvis id hid

/-- A successful swap visits bins the state has, and keeps their ids. -/
theorem dlmmApplySwap_ids {s s' : DlmmState} {ix : DlmmSwapIx} {r : DlmmApplyResult}
    (h : dlmmApplySwap s ix = some (s', r)) :
    (∀ id ∈ swapVisits s ix, id ∈ s.bins.map (·.id)) ∧
      s'.bins.map (·.id) = s.bins.map (·.id) := by
  unfold dlmmApplySwap at h
  split at h
  · exact absurd h (by simp)
  · simp only [Option.bind_eq_some_iff] at h
    obtain ⟨w, hw, h⟩ := h
    obtain ⟨hvis, hids⟩ := walkLoop_ids 256 hw
    have hinit : (walkInit s ix).after.bins = s.bins := updateReferences_bins s
    rw [hinit] at hvis hids
    refine ⟨hvis, ?_⟩
    split at h
    · exact absurd h (by simp)
    · split at h
      · exact absurd h (by simp)
      · simp only [Option.some.injEq, Prod.mk.injEq] at h
        rw [← h.1]
        exact hids

end ShredArb.Dlmm
