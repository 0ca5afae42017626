/-
  ShredArb.Dlmm.OrderPlain — the order-aware engine EXTENDS the plain one.

  Where a swap meets no order on the side it consumes, the second and third
  fill of every bin pass the amount on untouched.  The order-aware engine books
  its bin from the FILL, the plain one from `included − fee`; with the fee on
  the input the two are one amount, at the last bin of a walk and at a bin the
  walk exhausts.

  The simulation is the map `plain`: an iteration of the one engine is mapped
  to an iteration of the other, failures to failures.

  Main results:
    * `oTakeFill_plain` — the amounts of an iteration agree.
    * `oWalkStep_plain` — the iterations agree.
    * `dlmmOApplySwap_plain` — the swaps agree, results and after-states.
-/
import ShredArb.Dlmm.OrderTurn

namespace ShredArb.Dlmm

open ShredArb.Word ShredArb.Slots

/-! ## §1. Bins without orders in reach. -/

/-- The price is set, and no order of the bin faces the swap. -/
def Orderless (sfy on : Bool) (b : DlmmOBin) : Prop :=
  b.price ≠ 0 ∧ ((on && dlmmOSideMatches b sfy) = true →
    b.processedOrderRemainingAmount = 0 ∧ b.openOrderAmount = 0)

theorem Orderless.available {sfy on : Bool} {b : DlmmOBin} (h : Orderless sfy on b) :
    (dlmmOAvailable b sfy on).proc = 0 ∧ (dlmmOAvailable b sfy on).openAmt = 0 := by
  rw [dlmmOAvailable_proc, dlmmOAvailable_openAmt]
  constructor
  · split
    next hface =>
      rw [(h.2 hface).1]
      rfl
    next => rfl
  · split
    next hface =>
      rw [(h.2 hface).2]
      rfl
    next => rfl

/-- A fill takes nothing from a bin that makes an order. -/
theorem Orderless.of_order {sfy on : Bool} {b b' : DlmmOBin} (h : Orderless sfy on b)
    (hb : LayerOrder sfy on b b') : Orderless sfy on b' := by
  have hproc := hb.proc_le
  have hopen := hb.open_le
  refine ⟨by rw [hb.price_eq]; exact h.1, fun hface => ?_⟩
  rw [dlmmOSideMatches_congr hb.side_eq] at hface
  obtain ⟨hp, ho⟩ := h.2 hface
  rw [hp] at hproc
  rw [ho] at hopen
  exact ⟨UInt64.toNat_inj.mp (Nat.le_zero.mp hproc),
    UInt64.toNat_inj.mp (Nat.le_zero.mp hopen)⟩

/-- Without orders in reach, the fill of a bin is its market-making fill. -/
theorem dlmmOFillBin_plain {sfy on : Bool} {b : DlmmOBin} (h : Orderless sfy on b)
    (amount : Nat) :
    dlmmOFillBin b amount sfy on = (fillMm b.plain amount sfy).map fun m =>
      ⟨m.usedIn, m.outAmt, 0, 0, 0, 0, wrap64 m.usedIn, m.left, wrap64 m.outAmt⟩ := by
  obtain ⟨hproc, hopen⟩ := h.available
  have hmm : fillAgainst (dlmmOAvailable b sfy on).mm b.price amount sfy
      = fillMm b.plain amount sfy := by
    rw [dlmmOAvailable_mm]
    rfl
  rw [dlmmOFillBin_eq, hproc, hopen, hmm]
  simp only [fillAgainst_empty, Option.bind_some, Option.map_some, Nat.add_zero]
  exact Option.map_eq_bind.symm

/-! ## §2. The amounts of an iteration. -/

/-- The two engines took the same amounts, the order-aware one from the
market-making layer alone. -/
structure SameTake (t : OTake) (f : BinFill) : Prop where
  mmIn_eq : t.fill.mmIn = f.intoBin
  usedIn_eq : t.fill.usedIn = f.intoBin
  mmOut_eq : t.fill.mmOut = f.outAmt
  fillOut_eq : t.fill.outAmt = f.outAmt
  procOut_eq : t.fill.procOut = 0
  openOut_eq : t.fill.openOut = 0
  included_eq : t.included = f.included
  fee_eq : t.fee = f.fee
  proto_eq : t.proto = f.proto
  outAmt_eq : t.outAmt = f.outAmt

/-- **The amounts of an iteration agree**: what the fill used is what is left of
`included` after the fee. -/
theorem oTakeFill_plain {s : DlmmOState} {b : DlmmOBin} {left : Nat} {sfy on : Bool}
    (hleft : left < 2 ^ 64) (h : Orderless sfy on b) :
    Option.Rel SameTake (oTakeFill s b left true sfy on)
      (takeFill s.plain b.plain left true sfy) := by
  cases ht : takeFill s.plain b.plain left true sfy with
  | none =>
    have hnone : oTakeFill s b left true sfy on = none := by
      unfold takeFill at ht
      unfold oTakeFill
      cases hfee : inputFee s.plain left true with
      | none => rfl
      | some fee =>
        rw [hfee, Option.bind_some] at ht
        rw [Option.bind_some, dlmmOFillBin_plain h]
        cases hm : fillMm b.plain (left - fee) sfy with
        | none => rfl
        | some m =>
          rw [hm, Option.bind_some] at ht
          rw [Option.map_some, Option.bind_some]
          cases hinc : includedFee s.plain left (left - fee) fee m.left true with
          | none => rfl
          | some inc =>
            rw [hinc, Option.bind_some, outputFee, if_pos rfl, Option.bind_some,
              Option.map_eq_none_iff] at ht
            rw [Option.bind_some, outputFee, if_pos rfl, Option.bind_some, ht]
            rfl
    rw [hnone]
    exact Option.Rel.none
  | some f =>
    obtain ⟨fee, m, hfee, hm, hout, hinto, -, -, -⟩ := takeFill_input hleft ht
    have hamt : left - fee < 2 ^ 64 := by omega
    have hsplit := (fillMm_spec hamt hm).1
    have hside := (fillMm_le_side hamt hm).trans_lt (b.plain.outSide_lt sfy)
    have hused : wrap64 m.usedIn = m.usedIn := wrap64_of_lt (by omega)
    have hgave : wrap64 m.outAmt = m.outAmt := wrap64_of_lt hside
    unfold takeFill at ht
    simp only [Option.bind_eq_some_iff, Option.map_eq_some_iff] at ht
    obtain ⟨fee', hfee', m', hm', inc, hinc, out, hgot, proto, hproto, rfl⟩ := ht
    have hsame : fee' = fee := by
      unfold inputFee at hfee'
      rw [if_pos rfl, hfee, Option.bind_some] at hfee'
      split at hfee'
      next => cases hfee'
      next => exact (Option.some.inj hfee').symm
    subst hsame
    obtain rfl := Option.some.inj (hm.symm.trans hm')
    obtain rfl : (m.outAmt, inc.2) = out := by
      simpa [outputFee] using hgot
    have htake : oTakeFill s b left true sfy on
        = some ⟨⟨m.usedIn, m.outAmt, 0, 0, 0, 0, wrap64 m.usedIn, m.left, wrap64 m.outAmt⟩,
            inc.1, inc.2, proto, wrap64 m.outAmt⟩ := by
      unfold oTakeFill
      rw [hfee', Option.bind_some, dlmmOFillBin_plain h, hm, Option.map_some, Option.bind_some,
        hinc, Option.bind_some, outputFee, if_pos rfl, Option.bind_some, hproto, Option.map_some]
    rw [htake]
    exact Option.Rel.some ⟨hinto.symm, hused.trans hinto.symm, rfl, hgave, rfl, rfl, rfl, rfl,
      rfl, hgave⟩

/-! ## §3. One iteration. -/

/-- The plain view keeps the ids. -/
theorem plain_id (b : DlmmOBin) : b.plain.id = DlmmOBin.id b := rfl

/-- The array of the plain engine under a write. -/
theorem map_oSetBin (l : List DlmmOBin) (b : DlmmOBin) :
    (oSetBin l b).map (·.plain) = setBin (l.map (·.plain)) b.plain := by
  rw [setBin_eq]
  exact map_setSlot plain_id l b

theorem findBin_plain (l : List DlmmOBin) (id : Int32) :
    findBin (l.map (·.plain)) id = (oFindBin l id).map (·.plain) := by
  rw [findBin_eq]
  exact findSlot_map plain_id l id

theorem oUpdateVolatility_plain (s : DlmmOState) :
    (oUpdateVolatility s).plain = updateVolatility s.plain := rfl

/-- The two engines visit the same bin. -/
theorem oVisitBin_plain {s : DlmmOState}
    (h : ∀ b, oFindBin s.bins s.activeId = some b → b.price ≠ 0) :
    (oVisitBin s).map (fun v => (v.1.plain, v.2.plain)) = visitBin s.plain := by
  unfold oVisitBin visitBin
  show _ = (findBin (s.bins.map (·.plain)) s.activeId).bind _
  rw [findBin_plain]
  cases hfind : oFindBin s.bins s.activeId with
  | none => rfl
  | some b =>
    have hp := h b hfind
    have hback : setBin (s.bins.map (·.plain)) b.plain = s.bins.map (·.plain) := by
      rw [← map_oSetBin]
      congr 1
      refine setSlot_found ?_
      rw [findSlot_key hfind]
      exact hfind
    rw [Option.bind_some, oEnsurePrice, if_pos hp, Option.map_some, Option.map_some,
      Option.map_some, Option.bind_some, ensurePrice,
      if_pos (show b.plain.price ≠ 0 from hp), Option.map_some]
    show _ = some (updateVolatility { s.plain with
      bins := setBin (s.bins.map (·.plain)) b.plain }, b.plain)
    rw [hback]
    rfl

/-- The two engines book the same amounts. -/
theorem dlmmOApplyFill_plain {s : DlmmOState} {b : DlmmOBin} {sfy : Bool} {t : OTake}
    {f : BinFill} (h : SameTake t f) :
    (dlmmOApplyFill b s sfy t.fill).map
        (fun p => DlmmOState.plain { p.2 with bins := oSetBin p.2.bins p.1 })
      = bookFill s.plain b.plain f sfy := by
  unfold dlmmOApplyFill bookFill
  rw [h.mmIn_eq, h.usedIn_eq, h.mmOut_eq, h.fillOut_eq, h.procOut_eq, h.openOut_eq]
  simp only [Nat.not_lt_zero, or_self, if_false]
  cases sfy with
  | true =>
    simp only [if_true]
    by_cases hmm : b.amountY.toNat < f.outAmt
    · rw [if_pos hmm, if_pos (show b.plain.amountY.toNat < f.outAmt from hmm)]
      rfl
    · rw [if_neg hmm, if_neg (show ¬ b.plain.amountY.toNat < f.outAmt from hmm),
        Option.bind_some, Option.map_some]
      unfold DlmmOState.plain
      simp only [map_oSetBin]
      rfl
  | false =>
    simp only [Bool.false_eq_true, if_false]
    by_cases hmm : b.amountX.toNat < f.outAmt
    · rw [if_pos hmm, if_pos (show b.plain.amountX.toNat < f.outAmt from hmm)]
      rfl
    · rw [if_neg hmm, if_neg (show ¬ b.plain.amountX.toNat < f.outAmt from hmm),
        Option.bind_some, Option.map_some]
      unfold DlmmOState.plain
      simp only [map_oSetBin]
      rfl

theorem oStepActive_plain (s : DlmmOState) (sfy : Bool) :
    (oStepActive s sfy).map (·.plain) = stepActive s.plain sfy := by
  unfold oStepActive
  rw [Option.map_map]
  cases hs : stepActive s.plain sfy with
  | none => rfl
  | some p =>
    rw [Option.map_some, (stepActive_spec hs).1]
    rfl

/-- The loop variables of the plain engine. -/
def OWalk.plain (w : OWalk) : Walk :=
  ⟨w.after.plain, w.left, w.totalIn, w.totalOut, w.totalFee, w.totalProto⟩

/-- **One iteration of the one engine is one iteration of the other.** -/
theorem oWalkStep_plain {sfy on : Bool} {w : OWalk} (hleft : w.left < 2 ^ 64)
    (h : ∀ b, oFindBin w.after.bins w.after.activeId = some b → Orderless sfy on b) :
    (oWalkStep true sfy on w).map OWalk.plain = walkStep true sfy w.plain := by
  have hvisit := oVisitBin_plain fun b hb => (h b hb).1
  unfold oWalkStep walkStep
  show _ = (visitBin w.after.plain).bind _
  rw [← hvisit]
  cases hv : oVisitBin w.after with
  | none => rfl
  | some v =>
    rw [Option.map_some, Option.bind_some, Option.bind_some]
    have hclear := h v.2 (oVisitBin_spec hv).1
    show _ = (takeFill v.1.plain v.2.plain w.left true sfy).bind _
    have hrel := oTakeFill_plain (s := v.1) hleft hclear
    generalize oTakeFill v.1 v.2 w.left true sfy on = o at hrel
    generalize takeFill v.1.plain v.2.plain w.left true sfy = p at hrel
    cases hrel with
    | none => rfl
    | some hsame =>
      rename_i t f
      rw [Option.bind_some, Option.bind_some]
      show _ = (bookFill v.1.plain v.2.plain f sfy).bind _
      rw [← dlmmOApplyFill_plain hsame]
      cases hp : dlmmOApplyFill v.2 v.1 sfy t.fill with
      | none => rfl
      | some q =>
        rw [Option.map_some, Option.bind_some, Option.bind_some, hsame.included_eq,
          hsame.outAmt_eq, hsame.fee_eq, hsame.proto_eq]
        show _ = if f.included > w.left then none else _
        by_cases hincl : f.included > w.left
        · rw [if_pos hincl]
          simp only
          rw [if_pos hincl]
          rfl
        · rw [if_neg hincl]
          simp only
          rw [if_neg hincl, Option.map_map]
          show _ = (if w.left - f.included > 0 then _ else _ : Option DlmmState).map _
          by_cases hmore : w.left - f.included > 0
          · rw [if_pos hmore, if_pos hmore, ← oStepActive_plain, Option.map_map]
            rfl
          · rw [if_neg hmore, if_neg hmore]
            rfl

/-! ## §4. The whole walk. -/

/-- The ids of the bins the loop looks at. -/
def oVisits (foi sfy on : Bool) : Nat → OWalk → List Int32
  | 0, _ => []
  | n + 1, w =>
      if w.left = 0 then []
      else w.after.activeId ::
        ((oWalkStep foi sfy on w).map (oVisits foi sfy on n)).getD []

/-- The ids of the bins a swap looks at. -/
def dlmmOVisits (s : DlmmOState) (ix : DlmmSwapIx) : List Int32 :=
  oVisits (feeOnInput s.plain (ix.swapForY != 0)) (ix.swapForY != 0) (dlmmOOrdersEnabled s) 256
    (oWalkInit s ix)

/-- **The walks agree**, as long as every bin looked at has a price and no
order in reach. -/
theorem oWalkLoop_plain {sfy on : Bool} : ∀ (n : Nat) (w : OWalk), w.left < 2 ^ 64 →
    (∀ id ∈ oVisits true sfy on n w, ∀ b, oFindBin w.after.bins id = some b →
      Orderless sfy on b) →
    (oWalkLoop true sfy on n w).map OWalk.plain = walkLoop true sfy n w.plain := by
  intro n
  induction n with
  | zero =>
    intro w _ _
    rfl
  | succ n ih =>
    intro w hleft h
    unfold oVisits at h
    unfold oWalkLoop walkLoop
    by_cases hdone : w.left = 0
    · rw [if_pos hdone, if_pos (show w.plain.left = 0 from hdone)]
      rfl
    · rw [if_neg hdone] at h
      rw [if_neg hdone, if_neg (show ¬ w.plain.left = 0 from hdone)]
      have hhere := h w.after.activeId List.mem_cons_self
      rw [← oWalkStep_plain hleft hhere]
      cases hu : oWalkStep true sfy on w with
      | none => rfl
      | some u =>
        rw [Option.bind_some, Option.map_some, Option.bind_some]
        obtain ⟨bin, bin', t, k⟩ := oWalkStep_turn hu
        have horder := k.order hleft
        refine ih u (lt_of_le_of_lt k.left_le hleft) ?_
        intro id hid b hb
        have hold : ∀ c, oFindBin w.after.bins id = some c → Orderless sfy on c := by
          refine h id (List.mem_cons_of_mem _ ?_)
          rw [hu]
          exact hid
        -- the bin found now is the one found before, or the one written
        rw [k.bins_eq] at hb
        unfold oFindBin oSetBin at hb
        rw [findSlot_setSlot] at hb
        split at hb
        next hwrote =>
          obtain ⟨c, hc, rfl⟩ := Option.map_eq_some_iff.mp hb
          have hfound := k.found_written
          rw [hwrote] at hfound
          exact (hold bin hfound).of_order horder
        next => exact hold b hb

/-- **The order-aware engine extends the plain one.**  For every pool and
swap with the fee on the input, where every bin the swap looks at has its price
set, and limit orders are off or those bins hold no order on the consumed side,
the two engines succeed together, with one result and after-states that agree
on every shared field. -/
theorem dlmmOApplySwap_plain (s : DlmmOState) (ix : DlmmSwapIx)
    (hfoi : feeOnInput s.plain (ix.swapForY != 0) = true)
    (hprice : ∀ id ∈ dlmmOVisits s ix, ∀ b, oFindBin s.bins id = some b → b.price ≠ 0)
    (horders : dlmmOOrdersEnabled s = false ∨
      ∀ id ∈ dlmmOVisits s ix, ∀ b, oFindBin s.bins id = some b →
        dlmmOSideMatches b (ix.swapForY != 0) = true →
        b.processedOrderRemainingAmount = 0 ∧ b.openOrderAmount = 0) :
    (dlmmOApplySwap s ix).map (fun r => (r.1.plain, r.2)) = dlmmApplySwap s.plain ix := by
  obtain ⟨-, hon, hplain⟩ := oUpdateReferences_shared s
  have hclear : ∀ id ∈ oVisits true (ix.swapForY != 0) (dlmmOOrdersEnabled s) 256
      (oWalkInit s ix), ∀ b, oFindBin (oWalkInit s ix).after.bins id = some b →
        Orderless (ix.swapForY != 0) (dlmmOOrdersEnabled s) b := by
    intro id hid b hb
    have hmem : id ∈ dlmmOVisits s ix := by
      unfold dlmmOVisits
      rw [hfoi]
      exact hid
    refine ⟨hprice id hmem b hb, fun hface => ?_⟩
    obtain ⟨hopen, hmatch⟩ := (Bool.and_eq_true _ _).mp hface
    rcases horders with hoff | hnone
    · rw [hoff] at hopen
      cases hopen
    · exact hnone id hmem b hb hmatch
  have hloop := oWalkLoop_plain 256 (oWalkInit s ix) (UInt64.toNat_lt _) hclear
  have hstart : (oWalkInit s ix).plain = walkInit s.plain ix := by
    unfold oWalkInit walkInit OWalk.plain
    rw [hplain]
  rw [hstart] at hloop
  unfold dlmmOApplySwap dlmmApplySwap
  simp only [hon, hplain, feeOnInput_updateReferences, hfoi]
  show _ = if s.status ≠ 0 ∨ ix.amountIn = 0 then none else _
  by_cases hbad : s.status ≠ 0 ∨ ix.amountIn = 0
  · rw [if_pos hbad, if_pos hbad]
    rfl
  · rw [if_neg hbad, if_neg hbad, ← hloop]
    cases oWalkLoop true (ix.swapForY != 0) (dlmmOOrdersEnabled s) 256 (oWalkInit s ix) with
    | none => rfl
    | some w =>
      rw [Option.map_some, Option.bind_some, Option.bind_some]
      show _ = if w.left > 0 then none else
        if w.totalOut < ix.minAmountOut.toNat then none else _
      by_cases hmore : w.left > 0
      · rw [if_pos hmore, if_pos hmore]
        rfl
      · rw [if_neg hmore, if_neg hmore]
        by_cases hmin : w.totalOut < ix.minAmountOut.toNat
        · rw [if_pos hmin, if_pos hmin]
          rfl
        · rw [if_neg hmin, if_neg hmin]
          rfl

/-- Two bins with a fee of a thousandth, and asks that a swap for Y does not
face. -/
def demoAsks : DlmmOState where
  activeId := 1
  binStep := 10
  status := 0
  functionType := dlmmFnLimitOrder
  rewardMintLiveMask := 0
  parameters := ⟨10000, 0, 0, 0, 0, 0, 500, 0, 0⟩
  vParameters := ⟨0, 0, 0, 1⟩
  reserveX := 0
  reserveY := 3000000
  bins := [⟨0, 0, 2000000, 0, 70, 0, 0, 1, BitVec.ofNat 128 (2 ^ 64)⟩,
    ⟨1, 0, 1000000, 40, 50, 0, 0, 1, BitVec.ofNat 128 (2 ^ 64)⟩]
  nowTs := 1

/-- A swap over both bins. -/
theorem dlmmOApplySwap_plain_demo :
    (dlmmOApplySwap demoAsks ⟨1500000, 0, 1⟩).map (fun r => (r.1.plain, r.2))
        = dlmmApplySwap demoAsks.plain ⟨1500000, 0, 1⟩ ∧
      (dlmmApplySwap demoAsks.plain ⟨1500000, 0, 1⟩).map (·.2.activeIdAfter) = some 0 := by
  have hbins : ∀ b ∈ demoAsks.bins, b.price ≠ 0 ∧ dlmmOSideMatches b true = false := by
    decide +kernel
  refine ⟨dlmmOApplySwap_plain demoAsks ⟨1500000, 0, 1⟩ (by decide +kernel) ?_ (Or.inr ?_),
    by decide +kernel⟩
  · intro id _ b hb
    exact (hbins b (mem_of_findSlot hb)).1
  · intro id _ b hb hface
    have hback : dlmmOSideMatches b true = false := (hbins b (mem_of_findSlot hb)).2
    exact absurd (hback.symm.trans hface) Bool.false_ne_true

end ShredArb.Dlmm
