/-
  ShredArb.Dlmm.Monotone — a quote for LESS is a quote, and it is not larger.

  Two walks over one book, from one state and with different amounts left, do
  the same in every bin the smaller one exhausts: the fee there is on what the
  bin took, and the rate depends on where the bin stands.  So their locals
  differ in `left` alone until the smaller walk ends, in a bin from which the
  larger one gets at least as much.

  Main results:
    * `takeFill_mono` — two amounts at one bin.
    * `walkStep_mono` — one iteration of both walks.
    * `dlmmQuote_mono` — the quotes.
-/
import ShredArb.Dlmm.Turn

namespace ShredArb.Dlmm

open ShredArb.Word

/-! ## §1. The fill of one bin. -/

/-- The output at a price is the exact quotient. -/
theorem amountOut_eq {a price out : Nat} {sfy : Bool} (ha : a < 2 ^ 64) (hp : price < 2 ^ 128)
    (h : amountOut a price sfy = some out) :
    out = if sfy then price * a / 2 ^ 64 else a * 2 ^ 64 / price := by
  cases sfy with
  | true =>
    obtain ⟨hr, -⟩ := fitU64_eq_some (by simpa [amountOut] using h)
    rw [u128MulShr64_eq hp (by omega)] at hr
    split at hr
    next => exact (Option.some.inj hr).symm
    next => cases hr
  | false =>
    obtain ⟨hr, -⟩ := fitU64_eq_some (by simpa [amountOut] using h)
    rw [u128Shl64Div_eq] at hr
    split at hr
    next => cases hr
    next => exact (Option.some.inj hr).symm

theorem amountOut_mono {a b price outA outB : Nat} {sfy : Bool} (hab : a ≤ b) (hb : b < 2 ^ 64)
    (hp : price < 2 ^ 128) (hA : amountOut a price sfy = some outA)
    (hB : amountOut b price sfy = some outB) : outA ≤ outB := by
  rw [amountOut_eq (by omega) hp hA, amountOut_eq hb hp hB]
  cases sfy with
  | true =>
    simp only [if_true]
    exact Nat.div_le_div_right (Nat.mul_le_mul_left price hab)
  | false =>
    simp only [Bool.false_eq_true, if_false]
    exact Nat.div_le_div_right (Nat.mul_le_mul_right (2 ^ 64) hab)

theorem fitU64_some {r : Nat} (h : r < 2 ^ 64) : fitU64 (some r) = some r := by
  unfold fitU64
  rw [Option.bind_some]
  exact if_neg (by omega)

/-- Less than the whole cost of a side buys something that fits. -/
theorem amountOut_isSome {a cost out price : Nat} {sfy : Bool} (ha : a < 2 ^ 64)
    (hout : out < 2 ^ 64) (hp : price < 2 ^ 128)
    (hcost : amountIn out price sfy true = some cost) (hlt : a < cost) :
    ∃ got, amountOut a price sfy = some got := by
  cases sfy with
  | true =>
    obtain ⟨hr, -⟩ := fitU64_eq_some (by simpa [amountIn] using hcost)
    rw [u128Shl64Div_eq] at hr
    split at hr
    next => cases hr
    next hden =>
      simp only [if_true] at hr
      split at hr
      next => cases hr
      next =>
        have hless : price * a < out * 2 ^ 64 := by
          rw [Nat.mul_comm]
          by_contra hge
          have := ceilDiv_le_of (show 0 < price by omega) (not_lt.mp hge)
          rw [Option.some.inj hr] at this
          omega
        have hfit : price * a / 2 ^ 64 < 2 ^ 64 := by omega
        refine ⟨price * a / 2 ^ 64, ?_⟩
        rw [amountOut, if_pos rfl, u128MulShr64_eq hp (by omega), if_pos hfit]
        exact fitU64_some hfit
  | false =>
    obtain ⟨hr, -⟩ := fitU64_eq_some (by simpa [amountIn] using hcost)
    rw [u128MulShr64_eq (by omega) hp] at hr
    split at hr
    next =>
      simp only [roundShr64, if_true, Option.some.injEq] at hr
      have hless : a * 2 ^ 64 < out * price := by
        by_contra hge
        have := ceilDiv_le_of (show 0 < 2 ^ 64 by norm_num) (not_lt.mp hge)
        omega
      -- a free side costs nothing, so the price is positive here
      have hpos : 0 < price := by
        rcases Nat.eq_zero_or_pos price with h0 | hpos
        · rw [h0, Nat.mul_zero] at hless
          omega
        · exact hpos
      have hfit : a * 2 ^ 64 / price < 2 ^ 64 :=
        Nat.div_lt_of_lt_mul (by
          calc a * 2 ^ 64 < out * price := hless
            _ = price * out := Nat.mul_comm _ _
            _ ≤ price * 2 ^ 64 := Nat.mul_le_mul_left price (by omega))
      refine ⟨a * 2 ^ 64 / price, ?_⟩
      rw [amountOut, if_neg Bool.false_ne_true, u128Shl64Div_eq, if_neg (by omega),
        if_neg Bool.false_ne_true]
      exact fitU64_some hfit
    next => cases hr

/-- **Two amounts at one bin**: the smaller one ends there, with no more than the
larger one gets; or it exhausts the bin, and so does the larger one. -/
theorem fillMm_mono {bin : DlmmBin} {a b : Nat} {sfy : Bool} {mb : MmFill} (hab : a ≤ b)
    (hb : b < 2 ^ 64) (h : fillMm bin b sfy = some mb) :
    ∃ ma, fillMm bin a sfy = some ma ∧
      ((ma.left = 0 ∧ ma.outAmt ≤ mb.outAmt) ∨
        (0 < ma.left ∧ 0 < mb.left ∧ ma.usedIn = mb.usedIn ∧ ma.outAmt = mb.outAmt)) := by
  unfold fillMm at h ⊢
  simp only at h ⊢
  by_cases hempty : bin.outSide sfy = 0
  · rw [if_pos hempty] at h ⊢
    obtain rfl := Option.some.inj h
    refine ⟨_, rfl, ?_⟩
    rcases Nat.eq_zero_or_pos a with h0 | hpos
    · exact Or.inl ⟨h0, le_refl _⟩
    · exact Or.inr ⟨hpos, by simp only; omega, rfl, rfl⟩
  rw [if_neg hempty] at h ⊢
  obtain ⟨maxIn, hmax, h⟩ := Option.bind_eq_some_iff.mp h
  rw [hmax, Option.bind_some]
  by_cases hge : a ≥ maxIn
  · -- both exhaust the bin; exactly its cost leaves nothing over
    rw [if_pos (show b ≥ maxIn by omega)] at h
    obtain rfl := Option.some.inj h
    rw [if_pos hge]
    refine ⟨_, rfl, ?_⟩
    rcases Nat.eq_zero_or_pos (a - maxIn) with h0 | hpos
    · exact Or.inl ⟨h0, le_refl _⟩
    · exact Or.inr ⟨hpos, by simp only; omega, rfl, rfl⟩
  · rw [if_neg hge]
    have hside := bin.outSide_lt sfy
    obtain ⟨got, hgot⟩ := amountOut_isSome (by omega) hside bin.price.isLt hmax (not_le.mp hge)
    refine ⟨⟨a, 0, got⟩, by rw [hgot, Option.map_some], Or.inl ⟨rfl, ?_⟩⟩
    by_cases hgeB : b ≥ maxIn
    · rw [if_pos hgeB] at h
      rw [← Option.some.inj h]
      exact (amountOut_lt (by omega) hside bin.price.isLt hmax (not_le.mp hge) hgot).le
    · rw [if_neg hgeB] at h
      obtain ⟨out, hout, rfl⟩ := Option.map_eq_some_iff.mp h
      exact amountOut_mono hab hb bin.price.isLt hgot hout

/-! ## §2. The amounts of one iteration. -/

theorem inputFee_eq (s : DlmmState) {left : Nat} (h : left < 2 ^ 64) (foi : Bool) :
    ∃ fee, inputFee s left foi = some fee ∧ 10 * fee ≤ left + 9 ∧
      fee = if foi then ceilDiv (left * totalFeeRate s) 1000000000 else 0 := by
  cases foi with
  | true =>
    have hfee := computeFeeFromAmount_eq s h
    have htenth := (feeFromAmount_le hfee).1
    refine ⟨_, ?_, htenth, rfl⟩
    rw [inputFee, if_pos rfl, hfee, Option.bind_some]
    have hrate := totalFeeRate_le s
    have hceil : ceilDiv (left * totalFeeRate s) 1000000000 ≤ left :=
      ceilDiv_le_of (by norm_num) (Nat.mul_le_mul_left left (by omega))
    exact if_neg (by omega)
  | false => exact ⟨0, rfl, by omega, rfl⟩

/-- An iteration that exhausts its bin depends on the bin alone. -/
def exhaust (s : DlmmState) (used out : Nat) (foi : Bool) : Option BinFill :=
  (if foi then (computeFee s used).map fun fee => (wrap64 (used + fee), fee)
    else some (used, 0)).bind fun inc =>
  (outputFee s out inc.2 foi).bind fun o =>
  (computeProtocolFee s o.2).map fun proto => ⟨inc.1, o.2, proto, o.1, sub64 inc.1 o.2⟩

theorem takeFill_exhaust {s : DlmmState} {bin : DlmmBin} {left fee : Nat} {foi sfy : Bool}
    {m : MmFill} (hleft : left < 2 ^ 64) (hfee : inputFee s left foi = some fee)
    (hm : fillMm bin (left - fee) sfy = some m) (hpos : 0 < m.left) :
    takeFill s bin left foi sfy = exhaust s m.usedIn m.outAmt foi := by
  have hle := inputFee_le hfee
  have hsplit := (fillMm_spec (by omega) hm).1
  have hsub : sub64 (left - fee) m.left = m.usedIn := by
    rw [sub64_of_le (by omega) (by omega)]
    omega
  unfold takeFill exhaust
  rw [hfee, Option.bind_some, hm, Option.bind_some]
  unfold includedFee
  rw [if_pos hpos]
  simp only [hsub]
  cases foi with
  | true => rfl
  | false =>
    obtain rfl : 0 = fee := Option.some.inj hfee
    rfl

/-- An iteration that ends the walk in its bin. -/
theorem takeFill_end {s : DlmmState} {bin : DlmmBin} {left fee : Nat} {foi sfy : Bool}
    {m : MmFill} (hleft : left < 2 ^ 64) (hfee : inputFee s left foi = some fee)
    (htenth : 10 * fee ≤ left + 9) (hm : fillMm bin (left - fee) sfy = some m)
    (hzero : m.left = 0) :
    ∃ f, takeFill s bin left foi sfy = some f ∧ f.included = left ∧
      f.outAmt = if foi then m.outAmt
        else m.outAmt - ceilDiv (m.outAmt * totalFeeRate s) 1000000000 := by
  have hle := inputFee_le hfee
  have hout : m.outAmt < 2 ^ 64 :=
    lt_of_le_of_lt (fillMm_le_side (by omega) hm) (bin.outSide_lt sfy)
  unfold takeFill
  rw [hfee, Option.bind_some, hm, Option.bind_some]
  unfold includedFee
  rw [if_neg (by omega), Option.bind_some]
  cases foi with
  | true =>
    obtain ⟨proto, hproto⟩ := protocolFee_isSome (s := s) (show 10 * fee ≤ 2 ^ 64 + 9 by omega)
    rw [outputFee, if_pos rfl, Option.bind_some, hproto, Option.map_some]
    exact ⟨_, rfl, rfl, rfl⟩
  | false =>
    have hfeeO := computeFeeFromAmount_eq s hout
    have htenthO := (feeFromAmount_le hfeeO).1
    obtain ⟨proto, hproto⟩ := protocolFee_isSome (s := s)
      (show 10 * ceilDiv (m.outAmt * totalFeeRate s) 1000000000 ≤ 2 ^ 64 + 9 by omega)
    have hrate := totalFeeRate_le s
    have hceil : ceilDiv (m.outAmt * totalFeeRate s) 1000000000 ≤ m.outAmt :=
      ceilDiv_le_of (by norm_num) (Nat.mul_le_mul_left m.outAmt (by omega))
    rw [outputFee, if_neg Bool.false_ne_true, hfeeO, Option.bind_some, if_neg (by omega),
      Option.bind_some, hproto, Option.map_some]
    exact ⟨_, rfl, rfl, rfl⟩

/-- What an iteration gives out, from what its fill gave. -/
theorem takeFill_out {s : DlmmState} {bin : DlmmBin} {left fee : Nat} {foi sfy : Bool}
    {m : MmFill} {f : BinFill} (hleft : left < 2 ^ 64) (hfee : inputFee s left foi = some fee)
    (hm : fillMm bin (left - fee) sfy = some m) (h : takeFill s bin left foi sfy = some f) :
    f.outAmt = if foi then m.outAmt
      else m.outAmt - ceilDiv (m.outAmt * totalFeeRate s) 1000000000 := by
  unfold takeFill at h
  rw [hfee, Option.bind_some, hm, Option.bind_some] at h
  obtain ⟨inc, -, h⟩ := Option.bind_eq_some_iff.mp h
  obtain ⟨o, ho, h⟩ := Option.bind_eq_some_iff.mp h
  obtain ⟨proto, -, rfl⟩ := Option.map_eq_some_iff.mp h
  cases foi with
  | true =>
    obtain rfl : (m.outAmt, inc.2) = o := by simpa [outputFee] using ho
    rfl
  | false =>
    have hle := inputFee_le hfee
    have hout : m.outAmt < 2 ^ 64 :=
      lt_of_le_of_lt (fillMm_le_side (by omega) hm) (bin.outSide_lt sfy)
    rw [outputFee, if_neg Bool.false_ne_true, computeFeeFromAmount_eq s hout,
      Option.bind_some] at ho
    split at ho
    next => cases ho
    next => rw [← Option.some.inj ho]; rfl

/-- **Two amounts in one iteration**: the smaller walk ends here, with no more
than the larger one gets; or both take the same from the bin and go on. -/
theorem takeFill_mono {s : DlmmState} {bin : DlmmBin} {a b : Nat} {foi sfy : Bool}
    {fb : BinFill} (hab : a ≤ b) (hb : b < 2 ^ 64) (h : takeFill s bin b foi sfy = some fb) :
    (∃ fa, takeFill s bin a foi sfy = some fa ∧ fa.included = a ∧ fa.outAmt ≤ fb.outAmt) ∨
      (takeFill s bin a foi sfy = some fb ∧ fb.included < a) := by
  obtain ⟨feeA, hfeeA, htenthA, heqA⟩ := inputFee_eq s (show a < 2 ^ 64 by omega) foi
  obtain ⟨feeB, hfeeB, -, heqB⟩ := inputFee_eq s hb foi
  have hnet : a - feeA ≤ b - feeB := by
    rw [heqA, heqB]
    cases foi with
    | true => exact afterFee_mono s hab
    | false => exact hab
  obtain ⟨mb, hmb⟩ : ∃ mb, fillMm bin (b - feeB) sfy = some mb := by
    unfold takeFill at h
    rw [hfeeB, Option.bind_some] at h
    obtain ⟨mb, hmb, -⟩ := Option.bind_eq_some_iff.mp h
    exact ⟨mb, hmb⟩
  obtain ⟨ma, hma, hcase⟩ := fillMm_mono hnet (by omega) hmb
  rcases hcase with ⟨hzero, hout⟩ | ⟨hposA, hposB, hused, hout⟩
  · left
    obtain ⟨fa, hfa, hincl, houtA⟩ := takeFill_end (by omega) hfeeA htenthA hma hzero
    refine ⟨fa, hfa, hincl, ?_⟩
    rw [houtA, takeFill_out hb hfeeB hmb h]
    cases foi with
    | true => exact hout
    | false => exact afterFee_mono s hout
  · right
    have hsame : takeFill s bin a foi sfy = some fb := by
      rw [takeFill_exhaust (by omega) hfeeA hma hposA, hused, hout,
        ← takeFill_exhaust hb hfeeB hmb hposB]
      exact h
    refine ⟨hsame, ?_⟩
    -- a leftover survives the second rounding
    cases foi with
    | true =>
      obtain ⟨fee, m, hfee, hm, -, -, -, -, hpart⟩ := takeFill_input (by omega) hsame
      have hfe : feeA = fee := by
        rw [computeFeeFromAmount_eq s (by omega)] at hfee
        rw [heqA, if_pos rfl]
        exact Option.some.inj hfee
      rw [hfe] at hma
      obtain rfl := Option.some.inj (hma.symm.trans hm)
      exact (hpart hposA).2
    | false =>
      obtain ⟨m, hm, -, -, -, hincl, -⟩ := takeFill_output (by omega) hsame
      have hfe : feeA = 0 := heqA
      rw [hfe, Nat.sub_zero] at hma
      obtain rfl := Option.some.inj (hma.symm.trans hm)
      have hsplit := (fillMm_spec (by omega) hm).1
      omega

/-! ## §3. One iteration of both walks. -/

/-- Booking what the bin can serve succeeds, and leaves the active bin alone. -/
theorem bookFill_isSome {s : DlmmState} {bin : DlmmBin} {f : BinFill} {sfy : Bool}
    (h : f.outAmt ≤ bin.outSide sfy) :
    ∃ s', bookFill s bin f sfy = some s' ∧ s'.activeId = s.activeId := by
  unfold bookFill
  cases sfy with
  | true => exact ⟨_, (if_pos rfl).trans (if_neg (not_lt.mpr h)), rfl⟩
  | false => exact ⟨_, (if_neg Bool.false_ne_true).trans (if_neg (not_lt.mpr h)), rfl⟩

/-- **One iteration of both walks**: with less left the walk ends here, having
got no more; or both go on, still differing in `left` alone. -/
theorem walkStep_mono {foi sfy : Bool} {w u : Walk} {a : Nat}
    (hab : a ≤ w.left) (hleft : w.left < 2 ^ 64)
    (hfit : outTotal sfy w.after.bins + w.totalOut < 2 ^ 64)
    (h : walkStep foi sfy w = some u) :
    (∃ x, walkStep foi sfy { w with left := a } = some x ∧ x.left = 0 ∧
        x.after.activeId = w.after.activeId ∧ x.totalOut ≤ u.totalOut) ∨
      (∃ a', 0 < a' ∧ a' ≤ u.left ∧
        walkStep foi sfy { w with left := a } = some { u with left := a' }) := by
  obtain ⟨v, f, t⟩ := walkStep_turn h
  have hout := t.outTotal_eq
  have htout := t.totalOut_eq
  rw [wrap64_of_lt (by omega)] at htout
  rcases takeFill_mono hab hleft t.take with ⟨fa, hfa, hincl, hle⟩ | ⟨hfa, hless⟩
  · left
    obtain ⟨s', hs', hact⟩ := bookFill_isSome (s := v.1) (takeFill_amounts (by omega) hfa).1
    have hvact : v.1.activeId = w.after.activeId := by
      obtain ⟨-, -, -, -, hv1⟩ := visitBin_spec t.visit
      rw [hv1]
      rfl
    unfold walkStep
    simp only
    rw [t.visit, Option.bind_some, hfa, Option.bind_some, hs', Option.bind_some,
      if_neg (by omega), if_neg (by omega), Option.map_some]
    refine ⟨_, rfl, by simp only; omega, hact.trans hvact, ?_⟩
    show wrap64 (w.totalOut + fa.outAmt) ≤ u.totalOut
    rw [wrap64_of_lt (by omega), htout]
    omega
  · right
    unfold walkStep at h ⊢
    simp only
    rw [t.visit, Option.bind_some, t.take, Option.bind_some] at h
    rw [t.visit, Option.bind_some, hfa, Option.bind_some]
    obtain ⟨s', hs', h⟩ := Option.bind_eq_some_iff.mp h
    rw [hs', Option.bind_some, if_neg (by omega), if_pos (by omega)]
    rw [if_neg (by omega)] at h
    simp only at h
    rw [if_pos (by omega)] at h
    obtain ⟨s2, hs2, rfl⟩ := Option.map_eq_some_iff.mp h
    rw [hs2, Option.map_some]
    exact ⟨a - f.included, by omega, by simp only; omega, rfl⟩

/-! ## §4. Both walks. -/

theorem walkLoop_done (foi sfy : Bool) (n : Nat) {w : Walk} (h : w.left = 0) :
    walkLoop foi sfy n w = some w := by
  cases n with
  | zero => rfl
  | succ n => exact if_pos h

/-- How far the active bin went from `w` to `w'`, in the direction of the swap. -/
def travelled (sfy : Bool) (w w' : Walk) : Int :=
  (w'.after.activeId.toInt - w.after.activeId.toInt) * (if sfy then -1 else 1)

/-- Each iteration moves the active bin by one at most, and never back. -/
theorem walkLoop_travelled {foi sfy : Bool} : ∀ (n : Nat) {w w' : Walk},
    walkLoop foi sfy n w = some w' → 0 ≤ travelled sfy w w' ∧ travelled sfy w w' ≤ n := by
  intro n
  induction n with
  | zero =>
    intro w w' h
    obtain rfl := Option.some.inj h
    unfold travelled
    simp
  | succ n ih =>
    intro w w' h
    unfold walkLoop at h
    split at h
    next =>
      obtain rfl := Option.some.inj h
      unfold travelled
      simp
      omega
    next =>
      obtain ⟨u, hu, h⟩ := Option.bind_eq_some_iff.mp h
      obtain ⟨v, f, t⟩ := walkStep_turn hu
      have hrest := ih h
      rcases Nat.eq_zero_or_pos u.left with h0 | hpos
      · have hstay := t.stay h0
        unfold travelled at hrest ⊢
        rw [hstay] at hrest
        push_cast
        omega
      · have hmove := t.move hpos
        unfold travelled at hrest ⊢
        push_cast
        cases sfy with
        | true => simp only [if_true] at hrest hmove ⊢; omega
        | false => simp only [Bool.false_eq_true, if_false] at hrest hmove ⊢; omega

/-- The output only grows. -/
theorem walkLoop_out_le {foi sfy : Bool} {n : Nat} {w w' : Walk} (hleft : w.left < 2 ^ 64)
    (hfit : outTotal sfy w.after.bins + w.totalOut < 2 ^ 64)
    (h : walkLoop foi sfy n w = some w') : w.totalOut ≤ w'.totalOut := by
  have hboth := walkLoop_turns (P := fun u => w.totalOut ≤ u.totalOut ∧
    outTotal sfy u.after.bins + u.totalOut < 2 ^ 64) ?_ n w w' hleft ⟨le_refl _, hfit⟩ h
  · exact hboth.1
  · intro u u' v f _ hu t
    have hout := t.outTotal_eq
    rw [t.totalOut_eq, wrap64_of_lt (by omega)]
    exact ⟨by omega, by omega⟩

/-- **Both walks**: with less left the walk ends too, not further on and with no
more out. -/
theorem walkLoop_mono {foi sfy : Bool} : ∀ (n : Nat) {w w' : Walk} {a : Nat}, 0 < a →
    a ≤ w.left → w.left < 2 ^ 64 → outTotal sfy w.after.bins + w.totalOut < 2 ^ 64 →
    walkLoop foi sfy n w = some w' → w'.left = 0 →
    ∃ x, walkLoop foi sfy n { w with left := a } = some x ∧ x.left = 0 ∧
      x.totalOut ≤ w'.totalOut ∧ travelled sfy w x ≤ travelled sfy w w' := by
  intro n
  induction n with
  | zero =>
    intro w w' a hpos hab _ _ h h0
    obtain rfl := Option.some.inj h
    omega
  | succ n ih =>
    intro w w' a hpos hab hleft hfit h h0
    have hall := (walkLoop_travelled (n + 1) h).1
    unfold walkLoop at h ⊢
    rw [if_neg (by omega)] at h
    rw [if_neg (show ¬ a = 0 by omega)]
    obtain ⟨u, hu, h⟩ := Option.bind_eq_some_iff.mp h
    obtain ⟨v, f, t⟩ := walkStep_turn hu
    have hout := t.outTotal_eq
    have htout := t.totalOut_eq
    rw [wrap64_of_lt (by omega)] at htout
    rcases walkStep_mono hab hleft hfit hu with
      ⟨x, hx, hx0, hxact, hxout⟩ | ⟨a', hpos', hab', hx⟩
    · refine ⟨x, by rw [hx, Option.bind_some, walkLoop_done _ _ _ hx0], hx0, ?_, ?_⟩
      · exact hxout.trans (walkLoop_out_le (t.left_lt hleft) (by omega) h)
      · have hzero : travelled sfy w x = 0 := by
          unfold travelled
          rw [hxact]
          simp
        omega
    · obtain ⟨x, hxl, hx0, hxout, hxtr⟩ := ih hpos' hab' (t.left_lt hleft) (by omega) h h0
      refine ⟨x, by rw [hx, Option.bind_some, hxl], hx0, hxout, ?_⟩
      unfold travelled at hxtr ⊢
      rw [sub_mul, sub_mul] at hxtr ⊢
      omega

/-! ## §5. Quotes. -/

/-- The swap instruction a quote applies. -/
def quoteSwap (amountIn : UInt64) (swapForY : UInt8) : DlmmSwapIx :=
  ⟨amountIn, 0, if swapForY ≠ 0 then 1 else 0⟩

theorem quoteSwap_dir (amountIn : UInt64) (swapForY : UInt8) :
    ((quoteSwap amountIn swapForY).swapForY != 0) = (swapForY != 0) := by
  unfold quoteSwap
  by_cases h : swapForY = 0
  · simp [h]
  · simp [h]

/-- **A quote for less is a quote, with no more out and no more bins crossed.**
Whatever the direction, the fee mode and the ids of the bins: all that is asked
is that the side paid out adds up to a 64-bit amount. -/
theorem dlmmQuote_mono (s : DlmmState) (swapForY : UInt8) (a b : UInt64) (q : DlmmQuote)
    (hfit : outTotal (swapForY != 0) s.bins < 2 ^ 64) (ha : 0 < a) (hab : a ≤ b)
    (h : dlmmQuoteExactIn s b swapForY = some q) :
    ∃ p, dlmmQuoteExactIn s a swapForY = some p ∧ p.amountOut ≤ q.amountOut ∧
      p.binsCrossed ≤ q.binsCrossed := by
  have hapos : 0 < a.toNat := UInt64.lt_iff_toNat_lt.mp ha
  have habNat : a.toNat ≤ b.toNat := UInt64.le_iff_toNat_le.mp hab
  have hane : a ≠ 0 := by
    rintro rfl
    exact absurd hapos (lt_irrefl _)
  unfold dlmmQuoteExactIn at h
  split at h
  next => cases h
  next hbne =>
    obtain ⟨⟨s', res⟩, happ, rfl⟩ := Option.map_eq_some_iff.mp h
    have happ' : dlmmApplySwap s (quoteSwap b swapForY) = some (s', res) := happ
    have hstatus := dlmmApplySwap_enabled happ'
    obtain ⟨w, hw, hzero, rfl, -, hrout, -⟩ := dlmmApplySwap_run happ'
    rw [quoteSwap_dir] at hw
    obtain ⟨-, -, hbins0, hactive0, -, -⟩ := updateReferences_shared s
    have hbins : (walkInit s (quoteSwap b swapForY)).after.bins = s.bins := hbins0
    have hactive : (walkInit s (quoteSwap b swapForY)).after.activeId = s.activeId := hactive0
    have hblt : (walkInit s (quoteSwap b swapForY)).left < 2 ^ 64 := UInt64.toNat_lt b
    have hroom : outTotal (swapForY != 0) (walkInit s (quoteSwap b swapForY)).after.bins
        + (walkInit s (quoteSwap b swapForY)).totalOut < 2 ^ 64 := by
      rw [hbins]
      exact hfit
    -- the smaller walk starts where the larger one does
    obtain ⟨x, hx, hx0, hxout, hxtr⟩ := walkLoop_mono 256 hapos habNat hblt hroom hw hzero
    have hxw : walkLoop (feeOnInput s ((quoteSwap a swapForY).swapForY != 0))
        ((quoteSwap a swapForY).swapForY != 0) 256 (walkInit s (quoteSwap a swapForY))
          = some x := by
      rw [quoteSwap_dir]
      exact hx
    have hxapp : dlmmApplySwap s (quoteSwap a swapForY) = _ :=
      dlmmApplySwap_of_run hstatus hane hxw hx0 (Nat.zero_le _)
    have hquote : dlmmQuoteExactIn s a swapForY = (dlmmApplySwap s (quoteSwap a swapForY)).map
        fun r => ⟨r.2.amountOut, r.2.fee, UInt16.ofNat
          (r.1.activeId.toInt - s.activeId.toInt).natAbs⟩ := if_neg hane
    rw [hquote, hxapp]
    refine ⟨_, rfl, ?_, ?_⟩
    · have hsum := walkLoop_out hblt hroom hw
      show UInt64.ofNat x.totalOut ≤ res.amountOut
      rw [hrout, UInt64.le_iff_toNat_le,
        UInt64.toNat_ofNat_of_lt' (show x.totalOut < 2 ^ 64 by omega),
        UInt64.toNat_ofNat_of_lt' (show w.totalOut < 2 ^ 64 by omega)]
      exact hxout
    · have hwtr := walkLoop_travelled 256 hw
      have hxtr0 := walkLoop_travelled 256 hx
      unfold travelled at hxtr hwtr hxtr0
      rw [hactive] at hxtr hwtr
      have hxact : ({ walkInit s (quoteSwap b swapForY) with left := a.toNat }).after.activeId
          = s.activeId := hactive
      rw [hxact] at hxtr0
      -- natAbs of a distance in the direction of the swap
      have habs : (x.after.activeId.toInt - s.activeId.toInt).natAbs
            ≤ (w.after.activeId.toInt - s.activeId.toInt).natAbs ∧
          (w.after.activeId.toInt - s.activeId.toInt).natAbs ≤ 256 := by
        cases hdir : (swapForY != 0) with
        | true => simp only [hdir, if_true] at hxtr hwtr hxtr0; omega
        | false => simp only [hdir, Bool.false_eq_true, if_false] at hxtr hwtr hxtr0; omega
      show UInt16.ofNat _ ≤ UInt16.ofNat _
      rw [UInt16.le_iff_toNat_le, UInt16.toNat_ofNat_of_lt' (lt_of_le_of_lt
        (habs.1.trans habs.2) (by decide)), UInt16.toNat_ofNat_of_lt'
        (lt_of_le_of_lt habs.2 (by decide))]
      exact habs.1

/-- Three bins at price one, with a fee of one per cent. -/
def quoteBook : DlmmState :=
  { activeId := 0, binStep := 1, status := 0
    parameters := ⟨10000, 0, 0, 0, 0, 0, 500, 2, 0⟩
    vParameters := ⟨0, 0, 0, 0⟩
    reserveX := 0, reserveY := 8000
    bins := [⟨0, 0, 2000, 2 ^ 64⟩, ⟨-1, 0, 2000, 2 ^ 64⟩, ⟨-2, 0, 4000, 2 ^ 64⟩], nowTs := 0 }

theorem dlmmQuote_mono_demo : ∃ q p, dlmmQuoteExactIn quoteBook 3000 1 = some q ∧
    dlmmQuoteExactIn quoteBook 10 1 = some p ∧ p.amountOut ≤ q.amountOut ∧
    p.binsCrossed ≤ q.binsCrossed := by
  have hsome : (dlmmQuoteExactIn quoteBook 3000 1).isSome = true := by decide +kernel
  obtain ⟨q, hq⟩ := Option.isSome_iff_exists.mp hsome
  obtain ⟨p, hp, hout, hbins⟩ := dlmmQuote_mono quoteBook 1 10 3000 q (by decide) (by decide)
    (by decide) hq
  exact ⟨q, p, hq, hp, hout, hbins⟩

end ShredArb.Dlmm
