/-
  ShredArb.Dlmm.Turn — one iteration of the bin walk, WHERE THE FEE IS TAKEN
  EITHER WAY.

  A bin charges its fee on what is left (the last bin of a walk) or on what its
  fill used (a bin the walk exhausts), each rounded up.  The second fee is at
  most the first, so the tests `fee > left`, `amount < out` and
  `included > left` of the source never fail, and a leftover survives the
  second rounding.

  Main results:
    * `takeFill_input` / `takeFill_output` — the amounts of an iteration.
    * `walkStep_turn` — everything an iteration does to the loop's locals, the
      totals of the bins and the reserves.
    * `guards_silent` — the three tests are never the reason of a failure.
-/
import ShredArb.Dlmm.Walk

namespace ShredArb.Dlmm

open ShredArb.Word ShredArb.Slots

/-! ## §1. Rates and fees. -/

theorem cappedRate_le (n : Nat) : (if n > dlmmMaxFeeRate then dlmmMaxFeeRate else n) ≤ 100000000 := by
  unfold dlmmMaxFeeRate
  split <;> omega

theorem totalFeeRate_le (s : DlmmState) : totalFeeRate s ≤ 100000000 := by
  unfold totalFeeRate
  exact cappedRate_le _

/-- A fee inside an amount is at most a tenth of it, rounded up. -/
theorem feeFromAmount_le {s : DlmmState} {amount fee : Nat}
    (h : computeFeeFromAmount s amount = some fee) :
    10 * fee ≤ amount + 9 ∧ amount * totalFeeRate s ≤ fee * 1000000000 := by
  have hrate := totalFeeRate_le s
  unfold computeFeeFromAmount dlmmFeePrecision at h
  simp only at h
  split at h
  · simp at h
  · have hmul : amount * totalFeeRate s ≤ amount * 100000000 :=
      Nat.mul_le_mul_left amount hrate
    have hf := Option.some.inj h
    generalize amount * totalFeeRate s = t at hmul hf ⊢
    omega

/-- The fee inside a 64-bit amount: the exact ceiling. -/
theorem computeFeeFromAmount_eq (s : DlmmState) {amount : Nat} (h : amount < 2 ^ 64) :
    computeFeeFromAmount s amount = some (ceilDiv (amount * totalFeeRate s) 1000000000) := by
  have hrate := totalFeeRate_le s
  have hceil : ceilDiv (amount * totalFeeRate s) 1000000000 ≤ amount := by
    refine ceilDiv_le_of (by norm_num) (Nat.mul_le_mul_left amount ?_)
    omega
  unfold computeFeeFromAmount dlmmFeePrecision
  simp only
  rw [← Nat.add_sub_assoc (by norm_num), add_pred_div_eq_ceilDiv _ (by norm_num),
    if_neg (by omega)]

/-- **The fee on top of what a fill used is at most the fee that was taken off
before the fill.** -/
theorem computeFee_le {s : DlmmState} {left fee used fee' : Nat}
    (hfee : computeFeeFromAmount s left = some fee) (hused : used + fee ≤ left)
    (h : computeFee s used = some fee') : fee' ≤ fee := by
  have hrate := totalFeeRate_le s
  have hcov := (feeFromAmount_le hfee).2
  unfold computeFee dlmmFeePrecision at h
  simp only at h
  generalize totalFeeRate s = r at hrate hcov h
  rw [if_neg (by omega), add_pred_div_eq_ceilDiv _ (by omega)] at h
  split at h
  · simp at h
  · rw [← Option.some.inj h]
    refine ceilDiv_le_of (by omega) ?_
    have hmono : (used + fee) * r ≤ left * r := Nat.mul_le_mul_right r hused
    have hsplit : fee * (1000000000 - r) + fee * r = fee * 1000000000 := by
      rw [← Nat.mul_add]
      congr 1
      omega
    have hexp : (used + fee) * r = used * r + fee * r := Nat.add_mul _ _ _
    omega

/-- There is a fee on top of every 64-bit amount. -/
theorem computeFee_isSome (s : DlmmState) {used : Nat} (h : used < 2 ^ 64) :
    ∃ fee, computeFee s used = some fee := by
  have hrate := totalFeeRate_le s
  have hmul : used * totalFeeRate s ≤ used * 100000000 := Nat.mul_le_mul_left used hrate
  unfold computeFee dlmmFeePrecision
  simp only
  generalize totalFeeRate s = r at hrate hmul ⊢
  rw [if_neg (by omega), add_pred_div_eq_ceilDiv _ (by omega)]
  have hceil : ceilDiv (used * r) (1000000000 - r) ≤ used := by
    refine ceilDiv_le_of (by omega) (hmul.trans (Nat.mul_le_mul_left used ?_))
    omega
  exact ⟨_, if_neg (by omega)⟩

/-- What a larger amount leaves after its fee is not smaller. -/
theorem afterFee_mono (s : DlmmState) {a b : Nat} (hab : a ≤ b) :
    a - ceilDiv (a * totalFeeRate s) 1000000000 ≤ b - ceilDiv (b * totalFeeRate s) 1000000000 := by
  have hrate := totalFeeRate_le s
  generalize totalFeeRate s = r at hrate ⊢
  obtain ⟨d, rfl⟩ := Nat.exists_eq_add_of_le hab
  -- the fee grows by no more than the amount does
  have hgrow : ceilDiv ((a + d) * r) 1000000000 ≤ ceilDiv (a * r) 1000000000 + d := by
    refine ceilDiv_le_of (by norm_num) ?_
    have hcov := le_ceilDiv_mul (a * r) (show 0 < 1000000000 by norm_num)
    have hd : d * r ≤ d * 1000000000 := Nat.mul_le_mul_left d (by omega)
    rw [Nat.add_mul, Nat.add_mul]
    exact Nat.add_le_add hcov hd
  omega

/-- The protocol's share of a fee within a tenth of a word is 64-bit. -/
theorem protocolFee_isSome {s : DlmmState} {fee : Nat} (h : 10 * fee ≤ 2 ^ 64 + 9) :
    ∃ proto, computeProtocolFee s fee = some proto := by
  have hshare := UInt16.toNat_lt s.parameters.protocolShare
  have hmul : fee * s.parameters.protocolShare.toNat ≤ fee * 65535 :=
    Nat.mul_le_mul_left fee (by omega)
  refine ⟨fee * s.parameters.protocolShare.toNat / 10000, ?_⟩
  unfold computeProtocolFee
  exact if_neg (show ¬ fee * s.parameters.protocolShare.toNat / 10000 > 2 ^ 64 - 1 by omega)

/-! ## §2. The fill of one bin. -/

/-- Less than the whole cost buys less than the whole side. -/
theorem amountOut_lt {a cost out price got : Nat} {sfy : Bool} (ha : a < 2 ^ 64)
    (hout : out < 2 ^ 64) (hp : price < 2 ^ 128)
    (hcost : amountIn out price sfy true = some cost) (hlt : a < cost)
    (hgot : amountOut a price sfy = some got) : got < out := by
  have hpaid := (amountOut_le ha hp hgot).2
  cases sfy with
  | true =>
    obtain ⟨hr, -⟩ := fitU64_eq_some (by simpa [amountIn] using hcost)
    rw [u128Shl64Div_eq] at hr
    split at hr
    · simp at hr
    · rename_i hden
      simp only [if_true] at hr hpaid
      split at hr
      · simp at hr
      · have hless : a * price < out * 2 ^ 64 := by
          by_contra hge
          have := ceilDiv_le_of (show 0 < price by omega) (not_lt.mp hge)
          rw [Option.some.inj hr] at this
          omega
        omega
  | false =>
    obtain ⟨hr, -⟩ := fitU64_eq_some (by simpa [amountIn] using hcost)
    rw [u128MulShr64_eq (by omega) hp] at hr
    split at hr
    · simp only [roundShr64, if_true, Option.some.injEq] at hr
      simp only [Bool.false_eq_true, if_false] at hpaid
      have hless : a * 2 ^ 64 < out * price := by
        by_contra hge
        have := ceilDiv_le_of (show 0 < 2 ^ 64 by norm_num) (not_lt.mp hge)
        omega
      exact Nat.lt_of_mul_lt_mul_right (lt_of_le_of_lt hpaid hless)
    · simp at hr

/-- A fill never gives out more than the bin holds. -/
theorem fillMm_le_side {b : DlmmBin} {a : Nat} {sfy : Bool} {m : MmFill} (ha : a < 2 ^ 64)
    (h : fillMm b a sfy = some m) : m.outAmt ≤ b.outSide sfy := by
  unfold fillMm at h
  simp only at h
  split at h
  · rw [← Option.some.inj h]
    exact Nat.zero_le _
  · obtain ⟨maxIn, hmax, h⟩ := Option.bind_eq_some_iff.mp h
    split at h
    · rw [← Option.some.inj h]
    · rename_i hlt
      obtain ⟨out, hout, h⟩ := Option.map_eq_some_iff.mp h
      rw [← h]
      exact (amountOut_lt ha (b.outSide_lt sfy) b.price.isLt hmax (not_le.mp hlt) hout).le

/-! ## §3. The amounts of an iteration. -/

/-- **Fee on the input**: what goes into the bin is what the fill used, and the
iteration takes that and its fee off the remaining amount: all of it when the
fill left nothing over, else less than all of it. -/
theorem takeFill_input {s : DlmmState} {bin : DlmmBin} {left : Nat} {sfy : Bool} {f : BinFill}
    (hleft : left < 2 ^ 64) (h : takeFill s bin left true sfy = some f) :
    ∃ fee m, computeFeeFromAmount s left = some fee ∧ fillMm bin (left - fee) sfy = some m ∧
      f.outAmt = m.outAmt ∧ f.intoBin = m.usedIn ∧ f.included = m.usedIn + f.fee ∧
      (m.left = 0 → f.included = left) ∧
      (0 < m.left → computeFee s m.usedIn = some f.fee ∧ f.included < left) := by
  unfold takeFill at h
  simp only [Option.bind_eq_some_iff, Option.map_eq_some_iff] at h
  obtain ⟨fee, hfee, m, hm, inc, hinc, out, hout, proto, -, rfl⟩ := h
  have hle := inputFee_le hfee
  obtain ⟨hsplit, -, -⟩ := fillMm_spec (by omega) hm
  have hfeq : computeFeeFromAmount s left = some fee := by
    obtain ⟨fee0, hfee0, hfee1⟩ := Option.bind_eq_some_iff.mp hfee
    split at hfee1
    · simp at hfee1
    · rw [hfee0, Option.some.inj hfee1]
  obtain rfl : (m.outAmt, inc.2) = out := by
    simpa [outputFee] using hout
  refine ⟨fee, m, hfeq, hm, rfl, ?_⟩
  unfold includedFee at hinc
  split at hinc
  next hpos =>
    -- exhausted: the fee is on what the fill used, and is not above the first fee
    obtain ⟨fee', hfee', hinc⟩ := Option.map_eq_some_iff.mp hinc
    have hsub : sub64 (left - fee) m.left = m.usedIn := by
      rw [sub64_of_le (by omega) (by omega)]
      omega
    rw [hsub] at hfee' hinc
    have hle' := computeFee_le hfeq (show m.usedIn + fee ≤ left by omega) hfee'
    rw [wrap64_of_lt (by omega)] at hinc
    subst hinc
    refine ⟨?_, rfl, fun h0 => absurd h0 (by omega), fun _ => ⟨hfee', ?_⟩⟩
    · show sub64 (m.usedIn + fee') fee' = m.usedIn
      rw [sub64_of_le (by omega) (by omega)]
      omega
    · show m.usedIn + fee' < left
      omega
  next hzero =>
    obtain rfl := Option.some.inj hinc
    refine ⟨?_, ?_, fun _ => rfl, fun h0 => absurd h0 hzero⟩
    · show sub64 left fee = m.usedIn
      rw [sub64_of_le hle hleft]
      omega
    · show left = m.usedIn + fee
      omega

/-- **Fee on the output**: the iteration takes in what the fill used, gives out
what the fill gave less the fee, and books the used amount LESS THE FEE, modulo
`2 ^ 64`. -/
theorem takeFill_output {s : DlmmState} {bin : DlmmBin} {left : Nat} {sfy : Bool} {f : BinFill}
    (hleft : left < 2 ^ 64) (h : takeFill s bin left false sfy = some f) :
    ∃ m, fillMm bin left sfy = some m ∧ computeFeeFromAmount s m.outAmt = some f.fee ∧
      f.fee ≤ m.outAmt ∧ f.outAmt = m.outAmt - f.fee ∧ f.included = m.usedIn ∧
      f.intoBin = sub64 m.usedIn f.fee := by
  unfold takeFill at h
  simp only [Option.bind_eq_some_iff, Option.map_eq_some_iff] at h
  obtain ⟨fee, hfee, m, hm, inc, hinc, out, hout, proto, -, rfl⟩ := h
  obtain rfl : 0 = fee := Option.some.inj hfee
  rw [Nat.sub_zero] at hm hinc
  obtain ⟨hsplit, -, -⟩ := fillMm_spec hleft hm
  have hused : inc.1 = m.usedIn := by
    unfold includedFee at hinc
    split at hinc
    next hpos =>
      obtain rfl : (sub64 left m.left, 0) = inc := by simpa using hinc
      show sub64 left m.left = m.usedIn
      rw [sub64_of_le (by omega) hleft]
      omega
    next hzero =>
      obtain rfl := Option.some.inj hinc
      show left = m.usedIn
      omega
  unfold outputFee at hout
  simp only [Bool.false_eq_true, if_false] at hout
  obtain ⟨fee', hfee', hout⟩ := Option.bind_eq_some_iff.mp hout
  split at hout
  next => cases hout
  next hsmall =>
    obtain rfl := Option.some.inj hout
    exact ⟨m, hm, hfee', not_lt.mp hsmall, rfl, hused, by rw [← hused]⟩

/-- What an iteration gives out fits the bin, and its fee is covered: by what
it takes in, or (up to the rounding) by nine times what it gives out. -/
theorem takeFill_amounts {s : DlmmState} {b : DlmmBin} {left : Nat} {foi sfy : Bool}
    {f : BinFill} (hleft : left < 2 ^ 64) (h : takeFill s b left foi sfy = some f) :
    f.outAmt ≤ b.outSide sfy ∧ (foi = true → f.fee ≤ f.included) ∧
      (foi = false → 9 * f.fee ≤ f.outAmt + 9) := by
  cases foi with
  | true =>
    obtain ⟨fee, m, -, hm, hout, -, hincl, -⟩ := takeFill_input hleft h
    have hside := fillMm_le_side (show left - fee < 2 ^ 64 by omega) hm
    exact ⟨hout ▸ hside, fun _ => by omega, fun h => by cases h⟩
  | false =>
    obtain ⟨m, hm, hfee, hle, hout, -, -⟩ := takeFill_output hleft h
    have hside := fillMm_le_side hleft hm
    have htenth := (feeFromAmount_le hfee).1
    exact ⟨by omega, (fun h => by cases h), fun _ => by omega⟩

/-- An iteration never takes in more than is left. -/
theorem takeFill_included_le {s : DlmmState} {b : DlmmBin} {left : Nat} {foi sfy : Bool}
    {f : BinFill} (hleft : left < 2 ^ 64) (h : takeFill s b left foi sfy = some f) :
    f.included ≤ left := by
  cases foi with
  | true =>
    obtain ⟨fee, m, -, -, -, -, -, hall, hpart⟩ := takeFill_input hleft h
    rcases Nat.eq_zero_or_pos m.left with h0 | hpos
    · exact (hall h0).le
    · exact (hpart hpos).2.le
  | false =>
    obtain ⟨m, hm, -, -, -, hincl, -⟩ := takeFill_output hleft h
    have hsplit := (fillMm_spec hleft hm).1
    omega

/-! ## §4. Totals of the array. -/

theorem findBin_setBin_ne {l : List DlmmBin} {b : DlmmBin} {id : Int32} (h : b.id ≠ id) :
    findBin (setBin l b) id = findBin l id := by
  rw [setBin_eq]
  exact findSlot_setSlot_ne h

/-- A write replaces the share of the bin it names in any sum over the array. -/
theorem sum_setBin (g : DlmmBin → Nat) {l : List DlmmBin} {b b' : DlmmBin}
    (hfind : findBin l b'.id = some b) :
    ((setBin l b').map g).sum + g b = (l.map g).sum + g b' := by
  rw [setBin_eq]
  exact sum_setSlot g hfind

theorem le_sum_of_findBin (g : DlmmBin → Nat) {l : List DlmmBin} {id : Int32} {b : DlmmBin}
    (hfind : findBin l id = some b) : g b ≤ (l.map g).sum :=
  le_sum_of_findSlot g hfind

/-- The total of the side a swap pays into, over the bins. -/
def inTotal (sfy : Bool) (bins : List DlmmBin) : Nat := (bins.map (·.inSide sfy)).sum

/-- The total of the side a swap takes from. -/
def outTotal (sfy : Bool) (bins : List DlmmBin) : Nat := (bins.map (·.outSide sfy)).sum

/-- The reserve a swap pays into. -/
def DlmmState.inReserve (s : DlmmState) (sfy : Bool) : UInt64 :=
  if sfy then s.reserveX else s.reserveY

/-- The reserve a swap takes from. -/
def DlmmState.outReserve (s : DlmmState) (sfy : Bool) : UInt64 :=
  if sfy then s.reserveY else s.reserveX

/-! ## §5. One iteration. -/

/-- `visitBin`, with the search and the price in one piece. -/
theorem visitBin_eq (s : DlmmState) :
    visitBin s = ((findBin s.bins s.activeId).bind fun b =>
        ensurePrice b s.binStep).map fun b =>
      (updateVolatility { s with bins := setBin s.bins b }, b) := by
  unfold visitBin
  rw [Option.map_bind]
  rfl

/-- What a visit finds: the first bin with the active id, and its priced copy,
stored back; the accumulator is updated and nothing else changes. -/
theorem visitBin_spec {s : DlmmState} {v : DlmmState × DlmmBin} (h : visitBin s = some v) :
    ∃ bin, findBin s.bins s.activeId = some bin ∧ v.2.id = s.activeId ∧
      (∀ sfy, v.2.inSide sfy = bin.inSide sfy ∧ v.2.outSide sfy = bin.outSide sfy) ∧
      v.1 = updateVolatility { s with bins := setBin s.bins v.2 } := by
  unfold visitBin at h
  obtain ⟨bin, hfind, h⟩ := Option.bind_eq_some_iff.mp h
  obtain ⟨pbin, hprice, rfl⟩ := Option.map_eq_some_iff.mp h
  have hp := (ensurePrice_spec hprice).1
  refine ⟨bin, hfind, ?_, fun sfy => ⟨?_, ?_⟩, rfl⟩
  · have hid := findBin_id hfind
    rw [hp]
    exact hid
  · rw [hp]
    rfl
  · rw [hp]
    rfl

/-- **What one iteration does**, with the fee taken either way: `v` is the
state and bin it works on, `f` its amounts. -/
structure Turn (foi sfy : Bool) (w w' : Walk) (v : DlmmState × DlmmBin) (f : BinFill) :
    Prop where
  visit : visitBin w.after = some v
  take : takeFill v.1 v.2 w.left foi sfy = some f
  included_le : f.included ≤ w.left
  left_eq : w'.left = w.left - f.included
  totalIn_eq : w'.totalIn = wrap64 (w.totalIn + f.included)
  totalOut_eq : w'.totalOut = wrap64 (w.totalOut + f.outAmt)
  totalFee_eq : w'.totalFee = wrap64 (w.totalFee + f.fee)
  outTotal_eq : outTotal sfy w'.after.bins + f.outAmt = outTotal sfy w.after.bins
  inTotal_eq : inTotal sfy w.after.bins + f.intoBin < 2 ^ 64 →
    inTotal sfy w'.after.bins = inTotal sfy w.after.bins + f.intoBin
  inReserve_eq : w'.after.inReserve sfy = w.after.inReserve sfy + UInt64.ofNat f.intoBin
  outReserve_eq : w'.after.outReserve sfy = w.after.outReserve sfy - UInt64.ofNat f.outAmt
  stay : w'.left = 0 → w'.after.activeId = w.after.activeId
  move : 0 < w'.left →
    w'.after.activeId.toInt = w.after.activeId.toInt + (if sfy then -1 else 1)
  ahead : ∀ id, id ≠ w.after.activeId → findBin w'.after.bins id = findBin w.after.bins id
  binStep_eq : w'.after.binStep = w.after.binStep
  params_eq : w'.after.parameters = w.after.parameters
  idx_eq : w'.after.vParameters.indexReference = w.after.vParameters.indexReference
  ref_eq : w'.after.vParameters.volatilityReference = w.after.vParameters.volatilityReference

/-- What the booking of an iteration writes. -/
theorem bookFill_write {s s' : DlmmState} {bin : DlmmBin} {f : BinFill} {sfy : Bool}
    (h : bookFill s bin f sfy = some s') :
    ∃ bin', bin'.id = bin.id ∧
      bin'.inSide sfy = (bin.inSide sfy + f.intoBin) % 2 ^ 64 ∧
      bin'.outSide sfy = bin.outSide sfy - f.outAmt ∧ f.outAmt ≤ bin.outSide sfy ∧
      s'.inReserve sfy = s.inReserve sfy + UInt64.ofNat f.intoBin ∧
      s'.outReserve sfy = s.outReserve sfy - UInt64.ofNat f.outAmt ∧
      s' = { s with bins := setBin s.bins bin', reserveX := s'.reserveX
                    reserveY := s'.reserveY } := by
  obtain ⟨bin', hbins, hid, -, hin, hle, hout, -, -, -⟩ := bookFill_spec h
  refine ⟨bin', hid, hin, hout, hle, ?_⟩
  unfold bookFill at h
  simp only at h
  cases sfy with
  | true =>
    simp only [if_true] at h
    split at h
    next => cases h
    next =>
      rw [← Option.some.inj h] at hbins ⊢
      exact ⟨rfl, rfl, by rw [← hbins]⟩
  | false =>
    simp only [Bool.false_eq_true, if_false] at h
    split at h
    next => cases h
    next =>
      rw [← Option.some.inj h] at hbins ⊢
      exact ⟨rfl, rfl, by rw [← hbins]⟩

/-- **One iteration of the walk.** -/
theorem walkStep_turn {foi sfy : Bool} {w w' : Walk}
    (h : walkStep foi sfy w = some w') : ∃ v f, Turn foi sfy w w' v f := by
  unfold walkStep at h
  simp only [Option.bind_eq_some_iff] at h
  obtain ⟨v, hv, f, hf, s, hs, h⟩ := h
  refine ⟨v, f, ?_⟩
  obtain ⟨bin, hfind, hvid, hsides, hv1⟩ := visitBin_spec hv
  obtain ⟨bin', hid, hin, hout, hle, hresIn, hresOut, hs'⟩ := bookFill_write hs
  split at h
  next => cases h
  next hincl =>
    obtain ⟨s2, hs2, rfl⟩ := Option.map_eq_some_iff.mp h
    -- the move of the active bin touches nothing else
    have hmove : s2 = { s with activeId := s2.activeId } ∧
        (w.left - f.included = 0 → s2.activeId = s.activeId) ∧
        (0 < w.left - f.included →
          s2.activeId.toInt = s.activeId.toInt + (if sfy then -1 else 1)) := by
      split at hs2
      next hpos =>
        obtain ⟨h1, h2⟩ := stepActive_spec hs2
        exact ⟨h1, fun h0 => absurd h0 (by omega), fun _ => h2⟩
      next hpos =>
        obtain rfl := Option.some.inj hs2
        exact ⟨rfl, fun _ => rfl, fun h0 => absurd h0 hpos⟩
    obtain ⟨hs2eq, hstay, hgo⟩ := hmove
    have hbins : s2.bins = setBin w.after.bins bin' := by
      rw [hs2eq, hs', hv1]
      exact setBin_setBin _ hid
    have hactive : s.activeId = w.after.activeId := by
      rw [hs', hv1]
      rfl
    have hfind' : findBin w.after.bins bin'.id = some bin := by rw [hid, hvid, hfind]
    obtain ⟨hpin, hpout⟩ := hsides sfy
    rw [hpin] at hin
    rw [hpout] at hout hle
    constructor
    · exact hv
    · exact hf
    · exact not_lt.mp hincl
    · rfl
    · rfl
    · rfl
    · rfl
    · have hsum := sum_setBin (·.outSide sfy) hfind'
      show outTotal sfy s2.bins + f.outAmt = _
      rw [hbins]
      unfold outTotal
      omega
    · intro hfit
      have hsum := sum_setBin (·.inSide sfy) hfind'
      have hpart := le_sum_of_findBin (·.inSide sfy) hfind'
      show inTotal sfy s2.bins = _
      rw [hbins]
      unfold inTotal at hfit ⊢
      rw [Nat.mod_eq_of_lt (by omega)] at hin
      omega
    · show s2.inReserve sfy = _
      rw [hs2eq]
      show s.inReserve sfy = _
      rw [hresIn, hv1]
      rfl
    · show s2.outReserve sfy = _
      rw [hs2eq]
      show s.outReserve sfy = _
      rw [hresOut, hv1]
      rfl
    · intro h0
      exact (hstay h0).trans hactive
    · intro h0
      rw [← hactive]
      exact hgo h0
    · intro id hne
      show findBin s2.bins id = _
      rw [hbins]
      refine findBin_setBin_ne ?_
      rw [hid, hvid]
      exact hne.symm
    · show s2.binStep = _
      rw [hs2eq, hs', hv1]
      rfl
    · show s2.parameters = _
      rw [hs2eq, hs', hv1]
      rfl
    · show s2.vParameters.indexReference = _
      rw [hs2eq, hs', hv1]
      rfl
    · show s2.vParameters.volatilityReference = _
      rw [hs2eq, hs', hv1]
      rfl

/-! ## §6. The whole walk. -/

theorem Turn.left_lt {foi sfy : Bool} {w w' : Walk} {v : DlmmState × DlmmBin} {f : BinFill}
    (t : Turn foi sfy w w' v f) (hleft : w.left < 2 ^ 64) : w'.left < 2 ^ 64 := by
  have h := t.left_eq
  omega

/-- **The run lemma of the walk**, with the fee taken either way: what every
iteration carries over holds at the end. -/
theorem walkLoop_turns {foi sfy : Bool} {P : Walk → Prop}
    (hstep : ∀ w w' v f, w.left < 2 ^ 64 → P w → Turn foi sfy w w' v f → P w') :
    ∀ (n : Nat) (w w' : Walk), w.left < 2 ^ 64 → P w →
      walkLoop foi sfy n w = some w' → P w' := by
  intro n
  induction n with
  | zero =>
    intro w w' _ hP h
    exact Option.some.inj h ▸ hP
  | succ n ih =>
    intro w w' hleft hP h
    unfold walkLoop at h
    split at h
    next => exact Option.some.inj h ▸ hP
    next =>
      obtain ⟨u, hu, h⟩ := Option.bind_eq_some_iff.mp h
      obtain ⟨v, f, t⟩ := walkStep_turn hu
      exact ih u w' (t.left_lt hleft) (hstep _ _ _ _ hleft hP t) h

/-- A successful swap is a run of the walk that leaves nothing, from the state
with its references updated. -/
theorem dlmmApplySwap_run {s s' : DlmmState} {ix : DlmmSwapIx} {res : DlmmApplyResult}
    (h : dlmmApplySwap s ix = some (s', res)) :
    ∃ w, walkLoop (feeOnInput s (ix.swapForY != 0)) (ix.swapForY != 0) 256 (walkInit s ix)
        = some w ∧ w.left = 0 ∧ s' = w.after ∧ res.amountIn = UInt64.ofNat w.totalIn ∧
      res.amountOut = UInt64.ofNat w.totalOut ∧ res.fee = UInt64.ofNat w.totalFee := by
  unfold dlmmApplySwap at h
  simp only [feeOnInput_updateReferences] at h
  split at h
  next => cases h
  next =>
    obtain ⟨w, hw, h⟩ := Option.bind_eq_some_iff.mp h
    split at h
    next => cases h
    next hleft =>
      split at h
      next => cases h
      next =>
        obtain ⟨rfl, rfl⟩ := Prod.mk.inj (Option.some.inj h)
        exact ⟨w, hw, by omega, rfl, rfl, rfl, rfl⟩

/-- And such a run is a swap, when the pool is enabled and the output suffices. -/
theorem dlmmApplySwap_of_run {s : DlmmState} {ix : DlmmSwapIx} {w : Walk}
    (hstatus : s.status = 0) (hamount : ix.amountIn ≠ 0)
    (h : walkLoop (feeOnInput s (ix.swapForY != 0)) (ix.swapForY != 0) 256 (walkInit s ix)
      = some w) (hleft : w.left = 0) (hmin : ix.minAmountOut.toNat ≤ w.totalOut) :
    dlmmApplySwap s ix = some (w.after,
      ⟨UInt64.ofNat w.totalIn, UInt64.ofNat w.totalOut, UInt64.ofNat w.totalFee,
        UInt64.ofNat w.totalProto, w.after.activeId⟩) := by
  unfold dlmmApplySwap
  simp only [feeOnInput_updateReferences]
  rw [if_neg (by tauto), h, Option.bind_some, if_neg (by omega), if_neg (by omega)]

theorem dlmmApplySwap_enabled {s : DlmmState} {ix : DlmmSwapIx}
    {r : DlmmState × DlmmApplyResult} (h : dlmmApplySwap s ix = some r) : s.status = 0 := by
  unfold dlmmApplySwap at h
  split at h
  next => cases h
  next hopen => exact not_not.mp fun hs => hopen (Or.inl hs)

/-- The out-side of the bins and the output so far add up to what the bins held. -/
theorem walkLoop_out {foi sfy : Bool} {n : Nat} {w w' : Walk} (hleft : w.left < 2 ^ 64)
    (hfit : outTotal sfy w.after.bins + w.totalOut < 2 ^ 64)
    (h : walkLoop foi sfy n w = some w') :
    outTotal sfy w'.after.bins + w'.totalOut = outTotal sfy w.after.bins + w.totalOut := by
  refine walkLoop_turns (P := fun u => outTotal sfy u.after.bins + u.totalOut
    = outTotal sfy w.after.bins + w.totalOut) ?_ n w w' hleft rfl h
  intro u u' v f _ hu t
  have hout := t.outTotal_eq
  rw [t.totalOut_eq, wrap64_of_lt (by omega)]
  omega

/-! ## §7. The guards. -/

/-- The three tests an iteration makes after a computation, and the amount
left after a fill with a leftover. -/
structure GuardsSilent (foi sfy : Bool) (w : Walk) : Prop where
  /-- `fee > left` -/
  fee_le : ∀ v fee, visitBin w.after = some v →
    computeFeeFromAmount v.1 w.left = some fee → ¬ fee > w.left
  /-- `bin->amount_y < out_amt`, or `amount_x` -/
  out_le : ∀ v f, visitBin w.after = some v →
    takeFill v.1 v.2 w.left foi sfy = some f → ¬ v.2.outSide sfy < f.outAmt
  /-- `included > left` -/
  included_le : ∀ v f, visitBin w.after = some v →
    takeFill v.1 v.2 w.left foi sfy = some f → ¬ f.included > w.left
  /-- a leftover is not swallowed by the second rounding -/
  leftover : ∀ v fee m f, visitBin w.after = some v → inputFee v.1 w.left foi = some fee →
    fillMm v.2 (w.left - fee) sfy = some m → takeFill v.1 v.2 w.left foi sfy = some f →
    0 < m.left → 0 < w.left - f.included

/-- **The tests never fail**, for any state and amount, with the fee taken
either way. -/
theorem guards_silent (foi sfy : Bool) {w : Walk} (hleft : w.left < 2 ^ 64) :
    GuardsSilent foi sfy w := by
  constructor
  · intro v fee _ hfee
    rw [computeFeeFromAmount_eq _ hleft] at hfee
    have hrate := totalFeeRate_le v.1
    have hceil : ceilDiv (w.left * totalFeeRate v.1) 1000000000 ≤ w.left :=
      ceilDiv_le_of (by norm_num) (Nat.mul_le_mul_left w.left (by omega))
    rw [← Option.some.inj hfee]
    omega
  · intro v f _ hf
    exact not_lt.mpr (takeFill_amounts hleft hf).1
  · intro v f _ hf
    exact not_lt.mpr (takeFill_included_le hleft hf)
  · intro v fee m f _ hfee hm hf hpos
    have hle := inputFee_le hfee
    cases foi with
    | true =>
      obtain ⟨fee', m', hfee', hm', -, -, -, -, hpart⟩ := takeFill_input hleft hf
      have hfe : fee = fee' := by
        unfold inputFee at hfee
        rw [if_pos rfl, hfee', Option.bind_some] at hfee
        split at hfee
        next => cases hfee
        next => exact (Option.some.inj hfee).symm
      subst hfe
      obtain rfl := Option.some.inj (hm.symm.trans hm')
      have := (hpart hpos).2
      omega
    | false =>
      obtain rfl : 0 = fee := Option.some.inj hfee
      obtain ⟨m', hm', -, -, -, hincl, -⟩ := takeFill_output hleft hf
      obtain rfl := Option.some.inj (hm.symm.trans hm')
      have hsplit := (fillMm_spec (show w.left - 0 < 2 ^ 64 from hleft) hm).1
      omega

end ShredArb.Dlmm
