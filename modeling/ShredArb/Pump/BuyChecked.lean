/-
  ShredArb.Pump.BuyChecked — the buy branch of `pump_apply_swap` over checked
  arithmetic: WHICH SUBTRACTION CAN WRAP.

  The branch scales the amount down by the fee rate and takes the overshoot of
  the three rounded-up fees off the result.  For an amount of two units and
  three positive fee rates the scaled amount is one, the fees are three, and the
  overshoot of two does not fit: `effective` wraps, and with it the products and
  the divisor after it (which is zero for an effective quote of two).

  Main results:
    * `pumpApplyBuy_exact` — everywhere else the branch computes exact values.
    * `buy_safe_iff` — the branch is safe EXACTLY off that corner.
-/
import ShredArb.Lib.Checked
import ShredArb.Ports.Pump

namespace ShredArb.Pump

open ShredArb.Word ShredArb.Checked
open ShredArb.Ports (feeTotal buyNet PumpOpen)

/-! ## §1. The branch, checked. -/

/-- `fee_bps`, with the `ceil_div` it calls. -/
def feeBpsC (n bps : Nat) : Except Stop Nat := do
  refuseIf (bps > pumpFeeBpsDen)
  let p ← mul 128 n bps
  let q ← div p pumpFeeBpsDen
  add 128 q (if p % pumpFeeBpsDen ≠ 0 then 1 else 0)

/-- `split_fees`. -/
def splitFeesC (n : Nat) (s : PumpState) : Except Stop Fees := do
  let lp ← feeBpsC n s.lpFeeBps.toNat
  let proto ← feeBpsC n s.protocolFeeBps.toNat
  let creator ← feeBpsC n s.creatorFeeBps.toNat
  pure ⟨lp, proto, creator⟩

/-- `lp + proto + creator`. -/
def feeSumC (f : Fees) : Except Stop Nat := do
  let lpProto ← add 128 f.lp f.proto
  add 128 lpProto f.creator

/-- `effective` and the fees, after the correction. -/
def buyEffectiveC (s : PumpState) (amount : Nat) : Except Stop (Nat × Fees) := do
  let scaled ← mul 128 amount pumpFeeBpsDen
  let den ← add 128 pumpFeeBpsDen (totalBps s)
  let effective ← div scaled den
  let fees ← splitFeesC effective s
  let fee ← feeSumC fees
  let gross ← add 128 effective fee
  if gross > amount then do
    let overshoot ← sub gross amount
    let effective ← sub effective overshoot
    let fees ← splitFeesC effective s
    pure (effective, fees)
  else pure (effective, fees)

/-- The rest of the branch. -/
def pumpBuyC (s : PumpState) (qeff amount : Nat) : Except Stop Branch := do
  let (effective, fees) ← buyEffectiveC s amount
  let _ ← feeSumC fees
  refuseIf (effective < 1)
  let net ← sub effective 1
  let num ← mul 128 s.reserveBase.toNat net
  let den ← add 128 qeff net
  let out ← div num den
  refuseIf (out = 0 ∨ out > s.reserveBase.toNat)
  let protoCreator ← add 128 fees.proto fees.creator
  refuseIf (protoCreator > amount)
  let quoteAfter ← add 128 s.reserveQuote.toNat amount
  refuseIf (quoteAfter > 2 ^ 64 - 1)
  let reserveBase ← sub s.reserveBase.toNat out
  let q1 ← add 64 s.reserveQuote.toNat amount
  let q2 ← sub q1 fees.proto
  let reserveQuote ← sub q2 fees.creator
  pure
    { after := { s with
        reserveBase := UInt64.ofNat reserveBase
        reserveQuote := UInt64.ofNat reserveQuote }
      out := out
      fees := fees }

/-- `pump_apply_swap` of a buy. -/
def pumpApplyBuyC (before : PumpState) (ix : PumpSwapIx) :
    Except Stop (PumpState × PumpSwapResult) := do
  refuseIf (before.status ≠ 0 ∨ ix.amountIn = 0)
  refuseIf (before.disabled &&& pumpDisableBuy ≠ 0)
  let lpProto ← add 128 before.lpFeeBps.toNat before.protocolFeeBps.toNat
  let total ← add 128 lpProto before.creatorFeeBps.toNat
  refuseIf (total ≥ pumpFeeBpsDen)
  let qeff ← ofOption (effectiveQuote before)
  let b ← pumpBuyC before qeff ix.amountIn.toNat
  let fee ← feeSumC b.fees
  refuseIf (b.out = 0 ∨ b.out > 2 ^ 64 - 1 ∨ fee > 2 ^ 64 - 1)
  refuseIf (b.out < ix.minAmountOut.toNat)
  pure (b.after,
    { amountIn := ix.amountIn
      amountOut := UInt64.ofNat b.out
      fee := UInt64.ofNat fee
      lpFee := UInt64.ofNat b.fees.lp
      protocolFee := UInt64.ofNat b.fees.proto
      creatorFee := UInt64.ofNat b.fees.creator })

/-! ## §2. Fees. -/

theorem feeBpsC_ok {n bps : Nat} (hn : n < 2 ^ 64) (hb : bps ≤ 10000) :
    feeBpsC n bps = .ok (ceilDiv (n * bps) 10000) := by
  have hprod : n * bps ≤ 2 ^ 64 * 10000 := Nat.mul_le_mul hn.le hb
  have hle : n * bps / 10000 ≤ n * bps := Nat.div_le_self _ _
  unfold feeBpsC pumpFeeBpsDen
  rw [refuseIf_neg (show ¬ bps > 10000 by omega), ok_bind, mul_ok (by omega), ok_bind,
    div_ok (by norm_num), ok_bind]
  exact add_ok (by split <;> omega)

/-- The fees of a 64-bit amount: the kernel's, exact. -/
theorem splitFeesC_ok {s : PumpState} (hbps : totalBps s < 10000) {n : Nat} (hn : n < 2 ^ 64) :
    ∃ f, splitFeesC n s = .ok f ∧ splitFees n s = some f ∧ FeesOf n s f := by
  obtain ⟨f, hf, hof, -⟩ := Ports.kernel_splitFees hbps hn
  refine ⟨f, ?_, hf, hof⟩
  unfold totalBps at hbps
  unfold splitFeesC
  rw [feeBpsC_ok hn (by omega), ok_bind, feeBpsC_ok hn (by omega), ok_bind,
    feeBpsC_ok hn (by omega), ok_bind]
  have hlp := hof.lp_eq
  have hproto := hof.proto_eq
  have hcreator := hof.creator_eq
  rw [← hlp, ← hproto, ← hcreator]
  rfl

/-- Each of the three fees is at most the amount. -/
theorem FeesOf.each_le {s : PumpState} {n : Nat} {f : Fees} (h : FeesOf n s f)
    (hbps : totalBps s < 10000) : f.lp ≤ n ∧ f.proto ≤ n ∧ f.creator ≤ n := by
  have hone : ∀ b : Nat, b ≤ 10000 → ceilDiv (n * b) 10000 ≤ n := by
    intro b hb
    exact ceilDiv_le_of (by norm_num) (Nat.mul_le_mul_left n hb)
  unfold totalBps at hbps
  rw [h.lp_eq, h.proto_eq, h.creator_eq]
  exact ⟨hone _ (by omega), hone _ (by omega), hone _ (by omega)⟩

theorem feeSumC_ok {s : PumpState} {n : Nat} {f : Fees} (h : FeesOf n s f)
    (hbps : totalBps s < 10000) (hn : n < 2 ^ 64) :
    feeSumC f = .ok (feeTotal s n) ∧ f.total = feeTotal s n := by
  obtain ⟨h1, h2, h3⟩ := h.each_le hbps
  have hsum : f.lp + f.proto + f.creator = feeTotal s n := by
    rw [h.lp_eq, h.proto_eq, h.creator_eq]
    rfl
  constructor
  · unfold feeSumC
    rw [add_ok (by omega), ok_bind, add_ok (by omega), hsum]
  · unfold Fees.total
    rw [wrap128_of_lt (by omega), hsum]

/-! ## §3. The effective amount. -/

/-- The first estimate of the effective amount. -/
def estimate (s : PumpState) (amount : Nat) : Nat := amount * 10000 / (10000 + totalBps s)

/-- While the fees of the estimate fit the amount, nothing wraps, and the
effective amount is the kernel's. -/
theorem buyEffectiveC_ok {s : PumpState} (hbps : totalBps s < 10000) {a : Nat} (ha : a < 2 ^ 64)
    (hfit : feeTotal s (estimate s a) ≤ a) :
    ∃ f, buyEffectiveC s a = .ok (buyNet s a, f) ∧ buyEffective s a = some (buyNet s a, f) ∧
      FeesOf (buyNet s a) s f ∧ buyNet s a ≤ a := by
  have hle : estimate s a ≤ a := Ports.scaled_le s a
  have hnetle : buyNet s a ≤ a := by
    have := Ports.buyNet_add_fee hfit
    omega
  have hdef : buyNet s a = if estimate s a + feeTotal s (estimate s a) > a
      then a - feeTotal s (estimate s a) else estimate s a := rfl
  obtain ⟨f, hfC, hf, hof⟩ := splitFeesC_ok hbps (show estimate s a < 2 ^ 64 by omega)
  obtain ⟨hsumC, htot⟩ := feeSumC_ok hof hbps (by omega)
  have hscale : a * 10000 < 2 ^ 128 := by omega
  have hest : a * 10000 / (10000 + totalBps s) = estimate s a := rfl
  unfold buyEffectiveC buyEffective pumpFeeBpsDen
  rw [mul_ok hscale, ok_bind, add_ok (by omega), ok_bind, div_ok (by omega), ok_bind,
    wrap128_of_lt hscale, hest, hfC, ok_bind, hsumC, ok_bind, add_ok (by omega), ok_bind]
  simp only [hf, Option.bind_some, htot]
  rw [wrap128_of_lt (by omega)]
  by_cases hgt : estimate s a + feeTotal s (estimate s a) > a
  · have hnet : buyNet s a = a - feeTotal s (estimate s a) := by rw [hdef, if_pos hgt]
    have hsub : estimate s a - (estimate s a + feeTotal s (estimate s a) - a) = buyNet s a := by
      omega
    have hsubK : sub128 (estimate s a) (sub128 (estimate s a + feeTotal s (estimate s a)) a)
        = buyNet s a := by
      rw [sub128_of_le (show a ≤ estimate s a + feeTotal s (estimate s a) by omega) (by omega),
        sub128_of_le (by omega) (by omega), hsub]
    obtain ⟨f', hfC', hf', hof'⟩ := splitFeesC_ok hbps (show buyNet s a < 2 ^ 64 by omega)
    refine ⟨f', ?_, ?_, hof', hnetle⟩
    · rw [if_pos hgt, sub_ok (by omega), ok_bind, sub_ok (by omega), ok_bind, hsub, hfC', ok_bind]
      rfl
    · rw [if_pos hgt, hsubK, hf', Option.map_some]
  · have hnet : buyNet s a = estimate s a := by rw [hdef, if_neg hgt]
    rw [if_neg hgt, if_neg hgt, hnet]
    exact ⟨f, rfl, rfl, hof, hle⟩

/-- Where they do not, the correction wraps. -/
theorem buyEffectiveC_wrap {s : PumpState} (hbps : totalBps s < 10000) {a : Nat}
    (ha : a < 2 ^ 64) (hbig : a < feeTotal s (estimate s a)) :
    buyEffectiveC s a = .error .wrap := by
  have hle : estimate s a ≤ a := Ports.scaled_le s a
  obtain ⟨f, hfC, hf, hof⟩ := splitFeesC_ok hbps (show estimate s a < 2 ^ 64 by omega)
  obtain ⟨hsumC, htot⟩ := feeSumC_ok hof hbps (by omega)
  obtain ⟨h1, h2, h3⟩ := hof.each_le hbps
  have hsum : f.lp + f.proto + f.creator = feeTotal s (estimate s a) := by
    rw [hof.lp_eq, hof.proto_eq, hof.creator_eq]
    rfl
  have hest : a * 10000 / (10000 + totalBps s) = estimate s a := rfl
  unfold buyEffectiveC pumpFeeBpsDen
  rw [mul_ok (by omega), ok_bind, add_ok (by omega), ok_bind, div_ok (by omega), ok_bind,
    hest, hfC, ok_bind, hsumC, ok_bind, add_ok (by omega), ok_bind, if_pos (by omega),
    sub_ok (by omega), ok_bind, sub_wrap (by omega)]
  rfl

/-! ## §4. The branch. -/

/-- The branch after an exact effective amount: the kernel's, refusals
included. -/
theorem pumpBuyC_exact {s : PumpState} (hbps : totalBps s < 10000) {q a e : Nat} {f : Fees}
    (hq0 : 0 < q) (hq : q < 2 ^ 64) (ha : a < 2 ^ 64) (he : e ≤ a)
    (hC : buyEffectiveC s a = .ok (e, f)) (hK : buyEffective s a = some (e, f))
    (hof : FeesOf e s f) : pumpBuyC s q a = ofOption (pumpBuy s q a) := by
  have hB := UInt64.toNat_lt s.reserveBase
  have hQ := UInt64.toNat_lt s.reserveQuote
  obtain ⟨hsumC, -⟩ := feeSumC_ok hof hbps (by omega)
  obtain ⟨-, h2, h3⟩ := hof.each_le hbps
  unfold pumpBuyC pumpBuy
  rw [hC, ok_bind, hK, Option.bind_some]
  simp only [hsumC, ok_bind]
  by_cases hone : e < 1
  · rw [refuseIf_pos hone, error_bind, if_pos hone]
    rfl
  rw [refuseIf_neg hone, ok_bind, if_neg hone, sub_ok (by omega), ok_bind]
  have hprod : s.reserveBase.toNat * (e - 1) < 2 ^ 128 := by
    calc s.reserveBase.toNat * (e - 1) < 2 ^ 64 * 2 ^ 64 := Nat.mul_lt_mul'' hB (by omega)
      _ = 2 ^ 128 := by norm_num
  rw [mul_ok hprod, ok_bind, add_ok (by omega), ok_bind, div_ok (by omega), ok_bind,
    wrap128_of_lt hprod, wrap128_of_lt (show q + (e - 1) < 2 ^ 128 by omega)]
  generalize s.reserveBase.toNat * (e - 1) / (q + (e - 1)) = out
  by_cases hout : out = 0 ∨ out > s.reserveBase.toNat
  · rw [refuseIf_pos hout, error_bind, if_pos hout]
    rfl
  rw [refuseIf_neg hout, ok_bind, if_neg hout, add_ok (by omega), ok_bind,
    wrap128_of_lt (show f.proto + f.creator < 2 ^ 128 by omega)]
  by_cases hpc : f.proto + f.creator > a
  · rw [refuseIf_pos hpc, error_bind, if_pos hpc]
    rfl
  rw [refuseIf_neg hpc, ok_bind, if_neg hpc, add_ok (by omega), ok_bind]
  by_cases hroom : s.reserveQuote.toNat + a > 2 ^ 64 - 1
  · rw [refuseIf_pos hroom, error_bind, if_pos hroom]
    rfl
  rw [refuseIf_neg hroom, ok_bind, if_neg hroom, sub_ok (by omega), ok_bind, add_ok (by omega),
    ok_bind, sub_ok (by omega), ok_bind, sub_ok (by omega), ok_bind]
  -- the exact reserves are the kernel's words
  have hbase : UInt64.ofNat (s.reserveBase.toNat - out) = s.reserveBase - UInt64.ofNat out := by
    rw [UInt64.ofNat_sub (by omega), UInt64.ofNat_toNat]
  have hquote : UInt64.ofNat (s.reserveQuote.toNat + a - f.proto - f.creator)
      = s.reserveQuote + UInt64.ofNat a - UInt64.ofNat f.proto - UInt64.ofNat f.creator := by
    rw [UInt64.ofNat_sub (by omega), UInt64.ofNat_sub (by omega), UInt64.ofNat_add,
      UInt64.ofNat_toNat]
  rw [hbase, hquote]
  rfl

/-! ## §5. A whole buy. -/

/-- The corner: a buy of two units reaches the branch, and every fee is
charged. -/
structure BuyCorner (s : PumpState) (amount : UInt64) : Prop where
  reached : PumpOpen s pumpDirQuoteToBase
  amount_eq : amount = 2
  lp_pos : 0 < s.lpFeeBps
  proto_pos : 0 < s.protocolFeeBps
  creator_pos : 0 < s.creatorFeeBps

/-- A positive rate below the whole charges a unit one. -/
theorem ceilDiv_unit {b : Nat} (hb0 : 0 < b) (hb : b ≤ 10000) : ceilDiv (1 * b) 10000 = 1 := by
  have hle : ceilDiv (1 * b) 10000 ≤ 1 := ceilDiv_le_of (by norm_num) (by omega)
  have hcov := le_ceilDiv_mul (1 * b) (show 0 < 10000 by norm_num)
  omega

/-- **The fees of the estimate are above the amount in the corner only.** -/
theorem estimate_above_iff {s : PumpState} (hbps : totalBps s < 10000) {a : Nat} (ha : 0 < a) :
    a < feeTotal s (estimate s a) ↔ a = 2 ∧ 0 < s.lpFeeBps.toNat ∧
      0 < s.protocolFeeBps.toNat ∧ 0 < s.creatorFeeBps.toNat := by
  have hpart : ∀ b : Nat, b ≤ 10000 → ceilDiv (1 * b) 10000 ≤ 1 ∧
      (b = 0 → ceilDiv (1 * b) 10000 = 0) := by
    intro b hb
    refine ⟨ceilDiv_le_of (by norm_num) (by omega), ?_⟩
    rintro rfl
    exact ceilDiv_zero _
  have hsplit : totalBps s
      = s.lpFeeBps.toNat + s.protocolFeeBps.toNat + s.creatorFeeBps.toNat := rfl
  constructor
  · intro h
    have habove : feeTotal s (estimate s a) = a + 1 := Ports.estimate_above hbps ha h
    have hmul : estimate s a * (10000 + totalBps s) ≤ a * 10000 := Ports.scaled_mul_le s a
    have hof : FeesOf (estimate s a) s ⟨ceilDiv (estimate s a * s.lpFeeBps.toNat) 10000,
        ceilDiv (estimate s a * s.protocolFeeBps.toNat) 10000,
        ceilDiv (estimate s a * s.creatorFeeBps.toNat) 10000⟩ := ⟨rfl, rfl, rfl⟩
    have hsmall : a < 3 := by
      by_contra hge
      have hle := hof.le_amount hbps (by omega) hmul
      unfold feeTotal at h
      simp only at hle
      omega
    have hexp : estimate s a * (10000 + totalBps s)
        = estimate s a * 10000 + estimate s a * totalBps s := by ring
    have hsum := hof.sum_lt
    unfold feeTotal at habove
    simp only at hsum
    generalize estimate s a = e at *
    have he : e ≤ 2 := by omega
    obtain ⟨h1, h1z⟩ := hpart s.lpFeeBps.toNat (by omega)
    obtain ⟨h2, h2z⟩ := hpart s.protocolFeeBps.toNat (by omega)
    obtain ⟨h3, h3z⟩ := hpart s.creatorFeeBps.toNat (by omega)
    interval_cases e
    · have hzero := hof.zero
      simp only at hzero
      omega
    · refine ⟨by omega, by omega, by omega, by omega⟩
    · omega
  · rintro ⟨rfl, h1, h2, h3⟩
    have hone : estimate s 2 = 1 := by
      unfold estimate
      exact (Nat.div_eq_iff (by omega)).mpr ⟨by omega, by omega⟩
    rw [hone, feeTotal, ceilDiv_unit h1 (by omega), ceilDiv_unit h2 (by omega),
      ceilDiv_unit h3 (by omega)]
    norm_num

/-- The fees a buy reports are those of its effective amount. -/
theorem pumpBuy_fees {s : PumpState} {q a e : Nat} {f : Fees} {b : Branch}
    (he : buyEffective s a = some (e, f)) (h : pumpBuy s q a = some b) : b.fees = f := by
  unfold pumpBuy at h
  rw [he, Option.bind_some] at h
  simp only at h
  split at h
  next => cases h
  next =>
    split at h
    next => cases h
    next =>
      split at h
      next => cases h
      next =>
        split at h
        next => cases h
        next => rw [← Option.some.inj h]

/-- What the checks before the branch let through. -/
theorem pumpOpen_of_checks {s : PumpState} {q : Nat} (hstatus : s.status = 0)
    (hdis : s.disabled &&& pumpDisableBuy = 0) (hbps : totalBps s < 10000)
    (hq : effectiveQuote s = some q) : PumpOpen s pumpDirQuoteToBase := by
  obtain ⟨hbase, hq0, hqlt, heff⟩ := effectiveQuote_spec hq
  refine ⟨hstatus, Or.inl rfl, hdis, hbps, ?_, ?_, by omega, by omega⟩
  · intro h0
    rw [h0] at hbase
    exact absurd hbase (lt_irrefl _)
  · intro h0
    unfold effectiveQuote at hq
    rw [if_pos (Or.inr h0)] at hq
    cases hq

/-- The rates of an open pool add up without a wrap. -/
theorem totalBps_add (s : PumpState) :
    s.lpFeeBps.toNat + s.protocolFeeBps.toNat < 2 ^ 128 ∧
      s.lpFeeBps.toNat + s.protocolFeeBps.toNat + s.creatorFeeBps.toNat < 2 ^ 128 := by
  have h1 := UInt64.toNat_lt s.lpFeeBps
  have h2 := UInt64.toNat_lt s.protocolFeeBps
  have h3 := UInt64.toNat_lt s.creatorFeeBps
  omega

theorem gt_zero_iff {b : UInt64} : 0 < b ↔ 0 < b.toNat := UInt64.lt_iff_toNat_lt

/-- **Off the corner a buy computes exact values**: the checked run is the
kernel's, refusals included; and on it the checked run stops on a wrap. -/
theorem pumpApplyBuy_exact (s : PumpState) (ix : PumpSwapIx)
    (hdir : ix.direction = pumpDirQuoteToBase) :
    (¬ BuyCorner s ix.amountIn → pumpApplyBuyC s ix = ofOption (pumpApplySwap s ix)) ∧
      (BuyCorner s ix.amountIn → pumpApplyBuyC s ix = .error .wrap) := by
  obtain ⟨hadd1, hadd2⟩ := totalBps_add s
  have ha := UInt64.toNat_lt ix.amountIn
  have hsell : ¬ ix.direction = pumpDirBaseToQuote := by
    rw [hdir]
    decide
  unfold pumpApplyBuyC pumpApplySwap
  simp only [if_pos hdir]
  by_cases hstat : s.status ≠ 0 ∨ ix.amountIn = 0
  · rw [refuseIf_pos hstat, error_bind, if_pos hstat]
    refine ⟨fun _ => rfl, fun c => ?_⟩
    rcases hstat with hst | h0
    · exact absurd c.reached.enabled hst
    · exact absurd (h0.symm.trans c.amount_eq) (by decide)
  rw [refuseIf_neg hstat, ok_bind, if_neg hstat,
    if_neg (show ¬ (ix.direction ≠ pumpDirQuoteToBase ∧ ix.direction ≠ pumpDirBaseToQuote) from
      fun h => h.1 hdir)]
  by_cases hdis : s.disabled &&& pumpDisableBuy ≠ 0
  · rw [refuseIf_pos hdis, error_bind, if_pos hdis]
    exact ⟨fun _ => rfl, fun c => absurd c.reached.allowed hdis⟩
  rw [refuseIf_neg hdis, ok_bind, if_neg hdis, add_ok hadd1, ok_bind, add_ok hadd2, ok_bind]
  have htot : s.lpFeeBps.toNat + s.protocolFeeBps.toNat + s.creatorFeeBps.toNat = totalBps s := rfl
  rw [htot]
  by_cases hbps : totalBps s ≥ pumpFeeBpsDen
  · rw [refuseIf_pos hbps, error_bind, if_pos hbps]
    exact ⟨fun _ => rfl, fun c => absurd c.reached.bps_lt (not_lt.mpr hbps)⟩
  have hbps' : totalBps s < 10000 := not_le.mp hbps
  rw [refuseIf_neg hbps, ok_bind, if_neg hbps]
  cases hq : effectiveQuote s with
  | none =>
    refine ⟨fun _ => rfl, fun c => ?_⟩
    have heff := c.reached.eff_pos
    have hle := c.reached.eff_le
    unfold effectiveQuote effQuote at *
    rw [if_neg (not_or.mpr ⟨c.reached.base_ne, c.reached.quote_ne⟩)] at hq
    simp only at hq
    rw [if_neg (by omega)] at hq
    cases hq
  | some q =>
    obtain ⟨-, hq0, hqlt, -⟩ := effectiveQuote_spec hq
    have hopen := pumpOpen_of_checks (not_not.mp fun h => hstat (Or.inl h)) (not_not.mp hdis)
      hbps' hq
    have ha0 : 0 < ix.amountIn.toNat :=
      Nat.pos_of_ne_zero fun h => hstat (Or.inr (UInt64.toNat_inj.mp h))
    have hcorner : BuyCorner s ix.amountIn ↔
        ix.amountIn.toNat < feeTotal s (estimate s ix.amountIn.toNat) := by
      rw [estimate_above_iff hbps' ha0, ← gt_zero_iff, ← gt_zero_iff, ← gt_zero_iff]
      constructor
      · exact fun c => ⟨congrArg UInt64.toNat c.amount_eq, c.lp_pos, c.proto_pos, c.creator_pos⟩
      · rintro ⟨h2, h3, h4, h5⟩
        exact ⟨hopen, UInt64.toNat_inj.mp h2, h3, h4, h5⟩
    have hofq : (ofOption (some q) : Except Stop Nat) = .ok q := rfl
    rw [hofq, ok_bind, Option.bind_some, if_neg hsell]
    constructor
    · intro hno
      have hfit := not_lt.mp fun h => hno (hcorner.mpr h)
      obtain ⟨f, hC, hK, hof, hle⟩ := buyEffectiveC_ok hbps' ha hfit
      obtain ⟨hsumC, hsum⟩ := feeSumC_ok hof hbps' (by omega)
      rw [pumpBuyC_exact hbps' hq0 hqlt ha hle hC hK hof]
      cases hb : pumpBuy s q ix.amountIn.toNat with
      | none => rfl
      | some b =>
        have hofb : (ofOption (some b) : Except Stop Branch) = .ok b := rfl
        rw [hofb, ok_bind, Option.bind_some, pumpBuy_fees hK hb, hsumC, ok_bind, ← hsum]
        by_cases hbad : b.out = 0 ∨ b.out > 2 ^ 64 - 1 ∨ f.total > 2 ^ 64 - 1
        · rw [refuseIf_pos hbad, error_bind, if_pos hbad]
          rfl
        rw [refuseIf_neg hbad, ok_bind, if_neg hbad]
        by_cases hmin : b.out < ix.minAmountOut.toNat
        · rw [refuseIf_pos hmin, error_bind, if_pos hmin]
          rfl
        · rw [refuseIf_neg hmin, ok_bind, if_neg hmin]
          rfl
    · intro c
      unfold pumpBuyC
      rw [buyEffectiveC_wrap hbps' ha (hcorner.mp c)]
      rfl

/-- A buy is safe: every operation is exact (no wrap, no division by zero), and
what pays for base fits the amount beside all three fees. -/
structure BuySafe (s : PumpState) (ix : PumpSwapIx) : Prop where
  exact : pumpApplyBuyC s ix = ofOption (pumpApplySwap s ix)
  covered : ∀ e f s' r, buyEffective s ix.amountIn.toNat = some (e, f) →
    pumpApplySwap s ix = some (s', r) → e + (f.lp + f.proto + f.creator) ≤ ix.amountIn.toNat

/-- **A buy is safe EXACTLY off the corner**: every pool, every amount. -/
theorem buy_safe_iff (s : PumpState) (ix : PumpSwapIx)
    (hdir : ix.direction = pumpDirQuoteToBase) :
    BuySafe s ix ↔ ¬ BuyCorner s ix.amountIn := by
  obtain ⟨hoff, hon⟩ := pumpApplyBuy_exact s ix hdir
  constructor
  · intro h c
    have hwrap := (hon c).symm.trans h.exact
    exact absurd (ofOption_stop hwrap.symm) (by decide)
  · intro hno
    refine ⟨hoff hno, ?_⟩
    intro e f s' r he hswap
    obtain ⟨hbps, q, b, hq, hb, -⟩ := pumpApplySwap_inv hswap
    have ha := UInt64.toNat_lt ix.amountIn
    have ha0 : 0 < ix.amountIn.toNat := by
      refine Nat.pos_of_ne_zero fun h0 => ?_
      unfold pumpApplySwap at hswap
      rw [if_pos (Or.inr (UInt64.toNat_inj.mp h0))] at hswap
      cases hswap
    rcases Nat.lt_or_ge ix.amountIn.toNat (feeTotal s (estimate s ix.amountIn.toNat)) with
      hbig | hfit
    · -- off the corner an estimate above the amount was refused before the branch
      exfalso
      have hparts := (estimate_above_iff hbps ha0).mp hbig
      refine hno ⟨?_, UInt64.toNat_inj.mp hparts.1, gt_zero_iff.mpr hparts.2.1,
        gt_zero_iff.mpr hparts.2.2.1, gt_zero_iff.mpr hparts.2.2.2⟩
      unfold pumpApplySwap at hswap
      simp only [if_pos hdir] at hswap
      split at hswap
      next => cases hswap
      next hstat =>
        split at hswap
        next => cases hswap
        next =>
          split at hswap
          next => cases hswap
          next hdis =>
            exact pumpOpen_of_checks (not_not.mp fun h => hstat (Or.inl h)) (not_not.mp hdis)
              hbps hq
    · obtain ⟨f', hC, hK, hof, -⟩ := buyEffectiveC_ok hbps ha hfit
      obtain ⟨rfl, rfl⟩ := Prod.mk.inj (Option.some.inj (hK.symm.trans he))
      have hsum : f'.lp + f'.proto + f'.creator = feeTotal s (buyNet s ix.amountIn.toNat) := by
        rw [hof.lp_eq, hof.proto_eq, hof.creator_eq]
        rfl
      have hle := Ports.buyNet_add_fee hfit
      omega

/-- A pool with an effective quote of two and three fees. -/
def cornerPool : PumpState := ⟨1000, 2, 0, 20, 5, 5, 0, 0⟩

theorem buy_safe_demo : BuySafe cornerPool ⟨100, 0, pumpDirQuoteToBase⟩ :=
  (buy_safe_iff _ _ rfl).mpr fun c => absurd c.amount_eq (by decide)

/-- A buy of two units: `effective` wraps, and `qeff + net` after it is zero. -/
theorem buy_two_wraps : ¬ BuySafe cornerPool ⟨2, 0, pumpDirQuoteToBase⟩ := by
  intro h
  have hstop : pumpApplyBuyC cornerPool ⟨2, 0, pumpDirQuoteToBase⟩ = .error .wrap := by
    decide +kernel
  exact absurd (ofOption_stop (h.exact.symm.trans hstop)) (by decide)

end ShredArb.Pump
