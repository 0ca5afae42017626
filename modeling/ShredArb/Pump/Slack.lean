/-
  ShredArb.Pump.Slack — Pump quotes are monotone UP TO TWO UNITS.

  Each of the three fees is rounded up on its own, so a larger trade can be
  charged up to two units more than its share.  A sell of more can then give up
  to two units less, and the net quote a buy puts on the curve can be up to two
  units smaller.

  Main results:
    * `feeTotal_slack` / `buyNet_slack` — the two slacks of two.
    * `pumpQuote_slack` — the quotes.
-/
import ShredArb.Ports.Pump

namespace ShredArb.Pump

open ShredArb.Word
open ShredArb.Ports (feeTotal buyNet buyBase sellGross pumpTrade PumpOpen PumpPays PumpRoom)

/-! ## §1. The fees, against their exact share. -/

/-- The fees are at least their exact share, and less than three units above. -/
theorem feeTotal_bounds (s : PumpState) (n : Nat) :
    n * totalBps s ≤ feeTotal s n * 10000 ∧
      feeTotal s n * 10000 < n * totalBps s + 30000 := by
  have hlow : ∀ b : Nat, n * b ≤ ceilDiv (n * b) 10000 * 10000 := fun b =>
    le_ceilDiv_mul (n * b) (by norm_num)
  have hhigh : ∀ b : Nat, ceilDiv (n * b) 10000 * 10000 < n * b + 10000 := fun b =>
    ceilDiv_mul_lt (n * b) (by norm_num)
  have hsplit : n * totalBps s = n * s.lpFeeBps.toNat + n * s.protocolFeeBps.toNat
      + n * s.creatorFeeBps.toNat := by
    unfold totalBps
    ring
  have h1 := hlow s.lpFeeBps.toNat
  have h2 := hlow s.protocolFeeBps.toNat
  have h3 := hlow s.creatorFeeBps.toNat
  have h1' := hhigh s.lpFeeBps.toNat
  have h2' := hhigh s.protocolFeeBps.toNat
  have h3' := hhigh s.creatorFeeBps.toNat
  unfold feeTotal
  omega

/-- **The fees grow by no more than the amount does, and two units.** -/
theorem feeTotal_slack {s : PumpState} (hbps : totalBps s < 10000) {n m : Nat} (h : n ≤ m) :
    feeTotal s m ≤ feeTotal s n + (m - n) + 2 := by
  have hlow := (feeTotal_bounds s n).1
  have hhigh := (feeTotal_bounds s m).2
  obtain ⟨d, rfl⟩ := Nat.exists_eq_add_of_le h
  have hd : d * totalBps s ≤ d * 10000 := Nat.mul_le_mul_left d hbps.le
  rw [Nat.add_mul] at hhigh
  omega

/-! ## §2. Sells. -/

theorem sellGross_mono (s : PumpState) {a b : Nat} (hbase : 0 < s.reserveBase.toNat)
    (h : a ≤ b) : sellGross s a ≤ sellGross s b := by
  unfold sellGross
  generalize (effQuote s).toNat = q
  generalize s.reserveBase.toNat = base at hbase
  rw [Nat.le_div_iff_mul_le (by omega)]
  -- `k` of quote for `a`: what is left of `q` covers `k * base`, and more `a` covers more
  have hk : q * a / (base + a) * (base + a) ≤ q * a := Nat.div_mul_le_self _ _
  have hle : q * a / (base + a) ≤ q :=
    Nat.div_le_of_le_mul (by nlinarith)
  generalize q * a / (base + a) = k at hk hle ⊢
  obtain ⟨r, rfl⟩ := Nat.exists_eq_add_of_le hle
  have hcover : k * base ≤ r * a := by nlinarith
  have hmore : r * a ≤ r * b := Nat.mul_le_mul_left r h
  nlinarith

theorem sell_slack {s : PumpState} (hbps : totalBps s < 10000) {a b : Nat}
    (hbase : 0 < s.reserveBase.toNat) (h : a ≤ b) :
    sellGross s a - feeTotal s (sellGross s a)
      ≤ sellGross s b - feeTotal s (sellGross s b) + 2 := by
  have hg := sellGross_mono s hbase h
  have hfee := feeTotal_slack hbps hg
  omega

/-! ## §3. Buys. -/

/-- The net amount is the scaled-down amount, or up to two units less. -/
theorem buyNet_bounds (s : PumpState) (a : Nat) :
    buyNet s a ≤ a * 10000 / (10000 + totalBps s) ∧
      a * 10000 / (10000 + totalBps s) ≤ buyNet s a + 2 := by
  have hscaled := Ports.scaled_mul_le s a
  unfold buyNet
  simp only
  generalize a * 10000 / (10000 + totalBps s) = e at hscaled ⊢
  have hfee := (feeTotal_bounds s e).2
  have hexp : e * (10000 + totalBps s) = e * 10000 + e * totalBps s := by ring
  split
  · omega
  · omega

/-- **The net amount of a larger buy is at most two units smaller.** -/
theorem buyNet_slack (s : PumpState) {a b : Nat} (h : a ≤ b) : buyNet s a ≤ buyNet s b + 2 :=
  calc buyNet s a ≤ a * 10000 / (10000 + totalBps s) := (buyNet_bounds s a).1
    _ ≤ b * 10000 / (10000 + totalBps s) := Nat.div_le_div_right (by omega)
    _ ≤ buyNet s b + 2 := (buyNet_bounds s b).2

theorem curve_mono {base q n m : Nat} (hq : 0 < q) (h : n ≤ m) :
    base * n / (q + n) ≤ base * m / (q + m) := by
  rw [Nat.le_div_iff_mul_le (by omega)]
  have hk : base * n / (q + n) * (q + n) ≤ base * n := Nat.div_mul_le_self _ _
  have hle : base * n / (q + n) ≤ base :=
    Nat.div_le_of_le_mul (by nlinarith)
  generalize base * n / (q + n) = k at hk hle ⊢
  obtain ⟨r, rfl⟩ := Nat.exists_eq_add_of_le hle
  have hcover : k * q ≤ r * n := by nlinarith
  have hmore : r * n ≤ r * m := Nat.mul_le_mul_left r h
  nlinarith

/-! ## §4. Quotes. -/

/-- The net quote a buy puts on the curve. -/
def netQuote (s : PumpState) (amount : Nat) : Option Nat :=
  (buyEffective s amount).map fun e => e.1 - 1

/-- A quote is the exact trade of an open pool. -/
theorem pumpQuote_trade {s : PumpState} {a : UInt64} {direction : UInt8} {q : PumpQuote}
    (h : pumpQuoteExactIn s a direction = some q) :
    0 < a.toNat ∧ PumpOpen s direction ∧ PumpPays s a.toNat direction ∧
      q.amountOut.toNat = (pumpTrade s a.toNat direction).1 := by
  unfold pumpQuoteExactIn at h
  split at h
  next => cases h
  next hne =>
    have ha0 : 0 < a.toNat := Nat.pos_of_ne_zero fun h0 => hne (UInt64.toNat_inj.mp h0)
    obtain ⟨⟨s', res⟩, happ, rfl⟩ := Option.map_eq_some_iff.mp h
    rcases Ports.pumpApplySwap_gate s direction hne with ⟨-, hnone⟩ | ⟨ho, hk⟩
    · rw [hnone] at happ
      cases happ
    · rw [Ports.pumpApplySwap_open ho ha0 (UInt64.toNat_lt a), happ, Option.map_some] at hk
      split at hk
      next hp =>
        have hfit := Ports.pumpTrade_lt ho (UInt64.toNat_lt a) hp.1
        have hout := (Prod.mk.inj (Option.some.inj hk)).1
        refine ⟨ha0, ho, hp.1, ?_⟩
        show res.amountOut.toNat = _
        rw [hout, UInt64.toNat_ofNat_of_lt' hfit.1]
      next => cases hk

/-- The net quote of a buy that is quoted. -/
theorem netQuote_eq {s : PumpState} {a : Nat} (ha0 : 0 < a) (ha : a < 2 ^ 64)
    (ho : PumpOpen s 0) (hp : PumpPays s a 0) :
    netQuote s a = some (buyNet s a - 1) := by
  have hone : 1 ≤ buyNet s a := hp.1
  unfold netQuote
  rcases Ports.kernel_buyEffective ho.bps_lt ha0 ha with ⟨-, f, hf, -, -⟩ | ⟨habove, -⟩
  · rw [hf, Option.map_some]
  · have hzero := Ports.buyNet_of_above habove
    omega

theorem effectiveQuote_open {s : PumpState} {direction : UInt8} (ho : PumpOpen s direction) :
    effectiveQuote s = some (effQuote s).toNat := by
  have h0 := ho.eff_pos
  have h1 := ho.eff_le
  have hq : (s.reserveQuote.toNat : Int) + s.virtualQuote.toInt = effQuote s := rfl
  unfold effectiveQuote
  rw [if_neg (not_or.mpr ⟨ho.base_ne, ho.quote_ne⟩)]
  simp only [hq]
  rw [if_neg (by omega)]

/-- **Pump quotes are monotone up to two units**: every pool, every two amounts
that are both quoted. -/
theorem pumpQuote_slack :
    (∀ (s : PumpState) (a b : UInt64) (p q : PumpQuote), a ≤ b →
      pumpQuoteExactIn s a pumpDirBaseToQuote = some p →
      pumpQuoteExactIn s b pumpDirBaseToQuote = some q →
      p.amountOut.toNat - 2 ≤ q.amountOut.toNat) ∧
    (∀ (s : PumpState) (a b : UInt64) (p q : PumpQuote), a ≤ b →
      pumpQuoteExactIn s a pumpDirQuoteToBase = some p →
      pumpQuoteExactIn s b pumpDirQuoteToBase = some q →
      ∃ netA netB qeff, netQuote s a.toNat = some netA ∧ netQuote s b.toNat = some netB ∧
        effectiveQuote s = some qeff ∧ netA - 2 ≤ netB ∧
        s.reserveBase.toNat * (netA - 2) / (qeff + (netA - 2)) ≤ q.amountOut.toNat) := by
  constructor
  · intro s a b p q hab hp hq
    obtain ⟨-, ho, -, hpOut⟩ := pumpQuote_trade hp
    obtain ⟨-, -, -, hqOut⟩ := pumpQuote_trade hq
    have hslack := sell_slack ho.bps_lt ho.base_pos (UInt64.le_iff_toNat_le.mp hab)
    have hA : (pumpTrade s a.toNat pumpDirBaseToQuote).1
        = sellGross s a.toNat - feeTotal s (sellGross s a.toNat) := rfl
    have hB : (pumpTrade s b.toNat pumpDirBaseToQuote).1
        = sellGross s b.toNat - feeTotal s (sellGross s b.toNat) := rfl
    omega
  · intro s a b p q hab hp hq
    obtain ⟨ha0, ho, hpaysA, -⟩ := pumpQuote_trade hp
    obtain ⟨hb0, -, hpaysB, hqOut⟩ := pumpQuote_trade hq
    have hslack := buyNet_slack s (UInt64.le_iff_toNat_le.mp hab)
    have heff := ho.eff_pos
    refine ⟨_, _, _, netQuote_eq ha0 (UInt64.toNat_lt a) ho hpaysA,
      netQuote_eq hb0 (UInt64.toNat_lt b) ho hpaysB, effectiveQuote_open ho, by omega, ?_⟩
    have hB : (pumpTrade s b.toNat pumpDirQuoteToBase).1
        = s.reserveBase.toNat * (buyNet s b.toNat - 1)
          / ((effQuote s).toNat + (buyNet s b.toNat - 1)) := rfl
    rw [hqOut, hB]
    exact curve_mono (by omega) (by omega)

/-- A pool with three fees. -/
def slackPool : PumpState := ⟨100000, 100000, 0, 20, 5, 5, 0, 0⟩

theorem pumpQuote_slack_demo :
    (∃ p q, pumpQuoteExactIn slackPool 399 pumpDirBaseToQuote = some p ∧
      pumpQuoteExactIn slackPool 1000 pumpDirBaseToQuote = some q ∧
      p.amountOut.toNat - 2 ≤ q.amountOut.toNat) ∧
    (∃ netA netB, netQuote slackPool 399 = some netA ∧ netQuote slackPool 1000 = some netB ∧
      netA - 2 ≤ netB) := by
  have hquoted : (pumpQuoteExactIn slackPool 399 pumpDirBaseToQuote).isSome = true ∧
      (pumpQuoteExactIn slackPool 1000 pumpDirBaseToQuote).isSome = true ∧
      (pumpQuoteExactIn slackPool 399 pumpDirQuoteToBase).isSome = true ∧
      (pumpQuoteExactIn slackPool 1000 pumpDirQuoteToBase).isSome = true := by
    decide +kernel
  simp only [Option.isSome_iff_exists] at hquoted
  obtain ⟨⟨p, hp⟩, ⟨q, hq⟩, ⟨p', hp'⟩, q', hq'⟩ := hquoted
  obtain ⟨netA, netB, -, hA, hB, -, hle, -⟩ :=
    pumpQuote_slack.2 slackPool 399 1000 p' q' (by decide) hp' hq'
  exact ⟨⟨p, q, hp, hq, pumpQuote_slack.1 slackPool 399 1000 p q (by decide) hp hq⟩,
    netA, netB, hA, hB, hle⟩

end ShredArb.Pump
