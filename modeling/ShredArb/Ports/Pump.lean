/-
  ShredArb.Ports.Pump — the Python port of the Pump kernel
  (`quote_pump` of `arb-cap/timer_decay/dlmm_quote.py`), and EXACTLY WHEN it
  is the kernel.

  Python integers do not wrap, so every value of the port is an `Int`; the
  kernel of `Pump.Kernel` is compared with it on the states the C struct can
  hold.

  Conventions:
    • a Python `None` is `none`,
    • `//` and `%` floor; every divisor here is positive, where `Int`'s
      division floors too,
    • the port returns `out` alone.  A `Quote` also carries the `fee` local as
      it stands at the return, so that the fee can be compared.

  Main results:
    * `quotePump_agrees_iff` — port and kernel agree unless the trade would
      be quoted and one of the three reserve checks the port lacks refuses it.
-/
import ShredArb.Pump.ConstantProduct

namespace ShredArb.Ports

open ShredArb.Word
open ShredArb.Pump (PumpState PumpQuote FeesOf totalBps effQuote)

/-! ## §1. The port. -/

abbrev pumpDen : Int := 10000

/-- The `Pump` dataclass. -/
structure PumpPool where
  reserveBase : Int
  reserveQuote : Int
  virtualQuote : Int
  lpFeeBps : Int
  protocolFeeBps : Int
  creatorFeeBps : Int
  disabled : Nat
  status : Nat
  deriving DecidableEq, Repr

/-- What a port has when it returns: the amount it returns, and its fee. -/
structure Quote where
  amountOut : Int
  fee : Int
  deriving DecidableEq, Repr

/-- `_ceil_div`. -/
def ceilDivI (n d : Int) : Option Int :=
  if d = 0 then none else some (n / d + if n % d ≠ 0 then 1 else 0)

/-- `_fee_bps`. -/
def feeBps (n bps : Int) : Option Int :=
  if bps > pumpDen then none else ceilDivI (n * bps) pumpDen

/-- `fee = lp + proto + creator`, `None` when one of them is. -/
def feeSum (p : PumpPool) (n : Int) : Option Int :=
  (feeBps n p.lpFeeBps).bind fun lp =>
  (feeBps n p.protocolFeeBps).bind fun proto =>
  (feeBps n p.creatorFeeBps).map fun creator => lp + proto + creator

/-- `total_bps`. -/
def PumpPool.totalBps (p : PumpPool) : Int :=
  p.lpFeeBps + p.protocolFeeBps + p.creatorFeeBps

/-- The `direction == 1` branch. -/
def sellOut (p : PumpPool) (qeff amountIn : Int) : Option Quote :=
  let gross := qeff * amountIn / (p.reserveBase + amountIn)
  (feeSum p gross).bind fun fee =>
    if gross < fee then none else some ⟨gross - fee, fee⟩

/-- `effective` and `fee` of the other branch, after the correction. -/
def buyEffective (p : PumpPool) (amountIn : Int) : Option (Int × Int) :=
  let effective := amountIn * pumpDen / (pumpDen + p.totalBps)
  (feeSum p effective).bind fun fee =>
    if effective + fee > amountIn then
      let effective := effective - (effective + fee - amountIn)
      (feeSum p effective).map fun fee => (effective, fee)
    else some (effective, fee)

/-- The `direction == 0` branch. -/
def buyOut (p : PumpPool) (qeff amountIn : Int) : Option Quote :=
  (buyEffective p amountIn).bind fun e =>
    if e.1 < 1 then none
    else
      let net := e.1 - 1
      let out := p.reserveBase * net / (qeff + net)
      if out = 0 ∨ out > p.reserveBase then none else some ⟨out, e.2⟩

/-- `quote_pump`. -/
def quotePump (p : PumpPool) (amountIn : Int) (direction : Nat) : Option Quote :=
  if p.status ≠ 0 ∨ amountIn = 0 then none
  else if direction ≠ 0 ∧ direction ≠ 1 then none
  else if p.disabled &&& (if direction = 0 then 8 else 16) ≠ 0 then none
  else if p.totalBps ≥ pumpDen then none
  else if p.reserveBase = 0 ∨ p.reserveQuote = 0 then none
  else
    let qeff := p.reserveQuote + p.virtualQuote
    if qeff ≤ 0 ∨ qeff > 2 ^ 64 - 1 then none
    else (if direction = 1 then sellOut p qeff amountIn
        else buyOut p qeff amountIn).bind fun q =>
      if q.amountOut = 0 ∨ q.amountOut > 2 ^ 64 - 1 then none else some q

/-- The pool of a C struct. -/
def PumpPool.ofState (s : PumpState) : PumpPool :=
  { reserveBase := s.reserveBase.toNat
    reserveQuote := s.reserveQuote.toNat
    virtualQuote := s.virtualQuote.toInt
    lpFeeBps := s.lpFeeBps.toNat
    protocolFeeBps := s.protocolFeeBps.toNat
    creatorFeeBps := s.creatorFeeBps.toNat
    disabled := s.disabled.toNat
    status := s.status.toNat }

/-- A quote of the kernel, as one of the port. -/
def Quote.ofPump (q : PumpQuote) : Quote := ⟨q.amountOut.toNat, q.fee.toNat⟩

/-- Port and kernel agree: both refuse, or both give the same output and fee. -/
def PumpAgrees (s : PumpState) (amountIn : UInt64) (direction : UInt8) : Prop :=
  quotePump (PumpPool.ofState s) amountIn.toNat direction.toNat
    = (Pump.pumpQuoteExactIn s amountIn direction).map Quote.ofPump

instance (s : PumpState) (amountIn : UInt64) (direction : UInt8) :
    Decidable (PumpAgrees s amountIn direction) :=
  inferInstanceAs (Decidable (_ = _))

/-! ## §2. The exact trade. -/

/-- The three rounded-up fees on `n`, summed. -/
def feeTotal (s : PumpState) (n : Nat) : Nat :=
  ceilDiv (n * s.lpFeeBps.toNat) 10000 + ceilDiv (n * s.protocolFeeBps.toNat) 10000
    + ceilDiv (n * s.creatorFeeBps.toNat) 10000

/-- The quote a sell of `a` is worth before fees. -/
def sellGross (s : PumpState) (a : Nat) : Nat :=
  (effQuote s).toNat * a / (s.reserveBase.toNat + a)

/-- The part of a buy of `a` that pays for base: scaled down by the fee rate,
and reduced once when the rounded-up fees do not fit beside it (zero when the
fees alone are above `a`). -/
def buyNet (s : PumpState) (a : Nat) : Nat :=
  let e := a * 10000 / (10000 + totalBps s)
  if e + feeTotal s e > a then a - feeTotal s e else e

/-- The refusals port and kernel share do not fire. -/
structure PumpOpen (s : PumpState) (direction : UInt8) : Prop where
  enabled : s.status = 0
  known : direction = 0 ∨ direction = 1
  allowed : s.disabled &&& (if direction = 0 then 8 else 16) = 0
  bps_lt : totalBps s < 10000
  base_ne : s.reserveBase ≠ 0
  quote_ne : s.reserveQuote ≠ 0
  eff_pos : 0 < effQuote s
  eff_le : effQuote s ≤ 2 ^ 64 - 1

theorem PumpOpen.base_pos {s : PumpState} {direction : UInt8} (h : PumpOpen s direction) :
    0 < s.reserveBase.toNat :=
  Nat.pos_of_ne_zero fun h0 => h.base_ne (UInt64.toNat_inj.mp h0)

/-- The trade is worth a positive output. -/
def PumpPays (s : PumpState) (a : Nat) (direction : UInt8) : Prop :=
  if direction = 1 then feeTotal s (sellGross s a) < sellGross s a
  else 1 ≤ buyNet s a ∧
    0 < s.reserveBase.toNat * (buyNet s a - 1) / ((effQuote s).toNat + (buyNet s a - 1))

/-- The reserves after the trade are 64-bit, and the vault holds what a sell
takes out: the checks of `pump_apply_swap` that the port does not make. -/
def PumpRoom (s : PumpState) (a : Nat) (direction : UInt8) : Prop :=
  if direction = 1 then
    s.reserveBase.toNat + a < 2 ^ 64 ∧
      sellGross s a - ceilDiv (sellGross s a * s.lpFeeBps.toNat) 10000 ≤ s.reserveQuote.toNat
  else s.reserveQuote.toNat + a < 2 ^ 64

instance (s : PumpState) (a : Nat) (direction : UInt8) :
    Decidable (PumpPays s a direction) := by
  unfold PumpPays
  infer_instance

instance (s : PumpState) (a : Nat) (direction : UInt8) :
    Decidable (PumpRoom s a direction) := by
  unfold PumpRoom
  infer_instance

/-! ## §3. Fees. -/

theorem ceilDivI_ofNat (n d : Nat) (hd : 0 < d) :
    ceilDivI n d = some (ceilDiv n d : Int) := by
  unfold ceilDivI ceilDiv
  rw [if_neg (by omega)]
  have hmod : ((n : Int) % (d : Int) ≠ 0) ↔ n % d ≠ 0 := by omega
  simp only [hmod]
  push_cast
  rfl

theorem feeBps_ofNat {n bps : Nat} (hb : bps ≤ 10000) :
    feeBps n bps = some (ceilDiv (n * bps) 10000 : Int) := by
  unfold feeBps
  rw [if_neg (by unfold pumpDen; omega)]
  have h := ceilDivI_ofNat (n * bps) 10000 (by norm_num)
  push_cast at h
  exact h

theorem feeSum_ofNat {s : PumpState} (hbps : totalBps s < 10000) (n : Nat) :
    feeSum (PumpPool.ofState s) n = some (feeTotal s n : Int) := by
  unfold totalBps at hbps
  unfold feeSum PumpPool.ofState
  simp only
  rw [feeBps_ofNat (by omega), feeBps_ofNat (by omega), feeBps_ofNat (by omega)]
  rfl

theorem kernel_feeBps {n bps : Nat} (hn : n < 2 ^ 64) (hb : bps ≤ 10000) :
    Pump.feeBps n bps = some (ceilDiv (n * bps) 10000) := by
  unfold Pump.feeBps
  have hprod : n * bps ≤ 2 ^ 64 * 10000 := Nat.mul_le_mul hn.le hb
  rw [if_neg (show ¬ bps > 10000 by omega), wrap128_of_lt (by omega)]

/-- Below `2 ^ 64` the kernel's three fees are exact. -/
theorem kernel_splitFees {s : PumpState} (hbps : totalBps s < 10000) {n : Nat}
    (hn : n < 2 ^ 64) :
    ∃ f, Pump.splitFees n s = some f ∧ FeesOf n s f ∧ f.total = feeTotal s n := by
  unfold totalBps at hbps
  refine ⟨⟨_, _, _⟩, ?_, ⟨rfl, rfl, rfl⟩, ?_⟩
  · unfold Pump.splitFees
    rw [kernel_feeBps hn (by omega), kernel_feeBps hn (by omega), kernel_feeBps hn (by omega)]
    rfl
  · have hone : ∀ b : Nat, b ≤ 10000 → ceilDiv (n * b) 10000 ≤ n := by
      intro b hb
      exact ceilDiv_le_of (by norm_num) (Nat.mul_le_mul_left n hb)
    have h1 := hone s.lpFeeBps.toNat (by omega)
    have h2 := hone s.protocolFeeBps.toNat (by omega)
    have h3 := hone s.creatorFeeBps.toNat (by omega)
    have hsum : feeTotal s n < 2 ^ 128 := by
      unfold feeTotal
      omega
    exact wrap128_of_lt hsum

/-! ## §4. Selling. -/

theorem sellGross_le {s : PumpState} (a : Nat) : sellGross s a ≤ (effQuote s).toNat := by
  unfold sellGross
  apply Nat.div_le_of_le_mul
  have : (effQuote s).toNat * a ≤ (s.reserveBase.toNat + a) * (effQuote s).toNat := by
    nlinarith
  exact this

/-- The port's sell, on naturals. -/
theorem sellOut_ofNat {s : PumpState} (hbps : totalBps s < 10000) (a : Nat) :
    sellOut (PumpPool.ofState s) ((effQuote s).toNat : Int) a
      = if sellGross s a < feeTotal s (sellGross s a) then none
        else some ⟨sellGross s a - feeTotal s (sellGross s a), feeTotal s (sellGross s a)⟩ := by
  have hgross : ((effQuote s).toNat : Int) * a / ((PumpPool.ofState s).reserveBase + a)
      = (sellGross s a : Int) := by
    unfold sellGross PumpPool.ofState
    push_cast
    rfl
  unfold sellOut
  simp only [hgross]
  rw [feeSum_ofNat hbps, Option.bind_some]
  simp only [Nat.cast_lt]

/-- The kernel's sell: the exact trade, within the reserves. -/
theorem pumpSell_eq {s : PumpState} (hbps : totalBps s < 10000) {a : Nat}
    (hq : (effQuote s).toNat < 2 ^ 64) (ha : a < 2 ^ 64) :
    (Pump.pumpSell s (effQuote s).toNat a).map (fun b => (b.out, b.fees.total))
      = if feeTotal s (sellGross s a) ≤ sellGross s a ∧ PumpRoom s a 1 then
          some (sellGross s a - feeTotal s (sellGross s a), feeTotal s (sellGross s a))
        else none := by
  have hprod : (effQuote s).toNat * a < 2 ^ 128 := by
    calc (effQuote s).toNat * a < 2 ^ 64 * 2 ^ 64 := Nat.mul_lt_mul'' hq ha
      _ = 2 ^ 128 := by norm_num
  have hle : sellGross s a ≤ (effQuote s).toNat := sellGross_le a
  obtain ⟨f, hf, hof, htot⟩ := kernel_splitFees hbps (show sellGross s a < 2 ^ 64 by omega)
  have hroom : PumpRoom s a 1 ↔ s.reserveBase.toNat + a < 2 ^ 64 ∧
      sellGross s a - f.lp ≤ s.reserveQuote.toNat := by
    rw [hof.lp_eq]
    exact Iff.rfl
  have hg : (effQuote s).toNat * a / (s.reserveBase.toNat + a) = sellGross s a := rfl
  unfold Pump.pumpSell
  rw [wrap128_of_lt hprod]
  simp only [hg, hf, Option.bind_some, htot]
  by_cases hfee : sellGross s a < feeTotal s (sellGross s a)
  · rw [if_pos hfee, if_neg (fun h => absurd h.1 (by omega))]
    rfl
  · rw [if_neg hfee]
    by_cases hleave : sellGross s a - f.lp > s.reserveQuote.toNat
    · rw [if_pos hleave, if_neg (fun h => absurd (hroom.mp h.2).2 (by omega))]
      rfl
    · rw [if_neg hleave]
      by_cases hbase : s.reserveBase.toNat + a > 2 ^ 64 - 1
      · rw [if_pos hbase, if_neg (fun h => absurd (hroom.mp h.2).1 (by omega))]
        rfl
      · rw [if_neg hbase, if_pos ⟨by omega, hroom.mpr ⟨by omega, by omega⟩⟩, Option.map_some]
        simp only [htot]

/-! ## §5. Buying. -/

theorem feeTotal_mono (s : PumpState) {n m : Nat} (h : n ≤ m) :
    feeTotal s n ≤ feeTotal s m := by
  have hone : ∀ b : Nat, ceilDiv (n * b) 10000 ≤ ceilDiv (m * b) 10000 := by
    intro b
    exact ceilDiv_mono (by norm_num) (Nat.mul_le_mul_right b h)
  exact Nat.add_le_add (Nat.add_le_add (hone _) (hone _)) (hone _)

/-- The scaled-down amount of a buy. -/
theorem scaled_mul_le (s : PumpState) (a : Nat) :
    a * 10000 / (10000 + totalBps s) * (10000 + totalBps s) ≤ a * 10000 :=
  Nat.div_mul_le_self _ _

theorem scaled_le (s : PumpState) (a : Nat) : a * 10000 / (10000 + totalBps s) ≤ a := by
  apply Nat.div_le_of_le_mul
  nlinarith

/-- What pays for base and the fees on it fit what was paid, as soon as the
first estimate of the fees does. -/
theorem buyNet_add_fee {s : PumpState} {a : Nat}
    (h : feeTotal s (a * 10000 / (10000 + totalBps s)) ≤ a) :
    buyNet s a + feeTotal s (buyNet s a) ≤ a := by
  unfold buyNet
  simp only
  generalize a * 10000 / (10000 + totalBps s) = e at h ⊢
  split
  · rename_i hgt
    have hmono := feeTotal_mono s (show a - feeTotal s e ≤ e by omega)
    omega
  · omega

theorem buyNet_of_above {s : PumpState} {a : Nat}
    (h : a < feeTotal s (a * 10000 / (10000 + totalBps s))) : buyNet s a = 0 := by
  unfold buyNet
  simp only
  generalize a * 10000 / (10000 + totalBps s) = e at h ⊢
  rw [if_pos (by omega)]
  omega

/-- **The first estimate of the fees is above the amount for one amount
only**: two units, which three fees of one unit do not fit. -/
theorem estimate_above {s : PumpState} (hbps : totalBps s < 10000) {a : Nat} (ha : 0 < a)
    (h : a < feeTotal s (a * 10000 / (10000 + totalBps s))) :
    feeTotal s (a * 10000 / (10000 + totalBps s)) = a + 1 := by
  have hmul := scaled_mul_le s a
  generalize a * 10000 / (10000 + totalBps s) = e at h hmul ⊢
  have hof : FeesOf e s ⟨ceilDiv (e * s.lpFeeBps.toNat) 10000,
      ceilDiv (e * s.protocolFeeBps.toNat) 10000,
      ceilDiv (e * s.creatorFeeBps.toNat) 10000⟩ := ⟨rfl, rfl, rfl⟩
  have hsmall : a < 3 := by
    by_contra hge
    have := hof.le_amount hbps (by omega) hmul
    unfold feeTotal at h
    simp only at this
    omega
  have hsum := hof.sum_lt
  have hexp : e * (10000 + totalBps s) = e * 10000 + e * totalBps s := by ring
  have he : e ≤ 2 := by omega
  unfold feeTotal at h ⊢
  simp only at hsum
  have hlow : ∀ b : Nat, ceilDiv (1 * b) 10000 ≤ b := by
    intro b
    exact ceilDiv_le_of (by norm_num) (by omega)
  interval_cases e
  · have := hof.zero
    simp only at this
    omega
  · have hone := hof.one_le hbps
    simp only at hone
    interval_cases a
    · -- one unit is scaled to one unit only by a rate of zero
      have h1 := hlow s.lpFeeBps.toNat
      have h2 := hlow s.protocolFeeBps.toNat
      have h3 := hlow s.creatorFeeBps.toNat
      unfold totalBps at hmul
      omega
    · omega
  · omega

/-- The kernel's effective amount: the exact one, or all ones after the one
subtraction that wraps. -/
theorem kernel_buyEffective {s : PumpState} (hbps : totalBps s < 10000) {a : Nat}
    (ha0 : 0 < a) (ha : a < 2 ^ 64) :
    (feeTotal s (a * 10000 / (10000 + totalBps s)) ≤ a ∧
      ∃ f, Pump.buyEffective s a = some (buyNet s a, f) ∧ FeesOf (buyNet s a) s f ∧
        f.total = feeTotal s (buyNet s a)) ∨
    (a < feeTotal s (a * 10000 / (10000 + totalBps s)) ∧
      ∀ p, Pump.buyEffective s a = some p → p.1 = 2 ^ 128 - 1) := by
  have hle := scaled_le s a
  have habove := estimate_above hbps ha0
  have hfit : feeTotal s (a * 10000 / (10000 + totalBps s)) ≤ a → buyNet s a ≤ a := by
    intro h
    have := buyNet_add_fee h
    omega
  have hdef : buyNet s a = if a * 10000 / (10000 + totalBps s)
      + feeTotal s (a * 10000 / (10000 + totalBps s)) > a
      then a - feeTotal s (a * 10000 / (10000 + totalBps s))
      else a * 10000 / (10000 + totalBps s) := rfl
  unfold Pump.buyEffective
  rw [wrap128_of_lt (show a * 10000 < 2 ^ 128 by omega)]
  generalize a * 10000 / (10000 + totalBps s) = e at hle habove hfit hdef ⊢
  obtain ⟨f, hf, hof, htot⟩ := kernel_splitFees hbps (show e < 2 ^ 64 by omega)
  simp only [hf, Option.bind_some, htot]
  rcases Nat.lt_or_ge a (feeTotal s e) with hbig | hsmall
  · have heq := habove hbig
    refine Or.inr ⟨hbig, ?_⟩
    intro p hp
    rw [heq, wrap128_of_lt (by omega), if_pos (by omega)] at hp
    obtain ⟨f', -, hp⟩ := Option.map_eq_some_iff.mp hp
    rw [← hp]
    unfold sub128
    simp only
    omega
  · refine Or.inl ⟨hsmall, ?_⟩
    rw [wrap128_of_lt (by omega)]
    by_cases hgt : e + feeTotal s e > a
    · have hnet : buyNet s a = a - feeTotal s e := by rw [hdef, if_pos hgt]
      have hsub : sub128 e (sub128 (e + feeTotal s e) a) = buyNet s a := by
        rw [sub128_of_le (show a ≤ e + feeTotal s e by omega) (by omega),
          sub128_of_le (by omega) (by omega), hnet]
        omega
      obtain ⟨f', hf', hof', htot'⟩ :=
        kernel_splitFees hbps (show buyNet s a < 2 ^ 64 by omega)
      refine ⟨f', ?_, hof', htot'⟩
      rw [if_pos hgt, hsub, hf', Option.map_some]
    · have hnet : buyNet s a = e := by rw [hdef, if_neg hgt]
      rw [if_neg hgt, hnet]
      exact ⟨f, rfl, hof, htot⟩

/-- The base a buy gives out. -/
def buyBase (s : PumpState) (a : Nat) : Nat :=
  s.reserveBase.toNat * (buyNet s a - 1) / ((effQuote s).toNat + (buyNet s a - 1))

theorem buyBase_lt {s : PumpState} (a : Nat) (hbase : 0 < s.reserveBase.toNat)
    (hq : 0 < (effQuote s).toNat) : buyBase s a < s.reserveBase.toNat := by
  unfold buyBase
  rw [Nat.div_lt_iff_lt_mul (by omega)]
  exact Nat.mul_lt_mul_of_pos_left (by omega) hbase

/-- **The wrapped effective amount buys nothing**: whatever the reserves, the
output is zero or above the base reserve. -/
theorem wrapped_refused {B q : Nat} (hB0 : 0 < B) (hB : B < 2 ^ 64) (hq0 : 0 < q)
    (hq : q < 2 ^ 64) :
    wrap128 (B * (2 ^ 128 - 1 - 1)) / wrap128 (q + (2 ^ 128 - 1 - 1)) = 0 ∨
      wrap128 (B * (2 ^ 128 - 1 - 1)) / wrap128 (q + (2 ^ 128 - 1 - 1)) > B := by
  have hnum : wrap128 (B * (2 ^ 128 - 1 - 1)) = 2 ^ 128 - 2 * B := by
    have hsplit : B * (2 ^ 128 - 1 - 1) = (2 ^ 128 - 2 * B) + 2 ^ 128 * (B - 1) := by
      have hB1 : B = (B - 1) + 1 := by omega
      omega
    unfold wrap128
    rw [hsplit, Nat.add_mul_mod_self_left]
    omega
  rw [hnum]
  unfold wrap128
  rcases Nat.lt_or_ge 2 q with hbig | hsmall
  · right
    have hden : (q + (2 ^ 128 - 1 - 1)) % 2 ^ 128 = q - 2 := by omega
    rw [hden]
    have hcap : (B + 1) * (q - 2) ≤ 2 ^ 64 * (2 ^ 64 - 3) :=
      Nat.mul_le_mul (by omega) (by omega)
    have hle : B + 1 ≤ (2 ^ 128 - 2 * B) / (q - 2) :=
      (Nat.le_div_iff_mul_le (by omega)).mpr (by omega)
    exact hle
  · left
    rcases Nat.lt_or_ge 1 q with htwo | hone
    · have hden : (q + (2 ^ 128 - 1 - 1)) % 2 ^ 128 = 0 := by omega
      rw [hden, Nat.div_zero]
    · have hden : (q + (2 ^ 128 - 1 - 1)) % 2 ^ 128 = 2 ^ 128 - 1 := by omega
      rw [hden]
      exact Nat.div_eq_of_lt (by omega)

/-- The kernel's buy: the exact trade, within the reserves. -/
theorem pumpBuy_eq {s : PumpState} (hbps : totalBps s < 10000) {a : Nat}
    (hbase : 0 < s.reserveBase.toNat) (hq0 : 0 < (effQuote s).toNat)
    (hq : (effQuote s).toNat < 2 ^ 64) (ha0 : 0 < a) (ha : a < 2 ^ 64) :
    (Pump.pumpBuy s (effQuote s).toNat a).map (fun b => (b.out, b.fees.total))
      = if PumpPays s a 0 ∧ PumpRoom s a 0 then
          some (buyBase s a, feeTotal s (buyNet s a))
        else none := by
  have hB := UInt64.toNat_lt s.reserveBase
  have hpays : PumpPays s a 0 ↔ 1 ≤ buyNet s a ∧ 0 < buyBase s a := Iff.rfl
  have hroom : PumpRoom s a 0 ↔ s.reserveQuote.toNat + a < 2 ^ 64 := Iff.rfl
  unfold Pump.pumpBuy
  rcases kernel_buyEffective hbps ha0 ha with ⟨hest, f, hf, hof, htot⟩ | ⟨hest, hwrap⟩
  · have hsum := buyNet_add_fee hest
    rw [hf]
    simp only [Option.bind_some]
    by_cases hnet : buyNet s a < 1
    · rw [if_pos hnet, if_neg (fun h => absurd (hpays.mp h.1).1 (by omega))]
      rfl
    · have hprod : s.reserveBase.toNat * (buyNet s a - 1) < 2 ^ 128 := by
        calc s.reserveBase.toNat * (buyNet s a - 1) < 2 ^ 64 * 2 ^ 64 :=
              Nat.mul_lt_mul'' hB (by omega)
          _ = 2 ^ 128 := by norm_num
      have hout : wrap128 (s.reserveBase.toNat * (buyNet s a - 1))
          / wrap128 ((effQuote s).toNat + (buyNet s a - 1)) = buyBase s a := by
        rw [wrap128_of_lt hprod, wrap128_of_lt (by omega)]
        rfl
      have hlt := buyBase_lt a hbase hq0
      have hfees : f.lp + f.proto + f.creator ≤ a := by
        have : f.lp + f.proto + f.creator = feeTotal s (buyNet s a) := by
          rw [hof.lp_eq, hof.proto_eq, hof.creator_eq]
          rfl
        omega
      rw [if_neg hnet, hout, wrap128_of_lt (show f.proto + f.creator < 2 ^ 128 by omega)]
      by_cases hzero : buyBase s a = 0
      · rw [if_pos (Or.inl hzero), if_neg (fun h => absurd (hpays.mp h.1).2 (by omega))]
        rfl
      · rw [if_neg (by omega), if_neg (by omega)]
        by_cases hfull : s.reserveQuote.toNat + a > 2 ^ 64 - 1
        · rw [if_pos hfull, if_neg (fun h => absurd (hroom.mp h.2) (by omega))]
          rfl
        · rw [if_neg hfull,
            if_pos ⟨hpays.mpr ⟨by omega, by omega⟩, hroom.mpr (by omega)⟩, Option.map_some]
          simp only [htot]
  · have hnet := buyNet_of_above hest
    rw [if_neg (fun h => absurd (hpays.mp h.1).1 (by omega)), Option.map_eq_none_iff,
      Option.bind_eq_none_iff]
    rintro ⟨e, f⟩ hp
    have he : e = 2 ^ 128 - 1 := hwrap _ hp
    subst he
    simp only
    rw [if_neg (by norm_num), if_pos (wrapped_refused hbase hB hq0 hq)]

/-- The port's effective amount, where it is not negative. -/
theorem port_buyEffective {s : PumpState} (hbps : totalBps s < 10000) (a : Nat) :
    (feeTotal s (a * 10000 / (10000 + totalBps s)) ≤ a ∧
      buyEffective (PumpPool.ofState s) a
        = some ((buyNet s a : Int), (feeTotal s (buyNet s a) : Int))) ∨
    (a < feeTotal s (a * 10000 / (10000 + totalBps s)) ∧
      ∀ p, buyEffective (PumpPool.ofState s) a = some p → p.1 < 0) := by
  have hscaled : (a : Int) * pumpDen / (pumpDen + (PumpPool.ofState s).totalBps)
      = ((a * 10000 / (10000 + totalBps s) : Nat) : Int) := by
    unfold pumpDen PumpPool.totalBps PumpPool.ofState totalBps
    push_cast
    rfl
  have hdef : buyNet s a = if a * 10000 / (10000 + totalBps s)
      + feeTotal s (a * 10000 / (10000 + totalBps s)) > a
      then a - feeTotal s (a * 10000 / (10000 + totalBps s))
      else a * 10000 / (10000 + totalBps s) := rfl
  unfold buyEffective
  simp only [hscaled]
  generalize a * 10000 / (10000 + totalBps s) = e at hdef ⊢
  rw [feeSum_ofNat hbps, Option.bind_some]
  rcases Nat.lt_or_ge a (feeTotal s e) with hbig | hsmall
  · refine Or.inr ⟨hbig, ?_⟩
    intro p hp
    rw [if_pos (by omega)] at hp
    obtain ⟨f, -, hp⟩ := Option.map_eq_some_iff.mp hp
    rw [← hp]
    simp only
    omega
  · refine Or.inl ⟨hsmall, ?_⟩
    by_cases hgt : e + feeTotal s e > a
    · have hnet : (e : Int) - (e + feeTotal s e - a) = ((buyNet s a : Nat) : Int) := by
        rw [hdef, if_pos hgt]
        omega
      rw [if_pos (by omega), hnet, feeSum_ofNat hbps, Option.map_some]
    · rw [if_neg (by omega), hdef, if_neg hgt]

/-- The port's buy, on naturals. -/
theorem buyOut_ofNat {s : PumpState} (hbps : totalBps s < 10000) (a : Nat)
    (hbase : 0 < s.reserveBase.toNat) (hq0 : 0 < (effQuote s).toNat) :
    buyOut (PumpPool.ofState s) ((effQuote s).toNat : Int) a
      = if PumpPays s a 0 then some ⟨buyBase s a, feeTotal s (buyNet s a)⟩ else none := by
  have hpays : PumpPays s a 0 ↔ 1 ≤ buyNet s a ∧ 0 < buyBase s a := Iff.rfl
  unfold buyOut
  rcases port_buyEffective hbps a with ⟨-, heff⟩ | ⟨hest, hneg⟩
  · rw [heff, Option.bind_some]
    simp only
    by_cases hnet : buyNet s a < 1
    · rw [if_pos (by omega), if_neg (fun h => absurd (hpays.mp h).1 (by omega))]
    · have hlt := buyBase_lt a hbase hq0
      have hout : (PumpPool.ofState s).reserveBase * ((buyNet s a : Int) - 1)
          / (((effQuote s).toNat : Int) + ((buyNet s a : Int) - 1)) = (buyBase s a : Int) := by
        have hcast : (buyNet s a : Int) - 1 = ((buyNet s a - 1 : Nat) : Int) := by omega
        rw [hcast]
        unfold buyBase PumpPool.ofState
        push_cast
        rfl
      have hle : ¬ ((buyBase s a : Int) > (PumpPool.ofState s).reserveBase) := by
        unfold PumpPool.ofState
        simp only
        omega
      rw [if_neg (by omega), hout]
      by_cases hzero : buyBase s a = 0
      · rw [if_pos (Or.inl (by omega)), if_neg (fun h => absurd (hpays.mp h).2 (by omega))]
      · rw [if_neg (by omega), if_pos (hpays.mpr ⟨by omega, by omega⟩)]
  · have hnet := buyNet_of_above hest
    rw [if_neg (fun h => absurd (hpays.mp h).1 (by omega)), Option.bind_eq_none_iff]
    intro p hp
    have := hneg p hp
    rw [if_pos (by omega)]

/-! ## §6. Port against kernel. -/

theorem sell_pays {s : PumpState} {a : Nat} :
    PumpPays s a 1 ↔ feeTotal s (sellGross s a) < sellGross s a := Iff.rfl

/-- What a trade gives, exactly: output and fee. -/
def pumpTrade (s : PumpState) (a : Nat) (direction : UInt8) : Nat × Nat :=
  if direction = 1 then
    (sellGross s a - feeTotal s (sellGross s a), feeTotal s (sellGross s a))
  else (buyBase s a, feeTotal s (buyNet s a))

theorem toNat_eq_iff (d : UInt8) {n : Nat} (hn : n < 256) :
    d.toNat = n ↔ d = UInt8.ofNat n := by
  rw [← UInt8.toNat_inj, UInt8.toNat_ofNat_of_lt' hn]

/-- The port's refusals before the trade are those of `PumpOpen`. -/
theorem quotePump_gate (s : PumpState) {a : Nat} (direction : UInt8) (ha0 : 0 < a) :
    (¬ PumpOpen s direction ∧
      quotePump (PumpPool.ofState s) a direction.toNat = none) ∨
    (PumpOpen s direction ∧
      quotePump (PumpPool.ofState s) a direction.toNat
        = (if direction = 1 then sellOut (PumpPool.ofState s) ((effQuote s).toNat : Int) a
            else buyOut (PumpPool.ofState s) ((effQuote s).toNat : Int) a).bind fun q =>
          if q.amountOut = 0 ∨ q.amountOut > 2 ^ 64 - 1 then none else some q) := by
  have hd0 := toNat_eq_iff direction (show 0 < 256 by norm_num)
  have hd1 := toNat_eq_iff direction (show 1 < 256 by norm_num)
  have hstat : (PumpPool.ofState s).status ≠ 0 ↔ s.status ≠ 0 :=
    not_congr (toNat_eq_iff s.status (show 0 < 256 by norm_num))
  have hdis : (PumpPool.ofState s).disabled &&& (if direction.toNat = 0 then 8 else 16) ≠ 0
      ↔ s.disabled &&& (if direction = 0 then 8 else 16) ≠ 0 := by
    refine not_congr ?_
    rw [← UInt8.toNat_inj, UInt8.toNat_and]
    have hbit : (if direction = 0 then (8 : UInt8) else 16).toNat
        = if direction.toNat = 0 then 8 else 16 := by
      by_cases h : direction = 0
      · rw [if_pos h, if_pos (hd0.mpr h)]
        rfl
      · rw [if_neg h, if_neg (fun h' => h (hd0.mp h'))]
        rfl
    rw [hbit]
    exact Iff.rfl
  have hbps : (PumpPool.ofState s).totalBps ≥ pumpDen ↔ ¬ totalBps s < 10000 := by
    unfold PumpPool.totalBps PumpPool.ofState totalBps pumpDen
    simp only
    omega
  have hbase : (PumpPool.ofState s).reserveBase = 0 ↔ s.reserveBase = 0 := by
    rw [← UInt64.toNat_inj]
    exact Int.natCast_eq_zero
  have hquote : (PumpPool.ofState s).reserveQuote = 0 ↔ s.reserveQuote = 0 := by
    rw [← UInt64.toNat_inj]
    exact Int.natCast_eq_zero
  have hq : (PumpPool.ofState s).reserveQuote + (PumpPool.ofState s).virtualQuote
      = effQuote s := rfl
  by_cases ho : PumpOpen s direction
  · right
    refine ⟨ho, ?_⟩
    have hknown : ¬ (direction.toNat ≠ 0 ∧ direction.toNat ≠ 1) := by
      rw [ne_eq, ne_eq, hd0, hd1]
      rcases ho.known with h | h
      · exact fun hc => hc.1 h
      · exact fun hc => hc.2 h
    unfold quotePump
    rw [if_neg (not_or.mpr ⟨fun h => hstat.mp h ho.enabled, by omega⟩), if_neg hknown,
      if_neg (fun h => hdis.mp h ho.allowed), if_neg (fun h => hbps.mp h ho.bps_lt),
      if_neg (not_or.mpr ⟨fun h => ho.base_ne (hbase.mp h), fun h => ho.quote_ne (hquote.mp h)⟩)]
    simp only [hq]
    have h0 := ho.eff_pos
    have h1 := ho.eff_le
    rw [if_neg (by omega), Int.toNat_of_nonneg h0.le]
    simp only [hd1]
    rfl
  · left
    refine ⟨ho, ?_⟩
    unfold quotePump
    by_cases h1 : (PumpPool.ofState s).status ≠ 0 ∨ (a : Int) = 0
    · rw [if_pos h1]
    rw [if_neg h1]
    by_cases h2 : direction.toNat ≠ 0 ∧ direction.toNat ≠ 1
    · rw [if_pos h2]
    rw [if_neg h2]
    by_cases h3 : (PumpPool.ofState s).disabled &&& (if direction.toNat = 0 then 8 else 16) ≠ 0
    · rw [if_pos h3]
    rw [if_neg h3]
    by_cases h4 : (PumpPool.ofState s).totalBps ≥ pumpDen
    · rw [if_pos h4]
    rw [if_neg h4]
    by_cases h5 : (PumpPool.ofState s).reserveBase = 0 ∨ (PumpPool.ofState s).reserveQuote = 0
    · rw [if_pos h5]
    rw [if_neg h5]
    simp only [hq]
    by_cases h6 : effQuote s ≤ 0 ∨ effQuote s > 2 ^ 64 - 1
    · rw [if_pos h6]
    -- no refusal fired, so the pool is open
    exfalso
    refine ho ⟨?_, ?_, ?_, ?_, ?_, ?_, by omega, by omega⟩
    · exact not_not.mp fun h => h1 (Or.inl (hstat.mpr h))
    · rw [ne_eq, ne_eq, hd0, hd1] at h2
      exact or_iff_not_and_not.mpr h2
    · exact not_not.mp fun h => h3 (hdis.mpr h)
    · exact not_not.mp fun h => h4 (hbps.mpr h)
    · exact fun h => h5 (Or.inl (hbase.mpr h))
    · exact fun h => h5 (Or.inr (hquote.mpr h))

/-- **The port, on an open pool**: it quotes every trade that pays. -/
theorem quotePump_open {s : PumpState} {direction : UInt8} (ho : PumpOpen s direction)
    (a : Nat) :
    ((if direction = 1 then sellOut (PumpPool.ofState s) ((effQuote s).toNat : Int) a
        else buyOut (PumpPool.ofState s) ((effQuote s).toNat : Int) a).bind fun q =>
      if q.amountOut = 0 ∨ q.amountOut > 2 ^ 64 - 1 then none else some q)
      = if PumpPays s a direction then
          some ⟨(pumpTrade s a direction).1, (pumpTrade s a direction).2⟩
        else none := by
  have h0 := ho.eff_pos
  have h1 := ho.eff_le
  have hB := UInt64.toNat_lt s.reserveBase
  have hB0 : 0 < s.reserveBase.toNat := ho.base_pos
  rcases ho.known with rfl | rfl
  · rw [if_neg (by decide), buyOut_ofNat ho.bps_lt a hB0 (by omega)]
    have hlt := buyBase_lt a hB0 (show 0 < (effQuote s).toNat by omega)
    by_cases hp : PumpPays s a 0
    · have hpos : 0 < buyBase s a := hp.2
      rw [if_pos hp, if_pos hp, Option.bind_some, if_neg (by simp only; omega)]
      rfl
    · rw [if_neg hp, if_neg hp]
      rfl
  · rw [if_pos rfl, sellOut_ofNat ho.bps_lt a]
    have hle := sellGross_le (s := s) a
    by_cases hlow : sellGross s a < feeTotal s (sellGross s a)
    · rw [if_pos hlow, if_neg (fun h => absurd (sell_pays.mp h) (by omega))]
      rfl
    · rw [if_neg hlow, Option.bind_some]
      by_cases hp : PumpPays s a 1
      · have hpos := sell_pays.mp hp
        rw [if_pos hp, if_neg (by simp only; omega)]
        unfold pumpTrade
        rw [if_pos rfl]
        simp only [Nat.cast_sub hpos.le]
      · have hzero : ¬ feeTotal s (sellGross s a) < sellGross s a := fun h => hp (sell_pays.mpr h)
        rw [if_neg hp, if_pos (Or.inl (by simp only; omega))]

/-- The kernel's refusals before the trade are those of `PumpOpen`. -/
theorem pumpApplySwap_gate (s : PumpState) {amountIn : UInt64} (direction : UInt8)
    (ha0 : amountIn ≠ 0) :
    (¬ PumpOpen s direction ∧ Pump.pumpApplySwap s ⟨amountIn, 0, direction⟩ = none) ∨
    (PumpOpen s direction ∧
      (Pump.pumpApplySwap s ⟨amountIn, 0, direction⟩).map
          (fun r => (r.2.amountOut, r.2.fee))
        = ((if direction = 1 then Pump.pumpSell s (effQuote s).toNat amountIn.toNat
            else Pump.pumpBuy s (effQuote s).toNat amountIn.toNat).map
              (fun b => (b.out, b.fees.total))).bind fun t =>
          if t.1 = 0 ∨ t.1 > 2 ^ 64 - 1 ∨ t.2 > 2 ^ 64 - 1 then none
          else some (UInt64.ofNat t.1, UInt64.ofNat t.2)) := by
  unfold Pump.pumpApplySwap Pump.effectiveQuote
  simp only
  have hq : (s.reserveQuote.toNat : Int) + s.virtualQuote.toInt = effQuote s := rfl
  simp only [hq]
  by_cases ho : PumpOpen s direction
  · right
    refine ⟨ho, ?_⟩
    have h0 := ho.eff_pos
    have h1 := ho.eff_le
    have hknown : ¬ (direction ≠ 0 ∧ direction ≠ 1) := by
      rcases ho.known with h | h
      · exact fun hc => hc.1 h
      · exact fun hc => hc.2 h
    rw [if_neg (not_or.mpr ⟨not_not_intro ho.enabled, ha0⟩), if_neg hknown,
      if_neg (not_not_intro ho.allowed), if_neg (show ¬ totalBps s ≥ 10000 from
        not_le.mpr ho.bps_lt), if_neg (not_or.mpr ⟨ho.base_ne, ho.quote_ne⟩),
      if_neg (by omega), Option.bind_some, Option.map_bind, Option.bind_map]
    congr 1
    funext b
    simp only [Function.comp]
    by_cases hbad : b.out = 0 ∨ b.out > 2 ^ 64 - 1 ∨ b.fees.total > 2 ^ 64 - 1
    · rw [if_pos hbad, if_pos hbad]
      rfl
    · rw [if_neg hbad, if_neg hbad, if_neg (by simp)]
      rfl
  · left
    refine ⟨ho, ?_⟩
    by_cases h1 : s.status ≠ 0 ∨ amountIn = 0
    · rw [if_pos h1]
    rw [if_neg h1]
    by_cases h2 : direction ≠ 0 ∧ direction ≠ 1
    · rw [if_pos h2]
    rw [if_neg h2]
    by_cases h3 : s.disabled &&& (if direction = 0 then 8 else 16) ≠ 0
    · rw [if_pos h3]
    rw [if_neg h3]
    by_cases h4 : totalBps s ≥ 10000
    · rw [if_pos h4]
    rw [if_neg h4]
    by_cases h5 : s.reserveBase = 0 ∨ s.reserveQuote = 0
    · rw [if_pos h5]
      rfl
    rw [if_neg h5]
    by_cases h6 : effQuote s ≤ 0 ∨ effQuote s > 2 ^ 64 - 1
    · rw [if_pos h6]
      rfl
    -- no refusal fired, so the pool is open
    exfalso
    refine ho ⟨?_, or_iff_not_and_not.mpr h2, not_not.mp h3, not_le.mp h4, ?_, ?_,
      by omega, by omega⟩
    · exact not_not.mp fun h => h1 (Or.inl h)
    · exact fun h => h5 (Or.inl h)
    · exact fun h => h5 (Or.inr h)

/-- Output and fee of a trade that pays are 64-bit. -/
theorem pumpTrade_lt {s : PumpState} {a : Nat} {direction : UInt8}
    (ho : PumpOpen s direction) (ha : a < 2 ^ 64) (hp : PumpPays s a direction) :
    (pumpTrade s a direction).1 < 2 ^ 64 ∧ (pumpTrade s a direction).2 < 2 ^ 64 := by
  have h0 := ho.eff_pos
  have h1 := ho.eff_le
  have hB := UInt64.toNat_lt s.reserveBase
  rcases ho.known with rfl | rfl
  · have hlt := buyBase_lt a ho.base_pos (show 0 < (effQuote s).toNat by omega)
    have hone : 1 ≤ buyNet s a := hp.1
    have hest : feeTotal s (a * 10000 / (10000 + totalBps s)) ≤ a := by
      by_contra habove
      have hnet := buyNet_of_above (not_le.mp habove)
      omega
    have hsum := buyNet_add_fee hest
    show buyBase s a < 2 ^ 64 ∧ feeTotal s (buyNet s a) < 2 ^ 64
    omega
  · have hle := sellGross_le (s := s) a
    have hpos := sell_pays.mp hp
    show sellGross s a - feeTotal s (sellGross s a) < 2 ^ 64 ∧
      feeTotal s (sellGross s a) < 2 ^ 64
    omega

/-- **The kernel, on an open pool**: it quotes every trade that pays and that
the reserves have room for. -/
theorem pumpApplySwap_open {s : PumpState} {a : Nat} {direction : UInt8}
    (ho : PumpOpen s direction) (ha0 : 0 < a) (ha : a < 2 ^ 64) :
    (((if direction = 1 then Pump.pumpSell s (effQuote s).toNat a
        else Pump.pumpBuy s (effQuote s).toNat a).map
          (fun b => (b.out, b.fees.total))).bind fun t =>
      if t.1 = 0 ∨ t.1 > 2 ^ 64 - 1 ∨ t.2 > 2 ^ 64 - 1 then none
      else some (UInt64.ofNat t.1, UInt64.ofNat t.2))
      = if PumpPays s a direction ∧ PumpRoom s a direction then
          some (UInt64.ofNat (pumpTrade s a direction).1, UInt64.ofNat (pumpTrade s a direction).2)
        else none := by
  have h0 := ho.eff_pos
  have h1 := ho.eff_le
  rcases ho.known with rfl | rfl
  · rw [if_neg (by decide), pumpBuy_eq ho.bps_lt ho.base_pos (by omega) (by omega) ha0 ha]
    by_cases hp : PumpPays s a 0 ∧ PumpRoom s a 0
    · have hpos : 0 < buyBase s a := hp.1.2
      have hfit : buyBase s a < 2 ^ 64 ∧ feeTotal s (buyNet s a) < 2 ^ 64 :=
        pumpTrade_lt ho ha hp.1
      rw [if_pos hp, if_pos hp, Option.bind_some, if_neg (by simp only; omega)]
      rfl
    · rw [if_neg hp, if_neg hp]
      rfl
  · rw [if_pos rfl, pumpSell_eq ho.bps_lt (by omega) ha]
    have hle := sellGross_le (s := s) a
    by_cases hp : PumpPays s a 1 ∧ PumpRoom s a 1
    · have hpos := sell_pays.mp hp.1
      rw [if_pos ⟨hpos.le, hp.2⟩, if_pos hp, Option.bind_some, if_neg (by simp only; omega)]
      rfl
    · rw [if_neg hp]
      by_cases hfee : feeTotal s (sellGross s a) ≤ sellGross s a ∧ PumpRoom s a 1
      · -- fees that eat the whole output leave a zero, which is refused
        have hzero : ¬ feeTotal s (sellGross s a) < sellGross s a :=
          fun h => hp ⟨sell_pays.mpr h, hfee.2⟩
        have hle := hfee.1
        rw [if_pos hfee, Option.bind_some, if_pos (Or.inl (by simp only; omega))]
      · rw [if_neg hfee]
        rfl

/-- **The Pump port is the kernel exactly when the trade, if it would be
quoted at all, has room in the reserves.** -/
theorem quotePump_agrees_iff (s : PumpState) (amountIn : UInt64) (direction : UInt8) :
    PumpAgrees s amountIn direction ↔
      (amountIn ≠ 0 → PumpOpen s direction → PumpPays s amountIn.toNat direction →
        PumpRoom s amountIn.toNat direction) := by
  have ha := UInt64.toNat_lt amountIn
  unfold PumpAgrees Pump.pumpQuoteExactIn
  by_cases ha0 : amountIn = 0
  · subst ha0
    have hnone : quotePump (PumpPool.ofState s) ((0 : UInt64).toNat : Int) direction.toNat
        = none := by
      unfold quotePump
      rw [if_pos (Or.inr (by decide))]
    rw [hnone, if_pos rfl]
    simp
  have hpos : 0 < amountIn.toNat :=
    Nat.pos_of_ne_zero fun h => ha0 (UInt64.toNat_inj.mp h)
  rw [if_neg ha0]
  rcases quotePump_gate s direction hpos with ⟨hc, hport⟩ | ⟨ho, hport⟩
  · rcases pumpApplySwap_gate s direction ha0 with ⟨-, hk⟩ | ⟨ho, -⟩
    · rw [hport, hk]
      simp [hc]
    · exact absurd ho hc
  · rcases pumpApplySwap_gate s direction ha0 with ⟨hc, -⟩ | ⟨-, hk⟩
    · exact absurd ho hc
    rw [pumpApplySwap_open ho hpos ha] at hk
    have hkernel : ((Pump.pumpApplySwap s ⟨amountIn, 0, direction⟩).map fun r =>
          ({ amountOut := r.2.amountOut, fee := r.2.fee } : PumpQuote)).map Quote.ofPump
        = ((Pump.pumpApplySwap s ⟨amountIn, 0, direction⟩).map
            (fun r => (r.2.amountOut, r.2.fee))).map fun t => ⟨t.1.toNat, t.2.toNat⟩ := by
      rw [Option.map_map, Option.map_map]
      rfl
    rw [hport, quotePump_open ho, hkernel, hk]
    by_cases hp : PumpPays s amountIn.toNat direction
    · by_cases hr : PumpRoom s amountIn.toNat direction
      · have hfit := pumpTrade_lt ho ha hp
        rw [if_pos hp, if_pos ⟨hp, hr⟩, Option.map_some,
          UInt64.toNat_ofNat_of_lt' hfit.1, UInt64.toNat_ofNat_of_lt' hfit.2]
        simp [hr]
      · -- the port quotes, the kernel refuses
        rw [if_pos hp, if_neg (fun h => hr h.2)]
        simp [hr, hp, ho, ha0]
    · rw [if_neg hp, if_neg (fun h => hp h.1)]
      simp [hp]

end ShredArb.Ports
