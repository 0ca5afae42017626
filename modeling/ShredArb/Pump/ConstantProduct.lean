/-
  ShredArb.Pump.ConstantProduct — THE PRODUCT NEVER FALLS.

  The invariant of the Pump pool is `base · (quote + virtual quote)`.  A sell
  rounds its output down and leaves the LP fee behind; a buy derives a
  fee-exclusive amount by a floor, corrects it when the three rounded-up fees
  do not fit, and buys one unit less.  `buyEffective_le` is the fact the buy
  branch rests on: from three units in, the correction cannot wrap and
  effective amount plus fees stay within what was paid.

  Main results:
    * `pumpApplySwap_spec` — what one swap does to the reserves.
    * `constant_product` — the product over any run, and no profit for the
      trader of a whole run.
-/
import ShredArb.Pump.Kernel

namespace ShredArb.Pump

open ShredArb.Word

/-! ## §1. Fees. -/

theorem feeBps_spec {n bps f : Nat} (hn : n < 2 ^ 64) (h : feeBps n bps = some f) :
    bps ≤ 10000 ∧ f = ceilDiv (n * bps) 10000 := by
  unfold feeBps at h
  unfold pumpFeeBpsDen at h
  split at h
  · simp at h
  · rename_i hle
    have hb : bps ≤ 10000 := by omega
    have hprod : n * bps ≤ 2 ^ 64 * 10000 := Nat.mul_le_mul hn.le hb
    rw [wrap128_of_lt (by omega)] at h
    exact ⟨hb, (Option.some.inj h).symm⟩

/-- The three fees of an amount below `2 ^ 64`. -/
structure FeesOf (n : Nat) (s : PumpState) (f : Fees) : Prop where
  lp_eq : f.lp = ceilDiv (n * s.lpFeeBps.toNat) 10000
  proto_eq : f.proto = ceilDiv (n * s.protocolFeeBps.toNat) 10000
  creator_eq : f.creator = ceilDiv (n * s.creatorFeeBps.toNat) 10000

theorem splitFees_spec {n : Nat} {s : PumpState} {f : Fees} (hn : n < 2 ^ 64)
    (h : splitFees n s = some f) : FeesOf n s f := by
  unfold splitFees at h
  simp only [Option.bind_eq_some_iff, Option.map_eq_some_iff] at h
  obtain ⟨lp, hlp, proto, hproto, creator, hcreator, h⟩ := h
  subst h
  exact ⟨(feeBps_spec hn hlp).2, (feeBps_spec hn hproto).2, (feeBps_spec hn hcreator).2⟩

/-- The fees of `n` are its proportional fee and less than one unit of
rounding each. -/
theorem FeesOf.sum_lt {n : Nat} {s : PumpState} {f : Fees} (h : FeesOf n s f) :
    (f.lp + f.proto + f.creator) * 10000 < n * totalBps s + 30000 := by
  have h1 := ceilDiv_mul_lt (n * s.lpFeeBps.toNat) (d := 10000) (by norm_num)
  have h2 := ceilDiv_mul_lt (n * s.protocolFeeBps.toNat) (d := 10000) (by norm_num)
  have h3 := ceilDiv_mul_lt (n * s.creatorFeeBps.toNat) (d := 10000) (by norm_num)
  rw [← h.lp_eq] at h1
  rw [← h.proto_eq] at h2
  rw [← h.creator_eq] at h3
  unfold totalBps
  have hsplit : n * (s.lpFeeBps.toNat + s.protocolFeeBps.toNat + s.creatorFeeBps.toNat)
      = n * s.lpFeeBps.toNat + n * s.protocolFeeBps.toNat + n * s.creatorFeeBps.toNat := by
    ring
  rw [hsplit]
  linarith

theorem FeesOf.mono {n m : Nat} {s : PumpState} {f g : Fees} (hf : FeesOf n s f)
    (hg : FeesOf m s g) (hnm : n ≤ m) :
    f.lp ≤ g.lp ∧ f.proto ≤ g.proto ∧ f.creator ≤ g.creator := by
  rw [hf.lp_eq, hf.proto_eq, hf.creator_eq, hg.lp_eq, hg.proto_eq, hg.creator_eq]
  refine ⟨?_, ?_, ?_⟩ <;>
    exact ceilDiv_mono (by norm_num) (Nat.mul_le_mul_right _ hnm)

/-- At most one unit of each fee on one unit. -/
theorem FeesOf.one_le {s : PumpState} {f : Fees} (hbps : totalBps s < 10000)
    (h : FeesOf 1 s f) : f.lp + f.proto + f.creator ≤ 3 := by
  have hone : ∀ b : Nat, b ≤ 10000 → ceilDiv (1 * b) 10000 ≤ 1 := by
    intro b hb
    exact ceilDiv_le_of (by norm_num) (by omega)
  unfold totalBps at hbps
  have h1 := hone s.lpFeeBps.toNat (by omega)
  have h2 := hone s.protocolFeeBps.toNat (by omega)
  have h3 := hone s.creatorFeeBps.toNat (by omega)
  rw [h.lp_eq, h.proto_eq, h.creator_eq]
  omega

theorem FeesOf.zero {s : PumpState} {f : Fees} (h : FeesOf 0 s f) :
    f.lp + f.proto + f.creator = 0 := by
  rw [h.lp_eq, h.proto_eq, h.creator_eq]
  simp

/-- **Three units in pay for the rounding of the three fees.** -/
theorem FeesOf.le_amount {s : PumpState} {f : Fees} {e amount : Nat}
    (hbps : totalBps s < 10000) (ha : 3 ≤ amount)
    (he : e * (10000 + totalBps s) ≤ amount * 10000) (h : FeesOf e s f) :
    f.lp + f.proto + f.creator ≤ amount := by
  have hsum := h.sum_lt
  have hexp : e * (10000 + totalBps s) = e * 10000 + e * totalBps s := by ring
  rcases Nat.lt_or_ge e 2 with hsmall | hbig
  · interval_cases e
    · have := h.zero
      omega
    · have := h.one_le hbps
      omega
  · omega

/-! ## §2. The buy branch: effective amount and fees fit what was paid. -/

theorem buyEffective_le {s : PumpState} {amount e : Nat} {f : Fees}
    (hbps : totalBps s < 10000) (ha : 3 ≤ amount) (hlt : amount < 2 ^ 64)
    (h : buyEffective s amount = some (e, f)) :
    e + (f.lp + f.proto + f.creator) ≤ amount ∧ FeesOf e s f := by
  unfold buyEffective at h
  unfold pumpFeeBpsDen at h
  simp only [Option.bind_eq_some_iff] at h
  obtain ⟨fees, hfees, h⟩ := h
  have hscale : wrap128 (amount * 10000) = amount * 10000 := wrap128_of_lt (by omega)
  rw [hscale] at hfees h
  have hfloor : amount * 10000 / (10000 + totalBps s) * (10000 + totalBps s)
      ≤ amount * 10000 := Nat.div_mul_le_self _ _
  generalize amount * 10000 / (10000 + totalBps s) = e0 at hfees h hfloor
  have hexp : e0 * (10000 + totalBps s) = e0 * 10000 + e0 * totalBps s := by ring
  have he0 : e0 ≤ amount := by omega
  have hof := splitFees_spec (by omega) hfees
  have hfee := hof.le_amount hbps ha hfloor
  have htot : fees.total = fees.lp + fees.proto + fees.creator :=
    wrap128_of_lt (by omega)
  have hgross : wrap128 (e0 + (fees.lp + fees.proto + fees.creator))
      = e0 + (fees.lp + fees.proto + fees.creator) := wrap128_of_lt (by omega)
  rw [htot, hgross] at h
  split at h
  · rename_i hgt
    rw [sub128_of_le (a := e0 + _) (by omega) (by omega),
      sub128_of_le (by omega) (by omega)] at h
    simp only [Option.map_eq_some_iff, Prod.mk.injEq] at h
    obtain ⟨fees', hfees', he, hf⟩ := h
    subst hf
    have hof' := splitFees_spec (by omega) hfees'
    rw [he] at hof'
    have hmono := hof'.mono hof (by omega)
    exact ⟨by omega, hof'⟩
  · simp only [Option.some.injEq, Prod.mk.injEq] at h
    obtain ⟨rfl, rfl⟩ := h
    exact ⟨by omega, hof⟩

/-! ## §3. One swap. -/

/-- `quote + virtual quote` over the integers. -/
def effQuote (s : PumpState) : Int := s.reserveQuote.toNat + s.virtualQuote.toInt

/-- The constant product. -/
def product (s : PumpState) : Int := s.reserveBase.toNat * effQuote s

theorem effectiveQuote_spec {s : PumpState} {q : Nat} (h : effectiveQuote s = some q) :
    0 < s.reserveBase.toNat ∧ 0 < q ∧ q < 2 ^ 64 ∧ effQuote s = q := by
  unfold effectiveQuote at h
  split at h
  · simp at h
  · rename_i hne
    simp only at h
    split at h
    · simp at h
    · rename_i hq
      rw [← Option.some.inj h]
      have hb : s.reserveBase.toNat ≠ 0 := by
        intro h0
        exact hne (Or.inl (UInt64.toNat_inj.mp (by simpa using h0)))
      unfold effQuote
      omega

/-- The integer view of one branch of a swap: what the pool gained in base and
in quote, and that the trader's quote never exceeds what the pool gave up. -/
structure BranchSpec (s : PumpState) (b : Branch) (dBase dQuote : Int) : Prop where
  virt_eq : b.after.virtualQuote = s.virtualQuote
  base_pos : 0 < b.after.reserveBase.toNat
  base_eq : (b.after.reserveBase.toNat : Int) = s.reserveBase.toNat + dBase
  quote_le : (b.after.reserveQuote.toNat : Int) ≤ s.reserveQuote.toNat + dQuote
  product_le : product s ≤ product b.after

/-- **A sell**: the output is rounded down and the LP fee stays. -/
theorem pumpSell_spec {s : PumpState} {q amount : Nat} {b : Branch}
    (hq : effQuote s = q) (hq64 : q < 2 ^ 64) (hpos : 0 < q) (hbase : 0 < s.reserveBase.toNat)
    (ha : amount < 2 ^ 64) (h : pumpSell s q amount = some b) :
    BranchSpec s b amount (-(b.out : Int)) := by
  unfold pumpSell at h
  simp only [Option.bind_eq_some_iff] at h
  have hprod : q * amount < 2 ^ 128 := by
    calc q * amount < 2 ^ 64 * 2 ^ 64 := Nat.mul_lt_mul'' hq64 ha
      _ = 2 ^ 128 := by norm_num
  rw [wrap128_of_lt hprod] at h
  have hfloor := Nat.div_mul_le_self (q * amount) (s.reserveBase.toNat + amount)
  have hgross : q * amount / (s.reserveBase.toNat + amount) ≤ q := by
    apply Nat.div_le_of_le_mul
    nlinarith
  generalize q * amount / (s.reserveBase.toNat + amount) = gross at h hfloor hgross
  obtain ⟨fees, hfees, h⟩ := h
  have hof := splitFees_spec (by omega) hfees
  split at h
  · simp at h
  · rename_i hfee
    split at h
    · simp at h
    · rename_i hleave
      split at h
      · simp at h
      · rename_i hfit
        rw [← Option.some.inj h]
        have hbps : ∀ x : Nat, x ≤ 10000 → ceilDiv (gross * x) 10000 ≤ gross := by
          intro x hx
          exact ceilDiv_le_of (by norm_num) (Nat.mul_le_mul_left gross hx)
        unfold splitFees at hfees
        simp only [Option.bind_eq_some_iff, Option.map_eq_some_iff] at hfees
        obtain ⟨_, hlp, _, hpr, _, hcr, -⟩ := hfees
        have h1 := hbps _ (feeBps_spec (show gross < 2 ^ 64 by omega) hlp).1
        have h2 := hbps _ (feeBps_spec (show gross < 2 ^ 64 by omega) hpr).1
        have h3 := hbps _ (feeBps_spec (show gross < 2 ^ 64 by omega) hcr).1
        rw [← hof.lp_eq] at h1
        rw [← hof.proto_eq] at h2
        rw [← hof.creator_eq] at h3
        have htot : fees.total = fees.lp + fees.proto + fees.creator :=
          wrap128_of_lt (by omega)
        have hB : (UInt64.ofNat (s.reserveBase.toNat + amount)).toNat
            = s.reserveBase.toNat + amount :=
          UInt64.toNat_ofNat_of_lt' (show _ < 2 ^ 64 by omega)
        have hQ : (s.reserveQuote - UInt64.ofNat (gross - fees.lp)).toNat
            = s.reserveQuote.toNat - (gross - fees.lp) := toNat_sub_ofNat (by omega)
        constructor
        · rfl
        · simp only [hB]
          omega
        · simp only [hB]
          omega
        · simp only [hQ]
          omega
        · unfold product effQuote at *
          simp only [hB, hQ]
          have hcast : ((s.reserveQuote.toNat - (gross - fees.lp) : Nat) : Int)
              = s.reserveQuote.toNat - (gross - fees.lp : Int) := by omega
          rw [hcast]
          push_cast
          have hfloor' : (gross : Int) * (s.reserveBase.toNat + amount) ≤ q * amount := by
            exact_mod_cast hfloor
          have hlp0 : (0 : Int) ≤ fees.lp * (s.reserveBase.toNat + amount) := by positivity
          have hv : s.virtualQuote.toInt = q - s.reserveQuote.toNat := by omega
          rw [hv]
          have hexp : ((s.reserveBase.toNat : Int) + amount)
              * (s.reserveQuote.toNat - (gross - fees.lp) + (q - s.reserveQuote.toNat))
              = s.reserveBase.toNat * (s.reserveQuote.toNat + (q - s.reserveQuote.toNat))
                + (q * amount - gross * (s.reserveBase.toNat + amount))
                + fees.lp * (s.reserveBase.toNat + amount) := by ring
          rw [hexp]
          linarith

/-- **A buy of at least three units**: what is paid into the pool covers the
curve's input. -/
theorem pumpBuy_spec {s : PumpState} {q amount : Nat} {b : Branch}
    (hbps : totalBps s < 10000) (hq : effQuote s = q) (hq64 : q < 2 ^ 64) (hpos : 0 < q)
    (hbase : 0 < s.reserveBase.toNat) (ha3 : 3 ≤ amount) (ha : amount < 2 ^ 64)
    (h : pumpBuy s q amount = some b) : BranchSpec s b (-(b.out : Int)) amount := by
  unfold pumpBuy at h
  simp only [Option.bind_eq_some_iff] at h
  obtain ⟨⟨e, fees⟩, heff, h⟩ := h
  obtain ⟨hsum, hof⟩ := buyEffective_le hbps ha3 ha heff
  have hB64 := UInt64.toNat_lt s.reserveBase
  simp only at h
  split at h
  · simp at h
  · rename_i he
    have hprod : s.reserveBase.toNat * (e - 1) < 2 ^ 128 := by
      calc s.reserveBase.toNat * (e - 1) < 2 ^ 64 * 2 ^ 64 :=
            Nat.mul_lt_mul'' hB64 (by omega)
        _ = 2 ^ 128 := by norm_num
    have hden : wrap128 (q + (e - 1)) = q + (e - 1) := wrap128_of_lt (by omega)
    rw [wrap128_of_lt hprod, hden] at h
    have hfloor := Nat.div_mul_le_self (s.reserveBase.toNat * (e - 1)) (q + (e - 1))
    have hlt : s.reserveBase.toNat * (e - 1) / (q + (e - 1)) < s.reserveBase.toNat := by
      rw [Nat.div_lt_iff_lt_mul (by omega)]
      exact Nat.mul_lt_mul_of_pos_left (by omega) hbase
    generalize s.reserveBase.toNat * (e - 1) / (q + (e - 1)) = out at h hfloor hlt
    split at h
    · simp at h
    · split at h
      · simp at h
      · split at h
        · simp at h
        · rename_i hfit
          rw [← Option.some.inj h]
          have hB : (s.reserveBase - UInt64.ofNat out).toNat = s.reserveBase.toNat - out :=
            toNat_sub_ofNat (by omega)
          have hQ1 : (s.reserveQuote + UInt64.ofNat amount).toNat
              = s.reserveQuote.toNat + amount := toNat_add_ofNat (by omega)
          have hQ2 : (s.reserveQuote + UInt64.ofNat amount - UInt64.ofNat fees.proto).toNat
              = s.reserveQuote.toNat + amount - fees.proto := by
            rw [toNat_sub_ofNat (by omega), hQ1]
          have hQ : (s.reserveQuote + UInt64.ofNat amount - UInt64.ofNat fees.proto
              - UInt64.ofNat fees.creator).toNat
              = s.reserveQuote.toNat + amount - fees.proto - fees.creator := by
            rw [toNat_sub_ofNat (by omega), hQ2]
          constructor
          · rfl
          · simp only [hB]
            omega
          · simp only [hB]
            omega
          · simp only [hQ]
            omega
          · unfold product effQuote at *
            simp only [hB, hQ]
            -- paid in, less the two fees that leave: at least the curve's input
            have hin : (s.reserveQuote.toNat : Int) + (e - 1 : Nat)
                ≤ ((s.reserveQuote.toNat + amount - fees.proto - fees.creator : Nat) : Int) := by
              omega
            have hrest : (0 : Int) ≤ ((s.reserveBase.toNat - out : Nat) : Int) := by positivity
            have hcast : ((s.reserveBase.toNat - out : Nat) : Int)
                = s.reserveBase.toNat - out := by omega
            have hfloor' : (out : Int) * (q + (e - 1 : Nat))
                ≤ s.reserveBase.toNat * (e - 1 : Nat) := by exact_mod_cast hfloor
            have hv : s.virtualQuote.toInt = q - s.reserveQuote.toNat := by omega
            rw [hv]
            rw [hcast] at hrest ⊢
            generalize ((e - 1 : Nat) : Int) = net at hin hfloor'
            generalize ((s.reserveQuote.toNat + amount - fees.proto - fees.creator : Nat) : Int)
              = Q' at hin ⊢
            have hextra : 0 ≤ ((s.reserveBase.toNat : Int) - out)
                * (Q' - (s.reserveQuote.toNat + net)) :=
              mul_nonneg hrest (by linarith)
            have hexp : ((s.reserveBase.toNat : Int) - out) * (Q' + (q - s.reserveQuote.toNat))
                = s.reserveBase.toNat * (s.reserveQuote.toNat + (q - s.reserveQuote.toNat))
                  + (s.reserveBase.toNat * net - out * (q + net))
                  + (s.reserveBase.toNat - out) * (Q' - (s.reserveQuote.toNat + net)) := by
              ring
            rw [hexp]
            linarith

/-! ## §4. Runs, and the trader's books. -/

/-- The swaps the invariant is about: any sell, or a buy of at least three
units. -/
def Covered (ix : PumpSwapIx) : Prop :=
  ix.direction = pumpDirBaseToQuote ∨
    (ix.direction = pumpDirQuoteToBase ∧ 3 ≤ ix.amountIn.toNat)

/-- What the trader gains in base by a swap, read off its result. -/
def gainBase (t : PumpSwapIx × PumpSwapResult) : Int :=
  if t.1.direction = pumpDirBaseToQuote then -(t.2.amountIn.toNat : Int)
  else t.2.amountOut.toNat

/-- What the trader gains in quote by a swap, read off its result. -/
def gainQuote (t : PumpSwapIx × PumpSwapResult) : Int :=
  if t.1.direction = pumpDirBaseToQuote then t.2.amountOut.toNat
  else -(t.2.amountIn.toNat : Int)

/-- What one covered swap does to the pool, against the trader's books. -/
structure SwapSpec (s s' : PumpState) (t : PumpSwapIx × PumpSwapResult) : Prop where
  eff_pos : 0 < effQuote s
  virt_eq : s'.virtualQuote = s.virtualQuote
  base_pos : 0 < s'.reserveBase.toNat
  base_eq : (s'.reserveBase.toNat : Int) = s.reserveBase.toNat - gainBase t
  quote_le : (s'.reserveQuote.toNat : Int) ≤ s.reserveQuote.toNat - gainQuote t
  product_le : product s ≤ product s'

/-- What a successful swap went through. -/
theorem pumpApplySwap_inv {s s' : PumpState} {ix : PumpSwapIx} {r : PumpSwapResult}
    (h : pumpApplySwap s ix = some (s', r)) :
    totalBps s < 10000 ∧ ∃ q b, effectiveQuote s = some q ∧
      (if ix.direction = pumpDirBaseToQuote then pumpSell s q ix.amountIn.toNat
        else pumpBuy s q ix.amountIn.toNat) = some b ∧
      b.out < 2 ^ 64 ∧ s' = b.after ∧ r.amountIn = ix.amountIn ∧
      r.amountOut = UInt64.ofNat b.out := by
  unfold pumpApplySwap at h
  simp only at h
  generalize (if ix.direction = pumpDirQuoteToBase then pumpDisableBuy
    else pumpDisableSell) = bit at h
  split at h
  · simp at h
  · split at h
    · simp at h
    · split at h
      · simp at h
      · split at h
        · simp at h
        · rename_i hbps
          simp only [Option.bind_eq_some_iff] at h
          obtain ⟨q, hq, b, hb, h⟩ := h
          split at h
          · simp at h
          · rename_i hout
            split at h
            · simp at h
            · simp only [Option.some.injEq, Prod.mk.injEq] at h
              obtain ⟨hs, hr⟩ := h
              unfold pumpFeeBpsDen at hbps
              refine ⟨by omega, q, b, hq, hb, by omega, hs.symm, ?_, ?_⟩
              · rw [← hr]
              · rw [← hr]

/-- **One covered swap**: product, reserves and the trader's books. -/
theorem pumpApplySwap_spec {s s' : PumpState} {ix : PumpSwapIx} {r : PumpSwapResult}
    (hcov : Covered ix) (h : pumpApplySwap s ix = some (s', r)) :
    SwapSpec s s' (ix, r) := by
  obtain ⟨hbps, q, b, hq, hb, hout, rfl, hin, hro⟩ := pumpApplySwap_inv h
  obtain ⟨hbase, hpos, hq64, heff⟩ := effectiveQuote_spec hq
  have ha := UInt64.toNat_lt ix.amountIn
  have ho : r.amountOut.toNat = b.out := by
    rw [hro]
    exact UInt64.toNat_ofNat_of_lt' hout
  by_cases hsell : ix.direction = pumpDirBaseToQuote
  · rw [if_pos hsell] at hb
    have hspec := pumpSell_spec heff hq64 hpos hbase ha hb
    refine ⟨by omega, hspec.virt_eq, hspec.base_pos, ?_, ?_, hspec.product_le⟩
    · rw [hspec.base_eq, gainBase, if_pos hsell, hin]
      ring
    · refine hspec.quote_le.trans (le_of_eq ?_)
      rw [gainQuote, if_pos hsell, ho]
      ring
  · rw [if_neg hsell] at hb
    obtain ⟨-, h3⟩ := hcov.resolve_left hsell
    have hspec := pumpBuy_spec hbps heff hq64 hpos hbase h3 ha hb
    refine ⟨by omega, hspec.virt_eq, hspec.base_pos, ?_, ?_, hspec.product_le⟩
    · rw [hspec.base_eq, gainBase, if_neg hsell, ho]
      ring
    · refine hspec.quote_le.trans (le_of_eq ?_)
      rw [gainQuote, if_neg hsell, hin]
      ring

/-- A run of covered, successful swaps with the results it collected. -/
inductive PumpRun : PumpState → List (PumpSwapIx × PumpSwapResult) → PumpState → Prop
  | nil (s : PumpState) : PumpRun s [] s
  | cons {s s1 s' : PumpState} {ix : PumpSwapIx} {r : PumpSwapResult}
      {ts : List (PumpSwapIx × PumpSwapResult)} (hcov : Covered ix)
      (h : pumpApplySwap s ix = some (s1, r)) (hrun : PumpRun s1 ts s') :
      PumpRun s ((ix, r) :: ts) s'

/-- What a whole run did, against the trader's books. -/
structure RunSpec (s s' : PumpState) (ts : List (PumpSwapIx × PumpSwapResult)) : Prop where
  virt_eq : s'.virtualQuote = s.virtualQuote
  base_eq : (s'.reserveBase.toNat : Int) = s.reserveBase.toNat - (ts.map gainBase).sum
  quote_le : (s'.reserveQuote.toNat : Int) ≤ s.reserveQuote.toNat - (ts.map gainQuote).sum
  product_le : product s ≤ product s'
  alive : ts ≠ [] → 0 < effQuote s ∧ 0 < s'.reserveBase.toNat

theorem PumpRun.spec {s s' : PumpState} {ts : List (PumpSwapIx × PumpSwapResult)}
    (hrun : PumpRun s ts s') : RunSpec s s' ts := by
  induction hrun with
  | nil s => exact ⟨rfl, by simp, by simp, le_refl _, fun h => absurd rfl h⟩
  | @cons s s1 s' ix r ts hcov h _ ih =>
    have hstep := pumpApplySwap_spec hcov h
    have hb := hstep.base_eq
    have hq := hstep.quote_le
    have hb' := ih.base_eq
    have hq' := ih.quote_le
    refine ⟨ih.virt_eq.trans hstep.virt_eq, ?_, ?_, hstep.product_le.trans ih.product_le, ?_⟩
    · simp only [List.map_cons, List.sum_cons]
      omega
    · simp only [List.map_cons, List.sum_cons]
      omega
    · intro _
      refine ⟨hstep.eff_pos, ?_⟩
      cases ts with
      | nil =>
        simp only [List.map_nil, List.sum_nil] at hb'
        have := hstep.base_pos
        omega
      | cons t ts => exact (ih.alive (by simp)).2

/-- **No run pays the trader.**  A pool whose product did not fall cannot have
lost one side without gaining on the other. -/
theorem PumpRun.no_profit {s s' : PumpState} {ts : List (PumpSwapIx × PumpSwapResult)}
    (hrun : PumpRun s ts s') :
    ¬ (0 ≤ (ts.map gainBase).sum ∧ 0 < (ts.map gainQuote).sum) ∧
    ¬ (0 < (ts.map gainBase).sum ∧ 0 ≤ (ts.map gainQuote).sum) := by
  have hspec := hrun.spec
  rcases eq_or_ne ts [] with rfl | hne
  · simp
  · obtain ⟨heff, hbase⟩ := hspec.alive hne
    have hprod := hspec.product_le
    have hq := hspec.quote_le
    have hb := hspec.base_eq
    unfold product at hprod
    have heff' : effQuote s' - effQuote s
        = (s'.reserveQuote.toNat : Int) - s.reserveQuote.toNat := by
      unfold effQuote
      rw [hspec.virt_eq]
      ring
    have hbase' : (0 : Int) < s'.reserveBase.toNat := by exact_mod_cast hbase
    constructor
    · rintro ⟨h1, h2⟩
      nlinarith
    · rintro ⟨h1, h2⟩
      nlinarith

/-- **Constant product.**  Every covered swap keeps the product and a positive
base reserve; over every run of them the product never falls, and no trader
ends with at least as much of one side and strictly more of the other. -/
theorem constant_product :
    (∀ s ix s' r, Covered ix → pumpApplySwap s ix = some (s', r) →
      product s ≤ product s' ∧ 0 < s'.reserveBase.toNat) ∧
    (∀ s ts s', PumpRun s ts s' → product s ≤ product s' ∧
      ¬ (0 ≤ (ts.map gainBase).sum ∧ 0 < (ts.map gainQuote).sum) ∧
      ¬ (0 < (ts.map gainBase).sum ∧ 0 ≤ (ts.map gainQuote).sum)) := by
  refine ⟨?_, ?_⟩
  · intro s ix s' r hcov h
    have hspec := pumpApplySwap_spec hcov h
    exact ⟨hspec.product_le, hspec.base_pos⟩
  · intro s ts s' hrun
    exact ⟨hrun.spec.product_le, hrun.no_profit⟩

/-- A pool with a virtual quote reserve and all three fees. -/
def demoPump : PumpState := ⟨1000000, 2000000, 500, 20, 5, 5, 0, 0⟩

/-- Buy for 10000, then sell the 4958 bought. -/
def demoPumpTrades : List (PumpSwapIx × PumpSwapResult) :=
  [(⟨10000, 0, 0⟩, ⟨10000, 4958, 30, 20, 5, 5⟩),
   (⟨4958, 0, 1⟩, ⟨4958, 9938, 30, 20, 5, 5⟩)]

theorem constant_product_demo :
    ¬ (0 ≤ (demoPumpTrades.map gainBase).sum ∧ 0 < (demoPumpTrades.map gainQuote).sum) := by
  have hrun : PumpRun demoPump demoPumpTrades ⟨1000000, 2000042, 500, 20, 5, 5, 0, 0⟩ :=
    .cons (Or.inr ⟨rfl, by decide⟩)
      (show pumpApplySwap demoPump _ = some (⟨995042, 2009990, 500, 20, 5, 5, 0, 0⟩, _)
        by decide +kernel)
      (.cons (Or.inl rfl)
        (show _ = some (⟨1000000, 2000042, 500, 20, 5, 5, 0, 0⟩, _) by decide +kernel)
        (.nil _))
  exact (constant_product.2 _ _ _ hrun).2.1

end ShredArb.Pump
