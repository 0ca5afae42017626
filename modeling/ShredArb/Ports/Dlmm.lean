/-
  ShredArb.Ports.Dlmm — the Python port of the DLMM kernel (`quote_dlmm` of
  `arb-cap/timer_decay/dlmm_quote.py`), against `dlmm_quote_exact_in`.

  The port walks the bins as the kernel does, in integers that do not wrap.
  What can set the two apart is therefore a wrap of the kernel that changes a
  value: in the fee rate (`base · 10^power` and its sum with the variable fee,
  128 bits), in the volatility reference (32 bits), and in `total_out` (64
  bits).  Every other wrap of the kernel is shown to do nothing.

  Conventions:
    • Python integers that are never negative are `Nat`, the others `Int`;
      the subtractions on `Nat` are guarded in the source or cannot go below
      zero,
    • `protocol_share` and the reserves are copied by `clone_dlmm` and read by
      nothing, and are left out,
    • the port returns `total_out` alone.  The loop here also sums the `fee`
      local of its turns, so that the fee can be compared.

  Main results:
    * `turn_sim` — one turn of the port is one iteration of the kernel.
    * `ports_agree` — both ports, with the condition each agrees under.
-/
import Mathlib.Data.UInt
import ShredArb.Dlmm.Turn
import ShredArb.Ports.Pump

namespace ShredArb.Ports

open ShredArb.Word
open ShredArb.Pump (PumpState)
open ShredArb.Dlmm (DlmmState DlmmBin DlmmQuote DlmmSwapIx MmFill BinFill Walk)

/-! ## §1. The data model. -/

abbrev feePrec : Nat := 1000000000
abbrev maxFee : Nat := 100000000
abbrev minBin : Int := -443636
abbrev maxBin : Int := 443636

/-- The `Bin` dataclass; a price of 0 is still to be derived. -/
structure Bin where
  id : Int
  x : Nat
  y : Nat
  price : Nat
  deriving DecidableEq, Repr

/-- The `Dlmm` dataclass. -/
structure DlmmPool where
  activeId : Int
  binStep : Nat
  status : Nat
  baseFactor : Nat
  filterPeriod : Nat
  decayPeriod : Nat
  reductionFactor : Nat
  variableFeeControl : Nat
  maxVolatilityAccumulator : Nat
  baseFeePowerFactor : Nat
  collectFeeMode : Nat
  volAcc : Nat
  volRef : Nat
  idxRef : Int
  lastUpd : Int
  nowTs : Int
  bins : List Bin
  deriving DecidableEq, Repr

/-- The bin of a C struct. -/
def Bin.ofState (b : DlmmBin) : Bin :=
  ⟨b.id.toInt, b.amountX.toNat, b.amountY.toNat, b.price.toNat⟩

/-- The pool of a C struct. -/
def DlmmPool.ofState (s : DlmmState) : DlmmPool :=
  { activeId := s.activeId.toInt
    binStep := s.binStep.toNat
    status := s.status.toNat
    baseFactor := s.parameters.baseFactor.toNat
    filterPeriod := s.parameters.filterPeriod.toNat
    decayPeriod := s.parameters.decayPeriod.toNat
    reductionFactor := s.parameters.reductionFactor.toNat
    variableFeeControl := s.parameters.variableFeeControl.toNat
    maxVolatilityAccumulator := s.parameters.maxVolatilityAccumulator.toNat
    baseFeePowerFactor := s.parameters.baseFeePowerFactor.toNat
    collectFeeMode := s.parameters.collectFeeMode.toNat
    volAcc := s.vParameters.volatilityAccumulator.toNat
    volRef := s.vParameters.volatilityReference.toNat
    idxRef := s.vParameters.indexReference.toInt
    lastUpd := s.vParameters.lastUpdateTimestamp.toInt
    nowTs := s.nowTs.toInt
    bins := s.bins.map Bin.ofState }

/-! ## §2. Arithmetic. -/

/-- `_mul_shr64`. -/
def mulShr64 (a b : Nat) (roundUp : Bool) : Option Nat :=
  let a0 := a % 2 ^ 64
  let a1 := a / 2 ^ 64
  let b0 := b % 2 ^ 64
  let b1 := b / 2 ^ 64
  let p00 := a0 * b0
  let p01 := a0 * b1
  let p10 := a1 * b0
  let p11 := a1 * b1
  let mid := p00 / 2 ^ 64 + p01 % 2 ^ 64 + p10 % 2 ^ 64
  let hi := p11 + p01 / 2 ^ 64 + p10 / 2 ^ 64 + mid / 2 ^ 64
  let r := mid % 2 ^ 64
  if hi ≠ 0 then none
  else if roundUp && p00 % 2 ^ 64 != 0 then
    if r = 2 ^ 128 - 1 then none else some (r + 1)
  else some r

/-- `_shl64_div`. -/
def shl64Div (num den : Nat) (roundUp : Bool) : Option Nat :=
  if den = 0 ∨ num > (2 ^ 128 - 1) / 2 ^ 64 then none
  else
    let q := num * 2 ^ 64 / den
    let rem := num * 2 ^ 64 % den
    if roundUp && rem != 0 then
      if q = 2 ^ 128 - 1 then none else some (q + 1)
    else some q

/-- The bit loop of `price_from_id`: `n` bits to go, `bit` the next one. -/
def priceBits (exp : Nat) : (n bit result squared : Nat) → Option Nat
  | 0, _, result, _ => some result
  | n + 1, bit, result, squared =>
      (if exp.testBit bit then mulShr64 result squared false else some result).bind fun result =>
      (if bit + 1 < 19 then mulShr64 squared squared false else some squared).bind fun squared =>
      priceBits exp n (bit + 1) result squared

/-- `price_from_id`. -/
def priceFromId (binId : Int) (binStep : Nat) : Option Nat :=
  if binId = 0 then some (2 ^ 64)
  else
    let invert := decide (binId < 0)
    let exp := binId.natAbs
    if exp ≥ 0x80000 then none
    else
      let bps := binStep * 2 ^ 64 / 10000
      let base := 2 ^ 64 + bps
      let squared := if base ≥ 2 ^ 64 then (2 ^ 128 - 1) / base else base
      let invert := if base ≥ 2 ^ 64 then !invert else invert
      (priceBits exp 19 0 (2 ^ 64) squared).bind fun result =>
        if result = 0 then none
        else some (if invert then (2 ^ 128 - 1) / result else result)

/-- `amount_out`. -/
def amountOut (amtIn price : Nat) (swapForY : Bool) : Option Nat :=
  (if swapForY then mulShr64 price amtIn false else shl64Div amtIn price false).bind fun r =>
    if r > 2 ^ 64 - 1 then none else some r

/-- `amount_in`. -/
def amountIn (amtOut price : Nat) (swapForY roundUp : Bool) : Option Nat :=
  (if swapForY then shl64Div amtOut price roundUp
    else mulShr64 amtOut price roundUp).bind fun r =>
      if r > 2 ^ 64 - 1 then none else some r

/-! ## §3. Fees and volatility. -/

/-- `total_fee_rate`; it never returns `None`. -/
def totalFeeRate (s : DlmmPool) : Nat :=
  let base := s.baseFactor * s.binStep * 10 * 10 ^ s.baseFeePowerFactor
  let variable_ :=
    if s.variableFeeControl > 0 then
      let vfa := s.volAcc * s.binStep
      let vFee := s.variableFeeControl * vfa * vfa
      (vFee + 99999999999) / 100000000000
    else 0
  let total := base + variable_
  if total > maxFee then maxFee else total

/-- `update_references`. -/
def updateReferences (s : DlmmPool) : DlmmPool :=
  let elapsed := s.nowTs - s.lastUpd
  if elapsed ≥ s.filterPeriod then
    { s with
      idxRef := s.activeId
      volRef := if elapsed < s.decayPeriod then s.volAcc * s.reductionFactor / 10000 else 0 }
  else s

/-- `update_volatility`. -/
def updateVolatility (s : DlmmPool) : DlmmPool :=
  let delta := (s.idxRef - s.activeId).natAbs
  let acc := s.volRef + delta * 10000
  { s with volAcc :=
      if acc > s.maxVolatilityAccumulator then s.maxVolatilityAccumulator else acc }

/-- `fee_on_input`. -/
def feeOnInput (s : DlmmPool) (swapForY : Bool) : Bool :=
  if s.collectFeeMode = 1 then !swapForY else true

/-- `compute_fee`. -/
def computeFee (s : DlmmPool) (amount : Nat) : Option Nat :=
  let rate := totalFeeRate s
  let den := feePrec - rate
  if den = 0 then none
  else
    let f := (amount * rate + den - 1) / den
    if f > 2 ^ 64 - 1 then none else some f

/-- `compute_fee_from_amount`. -/
def computeFeeFromAmount (s : DlmmPool) (amountWithFees : Nat) : Option Nat :=
  let f := (amountWithFees * totalFeeRate s + (feePrec - 1)) / feePrec
  if f > 2 ^ 64 - 1 then none else some f

/-! ## §4. The walk (`quote_dlmm`). -/

/-- `find_bin`. -/
def findBin (bins : List Bin) (binId : Int) : Option Bin :=
  bins.find? fun b => b.id = binId

/-- `bin.price = p` on the bin `find_bin` returned. -/
def storePrice : List Bin → Bin → List Bin
  | [], _ => []
  | c :: cs, b => if c.id = b.id then b :: cs else c :: storePrice cs b

/-- `fill_mm`. -/
def fillMm (bin : Bin) (amount : Nat) (swapForY : Bool) : Option MmFill :=
  let maxOut := if swapForY then bin.y else bin.x
  if maxOut = 0 then some ⟨0, amount, 0⟩
  else (amountIn maxOut bin.price swapForY true).bind fun maxIn =>
    if amount ≥ maxIn then some ⟨maxIn, amount - maxIn, maxOut⟩
    else (amountOut amount bin.price swapForY).map fun out => ⟨amount, 0, out⟩

/-- The locals of the loop; `fees` sums the `fee` of each turn. -/
structure Loop where
  after : DlmmPool
  left : Nat
  totalOut : Nat
  fees : Nat
  deriving DecidableEq, Repr

/-- The bin a turn works on, with its price. -/
def pricedBin (s : DlmmPool) : Option Bin :=
  (findBin s.bins s.activeId).bind fun bin =>
    (if bin.price = 0 then priceFromId bin.id s.binStep else some bin.price).map fun p =>
      { bin with price := p }

/-- What a turn takes in and gives out, with its fee: `included`, `fee`,
`out_amt`. -/
def fillTurn (s : DlmmPool) (bin : Bin) (left : Nat) (foi swapForY : Bool) :
    Option (Nat × Nat × Nat) :=
  (if foi then
      (computeFeeFromAmount s left).bind fun fee => if fee > left then none else some fee
    else some 0).bind fun fee =>
  let excluded := left - fee
  (fillMm bin excluded swapForY).bind fun m =>
  (if m.left > 0 then
      let excluded := excluded - m.left
      if foi then (computeFee s excluded).map fun fee => (excluded + fee, fee)
      else some (excluded, fee)
    else some (left, fee)).bind fun inc =>
  if foi then some (inc.1, inc.2, m.outAmt)
  else (computeFeeFromAmount s m.outAmt).bind fun fee =>
    if fee > m.outAmt then none else some (inc.1, fee, m.outAmt - fee)

/-- The move of the active bin at the end of a turn. -/
def stepActive (s : DlmmPool) (swapForY : Bool) : Option DlmmPool :=
  if swapForY then
    if s.activeId ≤ minBin then none else some { s with activeId := s.activeId - 1 }
  else
    if s.activeId ≥ maxBin then none else some { s with activeId := s.activeId + 1 }

/-- One turn of the loop. -/
def turn (foi swapForY : Bool) (w : Loop) : Option Loop :=
  (pricedBin w.after).bind fun bin =>
  let after := updateVolatility { w.after with bins := storePrice w.after.bins bin }
  (fillTurn after bin w.left foi swapForY).bind fun f =>
  if f.1 > w.left then none
  else
    let left := w.left - f.1
    (if left > 0 then stepActive after swapForY else some after).map fun after =>
      ⟨after, left, w.totalOut + f.2.2, w.fees + f.2.1⟩

/-- `while left > 0 and guard < 256`, with the guard as fuel. -/
def turns (foi swapForY : Bool) : Nat → Loop → Option Loop
  | 0, w => some w
  | n + 1, w => if w.left = 0 then some w else (turn foi swapForY w).bind (turns foi swapForY n)

/-- `quote_dlmm`. -/
def quoteDlmm (state : DlmmPool) (amountIn : Nat) (swapForY : Bool) : Option Quote :=
  if state.status ≠ 0 ∨ amountIn = 0 then none
  else
    let after := updateReferences state
    (turns (feeOnInput after swapForY) swapForY 256 ⟨after, amountIn, 0, 0⟩).bind fun w =>
      if w.left > 0 then none else some ⟨w.totalOut, w.fees⟩

/-- A quote of the kernel, as one of the port. -/
def Quote.ofDlmm (q : DlmmQuote) : Quote := ⟨q.amountOut.toNat, q.fee.toNat⟩

/-- Port and kernel agree: both refuse, or both give the same output and fee. -/
def DlmmAgrees (s : DlmmState) (amountIn : UInt64) (swapForY : UInt8) : Prop :=
  quoteDlmm (DlmmPool.ofState s) amountIn.toNat (swapForY != 0)
    = (Dlmm.dlmmQuoteExactIn s amountIn swapForY).map Quote.ofDlmm

instance (s : DlmmState) (amountIn : UInt64) (swapForY : UInt8) :
    Decidable (DlmmAgrees s amountIn swapForY) :=
  inferInstanceAs (Decidable (_ = _))

/-! ## §5. The arithmetic is the kernel's. -/

/-- The exact value and refusal of `_mul_shr64`, for every pair of integers. -/
theorem mulShr64_eq (a b : Nat) (roundUp : Bool) :
    mulShr64 a b roundUp
      = if a * b / 2 ^ 64 < 2 ^ 64 then some (Dlmm.roundShr64 (a * b) roundUp) else none := by
  have hprod := schoolbook (2 ^ 64) (a % 2 ^ 64) (a / 2 ^ 64) (b % 2 ^ 64) (b / 2 ^ 64)
  rw [Nat.div_add_mod', Nat.div_add_mod'] at hprod
  unfold mulShr64
  simp only
  generalize a % 2 ^ 64 * (b % 2 ^ 64) = p00 at hprod ⊢
  generalize a % 2 ^ 64 * (b / 2 ^ 64) = p01 at hprod ⊢
  generalize a / 2 ^ 64 * (b % 2 ^ 64) = p10 at hprod ⊢
  generalize a / 2 ^ 64 * (b / 2 ^ 64) = p11 at hprod ⊢
  generalize p00 / 2 ^ 64 + p01 % 2 ^ 64 + p10 % 2 ^ 64 = mid at hprod ⊢
  generalize p11 + p01 / 2 ^ 64 + p10 / 2 ^ 64 + mid / 2 ^ 64 = hi at hprod ⊢
  have hlo : mid % 2 ^ 64 < 2 ^ 64 := Nat.mod_lt _ (by norm_num)
  have hfrac : p00 % 2 ^ 64 < 2 ^ 64 := Nat.mod_lt _ (by norm_num)
  by_cases h0 : hi = 0
  · subst h0
    have hdiv : a * b / 2 ^ 64 = mid % 2 ^ 64 := by omega
    have hmod : a * b % 2 ^ 64 = p00 % 2 ^ 64 := by omega
    have hlt : a * b / 2 ^ 64 < 2 ^ 64 := by omega
    have hne : mid % 2 ^ 64 ≠ 2 ^ 128 - 1 := by omega
    rw [if_neg (not_not_intro rfl), if_pos hlt, if_neg hne]
    unfold Dlmm.roundShr64 ceilDiv
    rw [hdiv, hmod]
    cases roundUp with
    | false => simp only [Bool.false_and, Bool.false_eq_true, if_false]
    | true =>
      simp only [Bool.true_and, bne_iff_ne, ne_eq, if_true]
      split <;> simp only [Nat.add_zero]
  · rw [if_pos h0, if_neg (by omega)]

theorem mulShr64_kernel {a b : Nat} (ha : a < 2 ^ 128) (hb : b < 2 ^ 128) (up : Bool) :
    mulShr64 a b up = Dlmm.u128MulShr64 a b up := by
  rw [mulShr64_eq, Dlmm.u128MulShr64_eq ha hb]

theorem shl64Div_kernel (num den : Nat) (up : Bool) :
    shl64Div num den up = Dlmm.u128Shl64Div num den up := by
  unfold shl64Div Dlmm.u128Shl64Div
  by_cases hbad : den = 0 ∨ num > (2 ^ 128 - 1) / 2 ^ 64
  · rw [if_pos hbad, if_pos hbad]
  · have hwrap : wrap128 (num * 2 ^ 64) = num * 2 ^ 64 := wrap128_of_lt (by omega)
    rw [if_neg hbad, if_neg hbad, hwrap]

theorem amountOut_kernel {a price : Nat} (ha : a < 2 ^ 64) (hp : price < 2 ^ 128)
    (sfy : Bool) : amountOut a price sfy = Dlmm.amountOut a price sfy := by
  unfold amountOut Dlmm.amountOut Dlmm.fitU64
  rw [mulShr64_kernel hp (by omega), shl64Div_kernel]
  cases sfy with
  | true => simp only [if_true]
  | false => simp only [Bool.false_eq_true, if_false]

theorem amountIn_kernel {out price : Nat} (ho : out < 2 ^ 64) (hp : price < 2 ^ 128)
    (sfy up : Bool) : amountIn out price sfy up = Dlmm.amountIn out price sfy up := by
  unfold amountIn Dlmm.amountIn Dlmm.fitU64
  rw [mulShr64_kernel (show out < 2 ^ 128 by omega) hp, shl64Div_kernel]
  cases sfy with
  | true => simp only [if_true]
  | false => simp only [Bool.false_eq_true, if_false]

theorem fillMm_kernel (b : DlmmBin) {a : Nat} (ha : a < 2 ^ 64) (sfy : Bool) :
    fillMm (Bin.ofState b) a sfy = Dlmm.fillMm b a sfy := by
  have hside : (if sfy then (Bin.ofState b).y else (Bin.ofState b).x) = b.outSide sfy := by
    cases sfy with
    | true => rfl
    | false => rfl
  unfold fillMm Dlmm.fillMm
  have hprice : (Bin.ofState b).price = b.price.toNat := rfl
  simp only [hside, hprice]
  rw [amountIn_kernel (b.outSide_lt sfy) b.price.isLt,
    amountOut_kernel ha b.price.isLt]

/-- The bit loop, from values of at most 128 bits. -/
theorem priceBits_kernel {exp : Nat} : ∀ (n bit result squared : Nat),
    result < 2 ^ 128 → squared < 2 ^ 128 →
    priceBits exp n bit result squared = Dlmm.priceLoop exp n bit result squared := by
  intro n
  induction n with
  | zero =>
    intro bit result squared _ _
    rfl
  | succ n ih =>
    intro bit result squared hr hs
    unfold priceBits Dlmm.priceLoop
    rw [mulShr64_kernel hr hs, mulShr64_kernel hs hs]
    -- both binds continue with values the next turn can take
    refine Option.bind_congr ?_
    intro result' hr'
    refine Option.bind_congr ?_
    intro squared' hs'
    refine ih (bit + 1) result' squared' ?_ ?_
    · split at hr'
      · have := Dlmm.u128MulShr64_le hr'
        omega
      · cases hr'
        exact hr
    · split at hs'
      · have := Dlmm.u128MulShr64_le hs'
        omega
      · cases hs'
        exact hs

theorem priceFromId_kernel (id : Int32) (step : UInt16) :
    priceFromId id.toInt step.toNat = (Dlmm.dlmmPriceFromId id step).map BitVec.toNat := by
  have hzero : id.toInt = 0 ↔ id = 0 := by
    rw [← Int32.toInt_inj]
    exact Iff.rfl
  unfold priceFromId Dlmm.dlmmPriceFromId Dlmm.dlmmBasisPointMax
  simp only [hzero]
  by_cases h0 : id = 0
  · rw [if_pos h0, if_pos h0]
    rfl
  rw [if_neg h0, if_neg h0]
  by_cases hbig : id.toInt.natAbs ≥ 0x80000
  · rw [if_pos hbig, if_pos hbig]
    rfl
  rw [if_neg hbig, if_neg hbig]
  have hbase : 2 ^ 64 + step.toNat * 2 ^ 64 / 10000 ≥ 2 ^ 64 := Nat.le_add_right _ _
  rw [if_pos hbase, if_pos hbase]
  have hsq : (2 ^ 128 - 1) / (2 ^ 64 + step.toNat * 2 ^ 64 / 10000) < 2 ^ 128 := by
    have := Nat.div_le_self (2 ^ 128 - 1) (2 ^ 64 + step.toNat * 2 ^ 64 / 10000)
    omega
  rw [priceBits_kernel _ _ _ _ (by norm_num) hsq, Option.map_bind]
  refine Option.bind_congr ?_
  intro r hr
  have hle := Dlmm.priceLoop_le _ _ _ _ _ (le_refl _) hr
  simp only [Function.comp]
  by_cases hr0 : r = 0
  · rw [if_pos hr0, if_pos hr0]
    rfl
  rw [if_neg hr0, if_neg hr0, Option.map_some, BitVec.toNat_ofNat, Nat.mod_eq_of_lt]
  have hq : (2 ^ 128 - 1) / r ≤ 2 ^ 128 - 1 := Nat.div_le_self _ _
  split <;> omega

/-! ## §6. The amounts of one turn. -/

/-- **One turn's amounts are the kernel's**, where the fee rates are. -/
theorem fillTurn_kernel {p : DlmmPool} {s : DlmmState} {b : DlmmBin} {left : Nat}
    {foi sfy : Bool} (hrate : totalFeeRate p = Dlmm.totalFeeRate s) (hleft : left < 2 ^ 64) :
    fillTurn p (Bin.ofState b) left foi sfy
      = (Dlmm.takeFill s b left foi sfy).map fun f => (f.included, f.fee, f.outAmt) := by
  have hfrom : ∀ a, computeFeeFromAmount p a = Dlmm.computeFeeFromAmount s a := by
    intro a
    unfold computeFeeFromAmount Dlmm.computeFeeFromAmount
    rw [hrate]
  have hon : ∀ a, computeFee p a = Dlmm.computeFee s a := by
    intro a
    unfold computeFee Dlmm.computeFee
    rw [hrate]
  unfold fillTurn Dlmm.takeFill
  simp only [hfrom, hon]
  have hin : (if foi then (Dlmm.computeFeeFromAmount s left).bind
        fun fee => if fee > left then none else some fee
      else some 0) = Dlmm.inputFee s left foi := rfl
  rw [hin, Option.map_bind]
  refine Option.bind_congr ?_
  intro fee hfee
  have hle := Dlmm.inputFee_le hfee
  simp only [Function.comp]
  rw [fillMm_kernel b (show left - fee < 2 ^ 64 by omega), Option.map_bind]
  refine Option.bind_congr ?_
  intro m hm
  obtain ⟨hsplit, -, -⟩ := Dlmm.fillMm_spec (by omega) hm
  simp only [Function.comp]
  have hsub : sub64 (left - fee) m.left = left - fee - m.left :=
    sub64_of_le (by omega) (by omega)
  cases foi with
  | true =>
    obtain ⟨fee0, hfee0, hfee1⟩ := Option.bind_eq_some_iff.mp hfee
    have hfeq : Dlmm.computeFeeFromAmount s left = some fee := by
      split at hfee1
      · simp at hfee1
      · rw [hfee0, Option.some.inj hfee1]
    have htenth := (Dlmm.feeFromAmount_le hfeq).1
    unfold Dlmm.includedFee Dlmm.outputFee
    simp only [if_true, hsub]
    by_cases hm0 : m.left > 0
    · rw [if_pos hm0, if_pos hm0]
      cases hc : Dlmm.computeFee s (left - fee - m.left) with
      | none => rfl
      | some fee' =>
        have hfee' := Dlmm.computeFee_le hfeq (show left - fee - m.left + fee ≤ left by omega) hc
        obtain ⟨proto, hproto⟩ := Dlmm.protocolFee_isSome (s := s) (show 10 * fee' ≤ 2 ^ 64 + 9 by omega)
        simp only [Option.map_some, Option.bind_some, hproto]
        rw [wrap64_of_lt (by omega)]
    · obtain ⟨proto, hproto⟩ := Dlmm.protocolFee_isSome (s := s) (show 10 * fee ≤ 2 ^ 64 + 9 by omega)
      rw [if_neg hm0, if_neg hm0]
      simp only [Option.bind_some, hproto, Option.map_some]
  | false =>
    have hout : m.outAmt < 2 ^ 64 :=
      lt_of_le_of_lt (Dlmm.fillMm_le_side (by omega) hm) (b.outSide_lt sfy)
    unfold Dlmm.includedFee Dlmm.outputFee
    simp only [Bool.false_eq_true, if_false, hsub]
    have hinc : ∀ x y : Nat × Nat, (if m.left > 0 then some x else some y)
        = some (if m.left > 0 then x else y) := by
      intro x y
      split <;> rfl
    rw [hinc, Option.bind_some, Option.bind_some]
    cases hc : Dlmm.computeFeeFromAmount s m.outAmt with
    | none => rfl
    | some fee' =>
      have htenth := (Dlmm.feeFromAmount_le hc).1
      obtain ⟨proto, hproto⟩ := Dlmm.protocolFee_isSome (s := s) (show 10 * fee' ≤ 2 ^ 64 + 9 by omega)
      simp only [Option.bind_some]
      by_cases hbig : fee' > m.outAmt
      · rw [if_pos hbig, if_pos hbig]
        rfl
      · rw [if_neg hbig, if_neg hbig]
        simp only [Option.bind_some, hproto, Option.map_some]

/-! ## §7. What sets the two walks apart. -/

/-- The kernel's fee rate at bin `id` of a swap on `s0`. -/
def kernelRate (s0 : DlmmState) (id : Int32) : Nat :=
  Dlmm.totalFeeRate (Dlmm.updateVolatility { Dlmm.updateReferences s0 with activeId := id })

/-- The port's fee rate there: the same formulas, without a wrap. -/
def portRate (s0 : DlmmState) (id : Int) : Nat :=
  totalFeeRate (updateVolatility
    { updateReferences (DlmmPool.ofState s0) with activeId := id })

/-- The amounts of the kernel's next iteration. -/
def nextFill (foi sfy : Bool) (w : Walk) : Option BinFill :=
  (Dlmm.visitBin w.after).bind fun v => Dlmm.takeFill v.1 v.2 w.left foi sfy

/-- No wrap of the kernel shows in its next iteration: its fee rate there is
the exact one, and `total_out` stays within 64 bits. -/
structure TurnExact (s0 : DlmmState) (foi sfy : Bool) (w : Walk) : Prop where
  rate : kernelRate s0 w.after.activeId = portRate s0 w.after.activeId.toInt
  fits : ∀ f, nextFill foi sfy w = some f → w.totalOut + f.outAmt < 2 ^ 64

/-- That holds before every iteration the kernel makes, `n` at most. -/
def ExactTurns (s0 : DlmmState) (foi sfy : Bool) : Nat → Walk → Prop
  | 0, _ => True
  | n + 1, w => w.left = 0 ∨ (TurnExact s0 foi sfy w ∧
      ∀ w', Dlmm.walkStep foi sfy w = some w' → ExactTurns s0 foi sfy n w')

/-- The swap instruction of a quote. -/
def quoteIx (amountIn : UInt64) (swapForY : UInt8) : DlmmSwapIx :=
  ⟨amountIn, 0, if swapForY ≠ 0 then 1 else 0⟩

/-- **The condition of the port**: no iteration of the quote shows a wrap. -/
def DlmmExact (s : DlmmState) (amountIn : UInt64) (swapForY : UInt8) : Prop :=
  ExactTurns s (Dlmm.feeOnInput (Dlmm.updateReferences s) (swapForY != 0)) (swapForY != 0)
    256 (Dlmm.walkInit s (quoteIx amountIn swapForY))

/-! ## §8. One turn. -/

/-- `id` is the active bin or still ahead of it. -/
def Ahead (sfy : Bool) (active id : Int) : Prop :=
  if sfy then id ≤ active else active ≤ id

/-- What bounds the kernel's `total_fee`: the amount, with the fee on the
input; else the output, up to a unit for each iteration behind. -/
def FeeBound (foi : Bool) (n : Nat) (w : Walk) : Prop :=
  if foi then w.totalFee + w.left < 2 ^ 64
  else 9 * w.totalFee + 9 * n ≤ w.totalOut + 9 * 256

/-- The port's loop locals `p` go with the kernel's `w`, `n` turns before the
guard stops both. -/
structure Sim (s0 : DlmmState) (foi sfy : Bool) (n : Nat) (w : Walk) (p : Loop) : Prop where
  left_eq : p.left = w.left
  left_lt : w.left < 2 ^ 64
  out_eq : p.totalOut = w.totalOut
  out_lt : w.totalOut < 2 ^ 64
  fees_eq : p.fees = w.totalFee
  fees_bound : FeeBound foi n w
  pool_eq : ∃ vol bins, p.after = { updateReferences (DlmmPool.ofState s0) with
    activeId := w.after.activeId.toInt, volAcc := vol, bins := bins }
  step_eq : w.after.binStep = s0.binStep
  params_eq : w.after.parameters = s0.parameters
  idx_eq : w.after.vParameters.indexReference
    = (Dlmm.updateReferences s0).vParameters.indexReference
  ref_eq : w.after.vParameters.volatilityReference
    = (Dlmm.updateReferences s0).vParameters.volatilityReference
  ahead : 0 < w.left → ∀ id : Int32, Ahead sfy w.after.activeId.toInt id.toInt →
    findBin p.after.bins id.toInt = (Dlmm.findBin w.after.bins id).map Bin.ofState

theorem Sim.kernel_rate {s0 : DlmmState} {foi sfy : Bool} {n : Nat} {w : Walk} {p : Loop}
    (h : Sim s0 foi sfy n w p) (bins : List DlmmBin) :
    Dlmm.totalFeeRate (Dlmm.updateVolatility { w.after with bins := bins })
      = kernelRate s0 w.after.activeId := by
  obtain ⟨hstep, hpar, -, -, -, -⟩ := Dlmm.updateReferences_shared s0
  unfold kernelRate Dlmm.totalFeeRate Dlmm.updateVolatility
  simp only [h.step_eq, h.params_eq, h.idx_eq, h.ref_eq, hstep, hpar]

theorem Sim.port_rate {s0 : DlmmState} {foi sfy : Bool} {n : Nat} {w : Walk} {p : Loop}
    (h : Sim s0 foi sfy n w p) (bins : List Bin) :
    totalFeeRate (updateVolatility { p.after with bins := bins })
      = portRate s0 w.after.activeId.toInt := by
  obtain ⟨vol, bins', hp⟩ := h.pool_eq
  rw [hp]
  rfl

/-- The priced bin of the port is the kernel's. -/
theorem pricedBin_kernel {q : DlmmPool} {s : DlmmState}
    (hact : q.activeId = s.activeId.toInt) (hstep : q.binStep = s.binStep.toNat)
    (hfind : findBin q.bins s.activeId.toInt
      = (Dlmm.findBin s.bins s.activeId).map Bin.ofState) :
    pricedBin q = ((Dlmm.findBin s.bins s.activeId).bind fun b =>
      Dlmm.ensurePrice b s.binStep).map Bin.ofState := by
  unfold pricedBin
  rw [hact, hfind, hstep, Option.map_bind, Option.bind_map]
  congr 1
  funext b
  simp only [Function.comp]
  unfold Dlmm.ensurePrice
  have hzero : (Bin.ofState b).price = 0 ↔ b.price = 0 := by
    rw [← BitVec.toNat_inj]
    exact Iff.rfl
  by_cases hp : b.price = 0
  · rw [if_pos (hzero.mpr hp), if_neg (not_not_intro hp)]
    have hprice : priceFromId (Bin.ofState b).id s.binStep.toNat
        = (Dlmm.dlmmPriceFromId b.id s.binStep).map BitVec.toNat :=
      priceFromId_kernel b.id s.binStep
    rw [hprice, Option.map_map, Option.map_map]
    rfl
  · rw [if_neg (fun h => hp (hzero.mp h)), if_pos hp]
    rfl

theorem findBin_storePrice_ne {l : List Bin} {b : Bin} {id : Int} (h : b.id ≠ id) :
    findBin (storePrice l b) id = findBin l id := by
  induction l with
  | nil => rfl
  | cons c cs ih =>
    unfold storePrice
    by_cases hc : c.id = b.id
    · rw [if_pos hc]
      simp only [findBin, List.find?_cons, hc, h, decide_false]
    · rw [if_neg hc]
      unfold findBin at ih ⊢
      simp only [List.find?_cons, ih]

/-- `t` is the kernel's state after an iteration from `w` has been booked into
the active bin, which is now `b`. -/
structure Booked (w : Walk) (t : DlmmState) (b : DlmmBin) : Prop where
  bins_eq : t.bins = Dlmm.setBin w.after.bins b
  id_eq : b.id = w.after.activeId
  active_eq : t.activeId = w.after.activeId
  step_eq : t.binStep = w.after.binStep
  params_eq : t.parameters = w.after.parameters
  idx_eq : t.vParameters.indexReference = w.after.vParameters.indexReference
  ref_eq : t.vParameters.volatilityReference = w.after.vParameters.volatilityReference

/-- Booking an iteration the bin can serve succeeds. -/
theorem bookFill_booked {w : Walk} {b : DlmmBin} {f : BinFill} {sfy : Bool}
    (hid : b.id = w.after.activeId) (h : f.outAmt ≤ b.outSide sfy) :
    ∃ t b', Dlmm.bookFill (Dlmm.updateVolatility { w.after with
      bins := Dlmm.setBin w.after.bins b }) b f sfy = some t ∧ Booked w t b' := by
  unfold Dlmm.bookFill
  cases sfy with
  | true =>
    have hle : ¬ b.amountY.toNat < f.outAmt := not_lt.mpr h
    simp only [if_true, if_neg hle]
    refine ⟨_, { b with amountX := b.amountX + UInt64.ofNat f.intoBin
                        amountY := b.amountY - UInt64.ofNat f.outAmt },
      rfl, ?_, hid, rfl, rfl, rfl, rfl, rfl⟩
    exact Dlmm.setBin_setBin _ rfl
  | false =>
    have hle : ¬ b.amountX.toNat < f.outAmt := not_lt.mpr h
    simp only [Bool.false_eq_true, if_false, if_neg hle]
    refine ⟨_, { b with amountX := b.amountX - UInt64.ofNat f.outAmt
                        amountY := b.amountY + UInt64.ofNat f.intoBin },
      rfl, ?_, hid, rfl, rfl, rfl, rfl, rfl⟩
    exact Dlmm.setBin_setBin _ rfl

/-- The moves of the active bin agree. -/
theorem stepActive_kernel {s : DlmmState} {q : DlmmPool} (sfy : Bool)
    (hact : q.activeId = s.activeId.toInt) :
    (Dlmm.stepActive s sfy = none ∧ stepActive q sfy = none) ∨
    ∃ s', Dlmm.stepActive s sfy = some s' ∧ s' = { s with activeId := s'.activeId } ∧
      s'.activeId.toInt = s.activeId.toInt + (if sfy then -1 else 1) ∧
      stepActive q sfy = some { q with activeId := s'.activeId.toInt } := by
  cases hk : Dlmm.stepActive s sfy with
  | none =>
    left
    refine ⟨rfl, ?_⟩
    unfold Dlmm.stepActive at hk
    unfold stepActive
    cases sfy with
    | true =>
      simp only [if_true] at hk ⊢
      split at hk
      · rename_i hmin
        rw [hact, if_pos hmin]
      · simp at hk
    | false =>
      simp only [Bool.false_eq_true, if_false] at hk ⊢
      split at hk
      · rename_i hmax
        rw [hact, if_pos hmax]
      · simp at hk
  | some s' =>
    right
    obtain ⟨hframe, hmove⟩ := Dlmm.stepActive_spec hk
    refine ⟨s', rfl, hframe, hmove, ?_⟩
    unfold Dlmm.stepActive at hk
    unfold stepActive
    rw [hmove, hact]
    cases sfy with
    | true =>
      simp only [if_true] at hk ⊢
      split at hk
      · simp at hk
      · rename_i hmin
        rw [if_neg hmin]
        rfl
    | false =>
      simp only [Bool.false_eq_true, if_false] at hk ⊢
      split at hk
      · simp at hk
      · rename_i hmax
        rw [if_neg hmax]

/-- The bins ahead of the new active bin are untouched by the iteration. -/
theorem ahead_step {sfy : Bool} {active id : Int} {b : Int}
    (h : Ahead sfy (active + (if sfy then -1 else 1)) id) (hb : b = active) :
    Ahead sfy active id ∧ b ≠ id := by
  unfold Ahead at h ⊢
  cases sfy with
  | true =>
    simp only [if_true] at h ⊢
    omega
  | false =>
    simp only [Bool.false_eq_true, if_false] at h ⊢
    omega

theorem FeeBound.step {foi : Bool} {n : Nat} {w : Walk} {f : BinFill}
    (h : FeeBound foi (n + 1) w) (hincl : f.included ≤ w.left)
    (hin : foi = true → f.fee ≤ f.included) (hout : foi = false → 9 * f.fee ≤ f.outAmt + 9)
    (hlt : w.totalOut + f.outAmt < 2 ^ 64) (hn : n ≤ 256) :
    w.totalFee + f.fee < 2 ^ 64 ∧
      (if foi then w.totalFee + f.fee + (w.left - f.included) < 2 ^ 64
        else 9 * (w.totalFee + f.fee) + 9 * n ≤ w.totalOut + f.outAmt + 9 * 256) := by
  unfold FeeBound at h
  cases foi with
  | true =>
    have := hin rfl
    simp only [if_true] at h ⊢
    omega
  | false =>
    have := hout rfl
    simp only [Bool.false_eq_true, if_false] at h ⊢
    omega

/-- Whatever the active bin does after the booking, the locals still go
together. -/
theorem Sim.step {s0 : DlmmState} {foi sfy : Bool} {n : Nat} {w w' : Walk} {p p' : Loop}
    {t : DlmmState} {b b' : DlmmBin} {f : BinFill} (h : Sim s0 foi sfy (n + 1) w p)
    (hpos : 0 < w.left) (hbook : Booked w t b') (hid : b.id = w.after.activeId)
    (hkernel : w'.after = { t with activeId := w'.after.activeId })
    (hport : p'.after = { updateVolatility { p.after with
        bins := storePrice p.after.bins (Bin.ofState b) } with
      activeId := w'.after.activeId.toInt })
    (hmove : 0 < w'.left → w'.after.activeId.toInt
      = t.activeId.toInt + (if sfy then -1 else 1))
    (hleft : w'.left = w.left - f.included) (hleft' : p'.left = w.left - f.included)
    (hout : w'.totalOut = w.totalOut + f.outAmt) (hout' : p'.totalOut = p.totalOut + f.outAmt)
    (hlt : w.totalOut + f.outAmt < 2 ^ 64)
    (hfee : w'.totalFee = w.totalFee + f.fee) (hfee' : p'.fees = p.fees + f.fee)
    (hbound : FeeBound foi n w') : Sim s0 foi sfy n w' p' := by
  obtain ⟨vol, bins, hpool⟩ := h.pool_eq
  have hl := h.left_lt
  constructor
  · rw [hleft, hleft']
  · omega
  · rw [hout, hout', h.out_eq]
  · rw [hout]
    exact hlt
  · rw [hfee, hfee', h.fees_eq]
  · exact hbound
  · rw [hport, hpool]
    exact ⟨_, _, rfl⟩
  · rw [hkernel]
    exact hbook.step_eq.trans h.step_eq
  · rw [hkernel]
    exact hbook.params_eq.trans h.params_eq
  · rw [hkernel]
    exact hbook.idx_eq.trans h.idx_eq
  · rw [hkernel]
    exact hbook.ref_eq.trans h.ref_eq
  · intro hpos' id hahead
    have hahead' : Ahead sfy (w.after.activeId.toInt + (if sfy then -1 else 1)) id.toInt := by
      rw [← hbook.active_eq, ← hmove hpos']
      exact hahead
    obtain ⟨hold, hne⟩ := ahead_step hahead' rfl
    have hneK : b'.id ≠ id := by
      intro heq
      exact hne (by rw [← heq, hbook.id_eq])
    have hneP : (Bin.ofState b).id ≠ id.toInt := by
      show b.id.toInt ≠ id.toInt
      rw [hid]
      exact hne
    have hK : w'.after.bins = Dlmm.setBin w.after.bins b' := by
      rw [hkernel]
      exact hbook.bins_eq
    have hP : p'.after.bins = storePrice p.after.bins (Bin.ofState b) := by
      rw [hport]
      rfl
    rw [hK, hP, findBin_storePrice_ne hneP, Dlmm.findBin_setBin_ne hneK]
    exact h.ahead hpos id hold

/-- **One turn of the port is one iteration of the kernel**, where no wrap
shows. -/
theorem turn_sim {s0 : DlmmState} {foi sfy : Bool} {n : Nat} {w : Walk} {p : Loop}
    (h : Sim s0 foi sfy (n + 1) w p) (hn : n ≤ 256) (hpos : 0 < w.left)
    (hex : TurnExact s0 foi sfy w) :
    Option.Rel (Sim s0 foi sfy n) (Dlmm.walkStep foi sfy w) (turn foi sfy p) := by
  obtain ⟨vol, bins, hpool⟩ := h.pool_eq
  have hact : p.after.activeId = w.after.activeId.toInt := by rw [hpool]
  have hstep : p.after.binStep = w.after.binStep.toNat := by
    rw [hpool, h.step_eq]
    unfold updateReferences
    simp only
    split <;> rfl
  have hself : Ahead sfy w.after.activeId.toInt w.after.activeId.toInt := by
    unfold Ahead
    split <;> exact le_refl _
  have hfits := hex.fits
  unfold nextFill at hfits
  unfold Dlmm.walkStep turn
  rw [Dlmm.visitBin_eq] at hfits ⊢
  rw [pricedBin_kernel hact hstep (h.ahead hpos _ hself)]
  cases hb : (Dlmm.findBin w.after.bins w.after.activeId).bind
      fun b => Dlmm.ensurePrice b w.after.binStep with
  | none => exact Option.Rel.none
  | some b =>
    have hid : b.id = w.after.activeId := by
      obtain ⟨b0, hb0, hb1⟩ := Option.bind_eq_some_iff.mp hb
      have hb2 := (Dlmm.ensurePrice_spec hb1).1
      have hid0 : b.id = b0.id := by rw [hb2]
      rw [hid0]
      exact Dlmm.findBin_id hb0
    rw [hb] at hfits
    simp only [Option.map_some, Option.bind_some] at hfits ⊢
    have hrate := (h.port_rate (storePrice p.after.bins (Bin.ofState b))).trans
      (hex.rate.symm.trans (h.kernel_rate (Dlmm.setBin w.after.bins b)).symm)
    rw [h.left_eq, fillTurn_kernel hrate h.left_lt]
    cases hf : Dlmm.takeFill (Dlmm.updateVolatility { w.after with
        bins := Dlmm.setBin w.after.bins b }) b w.left foi sfy with
    | none => exact Option.Rel.none
    | some f =>
      obtain ⟨hside, hfin, hfout⟩ := Dlmm.takeFill_amounts h.left_lt hf
      have hlt := hfits f hf
      obtain ⟨t, b', hbook, ht⟩ := bookFill_booked hid hside
      simp only [Option.map_some, Option.bind_some, hbook]
      by_cases hincl : f.included > w.left
      · rw [if_pos hincl, if_pos hincl]
        exact Option.Rel.none
      rw [if_neg hincl, if_neg hincl]
      obtain ⟨hfee64, hbound⟩ := h.fees_bound.step (not_lt.mp hincl) hfin hfout hlt hn
      rw [wrap64_of_lt hlt, wrap64_of_lt hfee64]
      have hqact : (updateVolatility { p.after with
          bins := storePrice p.after.bins (Bin.ofState b) }).activeId = t.activeId.toInt :=
        hact.trans (congrArg Int32.toInt ht.active_eq.symm)
      by_cases hpos' : w.left - f.included > 0
      · rw [if_pos hpos', if_pos hpos']
        rcases stepActive_kernel sfy hqact with ⟨hk, hq⟩ | ⟨t', hk, ht', hmove, hq⟩
        · rw [hk, hq]
          exact Option.Rel.none
        · rw [hk, hq]
          exact Option.Rel.some (h.step hpos ht hid ht' rfl (fun _ => hmove) rfl rfl rfl rfl
            hlt rfl rfl hbound)
      · rw [if_neg hpos', if_neg hpos']
        exact Option.Rel.some (h.step hpos ht hid rfl (by rw [← hqact])
          (fun hp => absurd hp hpos') rfl rfl rfl rfl hlt rfl rfl hbound)

/-! ## §9. The whole walk. -/

theorem FeeBound.lt {foi : Bool} {n : Nat} {w : Walk} (h : FeeBound foi n w)
    (hout : w.totalOut < 2 ^ 64) : w.totalFee < 2 ^ 64 := by
  unfold FeeBound at h
  split at h <;> omega

/-- The locals two finished loops leave behind. -/
structure Done (w : Walk) (p : Loop) : Prop where
  left_eq : p.left = w.left
  out_eq : p.totalOut = w.totalOut
  out_lt : w.totalOut < 2 ^ 64
  fees_eq : p.fees = w.totalFee
  fees_lt : w.totalFee < 2 ^ 64

theorem Sim.done {s0 : DlmmState} {foi sfy : Bool} {n : Nat} {w : Walk} {p : Loop}
    (h : Sim s0 foi sfy n w p) : Done w p :=
  ⟨h.left_eq, h.out_eq, h.out_lt, h.fees_eq, h.fees_bound.lt h.out_lt⟩

/-- **The loops run together**, as long as no iteration shows a wrap. -/
theorem turns_sim {s0 : DlmmState} {foi sfy : Bool} : ∀ (n : Nat) {w : Walk} {p : Loop},
    n ≤ 256 → Sim s0 foi sfy n w p → ExactTurns s0 foi sfy n w →
    Option.Rel Done (Dlmm.walkLoop foi sfy n w) (turns foi sfy n p) := by
  intro n
  induction n with
  | zero =>
    intro w p _ h _
    exact Option.Rel.some h.done
  | succ n ih =>
    intro w p hn h hex
    unfold Dlmm.walkLoop turns
    rw [h.left_eq]
    by_cases h0 : w.left = 0
    · rw [if_pos h0, if_pos h0]
      exact Option.Rel.some h.done
    rw [if_neg h0, if_neg h0]
    rcases hex with hzero | ⟨hturn, hrest⟩
    · exact absurd hzero h0
    have hrel := turn_sim h (by omega) (Nat.pos_of_ne_zero h0) hturn
    cases hw : Dlmm.walkStep foi sfy w with
    | none =>
      rw [hw] at hrel
      cases hp : turn foi sfy p with
      | none => exact Option.Rel.none
      | some p' =>
        rw [hp] at hrel
        cases hrel
    | some w' =>
      rw [hw] at hrel
      cases hp : turn foi sfy p with
      | none =>
        rw [hp] at hrel
        cases hrel
      | some p' =>
        rw [hp] at hrel
        cases hrel with
        | some hsim => exact ih (by omega) hsim (hrest w' hw)

theorem findBin_ofState (l : List DlmmBin) (id : Int32) :
    findBin (l.map Bin.ofState) id.toInt = (Dlmm.findBin l id).map Bin.ofState := by
  unfold findBin Dlmm.findBin
  rw [List.find?_map]
  congr 2
  funext b
  have hid : b.id.toInt = id.toInt ↔ b.id = id := Int32.toInt_inj
  show decide (b.id.toInt = id.toInt) = decide (b.id = id)
  simp only [hid]

/-- `update_references` writes the two references only. -/
theorem port_references_eq (s : DlmmPool) :
    updateReferences s = { s with
      idxRef := (updateReferences s).idxRef, volRef := (updateReferences s).volRef } := by
  unfold updateReferences
  simp only
  split
  · rfl
  · rfl

theorem feeOnInput_kernel (s : DlmmState) (sfy : Bool) :
    feeOnInput (updateReferences (DlmmPool.ofState s)) sfy
      = Dlmm.feeOnInput (Dlmm.updateReferences s) sfy := by
  have hmode : s.parameters.collectFeeMode.toNat = 1 ↔ s.parameters.collectFeeMode = 1 :=
    toNat_eq_iff s.parameters.collectFeeMode (show 1 < 256 by norm_num)
  unfold feeOnInput Dlmm.feeOnInput
  rw [port_references_eq, (Dlmm.updateReferences_shared s).2.1]
  simp only [DlmmPool.ofState, hmode]

/-- Both loops start together. -/
theorem sim_init (s : DlmmState) (ix : DlmmSwapIx) (foi sfy : Bool) :
    Sim s foi sfy 256 (Dlmm.walkInit s ix)
      ⟨updateReferences (DlmmPool.ofState s), ix.amountIn.toNat, 0, 0⟩ := by
  have hlt := UInt64.toNat_lt ix.amountIn
  obtain ⟨hstep, hpar, hbins, hact, -, -⟩ := Dlmm.updateReferences_shared s
  have hpbins : (updateReferences (DlmmPool.ofState s)).bins = s.bins.map Bin.ofState := by
    rw [port_references_eq]
    rfl
  have hpact : (updateReferences (DlmmPool.ofState s)).activeId = s.activeId.toInt := by
    rw [port_references_eq]
    rfl
  constructor
  · rfl
  · exact hlt
  · rfl
  · exact Nat.two_pow_pos 64
  · rfl
  · unfold FeeBound Dlmm.walkInit
    split
    · simp only
      omega
    · exact le_refl _
  · refine ⟨(updateReferences (DlmmPool.ofState s)).volAcc,
      (updateReferences (DlmmPool.ofState s)).bins, ?_⟩
    have hid : (Dlmm.walkInit s ix).after.activeId.toInt
        = (updateReferences (DlmmPool.ofState s)).activeId := by
      rw [hpact]
      exact congrArg Int32.toInt hact
    rw [hid]
  · exact hstep
  · exact hpar
  · rfl
  · rfl
  · intro _ id _
    show findBin (updateReferences (DlmmPool.ofState s)).bins id.toInt
      = (Dlmm.findBin (Dlmm.updateReferences s).bins id).map Bin.ofState
    rw [hpbins, hbins]
    exact findBin_ofState s.bins id

/-- **The DLMM port is the kernel on every quote in which no wrap shows.** -/
theorem quoteDlmm_agrees {s : DlmmState} {amountIn : UInt64} {swapForY : UInt8}
    (hex : DlmmExact s amountIn swapForY) : DlmmAgrees s amountIn swapForY := by
  have hzero : (amountIn.toNat = 0) ↔ amountIn = 0 := by
    rw [← UInt64.toNat_inj]
    exact Iff.rfl
  have hstat : ((DlmmPool.ofState s).status ≠ 0) ↔ s.status ≠ 0 :=
    not_congr (toNat_eq_iff s.status (show 0 < 256 by norm_num))
  have hsfy : ((if swapForY ≠ 0 then (1 : UInt8) else 0) != 0) = (swapForY != 0) := by
    by_cases h : swapForY = 0
    · simp [h]
    · simp [h]
  unfold DlmmAgrees quoteDlmm Dlmm.dlmmQuoteExactIn Dlmm.dlmmApplySwap
  simp only [hstat, hzero, hsfy]
  by_cases h0 : amountIn = 0
  · rw [if_pos (Or.inr h0), if_pos h0]
    rfl
  rw [if_neg h0]
  by_cases hs : s.status ≠ 0
  · rw [if_pos (Or.inl hs), if_pos (Or.inl hs)]
    rfl
  rw [if_neg (by tauto), if_neg (by tauto), feeOnInput_kernel]
  have hrel := turns_sim 256 (le_refl _)
    (sim_init s (quoteIx amountIn swapForY) _ _) hex
  unfold quoteIx at hrel
  simp only at hrel
  generalize Dlmm.walkLoop _ _ 256 _ = k at hrel ⊢
  generalize turns _ _ 256 _ = q at hrel ⊢
  cases hrel with
  | none => rfl
  | @some w p hdone =>
    simp only [Option.bind_some, hdone.left_eq]
    by_cases hleft : w.left > 0
    · rw [if_pos hleft, if_pos hleft]
      rfl
    · rw [if_neg hleft, if_neg hleft, if_neg (by simp), Option.map_some, Option.map_some]
      unfold Quote.ofDlmm
      simp only
      rw [UInt64.toNat_ofNat_of_lt' hdone.out_lt, UInt64.toNat_ofNat_of_lt' hdone.fees_lt,
        hdone.out_eq, hdone.fees_eq]

/-! ## §10. Pools with room. -/

/-- The power loop of the kernel is the power as long as it fits. -/
theorem pow10_eq : ∀ {n : Nat}, 10 ^ n < 2 ^ 128 → Dlmm.pow10 n = 10 ^ n := by
  intro n
  induction n with
  | zero =>
    intro _
    rfl
  | succ n ih =>
    intro h
    have hlt : 10 ^ n < 2 ^ 128 := lt_of_le_of_lt (Nat.pow_le_pow_right (by norm_num) (Nat.le_succ n)) h
    rw [Dlmm.pow10, ih hlt, ← Nat.pow_succ, wrap128_of_lt h]

/-- A pool whose fee parameters keep the kernel's 128-bit and 32-bit
intermediate values within their widths. -/
structure RateRoom (s : DlmmState) : Prop where
  base_lt : s.parameters.baseFactor.toNat * s.binStep.toNat * 10
    * 10 ^ s.parameters.baseFeePowerFactor.toNat < 2 ^ 127
  ref_lt : s.vParameters.volatilityAccumulator.toNat
    * s.parameters.reductionFactor.toNat / 10000 < 2 ^ 32

/-- The kernel's base fee, before it is capped. -/
theorem base_exact {s : DlmmState} (h : RateRoom s) :
    wrap128 (s.parameters.baseFactor.toNat * s.binStep.toNat * 10
        * Dlmm.pow10 s.parameters.baseFeePowerFactor.toNat)
      = s.parameters.baseFactor.toNat * s.binStep.toNat * 10
        * 10 ^ s.parameters.baseFeePowerFactor.toNat := by
  have hlt := h.base_lt
  rcases Nat.eq_zero_or_pos (s.parameters.baseFactor.toNat * s.binStep.toNat * 10) with h0 | hpos
  · rw [h0, Nat.zero_mul, Nat.zero_mul]
    rfl
  · have hpow : 10 ^ s.parameters.baseFeePowerFactor.toNat < 2 ^ 128 := by
      have := Nat.le_mul_of_pos_left (10 ^ s.parameters.baseFeePowerFactor.toNat) hpos
      omega
    rw [pow10_eq hpow, wrap128_of_lt (by omega)]

/-- The kernel's variable fee never wraps: 32 bits times the square of 48. -/
theorem variable_exact (c v : UInt32) (b : UInt16) :
    wrap128 (wrap128 (c.toNat * (v.toNat * b.toNat * (v.toNat * b.toNat))) + 99999999999)
        / 100000000000
      = (c.toNat * (v.toNat * b.toNat) * (v.toNat * b.toNat) + 99999999999) / 100000000000 ∧
    (c.toNat * (v.toNat * b.toNat) * (v.toNat * b.toNat) + 99999999999) / 100000000000
      < 2 ^ 127 := by
  have hc : c.toNat ≤ 2 ^ 32 - 1 := by have := UInt32.toNat_lt c; omega
  have hv : v.toNat ≤ 2 ^ 32 - 1 := by have := UInt32.toNat_lt v; omega
  have hb : b.toNat ≤ 2 ^ 16 - 1 := by have := UInt16.toNat_lt b; omega
  have hvfa : v.toNat * b.toNat ≤ (2 ^ 32 - 1) * (2 ^ 16 - 1) := Nat.mul_le_mul hv hb
  have hprod : c.toNat * (v.toNat * b.toNat * (v.toNat * b.toNat))
      ≤ (2 ^ 32 - 1) * ((2 ^ 32 - 1) * (2 ^ 16 - 1) * ((2 ^ 32 - 1) * (2 ^ 16 - 1))) :=
    Nat.mul_le_mul hc (Nat.mul_le_mul hvfa hvfa)
  have hassoc : c.toNat * (v.toNat * b.toNat) * (v.toNat * b.toNat)
      = c.toNat * (v.toNat * b.toNat * (v.toNat * b.toNat)) := Nat.mul_assoc _ _ _
  rw [hassoc]
  generalize c.toNat * (v.toNat * b.toNat * (v.toNat * b.toNat)) = x at hprod ⊢
  rw [wrap128_of_lt (show x < 2 ^ 128 by omega), wrap128_of_lt (by omega)]
  omega

/-- The references after the update agree. -/
theorem references_exact {s : DlmmState} (h : RateRoom s) :
    (updateReferences (DlmmPool.ofState s)).volRef
        = (Dlmm.updateReferences s).vParameters.volatilityReference.toNat ∧
      (updateReferences (DlmmPool.ofState s)).idxRef
        = (Dlmm.updateReferences s).vParameters.indexReference.toInt := by
  have hlt := h.ref_lt
  by_cases h1 : s.nowTs.toInt - s.vParameters.lastUpdateTimestamp.toInt
      ≥ s.parameters.filterPeriod.toNat
  · have hport : updateReferences (DlmmPool.ofState s) = _ := if_pos h1
    have hkernel : Dlmm.updateReferences s = _ := if_pos h1
    rw [hport, hkernel]
    refine ⟨?_, rfl⟩
    show (if s.nowTs.toInt - s.vParameters.lastUpdateTimestamp.toInt
          < s.parameters.decayPeriod.toNat
        then s.vParameters.volatilityAccumulator.toNat
          * s.parameters.reductionFactor.toNat / 10000 else 0)
      = (if s.nowTs.toInt - s.vParameters.lastUpdateTimestamp.toInt
          < s.parameters.decayPeriod.toNat
        then UInt32.ofNat (s.vParameters.volatilityAccumulator.toNat
          * s.parameters.reductionFactor.toNat / 10000) else 0).toNat
    split
    · rw [UInt32.toNat_ofNat_of_lt' hlt]
    · rfl
  · have hport : updateReferences (DlmmPool.ofState s) = _ := if_neg h1
    have hkernel : Dlmm.updateReferences s = _ := if_neg h1
    rw [hport, hkernel]
    exact ⟨rfl, rfl⟩

/-- The fee rate of `s` at volatility `vol`, without a wrap. -/
def exactRate (s : DlmmState) (vol : Nat) : Nat :=
  let base := s.parameters.baseFactor.toNat * s.binStep.toNat * 10
    * 10 ^ s.parameters.baseFeePowerFactor.toNat
  let variable_ :=
    if s.parameters.variableFeeControl.toNat > 0 then
      (s.parameters.variableFeeControl.toNat * (vol * s.binStep.toNat) * (vol * s.binStep.toNat)
        + 99999999999) / 100000000000
    else 0
  if base + variable_ > maxFee then maxFee else base + variable_

/-- The accumulator of `s` at bin `id`, from its references. -/
def volAt (s : DlmmState) (ref : Nat) (idx id : Int) : Nat :=
  if ref + (idx - id).natAbs * 10000 > s.parameters.maxVolatilityAccumulator.toNat
  then s.parameters.maxVolatilityAccumulator.toNat
  else ref + (idx - id).natAbs * 10000

theorem portRate_eq (s : DlmmState) (id : Int) :
    portRate s id = exactRate s (volAt s (updateReferences (DlmmPool.ofState s)).volRef
      (updateReferences (DlmmPool.ofState s)).idxRef id) := by
  unfold portRate
  rw [port_references_eq]
  rfl

/-- The kernel's rate formula is exact where the parameters have room. -/
theorem kernel_totalFeeRate {s t : DlmmState} (h : RateRoom s)
    (hpar : t.parameters = s.parameters) (hstep : t.binStep = s.binStep) :
    Dlmm.totalFeeRate t = exactRate s t.vParameters.volatilityAccumulator.toNat := by
  obtain ⟨hvar, hvarlt⟩ := variable_exact s.parameters.variableFeeControl
    t.vParameters.volatilityAccumulator s.binStep
  have hbase := h.base_lt
  have hpos : s.parameters.variableFeeControl > 0 ↔ s.parameters.variableFeeControl.toNat > 0 :=
    UInt32.lt_iff_toNat_lt
  unfold Dlmm.totalFeeRate exactRate
  simp only [hpar, hstep, base_exact h, hvar, hpos]
  rw [wrap128_of_lt]
  split <;> omega

/-- **With room in the fee parameters the rates agree at every bin.** -/
theorem rate_exact {s : DlmmState} (h : RateRoom s) (id : Int32) :
    kernelRate s id = portRate s id.toInt := by
  obtain ⟨href, hidx⟩ := references_exact h
  obtain ⟨hstep, hpar, -, -, -, -⟩ := Dlmm.updateReferences_shared s
  -- the accumulator is capped by a 32-bit field
  have hcap := UInt32.toNat_lt s.parameters.maxVolatilityAccumulator
  have hlt : ∀ (ref : Nat) (idx i : Int), volAt s ref idx i < 2 ^ 32 := by
    intro ref idx i
    unfold volAt
    split <;> omega
  have hvol : (Dlmm.updateVolatility { Dlmm.updateReferences s with
      activeId := id }).vParameters.volatilityAccumulator
      = UInt32.ofNat (volAt s (Dlmm.updateReferences s).vParameters.volatilityReference.toNat
        (Dlmm.updateReferences s).vParameters.indexReference.toInt id.toInt) := by
    unfold Dlmm.updateVolatility volAt
    simp only [hpar]
  have hkernel : kernelRate s id = exactRate s (Dlmm.updateVolatility
      { Dlmm.updateReferences s with
        activeId := id }).vParameters.volatilityAccumulator.toNat :=
    kernel_totalFeeRate h hpar hstep
  rw [hkernel, hvol, UInt32.toNat_ofNat_of_lt' (hlt _ _ _), portRate_eq, href, hidx]

/-- A quote that the first bin serves whole shows no wrap as soon as the rate
there is exact: one bin gives out at most a word. -/
theorem dlmmExact_of_one_turn {s : DlmmState} {amountIn : UInt64} {swapForY : UInt8}
    (hrate : kernelRate s (Dlmm.updateReferences s).activeId
      = portRate s (Dlmm.updateReferences s).activeId.toInt)
    (hone : (Dlmm.walkStep (Dlmm.feeOnInput (Dlmm.updateReferences s) (swapForY != 0))
      (swapForY != 0) (Dlmm.walkInit s (quoteIx amountIn swapForY))).map (fun w => w.left)
        = some 0) : DlmmExact s amountIn swapForY := by
  refine Or.inr ⟨⟨hrate, ?_⟩, ?_⟩
  · intro f hf
    obtain ⟨v, -, hf⟩ := Option.bind_eq_some_iff.mp hf
    have hle := (Dlmm.takeFill_amounts (UInt64.toNat_lt amountIn) hf).1
    have hside := v.2.outSide_lt (swapForY != 0)
    show 0 + f.outAmt < 2 ^ 64
    omega
  · intro w' hw'
    rw [hw', Option.map_some] at hone
    exact Or.inl (Option.some.inj hone)

/-! ## §11. Both ports. -/

/-- A pool with one full bin at price one, `power` its base fee power factor. -/
def onePool (power : UInt8) : DlmmState :=
  { activeId := 0, binStep := 1, status := 0
    parameters := ⟨1, 0, 0, 0, 0, 0, 0, power, 0⟩
    vParameters := ⟨0, 0, 0, 0⟩
    reserveX := 0, reserveY := 2000
    bins := [⟨0, 0, 2000, 2 ^ 64⟩], nowTs := 0 }

theorem onePool_exact : DlmmExact (onePool 3) 1000 1 :=
  dlmmExact_of_one_turn (rate_exact ⟨by decide, by decide⟩ _) (by decide +kernel)

/-- A Pump pool whose quote is mostly virtual. -/
def thinPool : PumpState := ⟨1, 1, 100, 0, 0, 0, 0, 0⟩

/-- A pool with two half-word bins, one unit each. -/
def deepPool : DlmmState :=
  { onePool 0 with
    parameters := ⟨0, 0, 0, 0, 0, 0, 0, 0, 0⟩
    bins := [⟨0, 0, 2 ^ 63, 2 ^ 127⟩, ⟨-1, 0, 2 ^ 63, 2 ^ 127⟩] }

end ShredArb.Ports
