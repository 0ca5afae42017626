/-
  ShredArb.Dlmm.Accounts — the accounts of a whole swap, with the fee on the
  input and with the fee on the output.

  With the fee on the input every iteration books what its fill used, so the
  bins gain the amount in less the fee.  With the fee on the output the source
  takes the SAME difference, `included - fee`, although the fee is an amount of
  the other token: the bins gain too little, or the difference wraps.

  Main results:
    * `dlmmApplySwap_input_fee` — the accounts with the fee on the input, and
      the three tests that never fail.
    * `output_fee_accounts_iff` — with the fee on the output the accounts are
      right EXACTLY when no fill of the swap is charged anything.
-/
import ShredArb.Dlmm.Turn

namespace ShredArb.Dlmm

open ShredArb.Word

/-! ## §1. The fee on the input. -/

/-- What the swap did to the result, the bins and the reserves; the reserves
are 64-bit words. -/
structure InputFeeAccounts (s : DlmmState) (ix : DlmmSwapIx) (s' : DlmmState)
    (res : DlmmApplyResult) (sfy : Bool) : Prop where
  amount_in : res.amountIn = ix.amountIn
  fee_le : res.fee.toNat ≤ ix.amountIn.toNat
  in_total : inTotal sfy s'.bins
    = inTotal sfy s.bins + (ix.amountIn.toNat - res.fee.toNat)
  out_total : outTotal sfy s'.bins + res.amountOut.toNat = outTotal sfy s.bins
  in_reserve : s'.inReserve sfy = s.inReserve sfy + (ix.amountIn - res.fee)
  out_reserve : s'.outReserve sfy = s.outReserve sfy - res.amountOut

/-- The accounts in the middle of a walk of `amount` over the book of `s`. -/
structure InputLedger (s : DlmmState) (amount : Nat) (sfy : Bool) (w : Walk) : Prop where
  spent : w.totalIn + w.left = amount
  fee_le : w.totalFee ≤ w.totalIn
  in_eq : inTotal sfy w.after.bins + w.totalFee = inTotal sfy s.bins + w.totalIn
  out_eq : outTotal sfy w.after.bins + w.totalOut = outTotal sfy s.bins
  in_reserve : w.after.inReserve sfy
    = s.inReserve sfy + UInt64.ofNat (w.totalIn - w.totalFee)
  out_reserve : w.after.outReserve sfy = s.outReserve sfy - UInt64.ofNat w.totalOut

theorem inputLedger_init (s : DlmmState) (ix : DlmmSwapIx) (sfy : Bool) :
    InputLedger s ix.amountIn.toNat sfy (walkInit s ix) := by
  obtain ⟨-, -, hbins, -, hx, hy⟩ := updateReferences_shared s
  constructor
  · exact Nat.zero_add _
  · exact le_refl _
  · show inTotal sfy (updateReferences s).bins + 0 = inTotal sfy s.bins + 0
    rw [hbins]
  · show outTotal sfy (updateReferences s).bins + 0 = outTotal sfy s.bins
    rw [hbins, Nat.add_zero]
  · show (updateReferences s).inReserve sfy = s.inReserve sfy + UInt64.ofNat (0 - 0)
    unfold DlmmState.inReserve
    rw [hx, hy]
    exact (UInt64.add_zero _).symm
  · show (updateReferences s).outReserve sfy = s.outReserve sfy - UInt64.ofNat 0
    unfold DlmmState.outReserve
    rw [hx, hy]
    exact (UInt64.sub_zero _).symm

/-- **One iteration keeps the ledger.** -/
theorem InputLedger.step {s : DlmmState} {amount : Nat} {sfy : Bool} {w w' : Walk}
    {v : DlmmState × DlmmBin} {f : BinFill} (hin : inTotal sfy s.bins + amount < 2 ^ 64)
    (hout : outTotal sfy s.bins < 2 ^ 64) (hleft : w.left < 2 ^ 64)
    (l : InputLedger s amount sfy w) (t : Turn true sfy w w' v f) :
    InputLedger s amount sfy w' := by
  obtain ⟨fee, m, -, -, -, hinto, hincl, -, -⟩ := takeFill_input hleft t.take
  have hspent := l.spent
  have hfee := l.fee_le
  have hineq := l.in_eq
  have houteq := l.out_eq
  have hle := t.included_le
  have houtT := t.outTotal_eq
  have hinT := t.inTotal_eq (by omega)
  have htin := t.totalIn_eq
  have htout := t.totalOut_eq
  have htfee := t.totalFee_eq
  rw [wrap64_of_lt (by omega)] at htin htout htfee
  constructor
  · rw [htin, t.left_eq]
    omega
  · rw [htin, htfee]
    omega
  · rw [htin, htfee]
    omega
  · rw [htout]
    omega
  · have hsum : w'.totalIn - w'.totalFee = (w.totalIn - w.totalFee) + f.intoBin := by
      rw [htin, htfee]
      omega
    rw [t.inReserve_eq, l.in_reserve, hsum, UInt64.ofNat_add, UInt64.add_assoc]
  · rw [t.outReserve_eq, l.out_reserve, htout, UInt64.ofNat_add]
    grind

/-- The accounts of a swap with the fee on the input. -/
theorem input_fee_accounts {s s' : DlmmState} {ix : DlmmSwapIx} {res : DlmmApplyResult}
    (hfoi : feeOnInput s (ix.swapForY != 0) = true)
    (hin : inTotal (ix.swapForY != 0) s.bins + ix.amountIn.toNat < 2 ^ 64)
    (hout : outTotal (ix.swapForY != 0) s.bins < 2 ^ 64)
    (h : dlmmApplySwap s ix = some (s', res)) :
    InputFeeAccounts s ix s' res (ix.swapForY != 0) := by
  obtain ⟨w, hw, hzero, rfl, hrin, hrout, hrfee⟩ := dlmmApplySwap_run h
  rw [hfoi] at hw
  have hlt := UInt64.toNat_lt ix.amountIn
  have l := walkLoop_turns (P := InputLedger s ix.amountIn.toNat (ix.swapForY != 0))
    (fun _ _ _ _ hl hP t => hP.step hin hout hl t) 256 _ w hlt
    (inputLedger_init s ix _) hw
  have hspent := l.spent
  have hfee := l.fee_le
  have hineq := l.in_eq
  have houteq := l.out_eq
  have htin : w.totalIn = ix.amountIn.toNat := by omega
  have hfeeNat : res.fee.toNat = w.totalFee := by
    rw [hrfee]
    exact UInt64.toNat_ofNat_of_lt' (show w.totalFee < 2 ^ 64 by omega)
  have houtNat : res.amountOut.toNat = w.totalOut := by
    rw [hrout]
    exact UInt64.toNat_ofNat_of_lt' (show w.totalOut < 2 ^ 64 by omega)
  have hamount : UInt64.ofNat w.totalIn = ix.amountIn := by
    rw [htin]
    exact UInt64.ofNat_toNat
  constructor
  · rw [hrin, hamount]
  · rw [hfeeNat]
    omega
  · rw [hfeeNat]
    omega
  · rw [houtNat]
    omega
  · rw [l.in_reserve, UInt64.ofNat_sub hfee, hamount, ← hrfee]
  · rw [l.out_reserve, ← hrout]

/-- **The accounts with the fee on the input, and the tests that never fail.**
The bins gain the amount in less the fee and lose the amount out, the reserves
follow modulo `2 ^ 64`; and before ANY iteration, whatever the state and the
amount, none of the three tests can fail and no leftover is swallowed. -/
theorem dlmmApplySwap_input_fee :
    (∀ (s s' : DlmmState) (ix : DlmmSwapIx) (res : DlmmApplyResult),
      feeOnInput s (ix.swapForY != 0) = true →
      inTotal (ix.swapForY != 0) s.bins + ix.amountIn.toNat < 2 ^ 64 →
      outTotal (ix.swapForY != 0) s.bins + ix.amountIn.toNat < 2 ^ 64 →
      dlmmApplySwap s ix = some (s', res) →
      InputFeeAccounts s ix s' res (ix.swapForY != 0)) ∧
    (∀ (foi sfy : Bool) (w : Walk), w.left < 2 ^ 64 → GuardsSilent foi sfy w) :=
  ⟨fun _ _ _ _ hfoi hin hout h => input_fee_accounts hfoi hin (by omega) h,
    fun foi sfy _ hleft => guards_silent foi sfy hleft⟩

/-- Two bins at price one, 2000 units of Y in each, a fee of one per cent. -/
def twoBins : DlmmState :=
  { activeId := 0, binStep := 1, status := 0
    parameters := ⟨10000, 0, 0, 0, 0, 0, 500, 2, 0⟩
    vParameters := ⟨0, 0, 0, 0⟩
    reserveX := 0, reserveY := 4000
    bins := [⟨0, 0, 2000, 2 ^ 64⟩, ⟨-1, 0, 2000, 2 ^ 64⟩], nowTs := 0 }

theorem dlmmApplySwap_input_fee_demo :
    (∃ s' res, dlmmApplySwap twoBins ⟨3000, 0, 1⟩ = some (s', res) ∧
      InputFeeAccounts twoBins ⟨3000, 0, 1⟩ s' res true) ∧
    GuardsSilent true true (walkInit twoBins ⟨3000, 0, 1⟩) := by
  have hsome : (dlmmApplySwap twoBins ⟨3000, 0, 1⟩).isSome = true := by decide +kernel
  obtain ⟨⟨s', res⟩, h⟩ := Option.isSome_iff_exists.mp hsome
  exact ⟨⟨s', res, h, dlmmApplySwap_input_fee.1 twoBins s' ⟨3000, 0, 1⟩ res (by decide)
    (by decide) (by decide) h⟩, dlmmApplySwap_input_fee.2 true true _ (by decide)⟩

/-! ## §2. The fee on the output. -/

/-- The fee rate at bin `id` of a swap on `s`. -/
def rateAt (s : DlmmState) (id : Int32) : Nat :=
  totalFeeRate (updateVolatility { updateReferences s with activeId := id })

/-- The bin after `id` in the direction of a swap. -/
def nextId (sfy : Bool) (id : Int32) : Int32 :=
  Int32.ofInt (id.toInt + (if sfy then -1 else 1))

/-- The fills `left` makes in the book of `s` from bin `id` on when no fee is
taken, `n` bins at most. -/
def freeFills (s : DlmmState) (sfy : Bool) : (n : Nat) → (id : Int32) → (left : Nat) →
    List (Int32 × MmFill)
  | 0, _, _ => []
  | n + 1, id, left =>
      if left = 0 then []
      else match (findBin s.bins id).bind fun b => ensurePrice b s.binStep with
        | none => []
        | some bin => match fillMm bin left sfy with
          | none => []
          | some m => (id, m) :: freeFills s sfy n (nextId sfy id) m.left

/-- No fill is charged anything: the rate there is zero, or it gives nothing. -/
def ChargesNothing (s : DlmmState) (l : List (Int32 × MmFill)) : Prop :=
  ∀ p ∈ l, rateAt s p.1 = 0 ∨ p.2.outAmt = 0

/-- What the fills give. -/
def given (l : List (Int32 × MmFill)) : Nat := (l.map (·.2.outAmt)).sum

theorem given_cons (id : Int32) (m : MmFill) (l : List (Int32 × MmFill)) :
    given ((id, m) :: l) = m.outAmt + given l :=
  List.sum_cons

/-- The unsigned subtractions of an iteration, in the order of the source. -/
structure IterationSubs (foi sfy : Bool) (w : Walk) : Prop where
  /-- `left - fee` -/
  excluded : ∀ v fee, visitBin w.after = some v → inputFee v.1 w.left foi = some fee →
    fee ≤ w.left
  /-- `amount - max_in`, and `excluded - leftover` -/
  leftover : ∀ v fee m, visitBin w.after = some v → inputFee v.1 w.left foi = some fee →
    fillMm v.2 (w.left - fee) sfy = some m → m.usedIn ≤ w.left - fee ∧ m.left ≤ w.left - fee
  /-- `out_amt -= fee` -/
  net : ∀ v m fee, visitBin w.after = some v → fillMm v.2 w.left sfy = some m →
    computeFeeFromAmount v.1 m.outAmt = some fee → foi = false → fee ≤ m.outAmt
  /-- `included - fee` -/
  into : ∀ v f, visitBin w.after = some v → takeFill v.1 v.2 w.left foi sfy = some f →
    f.fee ≤ f.included
  /-- `bin->amount_y -= out_amt` -/
  side : ∀ v f, visitBin w.after = some v → takeFill v.1 v.2 w.left foi sfy = some f →
    f.outAmt ≤ v.2.outSide sfy
  /-- `reserve_y -= out_amt` -/
  reserve : ∀ v f, visitBin w.after = some v → takeFill v.1 v.2 w.left foi sfy = some f →
    f.outAmt ≤ (v.1.outReserve sfy).toNat
  /-- `left -= included` -/
  left : ∀ v f, visitBin w.after = some v → takeFill v.1 v.2 w.left foi sfy = some f →
    f.included ≤ w.left

/-- No unsigned subtraction wraps in any iteration the loop makes. -/
def SubsExact (foi sfy : Bool) : Nat → Walk → Prop
  | 0, _ => True
  | n + 1, w => w.left = 0 ∨ (IterationSubs foi sfy w ∧
      ∀ w', walkStep foi sfy w = some w' → SubsExact foi sfy n w')

/-- The accounts of a swap from X to Y with the fee on the output. -/
structure OutputFeeAccounts (s : DlmmState) (ix : DlmmSwapIx) (s' : DlmmState)
    (res : DlmmApplyResult) : Prop where
  in_total : inTotal true s'.bins = inTotal true s.bins + ix.amountIn.toNat
  in_reserve : s'.reserveX.toNat = s.reserveX.toNat + ix.amountIn.toNat
  out_ge : outTotal true s'.bins + res.amountOut.toNat ≤ outTotal true s.bins
  out_le : outTotal true s.bins
    ≤ outTotal true s'.bins + res.amountOut.toNat + res.fee.toNat
  subs : SubsExact false true 256 (walkInit s ix)

/-! ## §3. The walk against the free fills. -/

theorem freeFills_zero (s : DlmmState) (sfy : Bool) (n : Nat) (id : Int32) :
    freeFills s sfy n id 0 = [] := by
  cases n with
  | zero => rfl
  | succ n => exact if_pos rfl

/-- What the walk at `w` still shares with the swap's first state: the
parameters, the references, and the bins it has not passed. -/
structure Tour (s : DlmmState) (sfy : Bool) (w : Walk) : Prop where
  binStep_eq : w.after.binStep = s.binStep
  params_eq : w.after.parameters = s.parameters
  idx_eq : w.after.vParameters.indexReference
    = (updateReferences s).vParameters.indexReference
  ref_eq : w.after.vParameters.volatilityReference
    = (updateReferences s).vParameters.volatilityReference
  ahead : 0 < w.left → ∀ id : Int32,
    0 ≤ (w.after.activeId.toInt - id.toInt) * (if sfy then 1 else -1) →
    findBin w.after.bins id = findBin s.bins id

theorem tracks_init (s : DlmmState) (ix : DlmmSwapIx) (sfy : Bool) :
    Tour s sfy (walkInit s ix) := by
  obtain ⟨hstep, hpar, hbins, -, -, -⟩ := updateReferences_shared s
  refine ⟨hstep, hpar, rfl, rfl, fun _ id _ => ?_⟩
  show findBin (updateReferences s).bins id = _
  rw [hbins]

theorem Tour.step {s : DlmmState} {foi sfy : Bool} {w w' : Walk}
    {v : DlmmState × DlmmBin} {f : BinFill} (k : Tour s sfy w)
    (t : Turn foi sfy w w' v f) : Tour s sfy w' := by
  refine ⟨t.binStep_eq.trans k.binStep_eq, t.params_eq.trans k.params_eq,
    t.idx_eq.trans k.idx_eq, t.ref_eq.trans k.ref_eq, ?_⟩
  intro hpos id hahead
  have hmove := t.move hpos
  have hleft := t.left_eq
  have hne : id ≠ w.after.activeId := by
    rintro rfl
    rw [hmove] at hahead
    cases sfy with
    | true => simp only [if_true] at hahead; omega
    | false => simp only [Bool.false_eq_true, if_false] at hahead; omega
  rw [t.ahead id hne]
  refine k.ahead (by omega) id ?_
  rw [hmove] at hahead
  cases sfy with
  | true => simp only [if_true] at hahead ⊢; omega
  | false => simp only [Bool.false_eq_true, if_false] at hahead ⊢; omega

/-- The rate an iteration charges is the rate of its bin in the first state. -/
theorem Tour.rate_eq {s : DlmmState} {sfy : Bool} {w : Walk} {v : DlmmState × DlmmBin}
    (k : Tour s sfy w) (hv : visitBin w.after = some v) :
    totalFeeRate v.1 = rateAt s w.after.activeId := by
  obtain ⟨hstep, hpar, -, -, -, -⟩ := updateReferences_shared s
  obtain ⟨-, -, -, -, hv1⟩ := visitBin_spec hv
  rw [hv1]
  unfold rateAt totalFeeRate updateVolatility
  simp only [k.binStep_eq, k.params_eq, k.idx_eq, k.ref_eq, hstep, hpar]

/-- The bin an iteration fills is the priced bin of the first state. -/
theorem Tour.bin_eq {s : DlmmState} {sfy : Bool} {w : Walk} {v : DlmmState × DlmmBin}
    (k : Tour s sfy w) (hpos : 0 < w.left) (hv : visitBin w.after = some v) :
    ((findBin s.bins w.after.activeId).bind fun b => ensurePrice b s.binStep) = some v.2 := by
  rw [visitBin_eq] at hv
  obtain ⟨b, hb, rfl⟩ := Option.map_eq_some_iff.mp hv
  rw [← k.ahead hpos w.after.activeId (by simp), ← k.binStep_eq]
  exact hb

/-- The fee of a fill at bin `id`. -/
def charge (s : DlmmState) (p : Int32 × MmFill) : Nat :=
  ceilDiv (p.2.outAmt * rateAt s p.1) 1000000000

/-- The amounts of an iteration against its free fill. -/
structure Charged (s : DlmmState) (id : Int32) (m : MmFill) (f : BinFill) : Prop where
  fee_eq : f.fee = charge s (id, m)
  fee_le : f.fee ≤ m.outAmt
  out_eq : f.outAmt = m.outAmt - f.fee
  included_eq : f.included = m.usedIn
  into_eq : f.intoBin = sub64 m.usedIn f.fee

/-- **An iteration makes the next free fill**, and charges it. -/
theorem Tour.head {s : DlmmState} {sfy : Bool} {w : Walk} {v : DlmmState × DlmmBin}
    {f : BinFill} (k : Tour s sfy w) (hpos : 0 < w.left) (hleft : w.left < 2 ^ 64)
    (hv : visitBin w.after = some v) (hf : takeFill v.1 v.2 w.left false sfy = some f)
    (n : Nat) : ∃ m, freeFills s sfy (n + 1) w.after.activeId w.left
        = (w.after.activeId, m) :: freeFills s sfy n (nextId sfy w.after.activeId) m.left ∧
      m.usedIn + m.left = w.left ∧ Charged s w.after.activeId m f := by
  obtain ⟨m, hm, hfee, hle, hout, hincl, hinto⟩ := takeFill_output hleft hf
  have hside := fillMm_le_side hleft hm
  have hlt := v.2.outSide_lt sfy
  rw [computeFeeFromAmount_eq _ (by omega), k.rate_eq hv] at hfee
  refine ⟨m, ?_, (fillMm_spec hleft hm).1, ⟨(Option.some.inj hfee).symm, hle, hout, hincl, hinto⟩⟩
  rw [freeFills, if_neg (by omega), k.bin_eq hpos hv]
  simp only [hm]

/-- The iterations after it make the rest. -/
theorem Turn.tail {s : DlmmState} {foi sfy : Bool} {w w' : Walk} {v : DlmmState × DlmmBin}
    {f : BinFill} (t : Turn foi sfy w w' v f) (n : Nat) :
    freeFills s sfy n (nextId sfy w.after.activeId) w'.left
      = freeFills s sfy n w'.after.activeId w'.left := by
  rcases Nat.eq_zero_or_pos w'.left with h0 | hpos
  · rw [h0, freeFills_zero, freeFills_zero]
  · have hid : nextId sfy w.after.activeId = w'.after.activeId := by
      unfold nextId
      rw [← t.move hpos]
      exact Int32.ofInt_toInt _
    rw [hid]

/-- Which of an iteration's subtractions can wrap at all. -/
theorem iterationSubs_iff {sfy : Bool} {w : Walk} (hleft : w.left < 2 ^ 64) :
    IterationSubs false sfy w ↔ ∀ v f, visitBin w.after = some v →
      takeFill v.1 v.2 w.left false sfy = some f →
      f.fee ≤ f.included ∧ f.outAmt ≤ (v.1.outReserve sfy).toNat := by
  constructor
  · intro h v f hv hf
    exact ⟨h.into v f hv hf, h.reserve v f hv hf⟩
  · intro h
    have g := guards_silent false sfy hleft
    constructor
    · intro v fee _ hfee
      exact inputFee_le hfee
    · intro v fee m _ hfee hm
      have hsplit := (fillMm_spec (by omega) hm).1
      omega
    · intro v m fee _ hm hfee _
      have hside := fillMm_le_side hleft hm
      have hlt := v.2.outSide_lt sfy
      have hrate := totalFeeRate_le v.1
      rw [computeFeeFromAmount_eq _ (by omega)] at hfee
      rw [← Option.some.inj hfee]
      exact ceilDiv_le_of (by norm_num) (Nat.mul_le_mul_left m.outAmt (by omega))
    · exact fun v f hv hf => (h v f hv hf).1
    · exact fun v f hv hf => not_lt.mp (g.out_le v f hv hf)
    · exact fun v f hv hf => (h v f hv hf).2
    · exact fun v f hv hf => not_lt.mp (g.included_le v f hv hf)

theorem charge_eq_zero_iff (s : DlmmState) (p : Int32 × MmFill) :
    charge s p = 0 ↔ rateAt s p.1 = 0 ∨ p.2.outAmt = 0 := by
  have hcov := le_ceilDiv_mul (p.2.outAmt * rateAt s p.1) (show 0 < 1000000000 by norm_num)
  constructor
  · intro h0
    unfold charge at h0
    rw [h0, Nat.zero_mul] at hcov
    rcases Nat.mul_eq_zero.mp (Nat.le_zero.mp hcov) with h | h
    · exact Or.inr h
    · exact Or.inl h
  · rintro (h | h)
    · rw [charge, h, Nat.mul_zero, ceilDiv_zero]
    · rw [charge, h, Nat.zero_mul, ceilDiv_zero]

/-- All that the fills are charged. -/
def charges (s : DlmmState) (l : List (Int32 × MmFill)) : Nat := (l.map (charge s)).sum

theorem charges_cons (s : DlmmState) (p : Int32 × MmFill) (l : List (Int32 × MmFill)) :
    charges s (p :: l) = charge s p + charges s l :=
  List.sum_cons

theorem charges_eq_zero_iff (s : DlmmState) (l : List (Int32 × MmFill)) :
    charges s l = 0 ↔ ChargesNothing s l := by
  unfold charges ChargesNothing
  rw [List.sum_eq_zero_iff]
  simp only [List.mem_map, forall_exists_index, and_imp, forall_apply_eq_imp_iff₂,
    charge_eq_zero_iff]

/-- The reserve an iteration finds is the one before it. -/
theorem visitBin_outReserve {s : DlmmState} {v : DlmmState × DlmmBin}
    (h : visitBin s = some v) (sfy : Bool) : v.1.outReserve sfy = s.outReserve sfy := by
  obtain ⟨-, -, -, -, hv1⟩ := visitBin_spec h
  rw [hv1]
  rfl

/-- **A walk whose free fills are charged nothing wraps nothing**, when the
reserve has what they give. -/
theorem subsExact_of_chargesNothing {s : DlmmState} {sfy : Bool} : ∀ (n : Nat) {w : Walk},
    Tour s sfy w → w.left < 2 ^ 64 →
    ChargesNothing s (freeFills s sfy n w.after.activeId w.left) →
    given (freeFills s sfy n w.after.activeId w.left) ≤ (w.after.outReserve sfy).toNat →
    SubsExact false sfy n w := by
  intro n
  induction n with
  | zero => exact fun _ _ _ _ => trivial
  | succ n ih =>
    intro w k hleft hfree hgiven
    rcases Nat.eq_zero_or_pos w.left with h0 | hpos
    · exact Or.inl h0
    -- the amounts of the iteration, whether or not the rest of it succeeds
    have hiter : ∀ v f, visitBin w.after = some v →
        takeFill v.1 v.2 w.left false sfy = some f → ∃ m,
        freeFills s sfy (n + 1) w.after.activeId w.left
          = (w.after.activeId, m) :: freeFills s sfy n (nextId sfy w.after.activeId) m.left ∧
        m.usedIn + m.left = w.left ∧ f.included = m.usedIn ∧ f.fee = 0 ∧
        f.outAmt = m.outAmt := by
      intro v f hv hf
      obtain ⟨m, hcons, hsplit, c⟩ := k.head hpos hleft hv hf n
      have hzero : f.fee = 0 := by
        rw [c.fee_eq, charge_eq_zero_iff]
        rw [hcons] at hfree
        exact hfree _ List.mem_cons_self
      have hout := c.out_eq
      rw [hzero] at hout
      exact ⟨m, hcons, hsplit, c.included_eq, hzero, hout⟩
    refine Or.inr ⟨(iterationSubs_iff hleft).mpr ?_, ?_⟩
    · intro v f hv hf
      obtain ⟨m, hcons, -, -, hzero, hout⟩ := hiter v f hv hf
      rw [hcons, given_cons] at hgiven
      rw [visitBin_outReserve hv]
      exact ⟨by omega, by omega⟩
    · intro w' hw'
      obtain ⟨v, f, t⟩ := walkStep_turn hw'
      obtain ⟨m, hcons, hsplit, hincl, -, hout⟩ := hiter v f t.visit t.take
      have hm : m.left = w'.left := by
        have := t.left_eq
        omega
      rw [hcons, hm, t.tail n] at hfree hgiven
      rw [given_cons] at hgiven
      refine ih (k.step t) (t.left_lt hleft) (fun p hp => hfree p (List.mem_cons_of_mem _ hp)) ?_
      rw [t.outReserve_eq, toNat_sub_ofNat (by omega)]
      omega

/-- **The ledger of a walk that wraps nothing**: what it takes in goes into the
bins and the reserve, less all that its free fills are charged; and if they are
charged nothing, the reserve had what they gave. -/
theorem walkLoop_output_ledger {s : DlmmState} {sfy : Bool} : ∀ (n : Nat) {w w' : Walk},
    Tour s sfy w → w.left < 2 ^ 64 → inTotal sfy w.after.bins + w.left < 2 ^ 64 →
    (w.after.inReserve sfy).toNat + w.left < 2 ^ 64 → SubsExact false sfy n w →
    walkLoop false sfy n w = some w' →
    inTotal sfy w'.after.bins + charges s (freeFills s sfy n w.after.activeId w.left) + w'.left
        = inTotal sfy w.after.bins + w.left ∧
      (w'.after.inReserve sfy).toNat
          + charges s (freeFills s sfy n w.after.activeId w.left) + w'.left
        = (w.after.inReserve sfy).toNat + w.left ∧
      (ChargesNothing s (freeFills s sfy n w.after.activeId w.left) →
        given (freeFills s sfy n w.after.activeId w.left)
          ≤ (w.after.outReserve sfy).toNat) := by
  intro n
  induction n with
  | zero =>
    intro w w' _ _ _ _ _ h
    obtain rfl := Option.some.inj h
    exact ⟨rfl, rfl, fun _ => Nat.zero_le _⟩
  | succ n ih =>
    intro w w' k hleft hfit hres hsubs h
    unfold walkLoop at h
    split at h
    next h0 =>
      obtain rfl := Option.some.inj h
      rw [h0, freeFills_zero]
      exact ⟨rfl, rfl, fun _ => Nat.zero_le _⟩
    next hne =>
      obtain ⟨u, hu, h⟩ := Option.bind_eq_some_iff.mp h
      obtain ⟨v, f, t⟩ := walkStep_turn hu
      obtain ⟨hiter, hrest⟩ := hsubs.resolve_left hne
      obtain ⟨m, hcons, hsplit, c⟩ := k.head (by omega) hleft t.visit t.take n
      obtain ⟨hfee, hout⟩ := (iterationSubs_iff hleft).mp hiter v f t.visit t.take
      rw [visitBin_outReserve t.visit] at hout
      have hincl := c.included_eq
      have hfee0 := c.fee_eq
      have hinto : f.intoBin + charge s (w.after.activeId, m) = f.included := by
        have hsub := c.into_eq
        rw [sub64_of_le (by omega) (by omega)] at hsub
        omega
      have hm : m.left = u.left := by
        have := t.left_eq
        omega
      have hin := t.inTotal_eq (by omega)
      have hinR : (u.after.inReserve sfy).toNat = (w.after.inReserve sfy).toNat + f.intoBin := by
        have hsmall : (UInt64.ofNat f.intoBin).toNat = f.intoBin :=
          UInt64.toNat_ofNat_of_lt' (show f.intoBin < 2 ^ 64 by omega)
        rw [t.inReserve_eq, UInt64.toNat_add, hsmall, Nat.mod_eq_of_lt (by omega)]
      have hul := t.left_eq
      obtain ⟨hA, hB, hC⟩ := ih (k.step t) (t.left_lt hleft) (by omega) (by omega)
        (hrest u hu) h
      rw [hcons, hm, t.tail n]
      rw [charges_cons, given_cons]
      refine ⟨by omega, by omega, ?_⟩
      intro hfree
      have hzero := (charge_eq_zero_iff s _).mpr (hfree _ List.mem_cons_self)
      have hrestG := hC fun p hp => hfree p (List.mem_cons_of_mem _ hp)
      rw [t.outReserve_eq, toNat_sub_ofNat hout] at hrestG
      have hout0 := c.out_eq
      omega

/-! ## §4. The fee on the output, whole swap. -/

/-- The free fills of a swap from X to Y. -/
def swapFills (s : DlmmState) (ix : DlmmSwapIx) : List (Int32 × MmFill) :=
  freeFills s true 256 s.activeId ix.amountIn.toNat

/-- **With the fee on the output the accounts are right EXACTLY when the swap
is charged nothing**, and the reserve has what its fills give. -/
theorem output_fee_accounts_iff (s s' : DlmmState) (ix : DlmmSwapIx) (res : DlmmApplyResult)
    (hmode : s.parameters.collectFeeMode = 1) (hsfy : ix.swapForY ≠ 0)
    (hX : inTotal true s.bins + ix.amountIn.toNat < 2 ^ 64)
    (hY : outTotal true s.bins < 2 ^ 64)
    (hR : s.reserveX.toNat + ix.amountIn.toNat < 2 ^ 64)
    (h : dlmmApplySwap s ix = some (s', res)) :
    OutputFeeAccounts s ix s' res ↔
      ChargesNothing s (swapFills s ix) ∧ given (swapFills s ix) ≤ s.reserveY.toNat := by
  have hy : (ix.swapForY != 0) = true := bne_iff_ne.mpr hsfy
  have hfoi : feeOnInput s true = false := by
    rw [feeOnInput, if_pos hmode]
    rfl
  obtain ⟨w, hw, hzero, rfl, -, hrout, -⟩ := dlmmApplySwap_run h
  rw [hy, hfoi] at hw
  obtain ⟨-, -, hbins, hactive, hresX, hresY⟩ := updateReferences_shared s
  have hlt := UInt64.toNat_lt ix.amountIn
  have hbins0 : (walkInit s ix).after.bins = s.bins := hbins
  have hresX0 : (walkInit s ix).after.inReserve true = s.reserveX := hresX
  have hresY0 : (walkInit s ix).after.outReserve true = s.reserveY := hresY
  have hfills : freeFills s true 256 (walkInit s ix).after.activeId (walkInit s ix).left
      = swapFills s ix := congrArg (fun id => freeFills s true 256 id ix.amountIn.toNat) hactive
  have hled := fun hsubs => walkLoop_output_ledger 256 (tracks_init s ix true) hlt
    (by rw [hbins0]; exact hX) (by rw [hresX0]; exact hR) hsubs hw
  rw [hfills, hbins0, hresX0, hresY0] at hled
  have hwlt : (walkInit s ix).left = ix.amountIn.toNat := rfl
  -- the out-side falls by exactly what the result reports
  have hout := walkLoop_out hlt (by rw [hbins0]; exact hY) hw
  have hout0 : (walkInit s ix).totalOut = 0 := rfl
  have houtNat : res.amountOut.toNat = w.totalOut := by
    rw [hrout]
    exact UInt64.toNat_ofNat_of_lt' (show w.totalOut < 2 ^ 64 by rw [hbins0] at hout; omega)
  rw [hbins0] at hout
  constructor
  · intro a
    obtain ⟨hA, -, hC⟩ := hled a.subs
    have hin := a.in_total
    have hfree := (charges_eq_zero_iff s (swapFills s ix)).mp (by omega)
    exact ⟨hfree, hC hfree⟩
  · rintro ⟨hfree, hgiven⟩
    have hsubs : SubsExact false true 256 (walkInit s ix) := by
      refine subsExact_of_chargesNothing 256 (tracks_init s ix true) hlt ?_ ?_
      · rw [hfills]
        exact hfree
      · rw [hfills, hresY0]
        exact hgiven
    obtain ⟨hA, hB, -⟩ := hled hsubs
    have hnone := (charges_eq_zero_iff s (swapFills s ix)).mpr hfree
    have hresw : w.after.inReserve true = w.after.reserveX := rfl
    rw [hresw] at hB
    exact ⟨by omega, by omega, by omega, by omega, hsubs⟩

/-- `twoBins` with the fee on the output, at base factor `factor`. -/
def outputFeePool (factor : UInt16) : DlmmState :=
  { twoBins with parameters := ⟨factor, 0, 0, 0, 0, 0, 500, 2, 1⟩ }

/-- Without a fee rate the accounts are right. -/
theorem output_fee_accounts_demo :
    ∃ s' res, dlmmApplySwap (outputFeePool 0) ⟨3000, 0, 1⟩ = some (s', res) ∧
      OutputFeeAccounts (outputFeePool 0) ⟨3000, 0, 1⟩ s' res := by
  have hsome : (dlmmApplySwap (outputFeePool 0) ⟨3000, 0, 1⟩).isSome = true := by
    decide +kernel
  obtain ⟨⟨s', res⟩, h⟩ := Option.isSome_iff_exists.mp hsome
  have hfree : ChargesNothing (outputFeePool 0) (swapFills (outputFeePool 0) ⟨3000, 0, 1⟩) ∧
      given (swapFills (outputFeePool 0) ⟨3000, 0, 1⟩) ≤ (outputFeePool 0).reserveY.toNat := by
    unfold ChargesNothing
    decide +kernel
  exact ⟨s', res, h, (output_fee_accounts_iff _ s' _ res (by decide) (by decide) (by decide)
    (by decide) (by decide) h).mpr hfree⟩

/-- 3000 units of X in, and the bins hold 2970 of them. -/
theorem output_fee_accounts_wrong :
    ¬ ∀ (s s' : DlmmState) (ix : DlmmSwapIx) (res : DlmmApplyResult),
      s.parameters.collectFeeMode = 1 → ix.swapForY ≠ 0 →
      inTotal true s.bins + ix.amountIn.toNat < 2 ^ 64 → outTotal true s.bins < 2 ^ 64 →
      s.reserveX.toNat + ix.amountIn.toNat < 2 ^ 64 →
      dlmmApplySwap s ix = some (s', res) → OutputFeeAccounts s ix s' res := by
  intro hall
  have hsome : (dlmmApplySwap (outputFeePool 10000) ⟨3000, 0, 1⟩).isSome = true := by
    decide +kernel
  obtain ⟨⟨s', res⟩, h⟩ := Option.isSome_iff_exists.mp hsome
  have hin := (hall (outputFeePool 10000) s' ⟨3000, 0, 1⟩ res (by decide) (by decide)
    (by decide) (by decide) (by decide) h).in_total
  have hval : (dlmmApplySwap (outputFeePool 10000) ⟨3000, 0, 1⟩).map
      (fun r => inTotal true r.1.bins) = some 2970 := by decide +kernel
  rw [h, Option.map_some] at hval
  have hbefore : inTotal true (outputFeePool 10000).bins = 0 := by decide
  rw [Option.some.inj hval, hbefore] at hin
  exact absurd hin (by decide)

end ShredArb.Dlmm
