/-
  ShredArb.Exec.Route0 — the Route0 processor over local accounts
  (`arb-exec/src/route0.c`, `arb-exec/include/route0.h`).

  The processor moves tokens between 35 in-memory accounts with shims for the
  two venues.  It copies the accounts before the first leg and copies them back
  on every error; what a leg has already moved when it fails is therefore part
  of the model.

  Conventions:
    • `nacc` and `ixlen` are the lengths of the two lists,
    • an account's 256 data bytes are a list with its length as a field, so a
      short buffer cannot be built,
    • the pointers of the source are never null here.

  Main results:
    * `route0_atomic_conserving` — an error leaves every account as it was; a
      success changes amount fields only, keeps every mint's total, and pays.
    * `route0_inventory_iff` — a success sells what its first leg bought
      EXACTLY when the user held no base before.
-/
import ShredArb.Lib.Bytes

namespace ShredArb.Route0

open ShredArb.Bytes

/-! ## §1. Accounts. -/

abbrev execAccData : Nat := 256
abbrev splAmountOff : Nat := 64
abbrev splMintOff : Nat := 0

/-- `exec_account_t`. -/
structure ExecAccount where
  key : List UInt8
  owner : List UInt8
  lamports : UInt64
  dlen : UInt16
  writable : UInt8
  signer : UInt8
  data : List UInt8
  data_len : data.length = execAccData
  deriving DecidableEq, Repr

instance : Inhabited ExecAccount :=
  ⟨[], [], 0, 0, 0, 0, List.replicate execAccData 0, List.length_replicate⟩

abbrev accAuthority : Nat := 0
abbrev accUserQuote : Nat := 1
abbrev accUserBase : Nat := 2
abbrev accDlmmLbPair : Nat := 9
abbrev accDlmmReserveX : Nat := 11
abbrev accDlmmReserveY : Nat := 12
abbrev accPumpPool : Nat := 21
abbrev accPumpPoolBase : Nat := 27
abbrev accPumpPoolQuote : Nat := 28

abbrev route0N : Nat := 35
abbrev route0IxLen : Nat := 25

/-- `ROUTE0_DISC`: "ARBEXEC0". -/
def disc : List UInt8 := [0x41, 0x52, 0x42, 0x45, 0x58, 0x45, 0x43, 0x30]

abbrev dirDlmmThenPump : UInt8 := 0

/-- The return codes. -/
inductive Rc where
  | ok | errIx | errAccounts | errSigner | errDlmm | errPump | errProfit | errToken
  deriving DecidableEq, Repr

abbrev cuEntry : Nat := 5000
abbrev cuAccount : Nat := 100
abbrev cuCpi : Nat := 15000
abbrev cuTransfer : Nat := 3000
abbrev cuGuard : Nat := 500

/-- `route0_result_t`. -/
structure Route0Result where
  rc : Rc
  cu : Nat
  quoteBefore : UInt64
  quoteAfter : UInt64
  baseBefore : UInt64
  baseAfter : UInt64
  deriving DecidableEq, Repr

/-- `&acc[i]`. -/
def acct (acc : List ExecAccount) (i : Nat) : ExecAccount := acc.getD i default

/-! ## §2. Token balances. -/

/-- The mint of a token account. -/
def ExecAccount.mint (a : ExecAccount) : List UInt8 := field a.data splMintOff 32

/-- The amount field. -/
def ExecAccount.amount (a : ExecAccount) : UInt64 := loadU64 (field a.data splAmountOff 8)

theorem patch_amount_len (a : ExecAccount) (v : UInt64) :
    (patch a.data splAmountOff (u64le v)).length = execAccData := by
  rw [length_patch, a.data_len]
  rw [length_u64le, a.data_len]
  decide

/-- The account with another amount. -/
def ExecAccount.setAmount (a : ExecAccount) (v : UInt64) : ExecAccount :=
  { a with data := patch a.data splAmountOff (u64le v), data_len := patch_amount_len a v }

/-- `tok_amt`. -/
def tokAmt (a : ExecAccount) : Option UInt64 :=
  if a.dlen.toNat < splAmountOff + 8 then none else some a.amount

/-- `tok_set`. -/
def tokSet (a : ExecAccount) (v : UInt64) : Option ExecAccount :=
  if a.writable = 0 ∨ a.dlen.toNat < splAmountOff + 8 then none else some (a.setAmount v)

/-- What a call leaves behind: whether it succeeded, the accounts, the CU. -/
structure Moved where
  ok : Bool
  acc : List ExecAccount
  cu : Nat

/-- `transfer`, between two different entries of the array. -/
def transfer (acc : List ExecAccount) (src dst : Nat) (n : UInt64) (cu : Nat) : Moved :=
  if (acct acc src).mint ≠ (acct acc dst).mint then ⟨false, acc, cu⟩
  else
    match tokAmt (acct acc src), tokAmt (acct acc dst) with
    | some a, some b =>
        if a < n ∨ b > 0xffffffffffffffff - n then ⟨false, acc, cu⟩
        else
          match tokSet (acct acc src) (a - n) with
          | none => ⟨false, acc, cu⟩
          | some s =>
              match tokSet (acct acc dst) (b + n) with
              | none => ⟨false, acc.set src s, cu⟩
              | some d => ⟨true, (acc.set src s).set dst d, cu + cuTransfer⟩
    | _, _ => ⟨false, acc, cu⟩

/-! ## §3. The venue shims. -/

/-- `mul_div`. -/
def mulDiv (amt num den : UInt64) : Option UInt64 :=
  if den = 0 then none
  else if num ≠ 0 ∧ amt > 0xffffffffffffffff / num then none
  else some (amt * num / den)

/-- `rate_out`: numerator, denominator and fail flag of a venue's config. -/
def rateOut (cfg : ExecAccount) (amountIn : UInt64) : Option UInt64 :=
  if cfg.dlen.toNat < 17 then none
  else if cfg.data.getD 16 0 ≠ 0 then none
  else mulDiv amountIn (loadU64 (field cfg.data 0 8)) (loadU64 (field cfg.data 8 8))

/-- What a shim leaves behind. -/
structure Cpi where
  rc : Rc
  acc : List ExecAccount
  cu : Nat

/-- The body `cpi_dlmm` and `cpi_pump` share: `amountIn` from the user to the
venue, what the rate gives for it from the venue to the user. -/
def cpiShim (cfg userIn resIn resOut userOut : Nat) (err : Rc) (acc : List ExecAccount)
    (amountIn : UInt64) (cu : Nat) : Cpi :=
  match rateOut (acct acc cfg) amountIn with
  | none => ⟨err, acc, cu + cuCpi⟩
  | some out =>
      let t1 := transfer acc userIn resIn amountIn (cu + cuCpi)
      if t1.ok then
        let t2 := transfer t1.acc resOut userOut out t1.cu
        if t2.ok then ⟨.ok, t2.acc, t2.cu⟩ else ⟨.errToken, t2.acc, t2.cu⟩
      else ⟨.errToken, t1.acc, t1.cu⟩

/-- `cpi_dlmm`. -/
def cpiDlmm (acc : List ExecAccount) (amountIn : UInt64) (swapForY : Bool) (cu : Nat) : Cpi :=
  if swapForY then
    cpiShim accDlmmLbPair accUserBase accDlmmReserveX accDlmmReserveY accUserQuote .errDlmm
      acc amountIn cu
  else
    cpiShim accDlmmLbPair accUserQuote accDlmmReserveY accDlmmReserveX accUserBase .errDlmm
      acc amountIn cu

/-- `cpi_pump`. -/
def cpiPump (acc : List ExecAccount) (amountIn : UInt64) (sell : Bool) (cu : Nat) : Cpi :=
  if sell then
    cpiShim accPumpPool accUserBase accPumpPoolBase accPumpPoolQuote accUserQuote .errPump
      acc amountIn cu
  else
    cpiShim accPumpPool accUserQuote accPumpPoolQuote accPumpPoolBase accUserBase .errPump
      acc amountIn cu

/-! ## §4. The processor. -/

/-- The first leg. -/
def firstLeg (acc : List ExecAccount) (direction : UInt8) (amountIn : UInt64) (cu : Nat) : Cpi :=
  if direction = dirDlmmThenPump then cpiDlmm acc amountIn false cu
  else cpiPump acc amountIn false cu

/-- The second leg, on `mid` base. -/
def secondLeg (acc : List ExecAccount) (direction : UInt8) (mid : UInt64) (cu : Nat) : Cpi :=
  if direction = dirDlmmThenPump then cpiPump acc mid true cu
  else cpiDlmm acc mid true cu

/-- Both legs: the second one is given the user's WHOLE base balance. -/
def legs (acc : List ExecAccount) (direction : UInt8) (amountIn : UInt64) (cu : Nat) : Cpi :=
  let first := firstLeg acc direction amountIn cu
  if first.rc = .ok then
    match tokAmt (acct first.acc accUserBase) with
    | none => ⟨.errToken, first.acc, first.cu⟩
    | some mid => secondLeg first.acc direction mid first.cu
  else first

/-- An early return: `memset(out, 0)` and the code. -/
def refused (rc : Rc) : Route0Result := ⟨rc, 0, 0, 0, 0, 0⟩

/-- `route0_process`: the result and the accounts. -/
def route0Process (acc : List ExecAccount) (ix : List UInt8) :
    Route0Result × List ExecAccount :=
  if ix.length ≠ route0IxLen then (refused .errIx, acc)
  else if ix.take 8 ≠ disc then (refused .errIx, acc)
  else if acc.length ≠ route0N then (refused .errAccounts, acc)
  else if (acct acc accAuthority).signer = 0 then (refused .errSigner, acc)
  else
    let direction := ix.getD 8 0
    let amountIn := loadU64 (field ix 9 8)
    let minProfit := loadU64 (field ix 17 8)
    if direction > 1 ∨ amountIn = 0 then (refused .errIx, acc)
    else
      match tokAmt (acct acc accUserQuote), tokAmt (acct acc accUserBase) with
      | some q0, some b0 =>
          -- `snap` is `acc` as it is here
          let r := legs acc direction amountIn (cuEntry + route0N * cuAccount)
          if r.rc ≠ .ok then (⟨r.rc, r.cu, q0, q0, b0, b0⟩, acc)
          else
            match tokAmt (acct r.acc accUserQuote), tokAmt (acct r.acc accUserBase) with
            | some q1, some b1 =>
                if q1 < q0 ∨ q1 - q0 < minProfit then
                  (⟨.errProfit, r.cu + cuGuard, q0, q0, b0, b0⟩, acc)
                else (⟨.ok, r.cu + cuGuard, q0, q1, b0, b1⟩, r.acc)
            | _, _ => (⟨.errToken, r.cu + cuGuard, q0, q0, b0, b0⟩, acc)
      | _, _ => (refused .errToken, acc)

/-! ## §5. Amounts and accounts. -/

theorem fits_amount (a : ExecAccount) (v : UInt64) :
    splAmountOff + (u64le v).length ≤ a.data.length := by
  rw [length_u64le, a.data_len]
  decide

@[simp] theorem amount_setAmount (a : ExecAccount) (v : UInt64) :
    (a.setAmount v).amount = v := by
  have h := field_patch (fits_amount a v)
  rw [length_u64le] at h
  unfold ExecAccount.amount ExecAccount.setAmount
  rw [h, loadU64_u64le]

@[simp] theorem mint_setAmount (a : ExecAccount) (v : UInt64) :
    (a.setAmount v).mint = a.mint :=
  field_patch_of_le (by decide) (fits_amount a v)

theorem setAmount_setAmount (a : ExecAccount) (v w : UInt64) :
    (a.setAmount v).setAmount w = a.setAmount w := by
  have h : patch (patch a.data splAmountOff (u64le v)) splAmountOff (u64le w)
      = patch a.data splAmountOff (u64le w) :=
    patch_patch (by rw [length_u64le, length_u64le]) (fits_amount a v)
  unfold ExecAccount.setAmount
  simp only [h]

theorem acct_set_self {acc : List ExecAccount} {i : Nat} (h : i < acc.length)
    (a : ExecAccount) : acct (acc.set i a) i = a := by
  unfold acct
  rw [List.getD_eq_getElem?_getD, List.getElem?_set_self h, Option.getD_some]

theorem acct_set_ne {acc : List ExecAccount} {i j : Nat} (h : i ≠ j) (a : ExecAccount) :
    acct (acc.set i a) j = acct acc j := by
  unfold acct
  rw [List.getD_eq_getElem?_getD, List.getD_eq_getElem?_getD, List.getElem?_set_ne h]

/-! ## §6. One transfer. -/

/-- `n` tokens went from account `src` to account `dst`, and nothing else
changed. -/
structure Transferred (acc acc' : List ExecAccount) (src dst : Nat) (n : UInt64) : Prop where
  mint_eq : (acct acc src).mint = (acct acc dst).mint
  src_eq : acct acc' src = (acct acc src).setAmount ((acct acc src).amount - n)
  dst_eq : acct acc' dst = (acct acc dst).setAmount ((acct acc dst).amount + n)
  le_src : n ≤ (acct acc src).amount
  fits_dst : (acct acc dst).amount.toNat + n.toNat < 2 ^ 64
  frame : ∀ k, k ≠ src → k ≠ dst → acct acc' k = acct acc k
  length_eq : acc'.length = acc.length

theorem tokAmt_some {a : ExecAccount} {v : UInt64} (h : tokAmt a = some v) : v = a.amount := by
  unfold tokAmt at h
  split at h
  · cases h
  · exact (Option.some.inj h).symm

theorem tokSet_some {a b : ExecAccount} {v : UInt64} (h : tokSet a v = some b) :
    b = a.setAmount v := by
  unfold tokSet at h
  split at h
  · cases h
  · exact (Option.some.inj h).symm

/-- **A transfer that succeeds moves the amount and nothing else.** -/
theorem transfer_ok {acc : List ExecAccount} {src dst cu : Nat} {n : UInt64} (hne : src ≠ dst)
    (hs : src < acc.length) (hd : dst < acc.length) (h : (transfer acc src dst n cu).ok = true) :
    Transferred acc (transfer acc src dst n cu).acc src dst n := by
  unfold transfer at h ⊢
  by_cases hm : (acct acc src).mint ≠ (acct acc dst).mint
  · rw [if_pos hm] at h
    cases h
  rw [if_neg hm] at h ⊢
  cases ha : tokAmt (acct acc src) with
  | none =>
    simp only [ha] at h
    cases h
  | some a =>
    cases hb : tokAmt (acct acc dst) with
    | none =>
      simp only [ha, hb] at h
      cases h
    | some b =>
      simp only [ha, hb] at h ⊢
      by_cases hg : a < n ∨ b > 0xffffffffffffffff - n
      · rw [if_pos hg] at h
        cases h
      rw [if_neg hg] at h ⊢
      cases hsrc : tokSet (acct acc src) (a - n) with
      | none =>
        simp only [hsrc] at h
        cases h
      | some s =>
        cases hdst : tokSet (acct acc dst) (b + n) with
        | none =>
          simp only [hsrc, hdst] at h
          cases h
        | some d =>
          simp only
          obtain ⟨hge, hfit⟩ := not_or.mp hg
          have hfit' : b.toNat + n.toNat < 2 ^ 64 := by
            have hle := UInt64.le_iff_toNat_le.mp (UInt64.not_lt.mp hfit)
            have hn : n ≤ 0xffffffffffffffff := UInt64.le_iff_toNat_le.mpr (by
              have := UInt64.toNat_lt n
              have hmax : (0xffffffffffffffff : UInt64).toNat = 2 ^ 64 - 1 := by decide
              omega)
            rw [UInt64.toNat_sub_of_le _ _ hn] at hle
            have hmax : (0xffffffffffffffff : UInt64).toNat = 2 ^ 64 - 1 := by decide
            have := UInt64.toNat_lt n
            omega
          rw [tokAmt_some ha, tokAmt_some hb] at *
          rw [tokSet_some hsrc, tokSet_some hdst]
          refine ⟨not_not.mp hm, ?_, ?_, UInt64.not_lt.mp hge, hfit', ?_, ?_⟩
          · rw [acct_set_ne hne.symm, acct_set_self hs]
          · exact acct_set_self (by rw [List.length_set]; exact hd) _
          · intro k hks hkd
            rw [acct_set_ne (Ne.symm hkd), acct_set_ne (Ne.symm hks)]
          · rw [List.length_set, List.length_set]

/-! ## §7. What moves keep. -/

/-- The user's and the venues' token accounts. -/
def tokenAccounts : Finset Nat :=
  {accUserQuote, accUserBase, accDlmmReserveX, accDlmmReserveY, accPumpPoolBase, accPumpPoolQuote}

/-- What the token accounts hold of a mint, together. -/
def mintTotal (m : List UInt8) (acc : List ExecAccount) : Nat :=
  ∑ i ∈ tokenAccounts, if (acct acc i).mint = m then (acct acc i).amount.toNat else 0

/-- `a'` is `a`, up to the amount field. -/
def OnlyAmount (a a' : ExecAccount) : Prop := a' = a ∨ ∃ v, a' = a.setAmount v

theorem OnlyAmount.trans {a b c : ExecAccount} (h : OnlyAmount a b) (h' : OnlyAmount b c) :
    OnlyAmount a c := by
  rcases h' with rfl | ⟨w, rfl⟩
  · exact h
  · rcases h with rfl | ⟨v, rfl⟩
    · exact Or.inr ⟨w, rfl⟩
    · exact Or.inr ⟨w, setAmount_setAmount a v w⟩

/-- Nothing changed but amount fields of token accounts, and no mint's total. -/
structure Conserved (acc acc' : List ExecAccount) : Prop where
  length_eq : acc'.length = acc.length
  outside : ∀ i, i ∉ tokenAccounts → acct acc' i = acct acc i
  inside : ∀ i ∈ tokenAccounts, OnlyAmount (acct acc i) (acct acc' i)
  total : ∀ m, mintTotal m acc' = mintTotal m acc

theorem Conserved.trans {a b c : List ExecAccount} (h : Conserved a b) (h' : Conserved b c) :
    Conserved a c :=
  ⟨h'.length_eq.trans h.length_eq,
    fun i hi => (h'.outside i hi).trans (h.outside i hi),
    fun i hi => (h.inside i hi).trans (h'.inside i hi),
    fun m => (h'.total m).trans (h.total m)⟩

/-- A sum in which two terms trade with each other. -/
theorem sum_move {S : Finset Nat} {f g : Nat → Nat} {i j : Nat} (hij : i ≠ j) (hi : i ∈ S)
    (hj : j ∈ S) (hmove : g i + g j = f i + f j) (hrest : ∀ k, k ≠ i → k ≠ j → g k = f k) :
    ∑ k ∈ S, g k = ∑ k ∈ S, f k := by
  have hj' : j ∈ S.erase i := Finset.mem_erase.mpr ⟨hij.symm, hj⟩
  rw [← Finset.add_sum_erase S g hi, ← Finset.add_sum_erase S f hi,
    ← Finset.add_sum_erase (S.erase i) g hj', ← Finset.add_sum_erase (S.erase i) f hj',
    ← Nat.add_assoc, ← Nat.add_assoc, hmove]
  congr 1
  refine Finset.sum_congr rfl ?_
  intro k hk
  obtain ⟨hkj, hk⟩ := Finset.mem_erase.mp hk
  exact hrest k (Finset.mem_erase.mp hk).1 hkj

/-- **One transfer between token accounts conserves.** -/
theorem Transferred.conserved {acc acc' : List ExecAccount} {src dst : Nat} {n : UInt64}
    (h : Transferred acc acc' src dst n) (hne : src ≠ dst) (hs : src ∈ tokenAccounts)
    (hd : dst ∈ tokenAccounts) : Conserved acc acc' := by
  refine ⟨h.length_eq, ?_, ?_, ?_⟩
  · intro i hi
    exact h.frame i (fun heq => hi (heq ▸ hs)) (fun heq => hi (heq ▸ hd))
  · intro i hi
    by_cases h1 : i = src
    · rw [h1]
      exact Or.inr ⟨_, h.src_eq⟩
    · by_cases h2 : i = dst
      · rw [h2]
        exact Or.inr ⟨_, h.dst_eq⟩
      · exact Or.inl (h.frame i h1 h2)
  · intro m
    refine sum_move hne hs hd ?_ ?_
    · have hsub : ((acct acc src).amount - n).toNat = (acct acc src).amount.toNat - n.toNat :=
        UInt64.toNat_sub_of_le _ _ h.le_src
      have hadd : ((acct acc dst).amount + n).toNat = (acct acc dst).amount.toNat + n.toNat := by
        rw [UInt64.toNat_add, Nat.mod_eq_of_lt h.fits_dst]
      have hle := UInt64.le_iff_toNat_le.mp h.le_src
      rw [h.src_eq, h.dst_eq]
      simp only [mint_setAmount, amount_setAmount, hsub, hadd, h.mint_eq]
      split <;> omega
    · intro k hks hkd
      rw [h.frame k hks hkd]

/-- What a shim that succeeds did: two transfers. -/
theorem cpiShim_ok {acc : List ExecAccount} {cfg userIn resIn resOut userOut cu : Nat} {err : Rc}
    {n : UInt64} (herr : err ≠ .ok)
    (h1 : userIn ≠ resIn) (h2 : resOut ≠ userOut) (hl : ∀ i ∈ [userIn, resIn, resOut, userOut],
      i < acc.length)
    (h : (cpiShim cfg userIn resIn resOut userOut err acc n cu).rc = .ok) :
    ∃ mid out, Transferred acc mid userIn resIn n ∧
      Transferred mid (cpiShim cfg userIn resIn resOut userOut err acc n cu).acc
        resOut userOut out := by
  unfold cpiShim at h ⊢
  cases hr : rateOut (acct acc cfg) n with
  | none =>
    simp only [hr] at h
    exact absurd h herr
  | some out =>
    simp only [hr] at h ⊢
    by_cases ht1 : (transfer acc userIn resIn n (cu + cuCpi)).ok = true
    · rw [if_pos ht1] at h ⊢
      have hT1 := transfer_ok h1 (hl _ (by simp)) (hl _ (by simp)) ht1
      by_cases ht2 : (transfer (transfer acc userIn resIn n (cu + cuCpi)).acc resOut userOut out
          (transfer acc userIn resIn n (cu + cuCpi)).cu).ok = true
      · rw [if_pos ht2]
        refine ⟨_, out, hT1, transfer_ok h2 ?_ ?_ ht2⟩
        · rw [hT1.length_eq]
          exact hl _ (by simp)
        · rw [hT1.length_eq]
          exact hl _ (by simp)
      · rw [if_neg ht2] at h
        cases h
    · rw [if_neg ht1] at h
      cases h

/-! ## §8. The two legs. -/

/-- A swap: the user paid `n` from one account and got `out` on the other. -/
structure Leg (acc acc' : List ExecAccount) (userIn userOut : Nat) (n out : UInt64) : Prop where
  conserved : Conserved acc acc'
  le_paid : n ≤ (acct acc userIn).amount
  paid : (acct acc' userIn).amount = (acct acc userIn).amount - n
  got : (acct acc' userOut).amount.toNat = (acct acc userOut).amount.toNat + out.toNat

theorem mem_tokenAccounts_lt {i : Nat} (h : i ∈ tokenAccounts) : i < route0N := by
  revert i
  decide

/-- **A shim that succeeds is a swap.** -/
theorem cpiShim_leg {acc : List ExecAccount} {cfg userIn resIn resOut userOut cu : Nat} {err : Rc}
    {n : UInt64} (hlen : acc.length = route0N) (herr : err ≠ .ok)
    (hnd : [userIn, resIn, resOut, userOut].Nodup)
    (hmem : ∀ i ∈ [userIn, resIn, resOut, userOut], i ∈ tokenAccounts)
    (h : (cpiShim cfg userIn resIn resOut userOut err acc n cu).rc = .ok) :
    ∃ out, Leg acc (cpiShim cfg userIn resIn resOut userOut err acc n cu).acc userIn userOut
      n out := by
  simp only [List.nodup_cons, List.mem_cons, List.not_mem_nil, or_false, not_or,
    not_false_eq_true, List.nodup_nil, and_true] at hnd
  obtain ⟨⟨h12, h13, h14⟩, ⟨h23, h24⟩, h34⟩ := hnd
  have hl : ∀ i ∈ [userIn, resIn, resOut, userOut], i < acc.length := by
    intro i hi
    rw [hlen]
    exact mem_tokenAccounts_lt (hmem i hi)
  obtain ⟨mid, out, hT1, hT2⟩ := cpiShim_ok herr h12 h34 hl h
  have hc1 := hT1.conserved h12 (hmem _ (by simp)) (hmem _ (by simp))
  have hc2 := hT2.conserved h34 (hmem _ (by simp)) (hmem _ (by simp))
  refine ⟨out, hc1.trans hc2, hT1.le_src, ?_, ?_⟩
  · rw [hT2.frame userIn h13 h14, hT1.src_eq, amount_setAmount]
  · have hmid : acct mid userOut = acct acc userOut :=
      hT1.frame userOut (Ne.symm h14) (Ne.symm h24)
    have hfit := hT2.fits_dst
    rw [hmid] at hfit
    rw [hT2.dst_eq, amount_setAmount, hmid, UInt64.toNat_add, Nat.mod_eq_of_lt hfit]

theorem firstLeg_leg {acc : List ExecAccount} {direction : UInt8} {n : UInt64} {cu : Nat}
    (hlen : acc.length = route0N) (h : (firstLeg acc direction n cu).rc = .ok) :
    ∃ out, Leg acc (firstLeg acc direction n cu).acc accUserQuote accUserBase n out := by
  unfold firstLeg cpiDlmm cpiPump at h ⊢
  simp only [Bool.false_eq_true, if_false] at h ⊢
  by_cases hdir : direction = dirDlmmThenPump
  · simp only [if_pos hdir] at h ⊢
    exact cpiShim_leg hlen (by decide) (by decide) (by decide) h
  · simp only [if_neg hdir] at h ⊢
    exact cpiShim_leg hlen (by decide) (by decide) (by decide) h

theorem secondLeg_leg {acc : List ExecAccount} {direction : UInt8} {mid : UInt64} {cu : Nat}
    (hlen : acc.length = route0N) (h : (secondLeg acc direction mid cu).rc = .ok) :
    ∃ out, Leg acc (secondLeg acc direction mid cu).acc accUserBase accUserQuote mid out := by
  unfold secondLeg cpiDlmm cpiPump at h ⊢
  simp only [if_true] at h ⊢
  by_cases hdir : direction = dirDlmmThenPump
  · simp only [if_pos hdir] at h ⊢
    exact cpiShim_leg hlen (by decide) (by decide) (by decide) h
  · simp only [if_neg hdir] at h ⊢
    exact cpiShim_leg hlen (by decide) (by decide) (by decide) h

/-- Both legs succeeded: the second one sold the whole base balance the first
one left. -/
theorem legs_ok {acc : List ExecAccount} {direction : UInt8} {n : UInt64} {cu : Nat}
    (hlen : acc.length = route0N) (h : (legs acc direction n cu).rc = .ok) :
    ∃ bought got, Leg acc (firstLeg acc direction n cu).acc accUserQuote accUserBase n bought ∧
      Leg (firstLeg acc direction n cu).acc (legs acc direction n cu).acc accUserBase
        accUserQuote (acct (firstLeg acc direction n cu).acc accUserBase).amount got := by
  unfold legs at h ⊢
  simp only at h ⊢
  by_cases hfirst : (firstLeg acc direction n cu).rc = .ok
  · rw [if_pos hfirst] at h ⊢
    obtain ⟨bought, hleg1⟩ := firstLeg_leg hlen hfirst
    have hlen1 := hleg1.conserved.length_eq.trans hlen
    cases hmid : tokAmt (acct (firstLeg acc direction n cu).acc accUserBase) with
    | none =>
      simp only [hmid] at h
      cases h
    | some mid =>
      simp only [hmid] at h ⊢
      obtain ⟨got, hleg2⟩ := secondLeg_leg hlen1 h
      rw [← tokAmt_some hmid]
      exact ⟨bought, got, hleg1, hleg2⟩
  · rw [if_neg hfirst] at h
    exact absurd h hfirst

/-! ## §9. The processor. -/

/-- The fields of the instruction data. -/
def ixDirection (ix : List UInt8) : UInt8 := ix.getD 8 0
def ixAmountIn (ix : List UInt8) : UInt64 := loadU64 (field ix 9 8)
def ixMinProfit (ix : List UInt8) : UInt64 := loadU64 (field ix 17 8)

/-- The legs of an instruction. -/
def ixLegs (acc : List ExecAccount) (ix : List UInt8) : Cpi :=
  legs acc (ixDirection ix) (ixAmountIn ix) (cuEntry + route0N * cuAccount)

/-- **What the processor returns**: an error with the accounts as they were, or
success with what both legs left and the profit asked for. -/
theorem route0Process_cases (acc : List ExecAccount) (ix : List UInt8) :
    ((route0Process acc ix).1.rc ≠ .ok ∧ (route0Process acc ix).2 = acc) ∨
    ((route0Process acc ix).1.rc = .ok ∧ acc.length = route0N ∧ (ixLegs acc ix).rc = .ok ∧
      (route0Process acc ix).2 = (ixLegs acc ix).acc ∧
      (acct acc accUserQuote).amount.toNat + (ixMinProfit ix).toNat
        ≤ (acct (ixLegs acc ix).acc accUserQuote).amount.toNat) := by
  unfold route0Process
  by_cases h1 : ix.length ≠ route0IxLen
  · rw [if_pos h1]
    exact Or.inl ⟨nofun, rfl⟩
  rw [if_neg h1]
  by_cases h2 : ix.take 8 ≠ disc
  · rw [if_pos h2]
    exact Or.inl ⟨nofun, rfl⟩
  rw [if_neg h2]
  by_cases h3 : acc.length ≠ route0N
  · rw [if_pos h3]
    exact Or.inl ⟨nofun, rfl⟩
  rw [if_neg h3]
  by_cases h4 : (acct acc accAuthority).signer = 0
  · rw [if_pos h4]
    exact Or.inl ⟨nofun, rfl⟩
  rw [if_neg h4]
  simp only
  by_cases h5 : ix.getD 8 0 > 1 ∨ loadU64 (field ix 9 8) = 0
  · rw [if_pos h5]
    exact Or.inl ⟨nofun, rfl⟩
  rw [if_neg h5]
  cases hq0 : tokAmt (acct acc accUserQuote) with
  | none => exact Or.inl ⟨nofun, rfl⟩
  | some q0 =>
    cases hb0 : tokAmt (acct acc accUserBase) with
    | none => exact Or.inl ⟨nofun, rfl⟩
    | some b0 =>
      simp only
      have hlegs : legs acc (ix.getD 8 0) (loadU64 (field ix 9 8)) (cuEntry + route0N * cuAccount)
          = ixLegs acc ix := rfl
      rw [hlegs]
      by_cases hrc : (ixLegs acc ix).rc ≠ .ok
      · rw [if_pos hrc]
        exact Or.inl ⟨hrc, rfl⟩
      rw [if_neg hrc]
      cases hq1 : tokAmt (acct (ixLegs acc ix).acc accUserQuote) with
      | none => exact Or.inl ⟨nofun, rfl⟩
      | some q1 =>
        cases hb1 : tokAmt (acct (ixLegs acc ix).acc accUserBase) with
        | none => exact Or.inl ⟨nofun, rfl⟩
        | some b1 =>
          simp only
          by_cases hp : q1 < q0 ∨ q1 - q0 < loadU64 (field ix 17 8)
          · rw [if_pos hp]
            exact Or.inl ⟨nofun, rfl⟩
          rw [if_neg hp]
          refine Or.inr ⟨rfl, not_not.mp h3, not_not.mp hrc, rfl, ?_⟩
          obtain ⟨hge, hpay⟩ := not_or.mp hp
          rw [← tokAmt_some hq0, ← tokAmt_some hq1]
          have hge' := UInt64.not_lt.mp hge
          have hpay' := UInt64.le_iff_toNat_le.mp (UInt64.not_lt.mp hpay)
          rw [UInt64.toNat_sub_of_le _ _ hge'] at hpay'
          have hle := UInt64.le_iff_toNat_le.mp hge'
          show q0.toNat + (loadU64 (field ix 17 8)).toNat ≤ q1.toNat
          omega

/-- **The processor is atomic and conserving**: on an error every account is as
it was; on success nothing but amount fields of the user's and the venues'
token accounts changed, every mint's total over them is what it was, and the
user's quote balance rose by at least `min_profit`. -/
theorem route0_atomic_conserving (acc : List ExecAccount) (ix : List UInt8) :
    ((route0Process acc ix).1.rc ≠ .ok → (route0Process acc ix).2 = acc) ∧
    ((route0Process acc ix).1.rc = .ok →
      Conserved acc (route0Process acc ix).2 ∧
      (acct acc accUserQuote).amount.toNat + (ixMinProfit ix).toNat
        ≤ (acct (route0Process acc ix).2 accUserQuote).amount.toNat) := by
  rcases route0Process_cases acc ix with ⟨herr, hacc⟩ | ⟨hok, hlen, hlegs, hacc, hprofit⟩
  · exact ⟨fun _ => hacc, fun hok => absurd hok herr⟩
  · refine ⟨fun herr => absurd hok herr, fun _ => ?_⟩
    obtain ⟨bought, got, hleg1, hleg2⟩ := legs_ok hlen hlegs
    rw [hacc]
    exact ⟨hleg1.conserved.trans hleg2.conserved, hprofit⟩

/-- A token account of mint `m` with an amount. -/
def tokenAcc (m : UInt8) (v : UInt64) : ExecAccount :=
  { (default : ExecAccount) with
    dlen := 165, writable := 1
    data := List.replicate 32 m ++ List.replicate 32 0 ++ u64le v ++ List.replicate 184 0
    data_len := by
      rw [List.length_append, List.length_append, List.length_append, length_u64le]
      simp only [List.length_replicate] }

/-- A venue that gives `num` for one. -/
def venueAcc (num : UInt64) : ExecAccount :=
  { (default : ExecAccount) with
    dlen := 17
    data := u64le num ++ u64le 1 ++ List.replicate 240 0
    data_len := by
      rw [List.length_append, List.length_append, length_u64le, length_u64le,
        List.length_replicate] }

/-- The accounts of a run: the user holds `b0` base. -/
def demoAccounts (b0 : UInt64) : List ExecAccount :=
  let a := List.replicate 35 (default : ExecAccount)
  let a := a.set accAuthority { (default : ExecAccount) with signer := 1 }
  let a := a.set accUserQuote (tokenAcc 1 1000)
  let a := a.set accUserBase (tokenAcc 2 b0)
  let a := a.set accDlmmLbPair (venueAcc 1)
  let a := a.set accDlmmReserveX (tokenAcc 2 9000)
  let a := a.set accDlmmReserveY (tokenAcc 1 9000)
  let a := a.set accPumpPool (venueAcc 2)
  let a := a.set accPumpPoolBase (tokenAcc 2 9000)
  a.set accPumpPoolQuote (tokenAcc 1 9000)

/-- Spend 100 for a profit of at least 1. -/
def demoIx : List UInt8 := disc ++ [0] ++ u64le 100 ++ u64le 1

theorem route0_atomic_conserving_demo :
    Conserved (demoAccounts 0) (route0Process (demoAccounts 0) demoIx).2 ∧
      (route0Process (demoAccounts 0) (demoIx.set 8 2)).2 = demoAccounts 0 :=
  ⟨((route0_atomic_conserving _ _).2 (by decide +kernel)).1,
    (route0_atomic_conserving _ _).1 (by decide +kernel)⟩

/-! ## §10. The inventory law. -/

/-- The user's base balance after the first leg of an instruction. -/
def midBase (acc : List ExecAccount) (ix : List UInt8) : Nat :=
  (acct (firstLeg acc (ixDirection ix) (ixAmountIn ix) (cuEntry + route0N * cuAccount)).acc
    accUserBase).amount.toNat

/-- What the first leg bought. -/
def boughtBase (acc : List ExecAccount) (ix : List UInt8) : Int :=
  midBase acc ix - (acct acc accUserBase).amount.toNat

/-- What the second leg sold. -/
def soldBase (acc : List ExecAccount) (ix : List UInt8) : Int :=
  midBase acc ix - (acct (route0Process acc ix).2 accUserBase).amount.toNat

/-- The second leg sells what the first one bought, and the user keeps the
base they had. -/
def InventoryLaw (acc : List ExecAccount) (ix : List UInt8) : Prop :=
  soldBase acc ix = boughtBase acc ix ∧
    (acct acc accUserBase).amount ≤ (acct (route0Process acc ix).2 accUserBase).amount

/-- A success leaves the user without base. -/
theorem route0_sells_all {acc : List ExecAccount} {ix : List UInt8}
    (h : (route0Process acc ix).1.rc = .ok) :
    (acct (route0Process acc ix).2 accUserBase).amount = 0 := by
  rcases route0Process_cases acc ix with ⟨herr, -⟩ | ⟨-, hlen, hlegs, hacc, -⟩
  · exact absurd h herr
  obtain ⟨bought, got, -, hleg2⟩ := legs_ok hlen hlegs
  have hpaid : (acct (ixLegs acc ix).acc accUserBase).amount = _ := hleg2.paid
  rw [hacc, hpaid, UInt64.sub_self]

/-- **The inventory law holds of the runs that start without base, and of no
other that succeeds.** -/
theorem route0_inventory_iff (acc : List ExecAccount) (ix : List UInt8) :
    ((route0Process acc ix).1.rc = .ok → InventoryLaw acc ix) ↔
      ((route0Process acc ix).1.rc = .ok → (acct acc accUserBase).amount = 0) := by
  refine imp_congr_right ?_
  intro hok
  have hzero := route0_sells_all hok
  unfold InventoryLaw soldBase boughtBase
  rw [hzero]
  constructor
  · rintro ⟨-, hle⟩
    exact UInt64.le_zero_iff.mp hle
  · intro h0
    rw [h0]
    exact ⟨rfl, UInt64.le_refl 0⟩

/-- **A user who held 500 base loses it**: the second leg sells 600. -/
theorem route0_sells_inventory :
    (route0Process (demoAccounts 500) demoIx).1.rc = .ok ∧
      boughtBase (demoAccounts 500) demoIx = 100 ∧ soldBase (demoAccounts 500) demoIx = 600 ∧
      ¬ InventoryLaw (demoAccounts 500) demoIx := by
  have hrun : (route0Process (demoAccounts 500) demoIx).1.rc = .ok ∧
      boughtBase (demoAccounts 500) demoIx = 100 ∧
      soldBase (demoAccounts 500) demoIx = 600 := by
    decide +kernel
  refine ⟨hrun.1, hrun.2.1, hrun.2.2, ?_⟩
  intro hlaw
  have heq := hlaw.1
  rw [hrun.2.1, hrun.2.2] at heq
  exact absurd heq (by decide)

end ShredArb.Route0
