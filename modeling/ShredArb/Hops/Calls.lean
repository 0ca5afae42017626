/-
  ShredArb.Hops.Calls — a chain of venue calls.

  `runCalls` says what executing a list of calls in order is: each call is
  handed the amount the call before it gained, and the first account must end
  ahead by the profit.  `process` is `runCalls` of the calls its data decodes
  to, and two chains that NO venue can tell apart make the same calls.

  Main results:
    * `process_eq_runCalls` — the loop executes the decoded calls,
    * `runCalls_inj` — equal on every venue, equal calls.
-/
import ShredArb.Hops.Safety

namespace ShredArb.Hops

open ShredArb.Univ ShredArb.Bytes

/-! ## §1. Calls. -/

/-- One venue call: the account it must feed, the instruction for an amount,
and the code a refusal gives. -/
@[ext]
structure Call where
  out : Pubkey
  ix : UInt64 → Instruction
  err : UInt32

/-- The amount in flight and the balances. -/
structure Flow where
  amount : UInt64
  world : World

def callStep (invoke : Invoke) (s : Flow) (k : Call) : Except UInt32 Flow := do
  let before ← tokAmt s.world ⟨k.out, false⟩
  match invoke (k.ix s.amount) s.world with
  | none => .error k.err
  | some w =>
    let after ← tokAmt w ⟨k.out, false⟩
    if satSub after before = 0 then .error errHop
    else .ok ⟨satSub after before, w⟩

/-- Execute the calls in order, from an amount; `user0` must gain the profit. -/
def runCalls (invoke : Invoke) (user0 : Pubkey) (amount minProfit : UInt64) (calls : List Call)
    (w : World) : Except UInt32 World := do
  let q0 ← tokAmt w ⟨user0, false⟩
  let s ← calls.foldlM (callStep invoke) ⟨amount, w⟩
  let q1 ← tokAmt s.world ⟨user0, false⟩
  if q1 < q0 ∨ q1 - q0 < minProfit then .error errProfit
  else .ok s.world

/-! ## §2. The loop of `process`. -/

/-- Where the accounts of a hop start. -/
def hopOff (data : List UInt8) (i : Nat) : Nat := sharedN + ((List.range i).map (hopN data)).sum

/-- Hop `i` of the data is the call. -/
structure Decodes (acc : List AccountInfo) (data : List UInt8) (i : Nat) (k : Call) : Prop where
  fits : hopOff data i + hopN data i ≤ acc.length
  call : ∀ amount, ∃ userIn userOut, userAta acc (hopIn data i) = .ok userIn ∧
    userAta acc (hopOut data i) = .ok userOut ∧ userOut.key = k.out ∧
    hopCall acc (hopOff data i) (hopProto data i) (hopN data i) amount userIn userOut
      = .ok (k.ix amount, k.err)

theorem tokAmt_key {w : World} {a b : AccountInfo} (h : a.key = b.key) :
    tokAmt w a = tokAmt w b := by
  rw [tokAmt, tokAmt, h]

theorem hopOff_succ (data : List UInt8) (i : Nat) :
    hopOff data (i + 1) = hopOff data i + hopN data i := by
  rw [hopOff, hopOff, List.range_succ, List.map_append, List.sum_append]
  simp only [List.map_cons, List.map_nil, List.sum_cons, List.sum_nil]
  omega

/-- A turn of the loop is the call it decodes to. -/
theorem hopStep_eq_callStep {invoke : Invoke} {acc : List AccountInfo} {data : List UInt8}
    {i : Nat} {k : Call} (hd : Decodes acc data i k) (amount : UInt64) (w : World) :
    hopStep invoke acc data ⟨amount, hopOff data i, w⟩ i =
      (callStep invoke ⟨amount, w⟩ k).map fun s =>
        (⟨s.amount, hopOff data (i + 1), s.world⟩ : HopState) := by
  obtain ⟨userIn, userOut, hin, hout, hkey, hcall⟩ := hd.call amount
  have htok : ∀ v : World, tokAmt v userOut = tokAmt v ⟨k.out, false⟩ := fun v => tokAmt_key hkey
  have hfit : ¬ hopOff data i + hopN data i > acc.length := by
    have := hd.fits
    omega
  simp only [hopStep, callStep, if_neg hfit, hin, hout, htok, hcall, bind, Except.bind]
  cases hb : tokAmt w ⟨k.out, false⟩ with
  | error e => rfl
  | ok before =>
    cases hinv : invoke (k.ix amount) w with
    | none => simp only [Except.map]
    | some w' =>
      simp only
      cases ha : tokAmt w' ⟨k.out, false⟩ with
      | error e => rfl
      | ok after =>
        simp only
        split
        · rfl
        · rw [hopOff_succ]
          rfl

/-- The turns from `j` on are the calls they decode to. -/
theorem foldlM_hopStep (invoke : Invoke) {acc : List AccountInfo} {data : List UInt8}
    (ks : List Call) : ∀ (j : Nat) (amount : UInt64) (w : World),
    (∀ i k, ks[i]? = some k → Decodes acc data (j + i) k) →
    (List.range' j ks.length).foldlM (hopStep invoke acc data) ⟨amount, hopOff data j, w⟩ =
      (ks.foldlM (callStep invoke) ⟨amount, w⟩).map fun s =>
        (⟨s.amount, hopOff data (j + ks.length), s.world⟩ : HopState) := by
  induction ks with
  | nil =>
    intro j amount w _
    rfl
  | cons k ks ih =>
    intro j amount w hd
    have hfirst : Decodes acc data j k := hd 0 k rfl
    rw [List.length_cons, List.range'_succ, List.foldlM_cons, List.foldlM_cons,
      hopStep_eq_callStep hfirst]
    cases hstep : callStep invoke ⟨amount, w⟩ k with
    | error e => rfl
    | ok s =>
      have hrest := ih (j + 1) s.amount s.world fun i k' hk' => by
        have := hd (i + 1) k' hk'
        rwa [show j + 1 + i = j + (i + 1) from by omega]
      rw [show j + (ks.length + 1) = j + 1 + ks.length from by omega]
      exact hrest

/-- **`process` executes the calls its data decodes to.** -/
theorem process_eq_runCalls {invoke : Invoke} {acc : List AccountInfo} {data : List UInt8}
    {ks : List Call} {amount minProfit : UInt64} (w : World)
    (hlen : data.length = ixLen) (hdisc : data.take 8 = disc) (hacc : sharedN ≤ acc.length)
    (hsign : (acct acc accAuthority).isSigner = true)
    (hcount : hopCount data = ks.length) (hks : ks.length = 2 ∨ ks.length = 3)
    (hamount : loadU64 (field data 9 8) = amount) (hpos : amount ≠ 0)
    (hprofit : loadU64 (field data 17 8) = minProfit)
    (hd : ∀ i k, ks[i]? = some k → Decodes acc data i k) :
    process invoke acc data w = runCalls invoke (userKey acc 0) amount minProfit ks w := by
  have hbad : ¬ (data.length ≠ ixLen ∨ data.take 8 ≠ disc) := by
    rintro (h | h)
    · exact h hlen
    · exact h hdisc
  have hcount' : (byteAt data 8).toNat = ks.length := hcount
  have hrange : ¬ (ks.length < 2 ∨ ks.length > 3) := by omega
  have hfold := foldlM_hopStep invoke ks 0 amount w fun i k hk => by
    rw [Nat.zero_add]
    exact hd i k hk
  have hoff : hopOff data 0 = sharedN := rfl
  rw [← List.range_eq_range', hoff] at hfold
  have hq : ∀ v : World, tokAmt v (acct acc accUser0) = tokAmt v ⟨userKey acc 0, false⟩ :=
    fun v => tokAmt_key rfl
  have hsign' : ¬ (acct acc accAuthority).isSigner = false := by
    rw [hsign]
    decide
  simp only [process, runCalls, if_neg hbad, if_neg (Nat.not_lt.mpr hacc), if_neg hsign', hcount',
    if_neg hrange, hamount, if_neg hpos, hprofit, hq, bind, Except.bind]
  cases hq0 : tokAmt w ⟨userKey acc 0, false⟩ with
  | error e => rfl
  | ok q0 =>
    simp only [hfold]
    cases hrun : ks.foldlM (callStep invoke) ⟨amount, w⟩ with
    | error e => rfl
    | ok s => rfl

/-! ## §3. Telling two chains apart. -/

/-- Every account holds `j`. -/
def counter (j : Nat) : World := fun _ => some (UInt64.ofNat j)

/-- A venue that credits every account by one, and refuses one instruction at
step `i`. -/
def probe (i : Nat) (bad : Instruction) : Invoke := fun ix w =>
  if w 0 = some (UInt64.ofNat i) ∧ ix = bad then none
  else some fun k => (w k).map (· + 1)

/-- What a step is handed when every step gains one. -/
def amountAt (amount : UInt64) (i : Nat) : UInt64 := if i = 0 then amount else 1

theorem ofNat_inj_of_lt {i j : Nat} (hi : i < 2 ^ 64) (hj : j < 2 ^ 64) :
    UInt64.ofNat i = UInt64.ofNat j ↔ i = j := by
  rw [← UInt64.toNat_inj, UInt64.toNat_ofNat_of_lt' hi, UInt64.toNat_ofNat_of_lt' hj]

theorem satSub_succ {j : Nat} (hj : j + 1 < 2 ^ 64) :
    satSub (UInt64.ofNat j + 1) (UInt64.ofNat j) = 1 := by
  have hj' : j < 2 ^ 64 := by omega
  have h1 : (UInt64.ofNat j).toNat = j := UInt64.toNat_ofNat_of_lt' hj'
  have h2 : (UInt64.ofNat j + 1).toNat = j + 1 := by
    rw [UInt64.toNat_add, h1]
    exact Nat.mod_eq_of_lt hj
  have hlt : ¬ UInt64.ofNat j + 1 < UInt64.ofNat j := by
    rw [UInt64.lt_iff_toNat_lt, h1, h2]
    omega
  rw [satSub, if_neg hlt, ← UInt64.toNat_inj, UInt64.toNat_sub_of_le, h1, h2]
  · show j + 1 - j = 1
    omega
  · rw [UInt64.le_iff_toNat_le, h1, h2]
    omega

theorem counter_succ (j : Nat) : (fun k => (counter j k).map (· + 1)) = counter (j + 1) := by
  funext k
  show some (UInt64.ofNat j + 1) = some (UInt64.ofNat (j + 1))
  rw [UInt64.ofNat_add]
  rfl

/-- One call of the probe. -/
theorem callStep_probe {i j : Nat} {bad : Instruction} {a : UInt64} {k : Call}
    (hi : i < 2 ^ 64) (hj : j + 1 < 2 ^ 64) :
    callStep (probe i bad) ⟨a, counter j⟩ k =
      if j = i ∧ k.ix a = bad then .error k.err else .ok ⟨1, counter (j + 1)⟩ := by
  have hcond : (counter j 0 = some (UInt64.ofNat i) ∧ k.ix a = bad) ↔ (j = i ∧ k.ix a = bad) := by
    rw [counter, Option.some.injEq, ofNat_inj_of_lt (by omega) hi]
  have hgain : satSub (UInt64.ofNat j + 1) (UInt64.ofNat j) = 1 := satSub_succ hj
  have hbefore : tokAmt (counter j) ⟨k.out, false⟩ = .ok (UInt64.ofNat j) := rfl
  have hafter : tokAmt (counter (j + 1)) ⟨k.out, false⟩ = .ok (UInt64.ofNat j + 1) := by
    rw [← counter_succ]
    rfl
  simp only [callStep, probe, hbefore, bind, Except.bind]
  by_cases h : j = i ∧ k.ix a = bad
  · rw [if_pos h, if_pos (hcond.mpr h)]
  · rw [if_neg h, if_neg (fun hc => h (hcond.mp hc)), counter_succ]
    simp only [hafter, hgain]
    rfl

/-- Calls the probe never refuses. -/
theorem foldlM_probe {i : Nat} (bad : Instruction) (hi : i < 2 ^ 64) (ks : List Call) :
    ∀ (j : Nat) (a : UInt64), j + ks.length < 2 ^ 64 →
    (∀ n k, ks[n]? = some k → ¬ (j + n = i ∧ k.ix (amountAt a n) = bad)) →
    ks.foldlM (callStep (probe i bad)) ⟨a, counter j⟩ =
      .ok ⟨amountAt a ks.length, counter (j + ks.length)⟩ := by
  induction ks with
  | nil =>
    intro j a _ _
    rfl
  | cons k ks ih =>
    intro j a hlt hok
    rw [List.length_cons] at hlt ⊢
    have h0 : ¬ (j = i ∧ k.ix a = bad) := hok 0 k rfl
    rw [List.foldlM_cons, callStep_probe hi (by omega), if_neg h0]
    have hrest := ih (j + 1) 1 (by omega) fun n k' hk' hbad => by
      refine hok (n + 1) k' hk' ⟨by omega, ?_⟩
      rw [amountAt, if_neg (by omega)]
      have hone : amountAt 1 n = 1 := by
        unfold amountAt
        split <;> rfl
      rw [← hone]
      exact hbad.2
    have hone : amountAt 1 ks.length = amountAt a (ks.length + 1) := by
      rw [amountAt, amountAt, if_neg (Nat.succ_ne_zero _)]
      split <;> rfl
    rw [show j + (ks.length + 1) = j + 1 + ks.length from by omega, ← hone]
    exact hrest

theorem runCalls_probe_pass {i : Nat} (bad : Instruction) (user0 : Pubkey)
    (amount : UInt64) {minProfit : UInt64} {ks : List Call} (hi : i < 2 ^ 64)
    (hsmall : ks.length < minProfit.toNat)
    (hok : ∀ n k, ks[n]? = some k → ¬ (n = i ∧ k.ix (amountAt amount n) = bad)) :
    runCalls (probe i bad) user0 amount minProfit ks (counter 0) = .error errProfit := by
  have hlt : ks.length < 2 ^ 64 := lt_trans hsmall (UInt64.toNat_lt minProfit)
  have hfold := foldlM_probe bad hi ks 0 amount (by omega) fun n k hk => by
    rw [Nat.zero_add]
    exact hok n k hk
  have hq : ∀ j, tokAmt (counter j) ⟨user0, false⟩ = .ok (UInt64.ofNat j) := fun _ => rfl
  have hn : (UInt64.ofNat ks.length).toNat = ks.length := UInt64.toNat_ofNat_of_lt' hlt
  have hloss : UInt64.ofNat ks.length - UInt64.ofNat 0 < minProfit := by
    rw [UInt64.lt_iff_toNat_lt]
    show (UInt64.ofNat ks.length - 0).toNat < _
    rw [UInt64.sub_zero, hn]
    exact hsmall
  simp only [runCalls, hq, hfold, bind, Except.bind, Nat.zero_add]
  rw [if_pos (Or.inr hloss)]

theorem runCalls_probe_refuse {i : Nat} (user0 : Pubkey) (amount minProfit : UInt64)
    {ks : List Call} {k : Call} (hlt : ks.length < 2 ^ 64) (hk : ks[i]? = some k) :
    runCalls (probe i (k.ix (amountAt amount i))) user0 amount minProfit ks (counter 0) =
      .error k.err := by
  obtain ⟨hi, hget⟩ := List.getElem?_eq_some_iff.mp hk
  have hpre : ks.foldlM (callStep (probe i (k.ix (amountAt amount i)))) ⟨amount, counter 0⟩ =
      .error k.err := by
    have hsplit : ks = ks.take i ++ k :: ks.drop (i + 1) := by
      rw [← hget, List.getElem_cons_drop, List.take_append_drop]
    have hlen : (ks.take i).length = i := by
      rw [List.length_take]
      omega
    have hfold := foldlM_probe (i := i) (k.ix (amountAt amount i)) (by omega) (ks.take i) 0
      amount (by omega) fun n k' hk' hbad => by
        have hn := (List.getElem?_eq_some_iff.mp hk').1
        omega
    have hcons : (k :: ks.drop (i + 1)).foldlM (callStep (probe i (k.ix (amountAt amount i))))
        ⟨amountAt amount i, counter i⟩ = .error k.err := by
      rw [List.foldlM_cons, callStep_probe (by omega) (by omega), if_pos ⟨rfl, rfl⟩]
      rfl
    rw [hsplit, List.foldlM_append, hfold, hlen, Nat.zero_add]
    exact hcons
  have hq : tokAmt (counter 0) ⟨user0, false⟩ = .ok (UInt64.ofNat 0) := rfl
  simp only [runCalls, hq, hpre, bind, Except.bind]

/-- **Two chains that no venue can tell apart make the same calls**, on the
amounts a chain that gains one each time is handed. -/
theorem runCalls_inj {user0 : Pubkey} {amount minProfit : UInt64} {ks ks' : List Call}
    (hlen : ks'.length = ks.length) (hsmall : ks.length < minProfit.toNat)
    (herr : ∀ k ∈ ks, k.err ≠ errProfit)
    (h : ∀ invoke w, runCalls invoke user0 amount minProfit ks w =
      runCalls invoke user0 amount minProfit ks' w)
    {i : Nat} {k k' : Call} (hk : ks[i]? = some k) (hk' : ks'[i]? = some k') :
    k'.ix (amountAt amount i) = k.ix (amountAt amount i) := by
  by_contra hne
  have hlt : ks.length < 2 ^ 64 := lt_trans hsmall (UInt64.toNat_lt minProfit)
  have hi := (List.getElem?_eq_some_iff.mp hk).1
  have hrefuse := runCalls_probe_refuse user0 amount minProfit hlt hk
  have hpass := runCalls_probe_pass (i := i) (k.ix (amountAt amount i)) user0 amount
    (by omega) (hlen ▸ hsmall) fun n kn hkn hbad => by
      obtain ⟨rfl, hbad⟩ := hbad
      rw [hk'] at hkn
      exact hne (Option.some.inj hkn ▸ hbad)
  rw [h, hpass] at hrefuse
  exact herr k (List.mem_of_getElem? hk) (Except.error.inj hrefuse).symm

end ShredArb.Hops
