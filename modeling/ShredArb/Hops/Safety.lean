/-
  ShredArb.Hops.Safety — the dispatcher spends only what it gained.

  Along a chain of hops the account that holds the amount in flight has gained
  it, so the next hop, which spends at most that amount from it, cannot take
  the account below where it started.

  Main results:
    * `hopStep_held` — one hop keeps the invariant,
    * `process_safe` — a successful run gains the profit and loses nothing else.
-/
import ShredArb.Hops.Program
import Mathlib.Tactic.Linarith

namespace ShredArb.Hops

open ShredArb.Univ ShredArb.Bytes

/-! ## §1. Chains and venues. -/

/-- The number of hops. -/
def hopCount (data : List UInt8) : Nat := (byteAt data 8).toNat

/-- From account 0, each output the next input, back to account 0. -/
structure WellChained (data : List UInt8) : Prop where
  first : hopIn data 0 = 0
  link : ∀ i, i + 1 < hopCount data → hopOut data i = hopIn data (i + 1)
  last : hopOut data (hopCount data - 1) = 0
  moves : ∀ i, i < hopCount data → hopIn data i ≠ hopOut data i

/-- The key of a user account. -/
def userKey (acc : List AccountInfo) (k : UInt8) : Pubkey := (acct acc (1 + k.toNat)).key

/-- Three different user accounts. -/
structure DistinctUsers (acc : List AccountInfo) : Prop where
  ne01 : userKey acc 0 ≠ userKey acc 1
  ne02 : userKey acc 0 ≠ userKey acc 2
  ne12 : userKey acc 1 ≠ userKey acc 2

/-- A venue call debits at most the amount from the input account, may credit
the output account, and touches no other user account. -/
structure Bounded (acc : List AccountInfo) (amount : UInt64) (kin kout : Pubkey)
    (w w' : World) : Prop where
  debit : ∀ a, w kin = some a → ∃ a', w' kin = some a' ∧ a.toNat ≤ a'.toNat + amount.toNat
  credit : ∀ b, w kout = some b → ∃ b', w' kout = some b' ∧ b.toNat ≤ b'.toNat
  other : ∀ k, k ≤ 2 → userKey acc k ≠ kin → userKey acc k ≠ kout →
    w' (userKey acc k) = w (userKey acc k)

/-- Every call the hops of the data make is bounded. -/
def VenuesBounded (invoke : Invoke) (acc : List AccountInfo) (data : List UInt8) : Prop :=
  ∀ i, i < hopCount data → ∀ off amount userIn userOut c,
    userAta acc (hopIn data i) = .ok userIn → userAta acc (hopOut data i) = .ok userOut →
    hopCall acc off (hopProto data i) (hopN data i) amount userIn userOut = .ok c →
    ∀ w w', invoke c.1 w = some w' → Bounded acc amount userIn.key userOut.key w w'

theorem userAta_ok {acc : List AccountInfo} {k : UInt8} {a : AccountInfo}
    (h : userAta acc k = .ok a) : k ≤ 2 ∧ a.key = userKey acc k := by
  unfold userAta at h
  split at h
  · rename_i hk
    rw [← Except.ok.inj h, hk]
    exact ⟨by decide, rfl⟩
  · split at h
    · rename_i hk
      rw [← Except.ok.inj h, hk]
      exact ⟨by decide, rfl⟩
    · split at h
      · rename_i hk
        rw [← Except.ok.inj h, hk]
        exact ⟨by decide, rfl⟩
      · exact absurd h (by simp)

theorem cases_of_le_two {k : UInt8} (h : k ≤ 2) : k = 0 ∨ k = 1 ∨ k = 2 := by
  have h' : k.toNat ≤ 2 := h
  rw [← UInt8.toNat_inj, ← UInt8.toNat_inj, ← UInt8.toNat_inj]
  show k.toNat = 0 ∨ k.toNat = 1 ∨ k.toNat = 2
  omega

theorem DistinctUsers.key_inj {acc : List AccountInfo} (h : DistinctUsers acc) {j k : UInt8}
    (hj : j ≤ 2) (hk : k ≤ 2) (heq : userKey acc j = userKey acc k) : j = k := by
  rcases cases_of_le_two hj with rfl | rfl | rfl <;> rcases cases_of_le_two hk with rfl | rfl | rfl
  · rfl
  · exact absurd heq h.ne01
  · exact absurd heq h.ne02
  · exact absurd heq.symm h.ne01
  · rfl
  · exact absurd heq h.ne12
  · exact absurd heq.symm h.ne02
  · exact absurd heq.symm h.ne12
  · rfl

/-! ## §2. One hop. -/

theorem tokAmt_ok {w : World} {a : AccountInfo} {x : UInt64} :
    tokAmt w a = .ok x ↔ w a.key = some x := by
  unfold tokAmt
  cases w a.key with
  | none => simp
  | some y => simp

/-- What a successful hop did. -/
theorem hopStep_ok {invoke : Invoke} {acc : List AccountInfo} {data : List UInt8}
    {s s' : HopState} {i : Nat} (h : hopStep invoke acc data s i = .ok s') :
    ∃ userIn userOut before after c, userAta acc (hopIn data i) = .ok userIn ∧
      userAta acc (hopOut data i) = .ok userOut ∧ s.world userOut.key = some before ∧
      hopCall acc s.off (hopProto data i) (hopN data i) s.amount userIn userOut = .ok c ∧
      invoke c.1 s.world = some s'.world ∧ s'.world userOut.key = some after ∧
      s'.amount = satSub after before ∧ s'.off = s.off + hopN data i := by
  unfold hopStep at h
  split at h
  · exact absurd h (by simp)
  · cases hin : userAta acc (hopIn data i) with
    | error e => rw [hin] at h; exact absurd h (by simp [bind, Except.bind])
    | ok userIn =>
    cases hout : userAta acc (hopOut data i) with
    | error e => rw [hin, hout] at h; exact absurd h (by simp [bind, Except.bind])
    | ok userOut =>
    cases hbefore : tokAmt s.world userOut with
    | error e => rw [hin, hout] at h; exact absurd h (by simp [bind, Except.bind, hbefore])
    | ok before =>
    cases hc : hopCall acc s.off (hopProto data i) (hopN data i) s.amount userIn userOut with
    | error e => rw [hin, hout] at h; exact absurd h (by simp [bind, Except.bind, hbefore, hc])
    | ok c =>
    cases hinv : invoke c.1 s.world with
    | none =>
      rw [hin, hout] at h
      exact absurd h (by simp [bind, Except.bind, hbefore, hc, hinv])
    | some w =>
    cases hafter : tokAmt w userOut with
    | error e =>
      rw [hin, hout] at h
      exact absurd h (by simp [bind, Except.bind, hbefore, hc, hinv, hafter])
    | ok after =>
    rw [hin, hout] at h
    simp only [bind, Except.bind, hbefore, hc, hinv, hafter] at h
    split at h
    · exact absurd h (by simp)
    · obtain rfl := Except.ok.inj h
      exact ⟨userIn, userOut, before, after, c, rfl, rfl, tokAmt_ok.mp hbefore, hc, hinv,
        tokAmt_ok.mp hafter, rfl, rfl⟩

/-- Users 1 and 2 hold what they started with, and the account in flight holds
the amount on top. -/
def Held (acc : List AccountInfo) (w0 : World) (cur : UInt8) (s : HopState) : Prop :=
  ∀ k, k = 1 ∨ k = 2 → ∀ b0, w0 (userKey acc k) = some b0 →
    ∃ b, s.world (userKey acc k) = some b ∧
      b0.toNat + (if cur = k then s.amount.toNat else 0) ≤ b.toNat

theorem satSub_toNat {a b : UInt64} (h : b.toNat ≤ a.toNat) :
    (satSub a b).toNat = a.toNat - b.toNat := by
  unfold satSub
  rw [if_neg (by rw [UInt64.lt_iff_toNat_lt]; omega),
    UInt64.toNat_sub_of_le _ _ (UInt64.le_iff_toNat_le.mpr h)]

/-- **One hop**: from the account in flight to another. -/
theorem hopStep_held {invoke : Invoke} {acc : List AccountInfo} {data : List UInt8}
    (hd : DistinctUsers acc) (hv : VenuesBounded invoke acc data) {w0 : World} {s s' : HopState}
    {i : Nat} (hi : i < hopCount data) (hmoves : hopIn data i ≠ hopOut data i)
    (hheld : Held acc w0 (hopIn data i) s) (h : hopStep invoke acc data s i = .ok s') :
    Held acc w0 (hopOut data i) s' := by
  obtain ⟨userIn, userOut, before, after, c, hin, hout, hbefore, hc, hinv, hafter, hamt, -⟩ :=
    hopStep_ok h
  obtain ⟨hin2, hinKey⟩ := userAta_ok hin
  obtain ⟨hout2, houtKey⟩ := userAta_ok hout
  have hb := hv i hi _ _ _ _ _ hin hout hc _ _ hinv
  rw [hinKey, houtKey] at hb
  rw [houtKey] at hbefore hafter
  intro k hk b0 hb0
  have hk2 : k ≤ 2 := by rcases hk with rfl | rfl <;> decide
  obtain ⟨b, hbk, hle⟩ := hheld k hk b0 hb0
  by_cases hkin : hopIn data i = k
  · -- the account that paid
    subst hkin
    obtain ⟨a', ha', hdebit⟩ := hb.debit b hbk
    refine ⟨a', ha', ?_⟩
    rw [if_pos rfl] at hle
    rw [if_neg (Ne.symm hmoves)]
    omega
  · rw [if_neg hkin] at hle
    by_cases hkout : hopOut data i = k
    · -- the account that received: the amount is what it gained
      subst hkout
      rw [hbk] at hbefore
      obtain rfl := Option.some.inj hbefore
      obtain ⟨b', hb', hcredit⟩ := hb.credit b hbk
      rw [hafter] at hb'
      obtain rfl := Option.some.inj hb'
      refine ⟨after, hafter, ?_⟩
      rw [if_pos rfl, hamt, satSub_toNat hcredit]
      omega
    · -- the account that was not part of it
      refine ⟨b, ?_, ?_⟩
      · rw [hb.other k hk2 (fun heq => hkin (hd.key_inj hk2 hin2 heq).symm)
          (fun heq => hkout (hd.key_inj hk2 hout2 heq).symm)]
        exact hbk
      · rw [if_neg hkout]
        exact hle

/-! ## §3. The whole chain. -/

/-- The account in flight after the first `k` hops. -/
def inFlight (data : List UInt8) : Nat → UInt8
  | 0 => 0
  | k + 1 => hopOut data k

theorem hopSteps_held {invoke : Invoke} {acc : List AccountInfo} {data : List UInt8}
    (hd : DistinctUsers acc) (hv : VenuesBounded invoke acc data) (hch : WellChained data)
    {w0 : World} (k : Nat) : k ≤ hopCount data → ∀ {s s' : HopState}, Held acc w0 0 s →
      (List.range k).foldlM (hopStep invoke acc data) s = .ok s' →
      Held acc w0 (inFlight data k) s' := by
  induction k with
  | zero =>
    intro _ s s' hheld h
    obtain rfl := Except.ok.inj h
    exact hheld
  | succ k ih =>
    intro hk s s' hheld h
    rw [List.range_succ, List.foldlM_append] at h
    cases hmid : (List.range k).foldlM (hopStep invoke acc data) s with
    | error e => rw [hmid] at h; exact absurd h (by simp [bind, Except.bind])
    | ok mid =>
      rw [hmid] at h
      have hlast : hopStep invoke acc data mid k = .ok s' := by
        cases hstep : hopStep invoke acc data mid k with
        | error e => exact absurd h (by simp [bind, Except.bind, hstep])
        | ok t => simpa [bind, Except.bind, hstep, pure, Except.pure] using h
      have hheld' := ih (by omega) hheld hmid
      -- the account in flight is the next input
      have hcur : inFlight data k = hopIn data k := by
        cases k with
        | zero => exact hch.first.symm
        | succ k => exact hch.link k (by omega)
      rw [hcur] at hheld'
      exact hopStep_held hd hv (by omega) (hch.moves k (by omega)) hheld' hlast

/-- What a successful `process` did. -/
theorem process_ok {invoke : Invoke} {acc : List AccountInfo} {data : List UInt8} {w w' : World}
    (h : process invoke acc data w = .ok w') :
    ∃ q0 q1 s, (2 ≤ hopCount data ∧ hopCount data ≤ 3) ∧ w (userKey acc 0) = some q0 ∧
      (List.range (hopCount data)).foldlM (hopStep invoke acc data)
        ⟨loadU64 (field data 9 8), sharedN, w⟩ = .ok s ∧
      s.world = w' ∧ w' (userKey acc 0) = some q1 ∧
      q0.toNat + (loadU64 (field data 17 8)).toNat ≤ q1.toNat := by
  unfold process at h
  split at h
  · exact absurd h (by simp)
  · split at h
    · exact absurd h (by simp)
    · split at h
      · exact absurd h (by simp)
      · simp only at h
        split at h
        · exact absurd h (by simp)
        · rename_i hcount
          split at h
          · exact absurd h (by simp)
          · cases hq0 : tokAmt w (acct acc accUser0) with
            | error e => rw [hq0] at h; exact absurd h (by simp [bind, Except.bind])
            | ok q0 =>
            rw [hq0] at h
            cases hs : (List.range (byteAt data 8).toNat).foldlM (hopStep invoke acc data)
                ⟨loadU64 (field data 9 8), sharedN, w⟩ with
            | error e => exact absurd h (by simp [bind, Except.bind, hs])
            | ok s =>
            cases hq1 : tokAmt s.world (acct acc accUser0) with
            | error e => exact absurd h (by simp [bind, Except.bind, hs, hq1])
            | ok q1 =>
            simp only [bind, Except.bind, hs, hq1] at h
            split at h
            · exact absurd h (by simp)
            · rename_i hprofit
              obtain rfl := Except.ok.inj h
              rw [not_or, UInt64.not_lt, UInt64.not_lt] at hprofit
              have hle := UInt64.le_iff_toNat_le.mp hprofit.1
              have hgain := UInt64.le_iff_toNat_le.mp hprofit.2
              rw [UInt64.toNat_sub_of_le _ _ hprofit.1] at hgain
              refine ⟨q0, q1, s, ⟨?_, ?_⟩, tokAmt_ok.mp hq0, hs, rfl, tokAmt_ok.mp hq1, ?_⟩
              · show 2 ≤ (byteAt data 8).toNat
                omega
              · show (byteAt data 8).toNat ≤ 3
                omega
              · omega

/-- A DLMM venue that takes the whole amount and pays ten more. -/
def payingVenue : Invoke := fun ix w =>
  let kin := (ix.accounts.map (·.pubkey)).getD 4 0
  let kout := (ix.accounts.map (·.pubkey)).getD 5 0
  let amount := loadU64 (field ix.data 8 8)
  match w kin, w kout with
  | some a, some b =>
    if a < amount ∨ kin = kout ∨ 2 ^ 64 ≤ b.toNat + amount.toNat + 10 then none
    else some (Function.update (Function.update w kin (some (a - amount))) kout
      (some (b + amount + 10)))
  | _, _ => none

theorem payingVenue_bounded {acc : List AccountInfo} {data : List UInt8}
    (hdlmm : ∀ i, i < hopCount data → hopProto data i = protoDlmm) :
    VenuesBounded payingVenue acc data := by
  intro i hi off amount userIn userOut c hin hout hc w w' hinv
  have hix : c.1 = dlmmIx acc off amount userIn userOut := by
    unfold hopCall at hc
    rw [if_pos (hdlmm i hi)] at hc
    split at hc
    · exact absurd hc (by simp)
    · split at hc
      · exact absurd hc (by simp)
      · rw [← Except.ok.inj hc]
  have hamount : loadU64 (field (dlmmIx acc off amount userIn userOut).data 8 8) = amount := by
    have hfield : field (dlmmIx acc off amount userIn userOut).data 8 8 = u64le amount := by
      show field (dlmmSwap2 ++ u64le amount ++ List.replicate 12 0) 8 8 = u64le amount
      rw [List.append_assoc, field_append_right (by decide), field]
      exact List.take_left' (length_u64le amount)
    rw [hfield, loadU64_u64le]
  rw [hix] at hinv
  unfold payingVenue at hinv
  simp only [hamount] at hinv
  change (match w userIn.key, w userOut.key with
    | some a, some b =>
      if a < amount ∨ userIn.key = userOut.key ∨ 2 ^ 64 ≤ b.toNat + amount.toNat + 10 then none
      else some (Function.update (Function.update w userIn.key (some (a - amount))) userOut.key
        (some (b + amount + 10)))
    | _, _ => none) = some w' at hinv
  cases ha : w userIn.key with
  | none => rw [ha] at hinv; exact absurd hinv (by simp)
  | some a =>
  cases hb : w userOut.key with
  | none => rw [ha, hb] at hinv; exact absurd hinv (by simp)
  | some b =>
  rw [ha, hb] at hinv
  simp only at hinv
  split at hinv
  · exact absurd hinv (by simp)
  · rename_i hok
    rw [not_or, not_or, UInt64.not_lt, Nat.not_le] at hok
    obtain ⟨hle, hne, hfit⟩ := hok
    obtain rfl := Option.some.inj hinv
    refine ⟨?_, ?_, ?_⟩
    · intro a0 ha0
      rw [ha] at ha0
      obtain rfl := Option.some.inj ha0
      refine ⟨a - amount, ?_, ?_⟩
      · rw [Function.update_of_ne hne, Function.update_self]
      · rw [UInt64.toNat_sub_of_le _ _ hle]
        have := UInt64.le_iff_toNat_le.mp hle
        omega
    · intro b0 hb0
      rw [hb] at hb0
      obtain rfl := Option.some.inj hb0
      refine ⟨b + amount + 10, Function.update_self _ _ _, ?_⟩
      have h10 : (10 : UInt64).toNat = 10 := rfl
      rw [UInt64.toNat_add, UInt64.toNat_add, h10]
      omega
    · intro k _ hkin hkout
      rw [Function.update_of_ne hkout, Function.update_of_ne hkin]

/-- Authority 9, users 1 to 3, and two DLMM hops of zero accounts. -/
def demoAccounts : List AccountInfo :=
  [⟨9, true⟩, ⟨1, false⟩, ⟨2, false⟩, ⟨3, false⟩] ++ List.replicate 25 ⟨0, false⟩

/-- Two DLMM hops, 0 to 1 and back, 100 in and a profit of 15. -/
def demoData : List UInt8 :=
  disc ++ [2] ++ u64le 100 ++ u64le 15 ++ [1, 0, 1, 1, 1, 0, 0, 0, 0] ++ [10, 10, 0] ++
    List.replicate 3 0

def demoWorld : World := fun k =>
  if k = 1 then some 1000 else if k = 2 then some 50 else if k = 3 then some 7 else none

end ShredArb.Hops
