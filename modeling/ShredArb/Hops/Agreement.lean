/-
  ShredArb.Hops.Agreement — what the dispatcher makes of an encoded route.

  `hopSpec` is the call a compiled hop stands for: its pool's accounts in the
  compiled direction, the user accounts of its own mints, and on a DLMM side
  the token program that OWNS the side's mint.  The dispatcher hands every DLMM
  pool Token-2022 for X and Tokenkeg for Y, and the encoder takes every Pump
  pool to be quoted in SOL, so an encoded route is executed as compiled exactly
  when its hops have that shape.

  Main results:
    * `process_eq_madeCalls` — the calls the dispatcher makes,
    * `madeCall_eq_iff` — when a call is the compiled one,
    * `buildRouteAccounts_executes_iff`.
-/
import ShredArb.Hops.Encode
import ShredArb.Hops.Calls
import ShredArb.Univ.Compile

namespace ShredArb.Hops

open ShredArb.Univ ShredArb.Bytes

/-! ## §1. The calls of a route. -/

/-- `swap2` on a pool, with a token program per side. -/
def swap2Ix (c : Chain) (i : Nat) (p : PoolMeta) (tokX tokY userIn userOut : Pubkey)
    (amount : UInt64) : Instruction where
  programId := c.dlmm
  accounts :=
    [⟨c.poolKey i, true, false⟩, ⟨(c.dlmmVec i).bitmap, false, false⟩,
     ⟨(c.dlmmVec i).vaultX, true, false⟩, ⟨(c.dlmmVec i).vaultY, true, false⟩,
     ⟨userIn, true, false⟩, ⟨userOut, true, false⟩,
     ⟨p.mintX, false, false⟩, ⟨p.mintY, false, false⟩,
     ⟨(c.dlmmVec i).oracle, true, false⟩, ⟨(c.dlmmVec i).host, false, false⟩,
     ⟨c.wallet, true, true⟩, ⟨tokX, false, false⟩, ⟨tokY, false, false⟩,
     ⟨c.memo, false, false⟩, ⟨c.dlmmEvent, false, false⟩, ⟨c.dlmm, false, false⟩,
     ⟨(c.dlmmVec i).bin0, true, false⟩, ⟨(c.dlmmVec i).bin1, true, false⟩]
  data := dlmmSwap2 ++ u64le amount ++ List.replicate 12 0

/-- The buy or sell form on a pool; the wallet signs. -/
def pumpFormIx (c : Chain) (i : Nat) (p : PoolMeta) (buy : Bool) (userBase userQuote : Pubkey)
    (amount : UInt64) : Instruction where
  programId := c.pump
  accounts := (pumpAccounts c i p buy userBase userQuote).zipIdx.map fun (k, j) =>
    ⟨k, if buy then pumpWritableBuy j else pumpWritableSell j, k == c.wallet⟩
  data :=
    if buy then pumpBuyExactQ ++ u64le amount ++ u64le 1
    else pumpSell ++ u64le amount ++ List.replicate 8 0

/-- The mint a hop consumes. -/
def hopFrom (p : PoolMeta) (h : Hop) : Mint := if h.dir = 0 then p.mintX else p.mintY

/-- The mint a hop produces. -/
def hopTo (p : PoolMeta) (h : Hop) : Mint := if h.dir = 0 then p.mintY else p.mintX

/-- The call a compiled hop stands for. -/
def hopSpec (c : Chain) (p : PoolMeta) (h : Hop) : Call :=
  if h.proto = protoDlmm then
    ⟨c.ataOf (hopTo p h),
      swap2Ix c h.pool p (c.mintTok p.mintX) (c.mintTok p.mintY) (c.ataOf (hopFrom p h))
        (c.ataOf (hopTo p h)), errDlmm⟩
  else
    ⟨c.ataOf (hopTo p h),
      pumpFormIx c h.pool p (h.dir == 1) (c.ataOf p.mintX) (c.ataOf p.mintY), errPump⟩

/-- The call the dispatcher makes of an encoded hop. -/
def madeCall (c : Chain) (p : PoolMeta) (h : Hop) : Call :=
  if h.proto = protoDlmm then
    ⟨c.ataOf (hopTo p h),
      swap2Ix c h.pool p c.token2022 c.tokenkeg (c.ataOf (hopFrom p h)) (c.ataOf (hopTo p h)),
      errDlmm⟩
  else
    ⟨c.ataOf (hopTo p h),
      pumpFormIx c h.pool p (hopFrom p h == mintSol)
        (c.ataOf (if hopFrom p h ≠ mintSol then hopFrom p h else hopTo p h)) (c.ataOf mintSol),
      errPump⟩

/-- The shape the encoding takes for granted. -/
def HopFits (c : Chain) (p : PoolMeta) (h : Hop) : Prop :=
  if h.proto = protoDlmm then c.mintTok p.mintX = c.token2022 ∧ c.mintTok p.mintY = c.tokenkeg
  else p.mintY = mintSol

/-- The accounts as the runtime hands them over: the wallet signs. -/
def signed (c : Chain) (keys : List Pubkey) : List AccountInfo :=
  keys.map fun k => ⟨k, k == c.wallet⟩

/-- Different mints have different user accounts. -/
def Chain.AtaInjective (c : Chain) : Prop := ∀ m m', c.ataOf m = c.ataOf m' → m = m'

/-! ## §2. When a call is the compiled one. -/

theorem swap2Ix_inj {c : Chain} {i : Nat} {p : PoolMeta} {x y x' y' a b : Pubkey} {n : UInt64} :
    swap2Ix c i p x y a b n = swap2Ix c i p x' y' a b n ↔ x = x' ∧ y = y' := by
  simp [swap2Ix]

theorem pumpFormIx_inj {c : Chain} {i : Nat} {p : PoolMeta} {buy buy' : Bool}
    {b q b' q' : Pubkey} {n : UInt64} :
    pumpFormIx c i p buy b q n = pumpFormIx c i p buy' b' q' n ↔ buy = buy' ∧ b = b' ∧ q = q' := by
  constructor
  · intro h
    have hdata := congrArg (fun ix => ix.data.take 1) h
    have haccs := congrArg (fun ix => ix.accounts.map AccountMeta.pubkey) h
    have hbuy : buy = buy' := by
      cases buy <;> cases buy' <;>
        simp [pumpFormIx, pumpBuyExactQ, pumpSell] at hdata ⊢
    subst hbuy
    simp [pumpFormIx, Function.comp_def, pumpAccounts] at haccs
    exact ⟨rfl, haccs⟩
  · rintro ⟨rfl, rfl, rfl⟩
    rfl

/-- A hop between two mints, read off its pool. -/
theorem hop_mints_of_swaps {mask : UInt32} {pools : List PoolMeta} {h : Hop} {a b : Mint}
    (hs : Swaps mask pools h a b) :
    hopFrom (poolAt pools h.pool) h = a ∧ hopTo (poolAt pools h.pool) h = b := by
  obtain ⟨p, hp, -, -, hdir⟩ := hs
  rw [poolAt_of_getElem? hp, hopFrom, hopTo]
  rcases hdir with ⟨hd, ha, hb⟩ | ⟨hd, ha, hb⟩
  · rw [if_pos hd, if_pos hd]
    exact ⟨ha, hb⟩
  · rw [if_neg (by rw [hd]; decide), if_neg (by rw [hd]; decide)]
    exact ⟨ha, hb⟩

/-- **A call is the compiled one exactly when the hop has the shape.** -/
theorem madeCall_eq_iff {c : Chain} (hata : c.AtaInjective) {p : PoolMeta} {h : Hop}
    (hdir : h.dir = 0 ∨ h.dir = 1) (hne : hopFrom p h ≠ hopTo p h) (n : UInt64) :
    (madeCall c p h).ix n = (hopSpec c p h).ix n ↔ HopFits c p h := by
  unfold madeCall hopSpec HopFits
  by_cases hproto : h.proto = protoDlmm
  · simp only [if_pos hproto]
    rw [swap2Ix_inj]
    exact ⟨fun hx => ⟨hx.1.symm, hx.2.symm⟩, fun hx => ⟨hx.1.symm, hx.2.symm⟩⟩
  · simp only [if_neg hproto]
    rw [pumpFormIx_inj]
    rcases hdir with hd | hd
    · have hfrom : hopFrom p h = p.mintX := by rw [hopFrom, if_pos hd]
      have hto : hopTo p h = p.mintY := by rw [hopTo, if_pos hd]
      rw [hfrom, hto] at hne ⊢
      have hbuy : (h.dir == 1) = false := by rw [hd]; decide
      rw [hbuy]
      constructor
      · rintro ⟨-, -, hq⟩
        exact (hata _ _ hq).symm
      · intro hy
        have hx : p.mintX ≠ mintSol := hy ▸ hne
        exact ⟨beq_false_of_ne hx, by rw [if_pos hx], by rw [hy]⟩
    · have hd' : ¬ h.dir = 0 := by rw [hd]; decide
      have hfrom : hopFrom p h = p.mintY := by rw [hopFrom, if_neg hd']
      have hto : hopTo p h = p.mintX := by rw [hopTo, if_neg hd']
      rw [hfrom, hto] at hne ⊢
      have hbuy : (h.dir == 1) = true := by rw [hd]; decide
      rw [hbuy]
      constructor
      · rintro ⟨hy, -⟩
        exact eq_of_beq hy
      · intro hy
        rw [hy]
        exact ⟨beq_self_eq_true _, by rw [if_neg (not_not.mpr rfl)], rfl⟩

/-! ## §3. What is decoded. -/

theorem acct_signed {c : Chain} {keys : List Pubkey} {j : Nat} {k : Pubkey}
    (h : keys[j]? = some k) : acct (signed c keys) j = ⟨k, k == c.wallet⟩ := by
  rw [acct, List.getD_eq_getElem?_getD, signed, List.getElem?_map, h]
  rfl

/-- The accounts `seg` stand in the list at an offset. -/
def Holds (keys : List Pubkey) (off : Nat) (seg : List Pubkey) : Prop :=
  ∀ j k, seg[j]? = some k → keys[off + j]? = some k

theorem holds_append (pre seg post : List Pubkey) : Holds (pre ++ seg ++ post) pre.length seg := by
  intro j k hk
  have hj := (List.getElem?_eq_some_iff.mp hk).1
  rw [List.append_assoc, List.getElem?_append_right (by omega), Nat.add_sub_cancel_left,
    List.getElem?_append_left hj]
  exact hk

theorem Holds.length_le {keys : List Pubkey} {off : Nat} {seg : List Pubkey}
    (h : Holds keys off seg) (hne : seg ≠ []) : off + seg.length ≤ keys.length := by
  have hpos := List.length_pos_iff.mpr hne
  have hlast := h (seg.length - 1) _ (List.getElem?_eq_getElem (by omega))
  have := (List.getElem?_eq_some_iff.mp hlast).1
  omega

section Decode

variable {c : Chain} {users keys : List Pubkey} (hsh : Holds keys 0 (sharedAccounts c users))

include hsh

theorem acct_shared {j : Nat} {k : Pubkey} (h : (sharedAccounts c users)[j]? = some k) :
    acct (signed c keys) j = ⟨k, k == c.wallet⟩ := by
  have := hsh j k h
  rw [Nat.zero_add] at this
  exact acct_signed this

theorem dlmmIx_signed {off i : Nat} {p : PoolMeta} (hseg : Holds keys off (dlmmAccounts c i p))
    (n : UInt64) (userIn userOut : AccountInfo) :
    dlmmIx (signed c keys) off n userIn userOut =
      swap2Ix c i p c.token2022 c.tokenkeg userIn.key userOut.key n := by
  have h0 := acct_signed (c := c) (hseg 0 _ rfl)
  simp only [dlmmIx, swap2Ix, accountMeta, acct_signed (hseg 1 _ rfl), acct_signed (hseg 2 _ rfl),
    acct_signed (hseg 3 _ rfl), acct_signed (hseg 4 _ rfl), acct_signed (hseg 5 _ rfl),
    acct_signed (hseg 6 _ rfl), acct_signed (hseg 7 _ rfl), acct_signed (hseg 8 _ rfl),
    acct_signed (hseg 9 _ rfl), acct_shared hsh (j := 0) rfl, acct_shared hsh (j := 4) rfl,
    acct_shared hsh (j := 5) rfl, acct_shared hsh (j := 6) rfl, acct_shared hsh (j := 7) rfl,
    acct_shared hsh (j := 8) rfl]
  rw [Nat.add_zero] at h0
  rw [h0]

theorem pumpIx_signed {off i : Nat} {p : PoolMeta} {buy : Bool} {ub uq : Pubkey}
    (hseg : Holds keys off (pumpAccounts c i p buy ub uq)) (n : UInt64) :
    pumpIx (signed c keys) off (pumpAccounts c i p buy ub uq).length
      (if buy then pumpWritableBuy else pumpWritableSell)
      (if buy then pumpBuyExactQ ++ u64le n ++ u64le 1
        else pumpSell ++ u64le n ++ List.replicate 8 0) = pumpFormIx c i p buy ub uq n := by
  have hprog : (acct (signed c keys) (off + 16)).key = c.pump :=
    congrArg AccountInfo.key (acct_signed (hseg 16 c.pump (by cases buy <;> rfl)))
  have hauth : (acct (signed c keys) accAuthority).key = c.wallet :=
    congrArg AccountInfo.key (acct_shared hsh (j := 0) rfl)
  have haccs : (List.range (pumpAccounts c i p buy ub uq).length).map (fun j =>
      accountMeta (acct (signed c keys) (off + j))
        ((if buy then pumpWritableBuy else pumpWritableSell) j)
        ((acct (signed c keys) (off + j)).key == (acct (signed c keys) accAuthority).key)) =
      (pumpAccounts c i p buy ub uq).zipIdx.map fun (k, j) =>
        ⟨k, if buy then pumpWritableBuy j else pumpWritableSell j, k == c.wallet⟩ := by
    apply List.ext_getElem
    · simp
    · intro j h1 h2
      have hj : j < (pumpAccounts c i p buy ub uq).length := by simpa using h1
      rw [List.getElem_map, List.getElem_map, List.getElem_range, List.getElem_zipIdx,
        acct_signed (hseg j _ (List.getElem?_eq_getElem hj)), hauth]
      cases buy <;> simp [accountMeta]
  rw [pumpIx, hprog, haccs, pumpFormIx]

end Decode

/-! ## §4. The records of a route. -/

/-- The record of a hop. -/
def madeRecord (c : Chain) (mints : List Mint) (p : PoolMeta) (h : Hop) : HopRecord :=
  if h.proto = protoDlmm then
    ⟨1, userIndex mints (hopFrom p h), userIndex mints (hopTo p h), 10, dlmmAccounts c h.pool p⟩
  else
    ⟨2, userIndex mints (hopFrom p h), userIndex mints (hopTo p h),
      if hopFrom p h == mintSol then 26 else 24,
      pumpAccounts c h.pool p (hopFrom p h == mintSol)
        (c.ataOf (if hopFrom p h ≠ mintSol then hopFrom p h else hopTo p h)) (c.ataOf mintSol)⟩

theorem madeRecord_users (c : Chain) (mints : List Mint) (p : PoolMeta) (h : Hop) :
    (madeRecord c mints p h).ina = userIndex mints (hopFrom p h) ∧
      (madeRecord c mints p h).outa = userIndex mints (hopTo p h) := by
  unfold madeRecord
  split <;> exact ⟨rfl, rfl⟩

theorem length_pumpAccounts (c : Chain) (i : Nat) (p : PoolMeta) (buy : Bool) (ub uq : Pubkey) :
    (pumpAccounts c i p buy ub uq).length = if buy then pumpNBuy else pumpNSell := by
  cases buy <;> rfl

theorem madeRecord_accs (c : Chain) (mints : List Mint) (p : PoolMeta) (h : Hop) :
    (madeRecord c mints p h).nacc.toNat = (madeRecord c mints p h).accs.length ∧
      (madeRecord c mints p h).accs ≠ [] := by
  unfold madeRecord
  split
  · exact ⟨rfl, List.cons_ne_nil _ _⟩
  · simp only [length_pumpAccounts]
    constructor
    · cases hopFrom p h == mintSol <;> rfl
    · cases hopFrom p h == mintSol <;> exact List.cons_ne_nil _ _

theorem hopRecord_of_swaps {c : Chain} {mask : UInt32} {pools : List PoolMeta} {mints : List Mint}
    {users : List Pubkey} {h : Hop} {hi : Nat}
    (hs : Swaps mask pools h (mints.getD hi mintSol) (mints.getD (hi + 1) mintSol))
    (hu : users.getD 0 0 = c.ataOf mintSol) :
    hopRecord c pools mints users h hi = some (madeRecord c mints (poolAt pools h.pool) h) := by
  obtain ⟨hfrom, hto⟩ := hop_mints_of_swaps hs
  obtain ⟨p, hp, -⟩ := hs
  rw [poolAt_of_getElem? hp] at hfrom hto ⊢
  rw [hopRecord, hp, Option.map_some, madeRecord, hfrom, hto, hu]

/-- The call of a record. -/
theorem hopCall_madeRecord {c : Chain} {users keys : List Pubkey} {mints : List Mint}
    (hsh : Holds keys 0 (sharedAccounts c users)) {p : PoolMeta} {h : Hop} {off : Nat}
    (hseg : Holds keys off (madeRecord c mints p h).accs) (n : UInt64)
    {userIn userOut : AccountInfo} (hin : userIn.key = c.ataOf (hopFrom p h))
    (hout : userOut.key = c.ataOf (hopTo p h)) :
    hopCall (signed c keys) off (madeRecord c mints p h).proto
        (madeRecord c mints p h).nacc.toNat n userIn userOut =
      .ok ((madeCall c p h).ix n, (madeCall c p h).err) := by
  obtain ⟨hlen, hne⟩ := madeRecord_accs c mints p h
  have hfit := hseg.length_le hne
  have hsigned : (signed c keys).length = keys.length := List.length_map _
  by_cases hd : h.proto = protoDlmm
  · simp only [madeRecord, madeCall, if_pos hd] at hseg hfit ⊢
    have hfit' : ¬ off + dlmmHopN > (signed c keys).length := by
      rw [hsigned]
      exact Nat.not_lt.mpr hfit
    rw [← hin, ← hout, ← dlmmIx_signed hsh hseg]
    unfold hopCall
    rw [if_pos rfl, if_neg (by decide), if_neg hfit']
  · simp only [madeRecord, madeCall, if_neg hd] at hseg hfit ⊢
    rw [← pumpIx_signed hsh hseg]
    rw [length_pumpAccounts] at hfit ⊢
    unfold hopCall
    rw [if_neg (by decide), if_pos rfl]
    cases hbuy : hopFrom p h == mintSol with
    | true =>
      rw [hbuy] at hfit
      have hfit' : ¬ off + pumpNBuy > (signed c keys).length := by
        rw [hsigned]
        exact Nat.not_lt.mpr hfit
      rw [if_pos rfl, if_pos rfl, if_neg hfit']
      rfl
    | false =>
      rw [hbuy] at hfit
      have hfit' : ¬ off + pumpNSell > (signed c keys).length := by
        rw [hsigned]
        exact Nat.not_lt.mpr hfit
      rw [if_neg Bool.false_ne_true, if_neg (by decide), if_pos (by decide), if_neg hfit']
      rfl

/-! ## §5. The payload. -/

theorem payload_fields {n : Nat} {recs : List HopRecord} (h : recs.length ≤ 3) {i : Nat}
    {r : HopRecord} (hr : recs[i]? = some r) :
    hopProto (payload n recs) i = r.proto ∧ hopIn (payload n recs) i = r.ina ∧
      hopOut (payload n recs) i = r.outa ∧ hopN (payload n recs) i = r.nacc.toNat := by
  match recs, i, h with
  | [], _, _ => exact absurd hr (by simp)
  | [a], 0, _ => exact Option.some.inj hr ▸ ⟨rfl, rfl, rfl, rfl⟩
  | [a], _ + 1, _ => exact absurd hr (by simp)
  | [a, b], 0, _ => exact Option.some.inj hr ▸ ⟨rfl, rfl, rfl, rfl⟩
  | [a, b], 1, _ => exact Option.some.inj hr ▸ ⟨rfl, rfl, rfl, rfl⟩
  | [a, b], _ + 2, _ => exact absurd hr (by simp)
  | [a, b, d], 0, _ => exact Option.some.inj hr ▸ ⟨rfl, rfl, rfl, rfl⟩
  | [a, b, d], 1, _ => exact Option.some.inj hr ▸ ⟨rfl, rfl, rfl, rfl⟩
  | [a, b, d], 2, _ => exact Option.some.inj hr ▸ ⟨rfl, rfl, rfl, rfl⟩
  | [a, b, d], _ + 3, _ => exact absurd hr (by simp)
  | _ :: _ :: _ :: _ :: _, _, hlen => exact absurd hlen (by simp)

/-- A hop starts where the accounts before it end. -/
theorem hopOff_payload {n : Nat} {recs : List HopRecord} (h : recs.length ≤ 3)
    (hacc : ∀ r ∈ recs, r.nacc.toNat = r.accs.length) {i : Nat} (hi : i ≤ recs.length) :
    hopOff (payload n recs) i = sharedN + ((recs.take i).flatMap HopRecord.accs).length := by
  induction i with
  | zero => rfl
  | succ i ih =>
    have hget : recs[i]? = some recs[i] := List.getElem?_eq_getElem hi
    obtain ⟨-, -, -, hn⟩ := payload_fields (n := n) h hget
    rw [hopOff_succ, ih (by omega), hn, hacc _ (List.getElem_mem hi), List.take_add_one, hget,
      List.flatMap_append, List.length_append]
    simp only [Option.toList_some, List.flatMap_cons, List.flatMap_nil, List.append_nil]
    omega

theorem payload_header {n : Nat} {recs : List HopRecord} (hn : n = 2 ∨ n = 3)
    (h : recs.length = n) :
    (payload n recs).length = ixLen ∧ (payload n recs).take 8 = disc ∧
      hopCount (payload n recs) = n ∧ loadU64 (field (payload n recs) 9 8) = tinyIn ∧
      loadU64 (field (payload n recs) 17 8) = minProfit := by
  match recs with
  | [a, b] => subst h; exact ⟨rfl, rfl, rfl, loadU64_u64le tinyIn, loadU64_u64le minProfit⟩
  | [a, b, d] => subst h; exact ⟨rfl, rfl, rfl, loadU64_u64le tinyIn, loadU64_u64le minProfit⟩
  | [] => subst h; exact absurd hn (by decide)
  | [a] => subst h; exact absurd hn (by simp)
  | _ :: _ :: _ :: _ :: _ => subst h; exact absurd hn (by simp)

/-! ## §6. The mints and user accounts of a cycle. -/

/-- What the encoder finds out about a route. -/
structure RouteShape (c : Chain) (mask : UInt32) (pools : List PoolMeta) (hops : List Hop)
    (mints : List Mint) : Prop where
  len : hops.length = 2 ∨ hops.length = 3
  mints_eq : routeMints pools hops = some mints
  swaps : ∀ (i : Nat) h, hops[i]? = some h →
    Swaps mask pools h (mints.getD i mintSol) (mints.getD (i + 1) mintSol)
  moves : ∀ i, i < hops.length →
    userIndex mints (mints.getD i mintSol) ≠ userIndex mints (mints.getD (i + 1) mintSol)
  user : ∀ i, i ≤ hops.length → userIndex mints (mints.getD i mintSol) ≤ 2 ∧
    (sharedAccounts c (routeUsers c mints))[1 + (userIndex mints (mints.getD i mintSol)).toNat]? =
      some (c.ataOf (mints.getD i mintSol))
  first : mints.getD 0 mintSol = mintSol
  last : mints.getD hops.length mintSol = mintSol

theorem mintsFrom_cons {mask : UInt32} {pools : List PoolMeta} {h : Hop} {a b : Mint}
    (hs : Swaps mask pools h a b) (hne : a ≠ b) (hops : List Hop) :
    mintsFrom pools a (h :: hops) = (mintsFrom pools b hops).map (b :: ·) := by
  obtain ⟨p, hp, -, -, hdir⟩ := hs
  have hout : outgoing p a = b := by
    unfold outgoing
    rcases hdir with ⟨-, ha, hb⟩ | ⟨-, ha, hb⟩
    · rw [if_pos ha.symm, hb]
    · rw [if_neg (by rw [hb]; exact hne), hb]
  rw [mintsFrom, hp, Option.bind_some, hout]

theorem userIndex_sol (mints : List Mint) : userIndex mints mintSol = 0 := if_pos rfl

theorem userIndex_second {m t : Mint} (ht : t ≠ mintSol) (ms : List Mint) :
    userIndex (m :: t :: ms) t = 1 := by
  unfold userIndex
  rw [if_neg ht]
  exact if_pos rfl

theorem userIndex_third {m t t' : Mint} (ht : t' ≠ mintSol) (hne : t' ≠ t) (ms : List Mint) :
    userIndex (m :: t :: ms) t' = 2 := by
  unfold userIndex
  rw [if_neg ht]
  exact if_neg hne

/-- A route of two hops. -/
theorem routeShape_two {c : Chain} (hata : c.AtaInjective) {mask : UInt32} {pools : List PoolMeta}
    {hops : List Hop} (h : SolCycle2 mask pools hops) :
    ∃ mints, RouteShape c mask pools hops mints := by
  obtain ⟨h1, h2, t, rfl, ht, -, s1, s2⟩ := h
  have hA : c.ataOf t ≠ c.ataOf mintSol := fun he => ht (hata _ _ he)
  have ht1 : userIndex [mintSol, t, mintSol] t = 1 := userIndex_second ht _
  have husers : routeUsers c [mintSol, t, mintSol] =
      [c.ataOf mintSol, c.ataOf t, c.ataOf mintSol] := by
    simp [routeUsers, hA]
  refine ⟨[mintSol, t, mintSol], Or.inl rfl, ?_, ?_, ?_, ?_, rfl, rfl⟩
  · rw [routeMints, mintsFrom_cons s1 (Ne.symm ht), mintsFrom_cons s2 ht]
    rfl
  · intro i h hi
    match i with
    | 0 => exact Option.some.inj hi ▸ s1
    | 1 => exact Option.some.inj hi ▸ s2
    | _ + 2 => exact absurd hi (by simp)
  · intro i hi
    match i, hi with
    | 0, _ =>
      show userIndex _ mintSol ≠ userIndex _ t
      rw [ht1, userIndex_sol]
      decide
    | 1, _ =>
      show userIndex _ t ≠ userIndex _ mintSol
      rw [ht1, userIndex_sol]
      decide
  · intro i hi
    rw [husers]
    match i, hi with
    | 0, _ =>
      show userIndex _ mintSol ≤ 2 ∧ _[1 + (userIndex _ mintSol).toNat]? = _
      rw [userIndex_sol]
      exact ⟨by decide, rfl⟩
    | 1, _ =>
      show userIndex _ t ≤ 2 ∧ _[1 + (userIndex _ t).toNat]? = _
      rw [ht1]
      exact ⟨by decide, rfl⟩
    | 2, _ =>
      show userIndex _ mintSol ≤ 2 ∧ _[1 + (userIndex _ mintSol).toNat]? = _
      rw [userIndex_sol]
      exact ⟨by decide, rfl⟩

/-- A route of three hops. -/
theorem routeShape_three {c : Chain} (hata : c.AtaInjective) {mask : UInt32}
    {pools : List PoolMeta} {hops : List Hop} (h : SolCycle3 mask pools hops) :
    ∃ mints, RouteShape c mask pools hops mints := by
  obtain ⟨h1, h2, h3, t1, t2, rfl, ht1, ht2, ht21, -, -, -, s1, s2, s3⟩ := h
  have hA1 : c.ataOf t1 ≠ c.ataOf mintSol := fun he => ht1 (hata _ _ he)
  have hA2 : c.ataOf t2 ≠ c.ataOf mintSol := fun he => ht2 (hata _ _ he)
  have hA21 : c.ataOf t2 ≠ c.ataOf t1 := fun he => ht21 (hata _ _ he)
  have hi1 : userIndex [mintSol, t1, t2, mintSol] t1 = 1 := userIndex_second ht1 _
  have hi2 : userIndex [mintSol, t1, t2, mintSol] t2 = 2 := userIndex_third ht2 ht21 _
  have husers : routeUsers c [mintSol, t1, t2, mintSol] =
      [c.ataOf mintSol, c.ataOf t1, c.ataOf t2] := by
    simp [routeUsers, hA1, hA2, hA21]
  refine ⟨[mintSol, t1, t2, mintSol], Or.inr rfl, ?_, ?_, ?_, ?_, rfl, rfl⟩
  · rw [routeMints, mintsFrom_cons s1 (Ne.symm ht1), mintsFrom_cons s2 (Ne.symm ht21),
      mintsFrom_cons s3 ht2]
    rfl
  · intro i h hi
    match i with
    | 0 => exact Option.some.inj hi ▸ s1
    | 1 => exact Option.some.inj hi ▸ s2
    | 2 => exact Option.some.inj hi ▸ s3
    | _ + 3 => exact absurd hi (by simp)
  · intro i hi
    match i, hi with
    | 0, _ =>
      show userIndex _ mintSol ≠ userIndex _ t1
      rw [hi1, userIndex_sol]
      decide
    | 1, _ =>
      show userIndex _ t1 ≠ userIndex _ t2
      rw [hi1, hi2]
      decide
    | 2, _ =>
      show userIndex _ t2 ≠ userIndex _ mintSol
      rw [hi2, userIndex_sol]
      decide
  · intro i hi
    rw [husers]
    match i, hi with
    | 0, _ =>
      show userIndex _ mintSol ≤ 2 ∧ _[1 + (userIndex _ mintSol).toNat]? = _
      rw [userIndex_sol]
      exact ⟨by decide, rfl⟩
    | 1, _ =>
      show userIndex _ t1 ≤ 2 ∧ _[1 + (userIndex _ t1).toNat]? = _
      rw [hi1]
      exact ⟨by decide, rfl⟩
    | 2, _ =>
      show userIndex _ t2 ≤ 2 ∧ _[1 + (userIndex _ t2).toNat]? = _
      rw [hi2]
      exact ⟨by decide, rfl⟩
    | 3, _ =>
      show userIndex _ mintSol ≤ 2 ∧ _[1 + (userIndex _ mintSol).toNat]? = _
      rw [userIndex_sol]
      exact ⟨by decide, rfl⟩

theorem routeShape_of_solCycle {c : Chain} (hata : c.AtaInjective) {mask : UInt32}
    {pools : List PoolMeta} {hops : List Hop} (h : SolCycle mask pools hops) :
    ∃ mints, RouteShape c mask pools hops mints := by
  rcases h with h | h
  · exact routeShape_two hata h
  · exact routeShape_three hata h

/-! ## §7. The dispatcher on an encoded route. -/

theorem mapM_zipIdx {α β : Type} {f : α × Nat → Option β} {g : α → β} (l : List α) :
    ∀ j, (∀ i x, l[i]? = some x → f (x, j + i) = some (g x)) →
      (l.zipIdx j).mapM f = some (l.map g) := by
  induction l with
  | nil =>
    intro j _
    rfl
  | cons x l ih =>
    intro j h
    have h0 : f (x, j) = some (g x) := h 0 x rfl
    have hrest := ih (j + 1) fun i y hy => by
      have := h (i + 1) y hy
      rwa [show j + 1 + i = j + (i + 1) from by omega]
    rw [List.zipIdx_cons, List.mapM_cons, h0, hrest]
    rfl

section Encoded

variable {c : Chain} {mask : UInt32} {pools : List PoolMeta} {hops : List Hop} {mints : List Mint}

/-- The records of a route. -/
def madeRecords (c : Chain) (pools : List PoolMeta) (mints : List Mint) (hops : List Hop) :
    List HopRecord :=
  hops.map fun h => madeRecord c mints (poolAt pools h.pool) h

/-- The account list of a route. -/
def madeKeys (c : Chain) (pools : List PoolMeta) (mints : List Mint) (hops : List Hop) :
    List Pubkey :=
  sharedAccounts c (routeUsers c mints) ++ (madeRecords c pools mints hops).flatMap HopRecord.accs

/-- The calls the dispatcher makes. -/
def madeCalls (c : Chain) (pools : List PoolMeta) (hops : List Hop) : List Call :=
  hops.map fun h => madeCall c (poolAt pools h.pool) h

theorem holds_shared (c : Chain) (pools : List PoolMeta) (mints : List Mint) (hops : List Hop) :
    Holds (madeKeys c pools mints hops) 0 (sharedAccounts c (routeUsers c mints)) := by
  have h := holds_append [] (sharedAccounts c (routeUsers c mints))
    ((madeRecords c pools mints hops).flatMap HopRecord.accs)
  rwa [List.nil_append] at h

theorem madeRecords_getElem? (c : Chain) (pools : List PoolMeta) (mints : List Mint) {i : Nat}
    {h : Hop} (hi : hops[i]? = some h) :
    (madeRecords c pools mints hops)[i]? = some (madeRecord c mints (poolAt pools h.pool) h) := by
  rw [madeRecords, List.getElem?_map, hi]
  rfl

theorem madeRecords_accs : ∀ r ∈ madeRecords c pools mints hops,
    r.nacc.toNat = r.accs.length := by
  intro r hr
  obtain ⟨h, -, rfl⟩ := List.mem_map.mp hr
  exact (madeRecord_accs c mints _ h).1

theorem length_madeRecords : (madeRecords c pools mints hops).length = hops.length :=
  List.length_map _

variable (hs : RouteShape c mask pools hops mints)

include hs

theorem RouteShape.records_le : (madeRecords c pools mints hops).length ≤ 3 := by
  rw [length_madeRecords]
  have := hs.len
  omega

theorem buildRouteAccounts_of_shape :
    buildRouteAccounts c pools hops =
      some (madeKeys c pools mints hops, payload hops.length (madeRecords c pools mints hops)) := by
  have huser : (routeUsers c mints).getD 0 0 = c.ataOf mintSol := by
    have h0 := (hs.user 0 (Nat.zero_le _)).2
    rw [hs.first, userIndex_sol] at h0
    exact Option.some.inj h0
  have hrecs : hops.zipIdx.mapM (fun (h, hi) => hopRecord c pools mints (routeUsers c mints) h hi) =
      some (madeRecords c pools mints hops) := by
    refine mapM_zipIdx hops 0 fun i h hi => ?_
    rw [Nat.zero_add]
    exact hopRecord_of_swaps (hs.swaps i h hi) huser
  rw [buildRouteAccounts, hs.mints_eq, Option.bind_some]
  simp only [hrecs, Option.map_some]
  rfl

/-- The user accounts a hop names. -/
theorem RouteShape.hop_users {i : Nat} {h : Hop} (hi : hops[i]? = some h) :
    hopIn (payload hops.length (madeRecords c pools mints hops)) i =
        userIndex mints (mints.getD i mintSol) ∧
      hopOut (payload hops.length (madeRecords c pools mints hops)) i =
        userIndex mints (mints.getD (i + 1) mintSol) := by
  obtain ⟨-, hin, hout, -⟩ := payload_fields (n := hops.length) hs.records_le
    (madeRecords_getElem? c pools mints hi)
  obtain ⟨hfrom, hto⟩ := hop_mints_of_swaps (hs.swaps i h hi)
  obtain ⟨hina, houta⟩ := madeRecord_users c mints (poolAt pools h.pool) h
  rw [hin, hout, hina, houta, hfrom, hto]
  exact ⟨rfl, rfl⟩

/-- The user account of a mint of the route. -/
theorem RouteShape.userAta_ok {i : Nat} (hi : i ≤ hops.length) :
    ∃ a, userAta (signed c (madeKeys c pools mints hops))
        (userIndex mints (mints.getD i mintSol)) = .ok a ∧
      a.key = c.ataOf (mints.getD i mintSol) := by
  obtain ⟨hle, hkey⟩ := hs.user i hi
  have hacct := acct_shared (holds_shared c pools mints hops) hkey
  rcases cases_of_le_two hle with hk | hk | hk
  · rw [hk] at hacct ⊢
    exact ⟨_, rfl, congrArg AccountInfo.key hacct⟩
  · rw [hk] at hacct ⊢
    exact ⟨_, rfl, congrArg AccountInfo.key hacct⟩
  · rw [hk] at hacct ⊢
    exact ⟨_, rfl, congrArg AccountInfo.key hacct⟩

/-- A hop's accounts stand where the dispatcher looks for them. -/
theorem RouteShape.holds_record {i : Nat} {h : Hop} (hi : hops[i]? = some h) :
    Holds (madeKeys c pools mints hops)
      (hopOff (payload hops.length (madeRecords c pools mints hops)) i)
      (madeRecord c mints (poolAt pools h.pool) h).accs := by
  have hrec := madeRecords_getElem? c pools mints hi
  obtain ⟨hlt, hget⟩ := List.getElem?_eq_some_iff.mp hrec
  have hsplit : madeKeys c pools mints hops =
      (sharedAccounts c (routeUsers c mints) ++
        ((madeRecords c pools mints hops).take i).flatMap HopRecord.accs) ++
      (madeRecord c mints (poolAt pools h.pool) h).accs ++
      ((madeRecords c pools mints hops).drop (i + 1)).flatMap HopRecord.accs := by
    have hrecs : madeRecords c pools mints hops = (madeRecords c pools mints hops).take i ++
        madeRecord c mints (poolAt pools h.pool) h ::
          (madeRecords c pools mints hops).drop (i + 1) := by
      rw [← hget, List.getElem_cons_drop, List.take_append_drop]
    rw [madeKeys]
    nth_rewrite 1 [hrecs]
    rw [List.flatMap_append, List.flatMap_cons]
    simp only [List.append_assoc]
  have hoff : hopOff (payload hops.length (madeRecords c pools mints hops)) i =
      (sharedAccounts c (routeUsers c mints) ++
        ((madeRecords c pools mints hops).take i).flatMap HopRecord.accs).length := by
    rw [hopOff_payload hs.records_le madeRecords_accs (le_of_lt hlt), List.length_append]
    rfl
  rw [hsplit, hoff]
  exact holds_append _ _ _

/-- **A hop decodes to the call the dispatcher makes.** -/
theorem RouteShape.decodes {i : Nat} {h : Hop} (hi : hops[i]? = some h) :
    Decodes (signed c (madeKeys c pools mints hops))
      (payload hops.length (madeRecords c pools mints hops)) i
      (madeCall c (poolAt pools h.pool) h) := by
  have hlt := (List.getElem?_eq_some_iff.mp hi).1
  have hseg := hs.holds_record hi
  obtain ⟨hlen, hne⟩ := madeRecord_accs c mints (poolAt pools h.pool) h
  obtain ⟨hproto, -, -, hn⟩ := payload_fields (n := hops.length) hs.records_le
    (madeRecords_getElem? c pools mints hi)
  obtain ⟨hina, houta⟩ := hs.hop_users hi
  obtain ⟨hfrom, hto⟩ := hop_mints_of_swaps (hs.swaps i h hi)
  refine ⟨?_, fun amount => ?_⟩
  · rw [hn, hlen, signed, List.length_map]
    exact hseg.length_le hne
  · obtain ⟨userIn, hin, hkin⟩ := hs.userAta_ok (le_of_lt hlt)
    obtain ⟨userOut, hout, hkout⟩ := hs.userAta_ok hlt
    have hkey : (madeCall c (poolAt pools h.pool) h).out = c.ataOf (hopTo (poolAt pools h.pool) h) := by
      unfold madeCall
      split <;> rfl
    refine ⟨userIn, userOut, by rw [hina]; exact hin, by rw [houta]; exact hout, ?_, ?_⟩
    · rw [hkey, hto, hkout]
    · rw [hproto, hn]
      exact hopCall_madeRecord (holds_shared c pools mints hops) hseg amount (by rw [hfrom]; exact hkin)
        (by rw [hto]; exact hkout)

/-- **The dispatcher executes the made calls.** -/
theorem process_eq_madeCalls (invoke : Invoke) (w : World) :
    process invoke (signed c (madeKeys c pools mints hops))
        (payload hops.length (madeRecords c pools mints hops)) w =
      runCalls invoke (c.ataOf mintSol) tinyIn minProfit (madeCalls c pools hops) w := by
  obtain ⟨hlen, hdisc, hcount, hamount, hprofit⟩ := payload_header hs.len length_madeRecords
  have hcalls : (madeCalls c pools hops).length = hops.length := List.length_map _
  have hacc : sharedN ≤ (signed c (madeKeys c pools mints hops)).length := by
    rw [signed, List.length_map, madeKeys, List.length_append]
    exact Nat.le_add_right _ _
  have hsign : (acct (signed c (madeKeys c pools mints hops)) accAuthority).isSigner = true := by
    have hwallet := acct_shared (holds_shared c pools mints hops) (j := 0) rfl
    rw [hwallet]
    exact beq_self_eq_true _
  obtain ⟨a, ha, hkey⟩ := hs.userAta_ok (Nat.zero_le _)
  rw [hs.first, userIndex_sol] at ha
  rw [hs.first] at hkey
  have huser0 : userKey (signed c (madeKeys c pools mints hops)) 0 = c.ataOf mintSol := by
    rw [← hkey]
    exact congrArg AccountInfo.key (Except.ok.inj ha)
  rw [← huser0]
  refine process_eq_runCalls w hlen hdisc hacc hsign (by rw [hcount, hcalls])
    (by rw [hcalls]; exact hs.len) hamount (by decide) hprofit ?_
  intro i k hk
  rw [madeCalls, List.getElem?_map] at hk
  obtain ⟨h, hi, rfl⟩ := Option.map_eq_some_iff.mp hk
  exact hs.decodes hi

theorem RouteShape.wellChained :
    WellChained (payload hops.length (madeRecords c pools mints hops)) := by
  obtain ⟨-, -, hcount, -, -⟩ := payload_header hs.len length_madeRecords
  have hpos : 2 ≤ hops.length := by
    have := hs.len
    omega
  have hget : ∀ i, i < hops.length → ∃ h, hops[i]? = some h :=
    fun i hi => ⟨_, List.getElem?_eq_getElem hi⟩
  refine ⟨?_, ?_, ?_, ?_⟩
  · obtain ⟨h, hi⟩ := hget 0 (by omega)
    rw [(hs.hop_users hi).1, hs.first, userIndex_sol]
  · intro i hi
    rw [hcount] at hi
    obtain ⟨h, hh⟩ := hget i (by omega)
    obtain ⟨h', hh'⟩ := hget (i + 1) hi
    rw [(hs.hop_users hh).2, (hs.hop_users hh').1]
  · rw [hcount]
    obtain ⟨h, hh⟩ := hget (hops.length - 1) (by omega)
    rw [(hs.hop_users hh).2, show hops.length - 1 + 1 = hops.length from by omega, hs.last,
      userIndex_sol]
  · intro i hi
    rw [hcount] at hi
    obtain ⟨h, hh⟩ := hget i hi
    rw [(hs.hop_users hh).1, (hs.hop_users hh).2]
    exact hs.moves i hi

end Encoded

/-! ## §8. The result. -/

/-- The hops chain from user account 0 back to it, and on EVERY venue and all
balances the dispatcher does what executing the compiled hops in order does. -/
def Executes (c : Chain) (pools : List PoolMeta) (hops : List Hop) (keys : List Pubkey)
    (data : List UInt8) : Prop :=
  WellChained data ∧ ∀ invoke w, process invoke (signed c keys) data w =
    runCalls invoke (c.ataOf mintSol) tinyIn minProfit
      (hops.map fun h => hopSpec c (poolAt pools h.pool) h) w

theorem madeCall_err (c : Chain) (p : PoolMeta) (h : Hop) :
    (madeCall c p h).err ≠ errProfit ∧ (madeCall c p h).err = (hopSpec c p h).err ∧
      (madeCall c p h).out = (hopSpec c p h).out := by
  have hd : errDlmm ≠ errProfit := by decide
  have hp : errPump ≠ errProfit := by decide
  unfold madeCall hopSpec
  split
  · exact ⟨hd, rfl, rfl⟩
  · exact ⟨hp, rfl, rfl⟩

theorem RouteShape.madeCall_iff {c : Chain} (hata : c.AtaInjective) {mask : UInt32}
    {pools : List PoolMeta} {hops : List Hop} {mints : List Mint}
    (hs : RouteShape c mask pools hops mints) {i : Nat} {h : Hop} (hi : hops[i]? = some h)
    (n : UInt64) :
    (madeCall c (poolAt pools h.pool) h).ix n = (hopSpec c (poolAt pools h.pool) h).ix n ↔
      HopFits c (poolAt pools h.pool) h := by
  have hlt := (List.getElem?_eq_some_iff.mp hi).1
  obtain ⟨hfrom, hto⟩ := hop_mints_of_swaps (hs.swaps i h hi)
  obtain ⟨p, -, -, -, hdir⟩ := hs.swaps i h hi
  refine madeCall_eq_iff hata ?_ ?_ n
  · rcases hdir with ⟨hd, -⟩ | ⟨hd, -⟩
    · exact Or.inl hd
    · exact Or.inr hd
  · rw [hfrom, hto]
    intro heq
    exact hs.moves i hlt (congrArg (userIndex mints) heq)

/-- An encoded cycle is executed as compiled exactly when its hops have the
shape. -/
theorem executes_iff_of_shape {c : Chain} (hata : c.AtaInjective) {mask : UInt32}
    {pools : List PoolMeta} {hops : List Hop} {mints : List Mint}
    (hs : RouteShape c mask pools hops mints) :
    Executes c pools hops (madeKeys c pools mints hops)
        (payload hops.length (madeRecords c pools mints hops)) ↔
      ∀ h ∈ hops, HopFits c (poolAt pools h.pool) h := by
  constructor
  · rintro ⟨-, hrun⟩ h hh
    obtain ⟨i, hi⟩ := List.mem_iff_getElem?.mp hh
    rw [← hs.madeCall_iff hata hi (amountAt tinyIn i)]
    have hsame : ∀ invoke w,
        runCalls invoke (c.ataOf mintSol) tinyIn minProfit (madeCalls c pools hops) w =
          runCalls invoke (c.ataOf mintSol) tinyIn minProfit
            (hops.map fun h => hopSpec c (poolAt pools h.pool) h) w := by
      intro invoke w
      rw [← process_eq_madeCalls hs, hrun]
    refine (runCalls_inj ?_ ?_ ?_ hsame (i := i) ?_ ?_).symm
    · rw [List.length_map, madeCalls, List.length_map]
    · rw [madeCalls, List.length_map]
      rcases hs.len with hl | hl <;> rw [hl] <;> decide
    · intro k hk
      obtain ⟨h', -, rfl⟩ := List.mem_map.mp hk
      exact (madeCall_err c _ h').1
    · rw [madeCalls, List.getElem?_map, hi]
      rfl
    · rw [List.getElem?_map, hi]
      rfl
  · intro hfits
    refine ⟨hs.wellChained, fun invoke w => ?_⟩
    have hcalls : madeCalls c pools hops =
        hops.map fun h => hopSpec c (poolAt pools h.pool) h := by
      refine List.map_congr_left fun h hh => ?_
      obtain ⟨i, hi⟩ := List.mem_iff_getElem?.mp hh
      obtain ⟨-, herr, hout⟩ := madeCall_err c (poolAt pools h.pool) h
      exact Call.ext hout (funext fun n => (hs.madeCall_iff hata hi n).mpr (hfits h hh)) herr
    rw [process_eq_madeCalls hs, hcalls]

/-- **An encoded route is executed as compiled if and only if every DLMM pool
has a Token-2022 mint on X and a Tokenkeg mint on Y, and every Pump pool is
quoted in SOL.** -/
theorem buildRouteAccounts_executes_iff {c : Chain} (hata : c.AtaInjective) {u u' : Universe}
    {mask : UInt32} (hn : u.pool.length ≤ 65535) (hu : universeCompile u mask = some u')
    {r : CompiledRoute} (hr : r ∈ u'.route) (_hx : routeExecutable r = true) :
    ∃ keys data, buildRouteAccounts c u.pool r.hops = some (keys, data) ∧
      (Executes c u.pool r.hops keys data ↔
        ∀ h ∈ r.hops, HopFits c (poolAt u.pool h.pool) h) := by
  obtain ⟨mints, hs⟩ := routeShape_of_solCycle hata (universeCompile_solCycle hn hu hr)
  exact ⟨_, _, buildRouteAccounts_of_shape hs, executes_iff_of_shape hata hs⟩

/-- A chain on which one token program owns the token and Tokenkeg owns SOL. -/
def demoChain (owner : Pubkey) : Chain where
  wallet := 1
  tokenkeg := 2
  token2022 := 3
  memo := 4
  system := 5
  ataProg := 6
  dlmm := 7
  dlmmEvent := 8
  pump := 9
  mintTok := fun m => if m = mintSol then 2 else owner
  ata := fun _ m _ => m + 1000
  poolKey := fun i => BitVec.ofNat 256 (20 + i)
  dlmmVec := fun _ => ⟨7, 31, 32, 33, 7, 34, 35⟩
  pumpVec := fun _ => ⟨40, 41, 42, 43, 44, 45, 46, 47, 48, 49, 50, 51, 52, 53, 54⟩

theorem demoChain_ataInjective (owner : Pubkey) : (demoChain owner).AtaInjective :=
  fun m m' h => (BitVec.add_left_inj (x := m) (y := m') 1000).mp h

/-- A DLMM and a Pump pool on one token, both quoted in SOL. -/
def pairUniverse : Universe where
  pool :=
    [⟨protoDlmm, 100, mintSol, 0, 0, 0, by decide⟩, ⟨protoPump, 100, mintSol, 1, 0, 0, by decide⟩]
  route := []
  rindex := List.replicate 12 0
  protoMask := 0
  poolCap := 2
  routeCap := 4

/-- SOL to the token on the DLMM pool, back on the Pump pool. -/
def pairRoute : CompiledRoute := ⟨routeFam0DlmmPump, [⟨protoDlmm, 0, 1⟩, ⟨protoPump, 1, 0⟩]⟩

theorem pairRoute_compiled : ∃ u', universeCompile pairUniverse 3 = some u' ∧
    pairRoute ∈ u'.route := by
  have hrun : (universeCompile pairUniverse 3).map (fun u => decide (pairRoute ∈ u.route)) =
      some true := by
    decide +kernel
  obtain ⟨u', hu', hmem⟩ := Option.map_eq_some_iff.mp hrun
  exact ⟨u', hu', of_decide_eq_true hmem⟩

theorem buildRouteAccounts_executes_demo :
    ∃ u' keys data, universeCompile pairUniverse 3 = some u' ∧ pairRoute ∈ u'.route ∧
      buildRouteAccounts (demoChain 3) pairUniverse.pool pairRoute.hops = some (keys, data) ∧
      Executes (demoChain 3) pairUniverse.pool pairRoute.hops keys data := by
  obtain ⟨u', hu', hr⟩ := pairRoute_compiled
  obtain ⟨keys, data, hbuild, hiff⟩ :=
    buildRouteAccounts_executes_iff (demoChain_ataInjective 3) (by decide) hu' hr (by decide)
  refine ⟨u', keys, data, hu', hr, hbuild, hiff.mpr ?_⟩
  intro h hh
  simp only [pairRoute, List.mem_cons, List.not_mem_nil, or_false] at hh
  rcases hh with rfl | rfl
  · exact ⟨by decide, by decide⟩
  · exact rfl

/-- A token of the old token program: the DLMM call still names Token-2022 for
it. -/
theorem dispatcher_ignores_mint_owner :
    ∃ u' keys data, universeCompile pairUniverse 3 = some u' ∧ pairRoute ∈ u'.route ∧
      routeExecutable pairRoute = true ∧
      buildRouteAccounts (demoChain 2) pairUniverse.pool pairRoute.hops = some (keys, data) ∧
      ¬ Executes (demoChain 2) pairUniverse.pool pairRoute.hops keys data := by
  have hata := demoChain_ataInjective 2
  obtain ⟨u', hu', hr⟩ := pairRoute_compiled
  obtain ⟨mints, hs⟩ := routeShape_of_solCycle hata (universeCompile_solCycle (by decide) hu' hr)
  refine ⟨u', _, _, hu', hr, by decide, buildRouteAccounts_of_shape hs, ?_⟩
  rw [executes_iff_of_shape hata hs]
  intro hfits
  have hfirst := hfits ⟨protoDlmm, 0, 1⟩ List.mem_cons_self
  exact absurd hfirst.1 (by decide)

end ShredArb.Hops
