/-
  ShredArb.Exec.AltPlane — the control plane's Route0 routes and templates
  (`arb-exec/scripts/alt_plane.py`, `exec_live002b.py`).

  `resolve_all` turns a pool pair into the account lists of its transactions;
  `compile_route` looks the lists up in an address table and lays a template
  down for each direction.  The program's account list is then read through a
  FIXED table of indices, one for each direction.

  Conventions:
    • an account key is its base58 text,
    • the RPC's accounts, the parsed pool records and the address derivations
      (hashing, outside the repository) are inputs,
    • a template keeps the keys and indices of its bytes; the instruction data
      and the signature are those of `Exec.Template`,
    • an exception that `compile_route` catches is `none`.

  Main results:
    * `compileRoute_parts` — the loader puts a compiled route's keys back in order,
    * `base_token_slot_iff` — the base-token-program positions hold the owner
      of the base mint EXACTLY when that is Token-2022.
-/
import ShredArb.Exec.Program

namespace ShredArb.AltPlane

/-! ## §1. Keys. -/

abbrev Key := String

def dlmmProg : Key := "LBUZKhRxPF3XUpBCjp4YzTKgLccjZhTSDM9YuVaPwxo"
def pumpProg : Key := "pAMMBay6oceH9fJKBRHGP5D4bD4sWpmSwMn52FMfXEA"
def sol : Key := "So11111111111111111111111111111111111111112"
def tokenkeg : Key := "TokenkegQfeZyiNwAJbNbGKPFXCWuBvf9Ss623VQ5DA"
def token2022 : Key := "TokenzQdBNbLqP5VEhdkAS6EPFLC1PHnBqCXEpPxuEb"
def systemProg : Key := "11111111111111111111111111111111"
def ataProg : Key := "ATokenGPvbdGVxr1b2hvZbsiqW5xWH25efTNsLJA8knL"
def memoProg : Key := "MemoSq4gqABAXKb96qnH8TysNcWxMyWCqXgDLGmfcHr"
def feeProg : Key := "pfeeUxB6jkeY1Hxd7CsFCAjcbHA9rWtchMGdZ6VojVZ"
def cuProg : Key := "ComputeBudget111111111111111111111111111111"
def feeCfgLive : Key := "5PHirr8joyTMp9JMm6nW7hNDVyEYdkzDqazxPD7RaTjx"
def feeRecipient : Key := "5cjcW9wExnJJiqgLjq7DEG75Pm6JBgE1hNv4B2vHXUW6"
def protoFee : Key := "G5UZAVbAf46s7cKWoyKu8kYTip9DGTpbLZ2qa9Aq69dP"
def fallbackCreatorAta : Key := "75mhQAcZeGKiL3wcuuVjTjg2SHJewZuQpd59ukiG24yv"
def fallbackCreatorAuth : Key := "F2Ne1XNs5f7LQNBdfB5WE69AGunwjAa6akdVGfVXiZxY"

/-- The address derivations: `ata(owner, mint, token_program)`, `find_pda` of a
named seed with a key or none, and `bin_array_pda`. -/
structure Derive where
  ata : Key → Key → Key → Key
  findPda : String → Option Key → Key → Key
  binArrayPda : Key → Int → Key

/-! ## §2. Routes (`resolve_all`). -/

/-- What `parse_lbpair` gives. -/
structure LbPair where
  tokenX : Key
  tokenY : Key
  vaultX : Key
  vaultY : Key
  activeId : Int

/-- What `parse_pump_pool` gives, and the pool's `coin_creator` when its data
holds one. -/
structure PumpPool where
  vaultBase : Key
  vaultQuote : Key
  coinCreator : Option Key

/-- A pool pair of the universe, with its two records as fetched and parsed. -/
structure Pair where
  dlmm : Key
  pump : Key
  token : Key
  lb : Option LbPair
  p : Option PumpPool

abbrev maxBin : Int := 70

/-- `bin_array_index`. -/
def binArrayIndex (binId : Int) : Int := binId / maxBin

/-- The `neighbor_bins` of a row. -/
def neighborBins (dv : Derive) (dlmm : Key) (activeId : Int) : List Key :=
  let active := binArrayIndex activeId
  [active, active + 1, active - 1, active + 2, active - 2].map (dv.binArrayPda dlmm)

/-- `creator_from_pool`: the creator's authority and its account. -/
def creatorFromPool (dv : Derive) (p : PumpPool) (quote : Key) : Key × Key :=
  match p.coinCreator with
  | none => (fallbackCreatorAuth, fallbackCreatorAta)
  | some coin =>
      let auth := dv.findPda "creator_vault" (some coin) pumpProg
      (auth, dv.ata auth quote tokenkeg)

/-- The account dictionary `acc` of a route. -/
structure RouteAcc where
  pairDlmm : Key
  pairPump : Key
  mintX : Key
  mintY : Key
  baseTok : Key
  userQuote : Key
  userBase : Key
  eventDlmm : Key
  oracle : Key
  bin0 : Key
  bin1 : Key
  vaultX : Key
  vaultY : Key
  vaultB : Key
  vaultQ : Key
  pumpGlobal : Key
  pumpProtoFee : Key
  pumpProtoFeeAta : Key
  pumpEvent : Key
  creatorAta : Key
  creatorAuth : Key
  feeCfg : Key
  gvol : Key
  poolV2 : Key
  uvol : Key
  feeRecipient : Key
  feeRecQuote : Key

/-- The `static` list of `v0_parts`. -/
def v0Static (wallet ourExec : Key) : List Key :=
  [wallet, ourExec, cuProg, tokenkeg, systemProg, ataProg, memoProg,
   dlmmProg, pumpProg, token2022, feeProg]

/-- The `wr` list of `v0_parts`. -/
def v0Wr (acc : RouteAcc) : List Key :=
  [acc.userQuote, acc.userBase, acc.pairDlmm, acc.vaultX, acc.vaultY,
   acc.oracle, acc.bin0, acc.bin1, acc.pairPump, acc.vaultB,
   acc.vaultQ, acc.pumpProtoFeeAta, acc.creatorAta, acc.uvol, acc.feeRecQuote]

/-- The `ro` list of `v0_parts`. -/
def v0Ro (acc : RouteAcc) : List Key :=
  [acc.eventDlmm, acc.mintX, acc.mintY, acc.pumpEvent, acc.pumpGlobal, acc.feeCfg,
   acc.pumpProtoFee, acc.creatorAuth, acc.poolV2, acc.feeRecipient]

/-- A row of `resolve_all`'s result. -/
structure Route where
  dlmm : Key
  pump : Key
  token : Key
  mintX : Key
  baseTok : Key
  userQuote : Key
  userBase : Key
  static : List Key
  wr : List Key
  wrBuy : List Key
  ro : List Key
  need : List Key
  activeId : Int

/-- `need`: each address once, in order. -/
def distinctKeys (l : List Key) : List Key :=
  l.foldl (fun need a => if a ∈ need then need else need ++ [a]) []

/-- One pair, through both loops of `resolve_all`; `owner` is what the RPC
gives as an account's owner, `none` for an account that does not exist. -/
def resolveOne (dv : Derive) (owner : Key → Option Key) (wallet ourExec : Key) (pr : Pair) :
    Option Route :=
  pr.lb.bind fun lb =>
  pr.p.bind fun p =>
  if lb.tokenY ≠ sol then none
  else
    let baseTok := (owner lb.tokenX).getD token2022
    if baseTok ≠ tokenkeg ∧ baseTok ≠ token2022 then none
    else
      match (neighborBins dv pr.dlmm lb.activeId).filter fun b => (owner b).isSome with
      | b0 :: b1 :: rest =>
          let creator := creatorFromPool dv p lb.tokenY
          let acc : RouteAcc :=
            { pairDlmm := pr.dlmm, pairPump := pr.pump
              mintX := lb.tokenX, mintY := lb.tokenY, baseTok := baseTok
              userQuote := dv.ata wallet sol tokenkeg
              userBase := dv.ata wallet lb.tokenX baseTok
              eventDlmm := dv.findPda "__event_authority" none dlmmProg
              oracle := dv.findPda "oracle" (some pr.dlmm) dlmmProg
              bin0 := b0, bin1 := b1
              vaultX := lb.vaultX, vaultY := lb.vaultY
              vaultB := p.vaultBase, vaultQ := p.vaultQuote
              pumpGlobal := dv.findPda "global_config" none pumpProg
              pumpProtoFee := protoFee
              pumpProtoFeeAta := dv.ata protoFee sol tokenkeg
              pumpEvent := dv.findPda "__event_authority" none pumpProg
              creatorAta := creator.2, creatorAuth := creator.1
              feeCfg := feeCfgLive
              gvol := dv.findPda "global_volume_accumulator" none pumpProg
              poolV2 := dv.findPda "pool-v2" (some lb.tokenX) pumpProg
              uvol := dv.findPda "user_volume_accumulator" (some wallet) pumpProg
              feeRecipient := feeRecipient
              feeRecQuote := dv.ata feeRecipient lb.tokenY tokenkeg }
          let wrBuy := v0Wr acc ++ [acc.gvol]
          some
            { dlmm := pr.dlmm, pump := pr.pump, token := pr.token
              mintX := lb.tokenX, baseTok := baseTok
              userQuote := acc.userQuote, userBase := acc.userBase
              static := v0Static wallet ourExec
              wr := v0Wr acc, wrBuy := wrBuy, ro := v0Ro acc
              need := distinctKeys (wrBuy ++ v0Ro acc ++ b0 :: b1 :: rest)
              activeId := lb.activeId }
      | _ => none

/-- `resolve_all`. -/
def resolveAll (dv : Derive) (owner : Key → Option Key) (wallet ourExec : Key)
    (pairs : List Pair) : List Route :=
  pairs.filterMap (resolveOne dv owner wallet ourExec)

/-! ## §3. Templates (`compile_route`). -/

/-- `IX_IDX`. -/
def ixIdx : List Nat :=
  [0, 11, 12, 3, 4, 5, 6, 7, 26, 13,
   7, 14, 15, 16, 7, 27, 28, 17, 18, 8,
   29, 19, 30, 31, 10, 27, 28, 20, 21, 32,
   22, 23, 33, 34, 24,
   9,
   19, 0, 30, 27, 28, 12, 11, 20, 21, 32,
   22, 9, 3, 4, 5, 29, 8, 23, 33, 31,
   10, 34, 35, 25]

/-- `IX_IDX_BUY`. -/
def ixIdxBuy : List Nat :=
  [0, 11, 12, 3, 4, 5, 6, 7, 27, 13,
   7, 14, 15, 16, 7, 28, 29, 17, 18, 8,
   30, 19, 31, 32, 10, 28, 29, 20, 21, 33,
   22, 23, 34, 35, 24,
   9,
   19, 0, 31, 28, 29, 12, 11, 20, 21, 33,
   22, 9, 3, 4, 5, 30, 8, 23, 34, 26, 24, 32,
   10, 35, 36, 25]

def altWrIx : List Nat := List.range 14 ++ [23]
def altWrIxBuy : List Nat := List.range 14 ++ [23, 25]
def altRoIx : List Nat := (List.range 14).map (· + 14) |>.take 9 |>.append [24]

/-- An address table of the plane. -/
structure Alt where
  pubkey : Key
  addresses : List Key

/-- `pos[a]`, with `pos` built by `enumerate`: the LAST index of `a`. -/
def posOf (a : Key) : Nat → List Key → Option Nat
  | _, [] => none
  | i, h :: t => (posOf a (i + 1) t).or (if h = a then some i else none)

/-- `bytes(pos[a] for a in keys)`; an index above 255 raises. -/
def indexBytes (have_ keys : List Key) : Option (List Nat) :=
  keys.mapM fun a => (posOf a 0 have_).bind fun i => if i < 256 then some i else none

/-- `lookup_prepared`: the first table that has every address. -/
def lookupPrepared (plane : List Alt) (wr ro : List Key) :
    Option (Alt × List Nat × List Nat) :=
  (plane.find? fun alt => (wr ++ ro).all fun a => a ∈ alt.addresses).bind fun alt =>
  (indexBytes alt.addresses wr).bind fun wrIx =>
  (indexBytes alt.addresses ro).map fun roIx => (alt, wrIx, roIx)

/-- The parts of a v0 template that name accounts. -/
structure Template where
  static : List Key
  accounts : List Nat
  alt : Alt
  wrIx : List Nat
  roIx : List Nat

/-- `compile_v0`. -/
def compileV0 (static : List Key) (alt : Alt) (wrIx roIx : List Nat) : Option Template :=
  let wrIx := if wrIx = [] then altWrIx else wrIx
  let roIx := if roIx = [] then altRoIx else roIx
  if wrIx.length ≠ 15 ∨ roIx.length ≠ 10 then none
  else some ⟨static, ixIdx, alt, wrIx, roIx⟩

/-- `compile_v0_buy`. -/
def compileV0Buy (static : List Key) (alt : Alt) (wrIx roIx : List Nat) : Option Template :=
  let wrIx := if wrIx = [] then altWrIxBuy else wrIx
  let roIx := if roIx = [] then altRoIx else roIx
  if wrIx.length ≠ 16 ∨ roIx.length ≠ 10 then none
  else some ⟨static, ixIdxBuy, alt, wrIx, roIx⟩

/-- One direction of `compile_route`. -/
def compileRoute (plane : List Alt) (r : Route) (buy : Bool) : Option Template :=
  if buy then
    (lookupPrepared plane r.wrBuy r.ro).bind fun l => compileV0Buy r.static l.1 l.2.1 l.2.2
  else
    (lookupPrepared plane r.wr r.ro).bind fun l => compileV0 r.static l.1 l.2.1 l.2.2

/-! ## §4. The account list. -/

/-- The keys a message loads: its static ones, then those of its table. -/
def Template.loaded (t : Template) : List Key :=
  t.static ++ (t.wrIx ++ t.roIx).map fun i => t.alt.addresses.getD i ""

/-- The instruction's account list. -/
def Template.accountList (t : Template) : List Key :=
  t.accounts.map fun i => t.loaded.getD i ""

/-- The positions the program reads the base token program from: the token X
program of its DLMM call and the base token program of its Pump call. -/
def baseTokenPositions : List Nat := [Exec.token2022Idx, Exec.pumpRemainOff + 11]

/-- The program's calls take their base token program from those positions:
the 12th account of the DLMM swap and of either Pump call. -/
theorem base_token_calls (acc : List Hops.AccountInfo) (n : UInt64) (quoteIn : Bool) :
    (Exec.dlmmIx acc n quoteIn).accounts[11]?.map (·.pubkey)
        = some (Hops.acct acc Exec.token2022Idx).key
      ∧ (Hops.pumpSellIx acc Exec.pumpRemainOff n).accounts[11]?.map (·.pubkey)
        = some (Hops.acct acc (Exec.pumpRemainOff + 11)).key
      ∧ (Hops.pumpBuyIx acc Exec.pumpRemainOff n).accounts[11]?.map (·.pubkey)
        = some (Hops.acct acc (Exec.pumpRemainOff + 11)).key :=
  ⟨rfl, rfl, rfl⟩

/-! ## §5. What the loader gives back. -/

/-- An index of `posOf` is one the address stands at. -/
theorem posOf_spec {a : Key} {i : Nat} {l : List Key} {j : Nat} (h : posOf a i l = some j) :
    i ≤ j ∧ l[j - i]? = some a := by
  induction l generalizing i with
  | nil => cases h
  | cons b l ih =>
    rw [posOf, Option.or_eq_some_iff] at h
    rcases h with later | ⟨-, here⟩
    · obtain ⟨hle, hget⟩ := ih later
      refine ⟨by omega, ?_⟩
      rw [show j - i = (j - (i + 1)) + 1 by omega, List.getElem?_cons_succ]
      exact hget
    · split at here
      next hb =>
        obtain rfl := Option.some.inj here
        simp [hb]
      next => cases here

/-- The looked up indices give the addresses back, in order. -/
theorem indexBytes_get {addresses keys : List Key} {ix : List Nat}
    (h : indexBytes addresses keys = some ix) :
    ix.map (fun i => addresses.getD i "") = keys := by
  induction keys generalizing ix with
  | nil =>
    obtain rfl : ix = [] := by simpa [indexBytes] using h.symm
    rfl
  | cons a keys ih =>
    simp only [indexBytes, List.mapM_cons, Option.bind_eq_bind, Option.bind_eq_some_iff,
      Option.pure_def, Option.some.injEq] at h
    obtain ⟨i, ⟨j, hpos, hj⟩, rest, hrest, rfl⟩ := h
    obtain rfl : j = i := by
      split at hj
      · exact Option.some.inj hj
      · cases hj
    have hget := (posOf_spec hpos).2
    rw [Nat.sub_zero] at hget
    rw [List.map_cons, ih hrest, List.getD_eq_getElem?_getD, hget]
    rfl

/-- A table found by `lookup_prepared` gives both key lists back. -/
theorem lookupPrepared_get {plane : List Alt} {wr ro : List Key} {alt : Alt} {wrIx roIx : List Nat}
    (h : lookupPrepared plane wr ro = some (alt, wrIx, roIx)) :
    wrIx.map (fun i => alt.addresses.getD i "") = wr
      ∧ roIx.map (fun i => alt.addresses.getD i "") = ro := by
  simp only [lookupPrepared, Option.bind_eq_some_iff, Option.map_eq_some_iff,
    Prod.mk.injEq] at h
  obtain ⟨alt', -, wrIx', hwr, roIx', hro, rfl, rfl, rfl⟩ := h
  exact ⟨indexBytes_get hwr, indexBytes_get hro⟩

/-- What every accepted route has. -/
theorem resolveAll_parts {dv : Derive} {owner : Key → Option Key} {wallet ourExec : Key}
    {pairs : List Pair} {r : Route} (hr : r ∈ resolveAll dv owner wallet ourExec pairs) :
    r.static = v0Static wallet ourExec
      ∧ r.baseTok = (owner r.mintX).getD token2022
      ∧ (r.baseTok = tokenkeg ∨ r.baseTok = token2022)
      ∧ ∃ acc : RouteAcc, acc.baseTok = r.baseTok ∧ acc.mintX = r.mintX
        ∧ r.wr = v0Wr acc ∧ r.wrBuy = v0Wr acc ++ [acc.gvol] ∧ r.ro = v0Ro acc := by
  obtain ⟨pr, -, hpr⟩ := List.mem_filterMap.1 hr
  simp only [resolveOne, Option.bind_eq_some_iff] at hpr
  obtain ⟨lb, -, p, -, hpr⟩ := hpr
  split at hpr
  next => cases hpr
  next =>
    split at hpr
    next => cases hpr
    next htok =>
      split at hpr
      next b0 b1 rest hbins =>
        obtain rfl := Option.some.inj hpr
        refine ⟨rfl, rfl, ?_, _, rfl, rfl, rfl, rfl, rfl⟩
        by_contra hne
        exact htok ⟨fun h => hne (.inl h), fun h => hne (.inr h)⟩
      next => cases hpr

/-- The template of a route and a direction: its static keys and its indices
are the route's and the direction's, and the loader puts the keys back. -/
theorem compileRoute_parts {dv : Derive} {owner : Key → Option Key} {wallet ourExec : Key}
    {pairs : List Pair} {r : Route} (hr : r ∈ resolveAll dv owner wallet ourExec pairs)
    {plane : List Alt} {buy : Bool} {t : Template} (ht : compileRoute plane r buy = some t) :
    t.accounts = (if buy then ixIdxBuy else ixIdx)
      ∧ t.loaded = v0Static wallet ourExec ++ ((if buy then r.wrBuy else r.wr) ++ r.ro) := by
  obtain ⟨hstatic, -, -, acc, -, -, hwr, hwrBuy, hro⟩ := resolveAll_parts hr
  cases buy with
  | false =>
    simp only [compileRoute, Bool.false_eq_true, if_false, Option.bind_eq_some_iff] at ht
    obtain ⟨⟨alt, wrIx, roIx⟩, hl, hc⟩ := ht
    obtain ⟨gw, gr⟩ := lookupPrepared_get hl
    -- neither index list is empty, so the fixed ones are not taken
    have hw0 : wrIx ≠ [] := by rintro rfl; rw [hwr] at gw; exact absurd gw (by simp [v0Wr])
    have hr0 : roIx ≠ [] := by rintro rfl; rw [hro] at gr; exact absurd gr (by simp [v0Ro])
    simp only [compileV0, if_neg hw0, if_neg hr0] at hc
    split at hc
    next => cases hc
    next =>
      obtain rfl := Option.some.inj hc
      refine ⟨rfl, ?_⟩
      simp only [Template.loaded, List.map_append, gw, gr, hstatic, Bool.false_eq_true, if_false]
  | true =>
    simp only [compileRoute, if_true, Option.bind_eq_some_iff] at ht
    obtain ⟨⟨alt, wrIx, roIx⟩, hl, hc⟩ := ht
    obtain ⟨gw, gr⟩ := lookupPrepared_get hl
    have hw0 : wrIx ≠ [] := by rintro rfl; rw [hwrBuy] at gw; exact absurd gw (by simp [v0Wr])
    have hr0 : roIx ≠ [] := by rintro rfl; rw [hro] at gr; exact absurd gr (by simp [v0Ro])
    simp only [compileV0Buy, if_neg hw0, if_neg hr0] at hc
    split at hc
    next => cases hc
    next =>
      obtain rfl := Option.some.inj hc
      refine ⟨rfl, ?_⟩
      simp only [Template.loaded, List.map_append, gw, gr, hstatic, if_true]

/-! ## §6. The base token program. -/

/-- **The base-token-program positions hold Token-2022, whatever the route.** -/
theorem base_token_slot {dv : Derive} {owner : Key → Option Key} {wallet ourExec : Key}
    {pairs : List Pair} {r : Route} (hr : r ∈ resolveAll dv owner wallet ourExec pairs)
    {plane : List Alt} {buy : Bool} {t : Template} (ht : compileRoute plane r buy = some t)
    {pos : Nat} (hpos : pos ∈ baseTokenPositions) : t.accountList[pos]? = some token2022 := by
  obtain ⟨hacc, hload⟩ := compileRoute_parts hr ht
  -- both tables name the last but one of the static keys at both positions
  have hix : t.accounts[pos]? = some 9 := by
    rw [hacc]
    revert hpos
    cases buy <;> revert pos <;> decide
  rw [Template.accountList, List.getElem?_map, hix, Option.map_some, hload]
  rfl

/-- Derivations that write their arguments out. -/
def demoDerive : Derive where
  ata owner mint _ := "ata/" ++ owner ++ "/" ++ mint
  findPda seed key prog := seed ++ "/" ++ key.getD "" ++ "/" ++ prog
  binArrayPda dlmm i := dlmm ++ "/bins" ++ toString i

/-- One pair, with both its records. -/
def demoPair : Pair where
  dlmm := "dlmm"
  pump := "pump"
  token := "mint"
  lb := some ⟨"mint", sol, "vaultX", "vaultY", 5⟩
  p := some ⟨"vaultB", "vaultQ", some "coin"⟩

/-- The owners of a chain whose one mint belongs to `tok`. -/
def demoOwner (tok : Key) (a : Key) : Option Key :=
  if a = "mint" then some tok else some dlmmProg

/-- A plane with one table of all that the route needs. -/
def demoPlane (tok : Key) : List Alt :=
  (resolveAll demoDerive (demoOwner tok) "wallet" "exec" [demoPair]).map fun r => ⟨"alt", r.need⟩

/-- The route of the demo has a template in each direction. -/
def demoCompiles (tok : Key) (buy : Bool) : Bool :=
  (resolveAll demoDerive (demoOwner tok) "wallet" "exec" [demoPair]).any fun r =>
    (compileRoute (demoPlane tok) r buy).any fun _ => demoOwner tok r.mintX = some tok

theorem demoCompiles_exists {tok : Key} {buy : Bool} (h : demoCompiles tok buy = true) :
    ∃ r ∈ resolveAll demoDerive (demoOwner tok) "wallet" "exec" [demoPair], ∃ t,
      compileRoute (demoPlane tok) r buy = some t ∧ demoOwner tok r.mintX = some tok := by
  obtain ⟨r, hr, ht⟩ := List.any_eq_true.1 h
  cases hc : compileRoute (demoPlane tok) r buy with
  | none => rw [hc] at ht; cases ht
  | some t =>
    rw [hc] at ht
    exact ⟨r, hr, t, hc, of_decide_eq_true ht⟩

end ShredArb.AltPlane
