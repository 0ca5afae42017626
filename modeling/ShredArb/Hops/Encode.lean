/-
  ShredArb.Hops.Encode — the account list and payload of a compiled route
  (`build_route_accounts` of `arb-exec/scripts/hops_live.py`, with the account
  orders of `hops_vector.py`).

  What the script looks up on chain or derives (the owner program of a mint,
  associated token accounts, program addresses, the other accounts of a pool)
  is a `Chain`.  The direction of a hop is read off the mints: a hop is a Pump
  BUY when it comes from SOL.
-/
import ShredArb.Hops.Program

namespace ShredArb.Hops

open ShredArb.Univ ShredArb.Bytes

/-! ## §1. What is looked up. -/

/-- The accounts of a DLMM pool but its key and mints (`DlmmHopAccounts`). -/
structure DlmmVec where
  bitmap : Pubkey
  vaultX : Pubkey
  vaultY : Pubkey
  oracle : Pubkey
  host : Pubkey
  bin0 : Pubkey
  bin1 : Pubkey
  deriving DecidableEq, Repr, Inhabited

/-- The accounts of a Pump pool but its key, mints and the user's
(`PumpHopAccounts`). -/
structure PumpVec where
  globalConfig : Pubkey
  poolBaseVault : Pubkey
  poolQuoteVault : Pubkey
  protocolFeeRecipient : Pubkey
  protocolFeeRecipientQuoteAta : Pubkey
  eventAuthority : Pubkey
  creatorVaultAta : Pubkey
  creatorVault : Pubkey
  globalVolumeAccumulator : Pubkey
  userVolumeAccumulator : Pubkey
  feeConfig : Pubkey
  feeProgram : Pubkey
  poolV2 : Pubkey
  feeRecipient : Pubkey
  feeRecipientQuoteAta : Pubkey
  deriving DecidableEq, Repr, Inhabited

/-- What the script reads from the chain or derives. -/
structure Chain where
  wallet : Pubkey
  tokenkeg : Pubkey
  token2022 : Pubkey
  memo : Pubkey
  system : Pubkey
  ataProg : Pubkey
  dlmm : Pubkey
  dlmmEvent : Pubkey
  pump : Pubkey
  /-- `mint_tok` -/
  mintTok : Mint → Pubkey
  /-- `x.ata` -/
  ata : Pubkey → Mint → Pubkey → Pubkey
  poolKey : Nat → Pubkey
  dlmmVec : Nat → DlmmVec
  pumpVec : Nat → PumpVec

/-- `ata_of`. -/
def Chain.ataOf (c : Chain) (m : Mint) : Pubkey := c.ata c.wallet m (c.mintTok m)

/-- `derive_dlmm_hop(..).flatten()`. -/
def dlmmAccounts (c : Chain) (i : Nat) (p : PoolMeta) : List Pubkey :=
  let v := c.dlmmVec i
  [c.poolKey i, v.bitmap, v.vaultX, v.vaultY, v.oracle, v.host, p.mintX, p.mintY, v.bin0, v.bin1]

/-- `derive_pump_hop(..).flatten(wallet)`. -/
def pumpAccounts (c : Chain) (i : Nat) (p : PoolMeta) (buy : Bool) (userBase userQuote : Pubkey) :
    List Pubkey :=
  let v := c.pumpVec i
  [c.poolKey i, c.wallet, v.globalConfig, p.mintX, p.mintY, userBase, userQuote,
   v.poolBaseVault, v.poolQuoteVault, v.protocolFeeRecipient, v.protocolFeeRecipientQuoteAta,
   c.mintTok p.mintX, c.mintTok p.mintY, c.system, c.ataProg, v.eventAuthority, c.pump,
   v.creatorVaultAta, v.creatorVault] ++
  (if buy then [v.globalVolumeAccumulator, v.userVolumeAccumulator] else []) ++
  [v.feeConfig, v.feeProgram, v.poolV2, v.feeRecipient, v.feeRecipientQuoteAta]

/-! ## §2. The route. -/

/-- The mint a hop leaves with (`route_mints`). -/
def outgoing (p : PoolMeta) (incoming : Mint) : Mint :=
  if incoming = p.mintX then p.mintY else p.mintX

/-- `route_mints` after the first mint. -/
def mintsFrom (pools : List PoolMeta) : Mint → List Hop → Option (List Mint)
  | _, [] => some []
  | incoming, h :: hops =>
      (pools[h.pool]?).bind fun p =>
      (mintsFrom pools (outgoing p incoming) hops).map (outgoing p incoming :: ·)

/-- `route_mints`. -/
def routeMints (pools : List PoolMeta) (hops : List Hop) : Option (List Mint) :=
  (mintsFrom pools mintSol hops).map (mintSol :: ·)

/-- The user accounts: one per mint, the first repeated up to three. -/
def routeUsers (c : Chain) (mints : List Mint) : List Pubkey :=
  let users := mints.foldl (fun us m =>
    if us.contains (c.ataOf m) then us else us ++ [c.ataOf m]) []
  users ++ List.replicate (3 - users.length) (users.getD 0 0)

/-- One entry of `ix_hops` with its accounts. -/
structure HopRecord where
  proto : UInt8
  ina : UInt8
  outa : UInt8
  nacc : UInt8
  accs : List Pubkey
  deriving DecidableEq, Repr

/-- The index of the user account of a mint. -/
def userIndex (mints : List Mint) (m : Mint) : UInt8 :=
  if m = mintSol then 0 else if m = mints.getD 1 mintSol then 1 else 2

/-- One turn of the loop over the hops. -/
def hopRecord (c : Chain) (pools : List PoolMeta) (mints : List Mint) (users : List Pubkey)
    (h : Hop) (hi : Nat) : Option HopRecord :=
  (pools[h.pool]?).map fun p =>
    let incoming := mints.getD hi mintSol
    let outgoing := mints.getD (hi + 1) mintSol
    let ina := userIndex mints incoming
    let outa := userIndex mints outgoing
    if h.proto = protoDlmm then ⟨1, ina, outa, 10, dlmmAccounts c h.pool p⟩
    else
      let buy := incoming == mintSol
      let token := if incoming ≠ mintSol then incoming else outgoing
      ⟨2, ina, outa, if buy then 26 else 24,
        pumpAccounts c h.pool p buy (c.ataOf token) (users.getD 0 0)⟩

abbrev tinyIn : UInt64 := 10000
abbrev minProfit : UInt64 := 1000000000

/-- The accounts every hop shares. -/
def sharedAccounts (c : Chain) (users : List Pubkey) : List Pubkey :=
  [c.wallet, users.getD 0 0, users.getD 1 0, users.getD 2 0, c.tokenkeg, c.token2022, c.memo,
   c.dlmm, c.dlmmEvent]

/-- The 40 bytes of the payload. -/
def payload (n : Nat) (recs : List HopRecord) : List UInt8 :=
  disc ++ [UInt8.ofNat n] ++ u64le tinyIn ++ u64le minProfit ++
    (recs.flatMap (fun r => [r.proto, r.ina, r.outa]) ++ List.replicate (9 - 3 * recs.length) 0) ++
    (recs.map (·.nacc) ++ List.replicate (3 - recs.length) 0) ++ List.replicate 3 0

/-- `build_route_accounts`. -/
def buildRouteAccounts (c : Chain) (pools : List PoolMeta) (hops : List Hop) :
    Option (List Pubkey × List UInt8) :=
  (routeMints pools hops).bind fun mints =>
    let users := routeUsers c mints
    (hops.zipIdx.mapM fun (h, hi) => hopRecord c pools mints users h hi).map fun (recs : List HopRecord) =>
      (sharedAccounts c users ++ recs.flatMap HopRecord.accs, payload hops.length recs)

end ShredArb.Hops
