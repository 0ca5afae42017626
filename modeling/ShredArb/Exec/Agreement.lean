/-
  ShredArb.Exec.Agreement — the v0 template against the on-chain program.

  The emitted bytes parse as a v0 transaction of the declared length whatever
  the keys and fields are.  Its account vector is the one of the SELL form: the
  program runs it for direction 0, and for direction 1 it is two accounts
  short.

  Main results:
    * `parseV0_txBytes` — what is emitted parses,
    * `process_sell` — the program on the vector, direction 0,
    * `route0V0_agrees_iff`.
-/
import ShredArb.Exec.Template

namespace ShredArb.Exec

open ShredArb.Univ ShredArb.Bytes ShredArb.Hops ShredArb.Tx ShredArb.Parse

/-! ## §1. The accounts of a route. -/

/-- The accounts by what they are; all but `gvol` are static keys or stand in
the lookup table. -/
structure Route0Accounts where
  wallet : Pubkey
  ourExec : Pubkey
  cuProg : Pubkey
  tokenkeg : Pubkey
  system : Pubkey
  ataProg : Pubkey
  memo : Pubkey
  dlmm : Pubkey
  pump : Pubkey
  token2022 : Pubkey
  feeProg : Pubkey
  userQuote : Pubkey
  userBase : Pubkey
  pairDlmm : Pubkey
  vaultX : Pubkey
  vaultY : Pubkey
  oracle : Pubkey
  bin0 : Pubkey
  bin1 : Pubkey
  pairPump : Pubkey
  vaultBase : Pubkey
  vaultQuote : Pubkey
  protoFeeAta : Pubkey
  creatorAta : Pubkey
  uvol : Pubkey
  feeRecQuote : Pubkey
  eventDlmm : Pubkey
  mintX : Pubkey
  mintY : Pubkey
  pumpEvent : Pubkey
  pumpGlobal : Pubkey
  feeCfg : Pubkey
  protoFee : Pubkey
  creatorAuth : Pubkey
  poolV2 : Pubkey
  feeRecipient : Pubkey
  gvol : Pubkey

namespace Route0Accounts

variable (a : Route0Accounts)

/-- The static keys, in the order of `V0_STATIC_*`. -/
def staticKeys : Vector Pubkey v0NStatic :=
  #v[a.wallet, a.ourExec, a.cuProg, a.tokenkeg, a.system, a.ataProg, a.memo, a.dlmm, a.pump,
    a.token2022, a.feeProg]

/-- The lookup table: `wr[14] + ro[9] + fee_recipient_quote + fee_recipient`. -/
def altTable : List Pubkey :=
  [a.userQuote, a.userBase, a.pairDlmm, a.vaultX, a.vaultY, a.oracle, a.bin0, a.bin1, a.pairPump,
   a.vaultBase, a.vaultQuote, a.protoFeeAta, a.creatorAta, a.uvol,
   a.eventDlmm, a.mintX, a.mintY, a.pumpEvent, a.pumpGlobal, a.feeCfg, a.protoFee, a.creatorAuth,
   a.poolV2,
   a.feeRecQuote, a.feeRecipient]

/-- The accounts of the Pump call. -/
def pumpMetas (buy : Bool) : List Pubkey :=
  [a.pairPump, a.wallet, a.pumpGlobal, a.mintX, a.mintY, a.userBase, a.userQuote, a.vaultBase,
   a.vaultQuote, a.protoFee, a.protoFeeAta, a.token2022, a.tokenkeg, a.system, a.ataProg,
   a.pumpEvent, a.pump, a.creatorAta, a.creatorAuth] ++
  (if buy then [a.gvol, a.uvol] else []) ++
  [a.feeCfg, a.feeProg, a.poolV2, a.feeRecipient, a.feeRecQuote]

/-- The positions `process` reads, and what must stand there. -/
def required (direction : UInt8) : List (Nat × Pubkey) :=
  [(accAuthority, a.wallet), (accUserQuote, a.userQuote), (accUserBase, a.userBase),
   (accTokenProgram, a.tokenkeg), (accMemo, a.memo), (accDlmm, a.dlmm),
   (accDlmmEvent, a.eventDlmm), (accLbPair, a.pairDlmm), (accBitmap, a.dlmm),
   (accReserveX, a.vaultX), (accReserveY, a.vaultY), (accOracle, a.oracle), (accHostFee, a.dlmm),
   (accMintX, a.mintX), (accMintY, a.mintY), (accBin0, a.bin0), (accBin1, a.bin1),
   (token2022Idx, a.token2022)] ++
  (a.pumpMetas (direction == 1)).zipIdx.map fun (k, i) => (pumpRemainOff + i, k)

/-- `swap2` in or out of the quote. -/
def swap2 (amountIn : UInt64) (userIn userOut : Pubkey) : Instruction where
  programId := a.dlmm
  accounts :=
    [⟨a.pairDlmm, true, false⟩, ⟨a.dlmm, false, false⟩, ⟨a.vaultX, true, false⟩,
     ⟨a.vaultY, true, false⟩, ⟨userIn, true, false⟩, ⟨userOut, true, false⟩,
     ⟨a.mintX, false, false⟩, ⟨a.mintY, false, false⟩, ⟨a.oracle, true, false⟩,
     ⟨a.dlmm, false, false⟩, ⟨a.wallet, true, true⟩, ⟨a.token2022, false, false⟩,
     ⟨a.tokenkeg, false, false⟩, ⟨a.memo, false, false⟩, ⟨a.eventDlmm, false, false⟩,
     ⟨a.dlmm, false, false⟩, ⟨a.bin0, true, false⟩, ⟨a.bin1, true, false⟩]
  data := dlmmSwap2 ++ u64le amountIn ++ List.replicate 12 0

/-- The Pump call. -/
def pumpForm (buy : Bool) (amountIn : UInt64) : Instruction where
  programId := a.pump
  accounts := (a.pumpMetas buy).zipIdx.map fun (k, i) =>
    ⟨k, if buy then pumpWritableBuy i else pumpWritableSell i, k == a.wallet⟩
  data :=
    if buy then pumpBuyExactQ ++ u64le amountIn ++ u64le 1
    else pumpSell ++ u64le amountIn ++ List.replicate 8 0

/-- **What the route is**: two calls, the second on what the first gained in
the base account, and a profit in the quote account. -/
def run (invoke : Invoke) (d : Route0Data) (w : World) : Except UInt32 World :=
  if d.amountIn = 0 then .error errIx
  else do
    let quote : AccountInfo := ⟨a.userQuote, false⟩
    let base : AccountInfo := ⟨a.userBase, false⟩
    let q0 ← tokAmt w quote
    let b0 ← tokAmt w base
    let w2 ←
      if d.direction = dirDlmmThenPump then do
        let w1 ← call invoke (a.swap2 d.amountIn a.userQuote a.userBase) errDlmm w
        let b1 ← tokAmt w1 base
        if satSub b1 b0 = 0 then .error errDlmm
        else call invoke (a.pumpForm false (satSub b1 b0)) errPump w1
      else do
        let w1 ← call invoke (a.pumpForm true d.amountIn) errPump w
        let b1 ← tokAmt w1 base
        if satSub b1 b0 = 0 then .error errPump
        else call invoke (a.swap2 (satSub b1 b0) a.userBase a.userQuote) errDlmm w1
    let q1 ← tokAmt w2 quote
    if q1 < q0 ∨ q1 - q0 < d.minProfit then .error errProfit
    else .ok w2

end Route0Accounts

/-! ## §2. Agreement. -/

/-- The accounts an instruction names. -/
def resolved (keys : List Pubkey) (ix : CompiledIx) : List Pubkey :=
  ix.accounts.map fun i => keys.getD i.toNat 0

/-- The account vector is what `process` requires for the direction, and on it
`process` does what the route is. -/
structure VectorFits (a : Route0Accounts) (d : Route0Data) (accounts : List Pubkey)
    (data : List UInt8) : Prop where
  long : pumpRemainOff + (a.pumpMetas (d.direction == 1)).length ≤ accounts.length
  ordered : ∀ i k, (i, k) ∈ a.required d.direction → accounts[i]? = some k
  runs : ∀ invoke w, process invoke (accounts.map fun k => ⟨k, k == a.wallet⟩) data w =
    a.run invoke d w

/-- The emitted bytes are a v0 transaction of the declared length, every index
is in range, and its last instruction calls the program with the fields and a
vector that fits. -/
def Agrees (a : Route0Accounts) (tables : Mint → List Mint) (opp : Opportunity)
    (minProfit : UInt64) (tx : List UInt8) : Prop :=
  tx.length = v0TxLen ∧ ∃ t keys ix, parseV0 tx = some t ∧ t.loaded tables = some keys ∧
    (∀ x ∈ t.ixs, x.prog.toNat < keys.length ∧ ∀ j ∈ x.accounts, j.toNat < keys.length) ∧
    t.ixs.getLast? = some ix ∧ keys[ix.prog.toNat]? = some a.ourExec ∧
    decodeData ix.data = some ⟨opp.direction, opp.amountIn, minProfit⟩ ∧
    VectorFits a ⟨opp.direction, opp.amountIn, minProfit⟩ (resolved keys ix) ix.data

/-! ## §3. What is emitted parses. -/

/-- The bytes of an instruction. -/
def ixBytes (x : CompiledIx) : List UInt8 :=
  [x.prog] ++ (UInt8.ofNat x.accounts.length :: x.accounts) ++
    (UInt8.ofNat x.data.length :: x.data)

/-- Short enough for one-byte lengths. -/
def ShortIx (x : CompiledIx) : Prop := x.accounts.length < 128 ∧ x.data.length < 128

theorem ofNat_short {n : Nat} (h : n < 128) :
    UInt8.ofNat n &&& 0x80 = 0 ∧ (UInt8.ofNat n).toNat = n := by
  have hn : (UInt8.ofNat n).toNat = n := UInt8.toNat_ofNat_of_lt' (Nat.lt_trans h (by decide))
  refine ⟨?_, hn⟩
  rw [← UInt8.toNat_inj, UInt8.toNat_and, hn]
  exact (by decide : ∀ n < 128, n &&& 128 = 0) n h

theorem reads_ixBytes {x : CompiledIx} (h : ShortIx x) : Reads compiledIx (ixBytes x) x := by
  obtain ⟨ha, hna⟩ := ofNat_short h.1
  obtain ⟨hd, hnd⟩ := ofNat_short h.2
  exact reads_compiledIx ha hna hd hnd

/-- The three instructions of the message. -/
def route0Ixs (cuLimit : UInt32) (price direction amount profit : List UInt8) : List CompiledIx :=
  [⟨v0StaticCu, [], 2 :: leBytes 4 cuLimit.toNat⟩, ⟨v0StaticCu, [], 3 :: price⟩,
   ⟨v0StaticOurExec, ixIdx, disc ++ direction ++ amount ++ profit⟩]

/-- The transaction. -/
def route0Tx (ks : List Pubkey) (alt : Pubkey) (blockhash : Mint) (ixs : List CompiledIx) :
    V0Tx where
  sigs := [zeros 64]
  nSigned := 1
  roSigned := 0
  roUnsigned := 10
  keys := ks
  blockhash := blockhash
  ixs := ixs
  lookups := [⟨alt, altWrIx, altRoIx⟩]

theorem reads_route0Tx {ks : List Pubkey} (hks : ks.length = 11) (alt : Pubkey) (blockhash : Mint)
    {ixs : List CompiledIx} (hixs : ixs.length = 3) (hshort : ∀ x ∈ ixs, ShortIx x) :
    Reads v0Tx
      ((1 :: zeros 64) ++ ([0x80] ++ ([1] ++ ([0] ++ ([10] ++ ((11 :: ks.flatMap keyBytes) ++
        (keyBytes blockhash ++ ((3 :: ixs.flatMap ixBytes) ++
          (1 :: (keyBytes alt ++ (15 :: altWrIx) ++ (10 :: altRoIx)))))))))))
      (route0Tx ks alt blockhash ixs) := by
  have hsigs : Reads (vec (exactly 64)) (1 :: zeros 64) [zeros 64] := by
    have h : Reads (vec (exactly 64)) (1 :: [zeros 64].flatMap fun x => x) [zeros 64] :=
      reads_vec (fun x => x) (by decide) rfl fun x hx => by
        rw [List.mem_singleton] at hx
        rw [hx]
        exact reads_exactly rfl
    simpa using h
  have hkeys : Reads (vec key) (11 :: ks.flatMap keyBytes) ks :=
    reads_vec keyBytes (by decide) hks.symm fun k _ => reads_key k
  have hins : Reads (vec compiledIx) (3 :: ixs.flatMap ixBytes) ixs :=
    reads_vec ixBytes (by decide) hixs.symm fun x hx => reads_ixBytes (hshort x hx)
  have hlook : Reads (vec lookup) (1 :: (keyBytes alt ++ (15 :: altWrIx) ++ (10 :: altRoIx)))
      [⟨alt, altWrIx, altRoIx⟩] := by
    have h : Reads (vec lookup) (1 :: [Lookup.mk alt altWrIx altRoIx].flatMap fun l =>
        keyBytes l.table ++ (15 :: l.writable) ++ (10 :: l.readonly)) [⟨alt, altWrIx, altRoIx⟩] :=
      reads_vec _ (by decide) rfl fun l hl => by
        rw [List.mem_singleton] at hl
        rw [hl]
        exact reads_lookup (by decide) rfl (by decide) rfl
    simpa using h
  have hmsg : Reads (v0Message [zeros 64])
      ([1] ++ ([0] ++ ([10] ++ ((11 :: ks.flatMap keyBytes) ++ (keyBytes blockhash ++
        ((3 :: ixs.flatMap ixBytes) ++
          (1 :: (keyBytes alt ++ (15 :: altWrIx) ++ (10 :: altRoIx)))))))))
      (route0Tx ks alt blockhash ixs) :=
    (reads_byte 1).andThen ((reads_byte 0).andThen ((reads_byte 10).andThen (hkeys.andThen
      ((reads_key blockhash).andThen (hins.andThen hlook.map)))))
  refine hsigs.andThen ((reads_byte 0x80).andThen ?_)
  rw [if_pos rfl]
  exact hmsg

/-- **What is emitted parses, whatever the fields are.** -/
theorem parseV0_txBytes (ks : Vector Pubkey v0NStatic) (alt : Pubkey) (cuLimit : UInt32)
    (blockhash : Mint) {p d a m : List UInt8} (hp : p.length = 8) (hd : d.length = 1)
    (ha : a.length = 8) (hm : m.length = 8) :
    parseV0 (txBytes ks.toList alt cuLimit (keyBytes blockhash) p d a m) =
      some (route0Tx ks.toList alt blockhash (route0Ixs cuLimit p d a m)) := by
  have hshort : ∀ x ∈ route0Ixs cuLimit p d a m, ShortIx x := by
    intro x hx
    simp only [route0Ixs, List.mem_cons, List.not_mem_nil, or_false] at hx
    rcases hx with rfl | rfl | rfl
    · simp [ShortIx, length_leBytes]
    · simp [ShortIx, hp]
    · simp [ShortIx, ixIdx, disc, hd, ha, hm]
  have hlen : ks.toList.length = 11 := Vector.length_toList
  have hread := (reads_route0Tx hlen alt blockhash rfl hshort).whole
  have hbytes : txBytes ks.toList alt cuLimit (keyBytes blockhash) p d a m =
      (1 :: zeros 64) ++ ([0x80] ++ ([1] ++ ([0] ++ ([10] ++ ((11 :: ks.toList.flatMap keyBytes) ++
        (keyBytes blockhash ++ ((3 :: (route0Ixs cuLimit p d a m).flatMap ixBytes) ++
          (1 :: (keyBytes alt ++ (15 :: altWrIx) ++ (10 :: altRoIx)))))))))) := by
    have hdlen : UInt8.ofNat (disc ++ d ++ a ++ m).length = 25 := by
      simp [disc, hd, ha, hm]
    have hplen : UInt8.ofNat (3 :: p).length = 9 := by simp [hp]
    have hclen : UInt8.ofNat (2 :: leBytes 4 cuLimit.toNat).length = 5 := by
      simp [length_leBytes]
    have hixlen : UInt8.ofNat ixIdx.length = 60 := rfl
    simp only [txBytes, txHead, txBudget, txVector, txTail, route0Ixs, ixBytes, List.flatMap_cons,
      List.flatMap_nil, hdlen, hplen, hclen, hixlen]
    simp
  rw [parseV0, hbytes]
  exact hread

/-! ## §4. The vector. -/

section Vector

variable (a : Route0Accounts)

/-- The keys the indices count through. -/
def loadedKeys : List Pubkey :=
  [a.wallet, a.ourExec, a.cuProg, a.tokenkeg, a.system, a.ataProg, a.memo, a.dlmm, a.pump,
   a.token2022, a.feeProg,
   a.userQuote, a.userBase, a.pairDlmm, a.vaultX, a.vaultY, a.oracle, a.bin0, a.bin1, a.pairPump,
   a.vaultBase, a.vaultQuote, a.protoFeeAta, a.creatorAta, a.uvol, a.feeRecQuote,
   a.eventDlmm, a.mintX, a.mintY, a.pumpEvent, a.pumpGlobal, a.feeCfg, a.protoFee, a.creatorAuth,
   a.poolV2, a.feeRecipient]

theorem loaded_route0Tx {tables : Mint → List Mint} {alt : Pubkey} (htab : tables alt = a.altTable)
    (blockhash : Mint) (ixs : List CompiledIx) :
    (route0Tx a.staticKeys.toList alt blockhash ixs).loaded tables = some (loadedKeys a) := by
  simp only [V0Tx.loaded, route0Tx, List.mapM_cons, List.mapM_nil, htab]
  rfl

/-- The account vector of the emitted instruction. -/
def vectorAccounts : List Pubkey := ixIdx.map fun i => (loadedKeys a).getD i.toNat 0

theorem length_vectorAccounts : (vectorAccounts a).length = 60 := rfl

theorem ixIdx_lt : ∀ j ∈ ixIdx, j.toNat < 36 := by
  have hall : (ixIdx.all fun j => decide (j.toNat < 36)) = true := by decide
  exact fun j hj => of_decide_eq_true (List.all_eq_true.mp hall j hj)

/-- What the program is handed. -/
def vectorInfos : List AccountInfo := (vectorAccounts a).map fun k => ⟨k, k == a.wallet⟩

theorem ordered_sell : ∀ i k, (i, k) ∈ a.required 0 → (vectorAccounts a)[i]? = some k := by
  have hall : (a.required 0).map (fun x => (vectorAccounts a)[x.1]?)
      = (a.required 0).map fun x => some x.2 := rfl
  exact fun i k hik => List.map_inj_left.mp hall (i, k) hik

theorem dlmmIx_vector (amount : UInt64) :
    dlmmIx (vectorInfos a) amount true = a.swap2 amount a.userQuote a.userBase := rfl

theorem pumpSellIx_vector (amount : UInt64) :
    pumpSellIx (vectorInfos a) pumpRemainOff amount = a.pumpForm false amount := rfl

/-- **The program on the vector, direction 0.** -/
theorem process_sell (invoke : Invoke) {data : List UInt8} {d : Route0Data}
    (hdata : decodeData data = some d) (hdir : d.direction = 0) (w : World) :
    process invoke (vectorInfos a) data w = a.run invoke d w := by
  have hlen : ¬ (vectorInfos a).length < pumpRemainOff + pumpNSell := by
    show ¬ 60 < 60
    omega
  have hsign : (acct (vectorInfos a) accAuthority).isSigner = true := beq_self_eq_true a.wallet
  have hsign' : ¬ (acct (vectorInfos a) accAuthority).isSigner = false := by
    rw [hsign]
    decide
  have hquote : ∀ v : World,
      tokAmt v (acct (vectorInfos a) accUserQuote) = tokAmt v ⟨a.userQuote, false⟩ := fun _ => rfl
  have hbase : ∀ v : World,
      tokAmt v (acct (vectorInfos a) accUserBase) = tokAmt v ⟨a.userBase, false⟩ := fun _ => rfl
  have hle : ¬ d.direction > 1 := by
    rw [hdir]
    decide
  simp only [process, hdata, Route0Accounts.run, if_neg hlen, if_neg hsign', hle, false_or,
    if_pos hdir, hquote, hbase, cpiDlmm, cpiPumpSell, dlmmIx_vector, pumpSellIx_vector]

end Vector

/-! ## §5. The result. -/

theorem decodeData_fields (direction : UInt8) (amount profit : UInt64) :
    decodeData (disc ++ [direction] ++ u64le amount ++ u64le profit) =
      some ⟨direction, amount, profit⟩ := by
  have hlen : (disc ++ [direction] ++ u64le amount ++ u64le profit).length = ixLen := by
    simp [disc, length_u64le, ixLen]
  have hdisc : (disc ++ [direction] ++ u64le amount ++ u64le profit).take 8 = disc := by
    rw [List.append_assoc, List.append_assoc]
    exact List.take_left' rfl
  have hdir : byteAt (disc ++ [direction] ++ u64le amount ++ u64le profit) 8 = direction := rfl
  have hamt : field (disc ++ [direction] ++ u64le amount ++ u64le profit) 9 8 = u64le amount := by
    rw [field_append_left (by simp [disc, length_u64le]), field_append_right (by simp [disc])]
    exact List.take_of_length_le (by rw [List.length_drop, length_u64le]; omega)
  have hmin : field (disc ++ [direction] ++ u64le amount ++ u64le profit) 17 8 = u64le profit := by
    rw [field_append_right (by simp [disc, length_u64le])]
    have h0 : 17 - (disc ++ [direction] ++ u64le amount).length = 0 := by
      simp [disc, length_u64le]
    rw [h0]
    exact List.take_of_length_le (by simp [length_u64le])
  have hbad : ¬ ((disc ++ [direction] ++ u64le amount ++ u64le profit).length ≠ ixLen ∨
      (disc ++ [direction] ++ u64le amount ++ u64le profit).take 8 ≠ disc) := by
    rintro (h | h)
    · exact h hlen
    · exact h hdisc
  rw [decodeData, if_neg hbad, hdir, hamt, hmin, loadU64_u64le, loadU64_u64le]

theorem txBytes_agrees_iff (a : Route0Accounts) (alt : Pubkey) {tables : Mint → List Mint}
    (htab : tables alt = a.altTable) (cuLimit : UInt32) (opp : Opportunity) (minProfit : UInt64)
    (blockhash : Mint) (cuPrice : UInt64) (hdir : opp.direction ≤ 1) :
    Agrees a tables opp minProfit
        (txBytes a.staticKeys.toList alt cuLimit (keyBytes blockhash) (u64le cuPrice)
          [opp.direction] (u64le opp.amountIn) (u64le minProfit)) ↔ opp.direction = 0 := by
  have hparse := parseV0_txBytes a.staticKeys alt cuLimit blockhash (length_u64le cuPrice)
    (show [opp.direction].length = 1 from rfl) (length_u64le opp.amountIn) (length_u64le minProfit)
  constructor
  · rintro ⟨-, t, keys, ix, ht, hkeys, -, hix, -, -, hfits⟩
    -- the parsed transaction is the one emitted, so its vector has 60 accounts
    rw [hparse] at ht
    obtain rfl := Option.some.inj ht
    rw [loaded_route0Tx a htab] at hkeys
    obtain rfl := Option.some.inj hkeys
    obtain rfl := Option.some.inj hix
    have hlong := hfits.long
    by_contra hne
    have hone : (opp.direction == 1) = true := by
      rw [beq_iff_eq, ← UInt8.toNat_inj]
      have hle : opp.direction.toNat ≤ 1 := hdir
      have hpos : opp.direction.toNat ≠ 0 := fun h => hne (UInt8.toNat_inj.mp h)
      show opp.direction.toNat = 1
      omega
    simp only [hone] at hlong
    have hshort : 62 ≤ 60 := hlong
    omega
  · intro h0
    refine ⟨length_txBytes (length_keyBytes _) (length_u64le _) rfl (length_u64le _)
      (length_u64le _), _, loadedKeys a,
      ⟨v0StaticOurExec, ixIdx, disc ++ [opp.direction] ++ u64le opp.amountIn ++ u64le minProfit⟩,
      hparse, loaded_route0Tx a htab blockhash _, ?_, rfl, rfl, decodeData_fields _ _ _, ?_⟩
    · intro x hx
      have hx' : x ∈ route0Ixs cuLimit (u64le cuPrice) [opp.direction] (u64le opp.amountIn)
          (u64le minProfit) := hx
      simp only [route0Ixs, List.mem_cons, List.not_mem_nil, or_false] at hx'
      rcases hx' with rfl | rfl | rfl
      · exact ⟨by show 2 < 36; omega, fun j hj => absurd hj List.not_mem_nil⟩
      · exact ⟨by show 2 < 36; omega, fun j hj => absurd hj List.not_mem_nil⟩
      · exact ⟨by show 1 < 36; omega, ixIdx_lt⟩
    · rw [h0]
      exact ⟨Nat.le_refl 60, ordered_sell a,
        fun invoke w => process_sell a invoke (decodeData_fields _ _ _) rfl w⟩

/-- **The emitted transaction agrees with the program if and only if the
direction is 0**: for direction 1 its vector is two accounts short. -/
theorem route0V0_agrees_iff (a : Route0Accounts) (alt : Pubkey) {tables : Mint → List Mint}
    (htab : tables alt = a.altTable) (cuLimit : UInt32) :
    ∃ t, route0V0Compile a.staticKeys alt cuLimit = some t ∧
      ∀ (opp : Opportunity) (minProfit : UInt64) (blockhash : Mint) (cuPrice : UInt64)
        (tx : List UInt8), route0V0Patch t opp minProfit blockhash cuPrice = some tx →
        (Agrees a tables opp minProfit tx ↔ opp.direction = 0) := by
  refine ⟨_, route0V0Compile_eq _ _ _, ?_⟩
  intro opp minProfit blockhash cuPrice tx htx
  obtain ⟨hvalid, hroute, hdir⟩ := route0V0Patch_some htx
  rw [route0V0Patch_eq hvalid hroute hdir] at htx
  obtain rfl := Option.some.inj htx
  exact txBytes_agrees_iff a alt htab cuLimit opp minProfit blockhash cuPrice hdir

/-- 37 different keys. -/
def demoAccounts : Route0Accounts :=
  ⟨1, 2, 3, 4, 5, 6, 7, 8, 9, 10, 11, 12, 13, 14, 15, 16, 17, 18, 19, 20, 21, 22, 23, 24, 25, 26,
    27, 28, 29, 30, 31, 32, 33, 34, 35, 36, 37⟩

/-- An opportunity of ten thousand lamports. -/
def demoOpp (direction : UInt8) : Opportunity := ⟨0, 10000, 20000, 10000, direction, 1⟩

theorem route0V0_agrees_demo :
    ∃ t tx, route0V0Compile demoAccounts.staticKeys 99 200000 = some t ∧
      route0V0Patch t (demoOpp 0) 1000 77 5 = some tx ∧
      Agrees demoAccounts (fun _ => demoAccounts.altTable) (demoOpp 0) 1000 tx := by
  obtain ⟨t, ht, hiff⟩ := @route0V0_agrees_iff demoAccounts 99
    (fun _ => demoAccounts.altTable) rfl 200000
  obtain rfl := Option.some.inj ((route0V0Compile_eq _ _ _).symm.trans ht)
  exact ⟨_, _, ht, route0V0Patch_eq (by decide) rfl (by decide) _ _ _,
    (hiff _ _ _ _ _ (route0V0Patch_eq (by decide) rfl (by decide) _ _ _)).mpr rfl⟩

/-- The buy direction is accepted and cannot run. -/
theorem route0V0_buy_short :
    ∃ t tx, route0V0Compile demoAccounts.staticKeys 99 200000 = some t ∧
      route0V0Patch t (demoOpp 1) 1000 77 5 = some tx ∧
      ¬ Agrees demoAccounts (fun _ => demoAccounts.altTable) (demoOpp 1) 1000 tx := by
  refine ⟨_, _, route0V0Compile_eq _ _ _, route0V0Patch_eq (by decide) rfl (by decide) _ _ _, ?_⟩
  rw [txBytes_agrees_iff _ _ rfl _ _ _ _ _ (by decide)]
  decide

end ShredArb.Exec
