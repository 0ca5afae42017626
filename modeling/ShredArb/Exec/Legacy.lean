/-
  ShredArb.Exec.Legacy — the legacy transaction template of Route0
  (`arb-exec/src/tx_template.c`, `arb-exec/include/tx_template.h`).

  Compilation collects the account keys in four passes, one for each class of
  the message header, and maps the account vector through the collection.  The
  fields of one shot are patched in at fixed offsets.

  Conventions:
    • a key is its 32 bytes as a number; the pointers are never null,
    • `map` is zero where nothing is written yet: every entry is written before
      it is read,
    • `put_cu16` of a constant below 128 is one byte.

  Main results:
    * `compileKeys_spec` — the collection, the map and the header classes,
    * `scans_message` — the bytes are read back by the frame parser,
    * `route0Tx_faithful` — compiling and patching.
-/
import ShredArb.Lib.Intern
import ShredArb.Tx.Framing
import ShredArb.Exec.Agreement
import ShredArb.Exec.Route0

namespace ShredArb.Legacy

open ShredArb.Univ ShredArb.Bytes ShredArb.Tx ShredArb.Intern ShredArb.Scan ShredArb.Framing ShredArb.Exec

/-! ## §1. The account vector (`tx_template.h`, `route0.h`). -/

abbrev route0N : Nat := 35
abbrev route0IxLen : Nat := 25
abbrev route0TxNkeys : Nat := 35
abbrev route0TxNRoUnsigned : Nat := 20
abbrev route0TxLen : Nat := 1305
abbrev route0OffKeys : Nat := 69
abbrev route0OffBlockhash : Nat := 1189
abbrev route0OffCuPrice : Nat := 1234
abbrev route0OffRoute0Nacc : Nat := 1243
abbrev route0OffRoute0Accs : Nat := 1244
abbrev route0OffRoute0Data : Nat := 1280
abbrev route0OffDirection : Nat := 1288
abbrev route0OffAmountIn : Nat := 1289
abbrev route0OffMinProfit : Nat := 1297

abbrev accDlmmTokenXMint : Nat := 15
abbrev accDlmmTokenYMint : Nat := 16
abbrev accPumpBaseMint : Nat := 25
abbrev accPumpQuoteMint : Nat := 26

/-- `ACC_SIGNER`. -/
def accSigner : List UInt8 :=
  [1, 0, 0, 0, 0, 0, 0, 0, 0, 0,
   0, 0, 0, 0, 0, 0, 0, 0, 0, 0,
   0, 0, 0, 0, 0, 0, 0, 0, 0, 0,
   0, 0, 0, 0, 0]

/-- `ACC_WRITE`. -/
def accWrite : List UInt8 :=
  [1, 1, 1, 0, 0, 0, 0, 0, 0, 1,
   0, 1, 1, 1, 0, 0, 0, 1, 1, 0,
   0, 1, 0, 0, 0, 0, 0, 1, 1, 0,
   1, 1, 0, 0, 1]

/-- `ROUTE0_COMPUTE_BUDGET_ID`. -/
def computeBudget : Mint := BitVec.ofNat 256 (leNat
  [0x03, 0x06, 0x46, 0x6f, 0xe5, 0x21, 0x17, 0x32, 0xff, 0xec, 0xad, 0xba, 0x72, 0xc3, 0x9b, 0xe7,
    0xbc, 0x8c, 0xe5, 0xbb, 0xc5, 0xf7, 0x12, 0x6b, 0x2c, 0x43, 0x9b, 0x3a, 0x40, 0x00, 0x00, 0x00])

/-! ## §2. Compilation (`route0_tx_compile`). -/

/-- `want_pass`. -/
def wantPass (signer writable : UInt8) : (pass : Nat) → Bool
  | 0 => signer != 0 && writable != 0
  | 1 => signer != 0 && writable == 0
  | 2 => signer == 0 && writable != 0
  | _ => signer == 0 && writable == 0

/-- The accounts of a pass; the loop skips the others. -/
def passAccounts (pass : Nat) : List Nat :=
  (List.range route0N).filter fun i => wantPass (accSigner.getD i 0) (accWrite.getD i 0) pass

/-- `KEY(i)`. -/
def keyOf (keys : Vector Mint route0N) (i : Nat) : Mint := keys.toList.getD i 0

/-- `add_key`: the key's index in the collection (`find_key`), appended where it
is new. -/
def addKey (uniq : List Mint) (pk : Mint) : Option (List Mint × Nat) := intern route0TxNkeys uniq pk

/-- `uniq`, `map`, `exec_idx` and `cu_idx`. -/
structure CompiledKeys where
  uniq : List Mint
  map : List Nat
  execIdx : Nat
  cuIdx : Nat
  deriving DecidableEq, Repr

/-- One pass of the loop over the accounts, each through `add_key`. -/
def addPass (keys : Vector Mint route0N) (st : Interned Mint) (pass : Nat) : Option (Interned Mint) :=
  internAll route0TxNkeys (keyOf keys) st (passAccounts pass)

/-- The keys of `route0_tx_compile`, with their checks. -/
def compileKeys (keys : Vector Mint route0N) (ourExec : Mint) : Option CompiledKeys :=
  if keyOf keys accPumpBaseMint ≠ keyOf keys accDlmmTokenXMint then none
  else if keyOf keys accPumpQuoteMint ≠ keyOf keys accDlmmTokenYMint then none
  else do
    let st ← addPass keys ([], List.replicate route0N 0) 0
    let st ← addPass keys st 1
    let st ← addPass keys st 2
    let nWritable := st.1.length
    let (uniq, map) ← addPass keys st 3
    let (uniq, execIdx) ← addKey uniq ourExec
    let (uniq, cuIdx) ← addKey uniq computeBudget
    if uniq.length ≠ route0TxNkeys then none
    else if map.getD accPumpBaseMint 0 ≠ map.getD accDlmmTokenXMint 0 ∨
        map.getD accPumpQuoteMint 0 ≠ map.getD accDlmmTokenYMint 0 then none
    else if nWritable ≠ 15 then none
    else if uniq.length - nWritable ≠ route0TxNRoUnsigned then none
    else some ⟨uniq, map, execIdx, cuIdx⟩

/-- `route0_pack`. -/
def route0Pack (opp : Opportunity) (minProfit : UInt64) (cap : Nat) : Option (List UInt8) :=
  if opp.routeId ≠ routeDlmmPump ∨ opp.valid = 0 then none
  else if opp.direction > 1 then none
  else if cap < route0IxLen then none
  else some (Route0.disc ++ [opp.direction] ++ u64le opp.amountIn ++ u64le minProfit)

/-- `put_bytes`, `put_u8` and `put_cu16`, one after another. -/
def putAll (buf : List UInt8) (ps : List (List UInt8)) : Option (List UInt8) :=
  ps.foldlM (putWithin route0TxLen) buf

/-- The bytes of `route0_tx_compile`, with the offsets it checks. -/
def layDown (k : CompiledKeys) (cuLimit : UInt32) (ixdata : List UInt8) : Option (List UInt8) := do
  let b ← putAll [] [[1], zeros 64, [1], [0], [UInt8.ofNat route0TxNRoUnsigned],
    [UInt8.ofNat route0TxNkeys]]
  if b.length ≠ route0OffKeys then none
  else
    let b ← putAll b (k.uniq.map keyBytes)
    let offBh := b.length
    -- SetComputeUnitLimit, then SetComputeUnitPrice
    let b ← putAll b [zeros 32, [3], [UInt8.ofNat k.cuIdx], [0], [5], [2], leBytes 4 cuLimit.toNat,
      [UInt8.ofNat k.cuIdx], [0], [9], [3]]
    let offPrice := b.length
    let b ← putAll b [zeros 8, [UInt8.ofNat k.execIdx]]
    let offNacc := b.length
    let b ← putAll b [[UInt8.ofNat route0N]]
    let offAccs := b.length
    let b ← putAll b [k.map.map UInt8.ofNat, [UInt8.ofNat route0IxLen]]
    let offData := b.length
    let b ← putAll b [ixdata]
    if b.length ≠ route0TxLen then none
    else if offBh ≠ route0OffBlockhash ∨ offPrice ≠ route0OffCuPrice ∨
        offData + 8 ≠ route0OffDirection ∨ offData + 9 ≠ route0OffAmountIn ∨
        offData + 17 ≠ route0OffMinProfit ∨ offNacc ≠ route0OffRoute0Nacc ∨
        offAccs ≠ route0OffRoute0Accs ∨ offData ≠ route0OffRoute0Data then none
    else some b

/-- `route0_tx_compile`. -/
def route0TxCompile (keys : Vector Mint route0N) (ourExec : Mint) (cuLimit : UInt32) :
    Option (List UInt8) := do
  let k ← compileKeys keys ourExec
  let ixdata ← route0Pack ⟨routeDlmmPump, 0, 0, 0, 0, 1⟩ 0 route0IxLen
  if ixdata.length ≠ route0IxLen then none else layDown k cuLimit ixdata

/-! ## §3. Patching (`route0_tx_patch`). -/

/-- `route0_tx_patch`. -/
def route0TxPatch (t : List UInt8) (opp : Opportunity) (minProfit : UInt64) (blockhash : Mint)
    (cuPrice : UInt64) : Option (List UInt8) :=
  if opp.valid = 0 ∨ opp.routeId ≠ routeDlmmPump ∨ opp.direction > 1 then none
  else
    let out := patch t route0OffBlockhash (keyBytes blockhash)
    let out := patch out route0OffCuPrice (u64le cuPrice)
    let out := patch out route0OffDirection [opp.direction]
    let out := patch out route0OffAmountIn (u64le opp.amountIn)
    some (patch out route0OffMinProfit (u64le minProfit))

/-! ## §4. What a message says. -/

/-- An account signs: the header counts the signers, who come first. -/
def isSigner (tx : V0Tx) (i : Nat) : Bool := decide (i < tx.nSigned.toNat)

/-- An account is writable: of the signers and of the others, the last ones the
header counts are read-only. -/
def isWritable (tx : V0Tx) (i : Nat) : Bool :=
  if i < tx.nSigned.toNat then decide (i < tx.nSigned.toNat - tx.roSigned.toNat)
  else decide (i < tx.keys.length - tx.roUnsigned.toNat)

/-- The exec instruction calls the program on the given accounts, in order and
under their declared flags. -/
def Resolves (keys : Vector Mint route0N) (ourExec : Mint) (tx : V0Tx) : Prop :=
  ∃ ix, tx.ixs.getLast? = some ix ∧ tx.keys[ix.prog.toNat]? = some ourExec ∧
    ix.accounts.length = route0N ∧
    ∀ i, i < route0N → ∃ a, ix.accounts[i]? = some a ∧ tx.keys[a.toNat]? = some (keyOf keys i) ∧
      isSigner tx a.toNat = (accSigner.getD i 0 != 0) ∧
      isWritable tx a.toNat = (accWrite.getD i 0 != 0)

/-- The documented patch points, each with its length. -/
def patchPoints : List (Nat × Nat) :=
  [(route0OffBlockhash, 32), (route0OffCuPrice, 8), (route0OffDirection, 1), (route0OffAmountIn, 8),
   (route0OffMinProfit, 8)]

/-- A byte of a patch point. -/
def patchable (i : Nat) : Prop := ∃ s ∈ patchPoints, s.1 ≤ i ∧ i < s.1 + s.2

/-- The bytes of the patch points, and no others. -/
structure PatchedBytes (t out : List UInt8) (opp : Opportunity) (minProfit : UInt64) (blockhash : Mint)
    (cuPrice : UInt64) : Prop where
  length : out.length = t.length
  outside : ∀ i, ¬patchable i → out[i]? = t[i]?
  blockhash : field out route0OffBlockhash 32 = keyBytes blockhash
  cuPrice : field out route0OffCuPrice 8 = u64le cuPrice
  direction : field out route0OffDirection 1 = [opp.direction]
  amountIn : field out route0OffAmountIn 8 = u64le opp.amountIn
  minProfit : field out route0OffMinProfit 8 = u64le minProfit

/-- The patched message: the one of the template but for the patched values. -/
structure PatchedMessage (tx tx' : V0Tx) (opp : Opportunity) (minProfit : UInt64) (blockhash : Mint)
    (cuPrice : UInt64) : Prop where
  header : (tx'.sigs, tx'.nSigned, tx'.roSigned, tx'.roUnsigned, tx'.keys, tx'.lookups)
    = (tx.sigs, tx.nSigned, tx.roSigned, tx.roUnsigned, tx.keys, tx.lookups)
  programs : tx'.ixs.map (fun ix => (ix.prog, ix.accounts)) = tx.ixs.map fun ix => (ix.prog, ix.accounts)
  limit : tx'.ixs.head? = tx.ixs.head?
  blockhash : tx'.blockhash = blockhash
  cuPrice : tx'.ixs[1]?.map CompiledIx.data = some (3 :: u64le cuPrice)
  data : tx'.ixs[2]?.map CompiledIx.data
    = some (Route0.disc ++ [opp.direction] ++ u64le opp.amountIn ++ u64le minProfit)

/-! ## §5. The keys. -/

theorem pass_of_write : ∀ i, i < route0N →
    (i ∈ passAccounts 0 ++ passAccounts 1 ++ passAccounts 2 ↔ accWrite.getD i 0 ≠ 0) := by
  decide +kernel

theorem pass_of_signer : ∀ i, i < route0N → (i ∈ passAccounts 0 ↔ accSigner.getD i 0 ≠ 0) := by
  decide +kernel

/-- The accounts whose keys are all different. -/
def distinctAccounts : List Nat :=
  (List.range route0N).filter fun i => i != accPumpBaseMint && i != accPumpQuoteMint

/-- The account whose key an account has. -/
def canon (i : Nat) : Nat :=
  if i = accPumpBaseMint then accDlmmTokenXMint
  else if i = accPumpQuoteMint then accDlmmTokenYMint else i

theorem canon_mem : ∀ i, i < route0N → canon i ∈ distinctAccounts := by decide +kernel

theorem canon_flags : ∀ i, i < route0N → accWrite.getD (canon i) 0 = accWrite.getD i 0 ∧
    accSigner.getD (canon i) 0 = accSigner.getD i 0 := by decide +kernel

/-- A list that has all of a longest possible one's items repeats none. -/
theorem nodup_of_subset {α : Type} [DecidableEq α] {xs ys : List α} (hxs : xs.Nodup)
    (hsub : ∀ x ∈ xs, x ∈ ys) (hlen : ys.length ≤ xs.length) : ys.Nodup :=
  ((hxs.subperm hsub).perm_of_length_le hlen).nodup_iff.mp hxs

/-- What compiled keys are: the collection, the indices that resolve through it,
and the classes of the header. -/
structure KeysSpec (keys : Vector Mint route0N) (ourExec : Mint) (k : CompiledKeys) : Prop where
  count : k.uniq.length = route0TxNkeys
  size : k.map.length = route0N
  exec : k.uniq[k.execIdx]? = some ourExec
  budget : k.uniq[k.cuIdx]? = some computeBudget
  account : ∀ i, i < route0N → k.uniq[k.map.getD i 0]? = some (keyOf keys i)
  signer : ∀ i, i < route0N → (k.map.getD i 0 < 1 ↔ accSigner.getD i 0 ≠ 0)
  writable : ∀ i, i < route0N → (k.map.getD i 0 < 15 ↔ accWrite.getD i 0 ≠ 0)

/-- Keys that are equal belong to one account up to the two mints. -/
def SameOnlyMints (keys : Vector Mint route0N) : Prop :=
  ∀ i j, i < route0N → j < route0N → keyOf keys i = keyOf keys j → canon i = canon j

/-- An account shares its key with a class exactly when it is of the class. -/
theorem class_iff {keys : Vector Mint route0N} (hsame : SameOnlyMints keys) {done : List Nat}
    {flags : List UInt8} (hlt : ∀ j ∈ done, j < route0N)
    (hdone : ∀ i, i < route0N → (i ∈ done ↔ flags.getD i 0 ≠ 0))
    (hcanon : ∀ i, i < route0N → flags.getD (canon i) 0 = flags.getD i 0) {i : Nat} (hi : i < route0N) :
    (∃ j ∈ done, keyOf keys j = keyOf keys i) ↔ flags.getD i 0 ≠ 0 := by
  constructor
  · rintro ⟨j, hj, hkey⟩
    have hj35 := hlt j hj
    rw [← hcanon i hi, ← hsame j i hj35 hi hkey, hcanon j hj35]
    exact (hdone j hj35).mp hj
  · intro hflag
    exact ⟨i, (hdone i hi).mpr hflag, rfl⟩

theorem mem_distinct_lt : ∀ i ∈ distinctAccounts, i < route0N := by decide +kernel

/-- The collection is full only when all keys but the two mints' are different. -/
theorem sameOnlyMints_of_full {keys : Vector Mint route0N} {ourExec : Mint} {uniq : List Mint}
    (hx : keyOf keys accPumpBaseMint = keyOf keys accDlmmTokenXMint)
    (hy : keyOf keys accPumpQuoteMint = keyOf keys accDlmmTokenYMint) (hnodup : uniq.Nodup)
    (hfull : uniq.length = route0TxNkeys)
    (horigin : ∀ k ∈ uniq, (∃ i, i < route0N ∧ keyOf keys i = k) ∨ k = ourExec ∨ k = computeBudget) :
    SameOnlyMints keys := by
  have hkey : ∀ i, keyOf keys (canon i) = keyOf keys i := by
    intro i
    unfold canon
    split
    · rename_i hi
      rw [hi, hx]
    · split
      · rename_i hi
        rw [hi, hy]
      · rfl
  have hall : (distinctAccounts.map (keyOf keys) ++ [ourExec, computeBudget]).Nodup := by
    refine nodup_of_subset hnodup (fun k hk => ?_) ?_
    · rcases horigin k hk with ⟨i, hi, rfl⟩ | rfl | rfl
      · exact List.mem_append_left _ (List.mem_map.mpr ⟨canon i, canon_mem i hi, hkey i⟩)
      · exact List.mem_append_right _ (by simp)
      · exact List.mem_append_right _ (by simp)
    · rw [List.length_append, List.length_map, hfull]
      show distinctAccounts.length + 2 ≤ 35
      decide +kernel
  intro i j hi hj heq
  refine List.inj_on_of_nodup_map (List.nodup_append.mp hall).1 (canon_mem i hi) (canon_mem j hj) ?_
  rw [hkey, hkey, heq]

theorem pass_disjoint : (∀ i ∈ passAccounts 0, i ∉ passAccounts 1 ++ passAccounts 2 ++ passAccounts 3) ∧
    ∀ i ∈ passAccounts 0 ++ passAccounts 1 ++ passAccounts 2, i ∉ passAccounts 3 := by decide +kernel

theorem pass_all : (∀ i ∈ passAccounts 0 ++ passAccounts 1 ++ passAccounts 2 ++ passAccounts 3, i < route0N) ∧
    ∀ i, i < route0N → i ∈ passAccounts 0 ++ passAccounts 1 ++ passAccounts 2 ++ passAccounts 3 := by
  decide +kernel

theorem pass_lt (pass : Nat) : ∀ i ∈ passAccounts pass, i < route0N := fun _ hi =>
  List.mem_range.mp (List.mem_filter.mp hi).1

/-- **What compilation collects.** -/
theorem compileKeys_spec {keys : Vector Mint route0N} {ourExec : Mint} {k : CompiledKeys}
    (h : compileKeys keys ourExec = some k) : KeysSpec keys ourExec k := by
  unfold compileKeys at h
  obtain ⟨hx, h⟩ := Option.ite_none_left_eq_some.mp h
  obtain ⟨hy, h⟩ := Option.ite_none_left_eq_some.mp h
  obtain ⟨st0, h0, h⟩ := Option.bind_eq_some_iff.mp h
  obtain ⟨st1, h1, h⟩ := Option.bind_eq_some_iff.mp h
  obtain ⟨st2, h2, h⟩ := Option.bind_eq_some_iff.mp h
  obtain ⟨⟨uniq, map⟩, h3, h⟩ := Option.bind_eq_some_iff.mp h
  obtain ⟨⟨uniq', execIdx⟩, hexec, h⟩ := Option.bind_eq_some_iff.mp h
  obtain ⟨⟨uniq'', cuIdx⟩, hcu, h⟩ := Option.bind_eq_some_iff.mp h
  obtain ⟨hfull, h⟩ := Option.ite_none_left_eq_some.mp h
  obtain ⟨-, h⟩ := Option.ite_none_left_eq_some.mp h
  obtain ⟨hnw, h⟩ := Option.ite_none_left_eq_some.mp h
  obtain ⟨-, h⟩ := Option.ite_none_left_eq_some.mp h
  obtain rfl := Option.some.inj h
  have hx := not_not.mp hx
  have hy := not_not.mp hy
  have hfull := not_not.mp hfull
  have hnw := not_not.mp hnw
  -- the passes
  obtain ⟨m0, -, -⟩ := internAll_mapped _ (mapped_nil (keyOf keys) route0N) (pass_lt 0) h0
  obtain ⟨m1, hpre1, hkeep1⟩ := internAll_mapped _ m0 (pass_lt 1) h1
  obtain ⟨m2, hpre2, hkeep2⟩ := internAll_mapped _ m1 (pass_lt 2) h2
  obtain ⟨m3, hpre3, hkeep3⟩ := internAll_mapped _ m2 (pass_lt 3) h3
  rw [List.nil_append] at m0 m1 m2 m3
  -- the two programs
  obtain ⟨hexecAt, hpreE, hmemE, hndE⟩ := intern_spec hexec
  obtain ⟨hcuAt, hpreC, hmemC, hndC⟩ := intern_spec hcu
  have hpre : uniq <+: uniq'' := hpreE.trans hpreC
  have hsame : SameOnlyMints keys := by
    have horigin : ∀ k ∈ uniq'', (∃ i, i < route0N ∧ keyOf keys i = k) ∨ k = ourExec ∨
        k = computeBudget := by
      intro k hk
      rcases hmemC k hk with hk | rfl
      · rcases hmemE k hk with hk | rfl
        · obtain ⟨i, hi, rfl⟩ := m3.origin k hk
          exact Or.inl ⟨i, pass_all.1 i hi, rfl⟩
        · exact Or.inr (Or.inl rfl)
      · exact Or.inr (Or.inr rfl)
    exact sameOnlyMints_of_full hx hy (hndC (hndE m3.nodup)) hfull horigin
  have hlt : ∀ j ∈ passAccounts 0 ++ passAccounts 1 ++ passAccounts 2, j < route0N := fun j hj =>
    pass_all.1 j (List.mem_append_left _ hj)
  -- the first pass collects one key
  have hone : st0.1.length = 1 := by
    have hsub : ∀ k ∈ st0.1, k ∈ [keyOf keys 0] := by
      intro k hk
      obtain ⟨i, hi, rfl⟩ := m0.origin k hk
      have hzero : ∀ j ∈ passAccounts 0, j = 0 := by decide +kernel
      rw [hzero i hi]
      exact List.mem_singleton_self _
    have hle := (m0.nodup.subperm hsub).length_le
    have hpos := (List.getElem?_eq_some_iff.mp (m0.index 0 (by decide +kernel))).1
    rw [List.length_singleton] at hle
    omega
  exact {
    count := hfull
    size := m3.length
    exec := (getElem?_grown hpreC (List.getElem?_eq_some_iff.mp hexecAt).1).trans hexecAt
    budget := hcuAt
    account := fun i hi => by
      have hat := m3.index i (pass_all.2 i hi)
      exact (getElem?_grown hpre (List.getElem?_eq_some_iff.mp hat).1).trans hat
    signer := fun i hi => by
      have hkeep : ∀ j ∈ passAccounts 0, map.getD j 0 = st0.2.getD j 0 := by
        intro j hj
        have hout := pass_disjoint.1 j hj
        rw [List.mem_append, List.mem_append, not_or, not_or] at hout
        exact ((hkeep3 j hout.2).trans (hkeep2 j hout.1.2)).trans (hkeep1 j hout.1.1)
      have hiff := m0.index_lt_iff m3 ((hpre1.trans hpre2).trans hpre3) (fun j hj =>
        List.mem_append_left _ (List.mem_append_left _ (List.mem_append_left _ hj))) hkeep (pass_all.2 i hi)
      rw [hone] at hiff
      exact hiff.trans (class_iff hsame (pass_lt 0) pass_of_signer (fun j hj => (canon_flags j hj).2) hi)
    writable := fun i hi => by
      have hkeep : ∀ j ∈ passAccounts 0 ++ passAccounts 1 ++ passAccounts 2,
          map.getD j 0 = st2.2.getD j 0 := fun j hj => hkeep3 j (pass_disjoint.2 j hj)
      have hiff := m2.index_lt_iff m3 hpre3 (fun j hj => List.mem_append_left _ hj) hkeep (pass_all.2 i hi)
      rw [hnw] at hiff
      exact hiff.trans (class_iff hsame hlt pass_of_write (fun j hj => (canon_flags j hj).1) hi) }

/-! ## §6. The bytes. -/

/-- The bytes before the blockhash. -/
def templateHead (k : CompiledKeys) : List UInt8 :=
  [1] ++ zeros 64 ++ [1, 0, 20, 35] ++ k.uniq.flatMap keyBytes

/-- Between the blockhash and the price. -/
def templateBudget (k : CompiledKeys) (cuLimit : UInt32) : List UInt8 :=
  [3, UInt8.ofNat k.cuIdx, 0, 5, 2] ++ leBytes 4 cuLimit.toNat ++ [UInt8.ofNat k.cuIdx, 0, 9, 3]

/-- Between the price and the direction. -/
def templateVector (k : CompiledKeys) : List UInt8 :=
  [UInt8.ofNat k.execIdx, 35] ++ k.map.map UInt8.ofNat ++ [25] ++ Route0.disc

/-- A transaction, part by part. -/
def templateParts (k : CompiledKeys) (cuLimit : UInt32) (blockhash price direction amount profit : List UInt8) :
    List (List UInt8) :=
  [templateHead k, blockhash, templateBudget k cuLimit, price, templateVector k, direction, amount, profit]

theorem length_templateHead {k : CompiledKeys} (h : k.uniq.length = route0TxNkeys) :
    (templateHead k).length = route0OffBlockhash := by
  rw [templateHead, List.length_append, length_flatMap_keyBytes, h]
  rfl

theorem length_templateBudget (k : CompiledKeys) (cuLimit : UInt32) :
    (templateBudget k cuLimit).length = 13 := by
  simp [templateBudget, length_leBytes]

theorem length_templateVector {k : CompiledKeys} (h : k.map.length = route0N) :
    (templateVector k).length = 46 := by
  simp only [templateVector, List.length_append, List.length_map, h]
  rfl

/-- **What compilation lays down.** -/
theorem route0TxCompile_eq_some {keys : Vector Mint route0N} {ourExec : Mint} {cuLimit : UInt32}
    {t : List UInt8} (h : route0TxCompile keys ourExec cuLimit = some t) :
    ∃ k, compileKeys keys ourExec = some k ∧ t.length = route0TxLen ∧
      t = (templateParts k cuLimit (zeros 32) (zeros 8) [0] (zeros 8) (zeros 8)).flatten := by
  obtain ⟨k, hk, h⟩ := Option.bind_eq_some_iff.mp h
  obtain ⟨ixdata, hdata, h⟩ := Option.bind_eq_some_iff.mp h
  obtain rfl : Route0.disc ++ [0] ++ zeros 8 ++ zeros 8 = ixdata := Option.some.inj hdata
  obtain ⟨-, h⟩ := Option.ite_none_left_eq_some.mp h
  unfold layDown at h
  -- every put appends
  obtain ⟨b1, h1, h⟩ := Option.bind_eq_some_iff.mp h
  obtain ⟨-, h⟩ := Option.ite_none_left_eq_some.mp h
  obtain ⟨b2, h2, h⟩ := Option.bind_eq_some_iff.mp h
  obtain ⟨b3, h3, h⟩ := Option.bind_eq_some_iff.mp h
  obtain ⟨b4, h4, h⟩ := Option.bind_eq_some_iff.mp h
  obtain ⟨b5, h5, h⟩ := Option.bind_eq_some_iff.mp h
  obtain ⟨b6, h6, h⟩ := Option.bind_eq_some_iff.mp h
  obtain ⟨b7, h7, h⟩ := Option.bind_eq_some_iff.mp h
  obtain ⟨hlen, h⟩ := Option.ite_none_left_eq_some.mp h
  obtain ⟨-, h⟩ := Option.ite_none_left_eq_some.mp h
  obtain rfl := Option.some.inj h
  refine ⟨k, hk, not_not.mp hlen, ?_⟩
  rw [putWithin_eq_some _ h7, putWithin_eq_some _ h6, putWithin_eq_some _ h5, putWithin_eq_some _ h4,
    putWithin_eq_some _ h3, putWithin_eq_some _ h2, putWithin_eq_some _ h1]
  simp [templateParts, templateHead, templateBudget, templateVector, List.flatMap_def]
  exact ⟨rfl, rfl, rfl⟩

/-- **A patch replaces the fields.** -/
theorem route0TxPatch_eq_some {k : CompiledKeys} (huniq : k.uniq.length = route0TxNkeys)
    (hmap : k.map.length = route0N) {cuLimit : UInt32} {opp : Opportunity} {minProfit : UInt64}
    {blockhash : Mint} {cuPrice : UInt64} {out : List UInt8}
    (h : route0TxPatch (templateParts k cuLimit (zeros 32) (zeros 8) [0] (zeros 8) (zeros 8)).flatten opp
      minProfit blockhash cuPrice = some out) :
    out = (templateParts k cuLimit (keyBytes blockhash) (u64le cuPrice) [opp.direction]
      (u64le opp.amountIn) (u64le minProfit)).flatten := by
  have hhead := length_templateHead huniq
  have hbudget := length_templateBudget k cuLimit
  have hvector := length_templateVector hmap
  have hb := length_keyBytes blockhash
  have hp := length_u64le cuPrice
  have ha := length_u64le opp.amountIn
  have hm := length_u64le minProfit
  obtain ⟨-, h⟩ := Option.ite_none_left_eq_some.mp h
  rw [← Option.some.inj h]
  unfold templateParts
  rw [patch_flatten (k := 1) (zeros 32) rfl (by simp [hhead]) (by rw [hb]; rfl)]
  rw [patch_flatten (k := 3) (zeros 8) rfl (by simp [hhead, hbudget, hb]) (by rw [hp]; rfl)]
  rw [patch_flatten (k := 5) [0] rfl (by simp [hhead, hbudget, hvector, hb, hp]) (by rfl)]
  rw [patch_flatten (k := 6) (zeros 8) rfl (by simp [hhead, hbudget, hvector, hb, hp])
    (by rw [ha]; rfl)]
  rw [patch_flatten (k := 7) (zeros 8) rfl (by simp [hhead, hbudget, hvector, hb, hp, ha])
    (by rw [hm]; rfl)]
  rfl

/-- The patches, in the order of their offsets. -/
def patchFields (opp : Opportunity) (minProfit : UInt64) (blockhash : Mint) (cuPrice : UInt64) :
    List (Nat × List UInt8) :=
  [(route0OffBlockhash, keyBytes blockhash), (route0OffCuPrice, u64le cuPrice),
   (route0OffDirection, [opp.direction]), (route0OffAmountIn, u64le opp.amountIn),
   (route0OffMinProfit, u64le minProfit)]

theorem patchFields_points (opp : Opportunity) (minProfit : UInt64) (blockhash : Mint) (cuPrice : UInt64) :
    (patchFields opp minProfit blockhash cuPrice).map (fun p => (p.1, p.2.length)) = patchPoints := by
  simp only [patchFields, List.map_cons, List.map_nil, length_keyBytes, length_u64le]
  rfl

/-- **A patch changes the documented bytes and no others.** -/
theorem route0TxPatch_bytes {t out : List UInt8} (hlen : t.length = route0TxLen) {opp : Opportunity}
    {minProfit : UInt64} {blockhash : Mint} {cuPrice : UInt64}
    (h : route0TxPatch t opp minProfit blockhash cuPrice = some out) :
    PatchedBytes t out opp minProfit blockhash cuPrice := by
  obtain ⟨-, h⟩ := Option.ite_none_left_eq_some.mp h
  have hout : out = patchAll t (patchFields opp minProfit blockhash cuPrice) := (Option.some.inj h).symm
  have hpoints := patchFields_points opp minProfit blockhash cuPrice
  have hmem : ∀ p ∈ patchFields opp minProfit blockhash cuPrice, (p.1, p.2.length) ∈ patchPoints := by
    intro p hp
    rw [← hpoints]
    exact List.mem_map_of_mem hp
  have hfit : ∀ p ∈ patchFields opp minProfit blockhash cuPrice, p.1 + p.2.length ≤ t.length := by
    intro p hp
    have hall : ∀ s ∈ patchPoints, s.1 + s.2 ≤ route0TxLen := by decide
    rw [hlen]
    exact hall _ (hmem p hp)
  have hord : (patchFields opp minProfit blockhash cuPrice).Pairwise fun p q => p.1 + p.2.length ≤ q.1 := by
    have hall : patchPoints.Pairwise fun s u => s.1 + s.2 ≤ u.1 := by decide
    rw [← hpoints] at hall
    exact List.pairwise_map.mp hall
  -- every field is read back at its length
  have hread : ∀ (off n : Nat) (new : List UInt8), (off, new) ∈ patchFields opp minProfit blockhash cuPrice →
      new.length = n → field out off n = new := by
    intro off n new hp hn
    rw [hout, ← hn]
    exact field_patchAll hfit hord _ hp
  exact {
    length := by rw [hout, length_patchAll hfit]
    outside := fun i hi => by
      rw [hout]
      refine getElem?_patchAll hfit fun p hp => ?_
      by_contra hin
      rw [not_or, Nat.not_lt, Nat.not_le] at hin
      exact hi ⟨_, hmem p hp, hin⟩
    blockhash := hread _ _ _ (by simp [patchFields]) (length_keyBytes blockhash)
    cuPrice := hread _ _ _ (by simp [patchFields]) (length_u64le cuPrice)
    direction := hread _ _ _ (by simp [patchFields]) rfl
    amountIn := hread _ _ _ (by simp [patchFields]) (length_u64le opp.amountIn)
    minProfit := hread _ _ _ (by simp [patchFields]) (length_u64le minProfit) }

/-! ## §7. What is laid down parses. -/

/-- A length below 128 is one byte. -/
theorem scans_cu16 {b : UInt8} (h : b &&& 0x80 = 0) : Scans cu16 [b] b.toNat := by
  show Scans cu16 ([b] ++ []) b.toNat
  refine (scans_byte b).andThen ?_
  rw [if_pos h]
  exact scans_ret b.toNat

theorem scans_key (k : Mint) : Scans Framing.key (keyBytes k) k := by
  have hk : BitVec.ofNat 256 (leNat (keyBytes k)) = k := by
    have hpow : (256 : Nat) ^ 32 = 2 ^ 256 := by decide
    rw [keyBytes, leNat_leBytes, hpow, Nat.mod_eq_of_lt k.isLt]
    exact BitVec.eq_of_toNat_eq (Nat.mod_eq_of_lt k.isLt)
  have h := (scans_take (length_keyBytes k)).map (g := fun bs => BitVec.ofNat 256 (leNat bs))
  rwa [hk] at h

/-- A legacy instruction over the static keys. -/
theorem scans_frameIx {nkeys : Nat} {x : CompiledIx} (hshort : ShortIx x) (hprog : x.prog.toNat < nkeys)
    (hacc : ∀ a ∈ x.accounts, a.toNat < nkeys) : Scans (Framing.frameIx false nkeys) (Exec.ixBytes x) x := by
  obtain ⟨ha, hna⟩ := ofNat_short hshort.1
  obtain ⟨hd, hnd⟩ := ofNat_short hshort.2
  have hbytes : Exec.ixBytes x = [x.prog] ++ ([UInt8.ofNat x.accounts.length] ++ (x.accounts ++
      ([UInt8.ofNat x.data.length] ++ x.data))) := by
    simp [Exec.ixBytes]
  rw [hbytes]
  refine (scans_byte x.prog).andThen ?_
  rw [if_neg (by rintro ⟨-, hge⟩; omega)]
  refine (scans_cu16 ha).andThen ?_
  have hlen := hshort.1
  rw [hna, if_neg (by omega)]
  refine (scans_take rfl).andThen ?_
  rw [if_neg]
  · refine (scans_cu16 hd).andThen ?_
    rw [hnd]
    exact (scans_take rfl).map
  · rintro ⟨-, hany⟩
    obtain ⟨a, ha, hge⟩ := List.any_eq_true.mp hany
    have := hacc a ha
    have := of_decide_eq_true hge
    omega

/-- The instructions of a template. -/
def templateIxs (k : CompiledKeys) (cuLimit : UInt32) (price direction amount profit : List UInt8) :
    List CompiledIx :=
  [⟨UInt8.ofNat k.cuIdx, [], 2 :: leBytes 4 cuLimit.toNat⟩, ⟨UInt8.ofNat k.cuIdx, [], 3 :: price⟩,
   ⟨UInt8.ofNat k.execIdx, k.map.map UInt8.ofNat, Route0.disc ++ direction ++ amount ++ profit⟩]

/-- The message of a template. -/
def templateMessage (k : CompiledKeys) (blockhash : Mint) (ixs : List CompiledIx) : V0Tx where
  sigs := [zeros 64]
  nSigned := 1
  roSigned := 0
  roUnsigned := 20
  keys := k.uniq
  blockhash := blockhash
  ixs := ixs
  lookups := []

/-- **A message that is laid down is framed.** -/
theorem scans_message {k : CompiledKeys} (huniq : k.uniq.length = route0TxNkeys) (blockhash : Mint)
    {ixs : List CompiledIx} (hcount : ixs.length = 3)
    (hixs : ∀ x ∈ ixs, Scans (Framing.frameIx false route0TxNkeys) (Exec.ixBytes x) x) :
    Scans frameTx ([1] ++ (zeros 64 ++ ([1] ++ ([0] ++ ([20] ++ ([35] ++ (k.uniq.flatMap keyBytes ++
      (keyBytes blockhash ++ ([3] ++ ixs.flatMap Exec.ixBytes)))))))))
      ⟨false, templateMessage k blockhash ixs⟩ := by
  have hsigs : Scans (times signature 1) (zeros 64) [zeros 64] := by
    have hone : ∀ x ∈ [zeros 64], Scans signature (id x) x := by
      intro x hx
      rw [List.mem_singleton.mp hx]
      exact scans_take rfl
    have h := scans_times [zeros 64] hone
    simpa using h
  have hkeys : Scans (times Framing.key route0TxNkeys) (k.uniq.flatMap keyBytes) k.uniq := by
    have h := scans_times k.uniq fun x _ => scans_key x
    rwa [huniq] at h
  have hins : Scans (times (Framing.frameIx false route0TxNkeys) 3) (ixs.flatMap Exec.ixBytes) ixs := by
    have h := scans_times ixs hixs
    rwa [hcount] at h
  have hversion : Scans (frameVersion 1) [1] false := by
    show Scans (frameVersion 1) ([1] ++ []) false
    refine (scans_byte 1).andThen ?_
    rw [if_neg (by decide), if_neg (by decide)]
    exact scans_ret false
  have hmsg : Scans (Framing.frameMessage false [zeros 64] 1) ([0] ++ ([20] ++ ([35] ++
      (k.uniq.flatMap keyBytes ++ (keyBytes blockhash ++ ([3] ++ ixs.flatMap Exec.ixBytes))))))
      (templateMessage k blockhash ixs) := by
    refine (scans_byte 0).andThen ((scans_byte 20).andThen ((scans_cu16 (b := 35) (by decide)).andThen ?_))
    rw [if_neg (by decide)]
    refine hkeys.andThen ((scans_key blockhash).andThen ((scans_cu16 (b := 3) (by decide)).andThen ?_))
    rw [if_neg (by decide)]
    -- no tables behind the instructions
    exact hins.map
  refine (scans_cu16 (b := 1) (by decide)).andThen ?_
  rw [if_neg (by decide)]
  exact hsigs.andThen (hversion.andThen hmsg.map)

section Template

variable {keys : Vector Mint route0N} {ourExec : Mint} {k : CompiledKeys}

/-- An index of the collection fits a byte. -/
theorem index_toNat (h : KeysSpec keys ourExec k) {j : Nat} {x : Mint} (hj : k.uniq[j]? = some x) :
    (UInt8.ofNat j).toNat = j ∧ j < route0TxNkeys := by
  have hlt := (List.getElem?_eq_some_iff.mp hj).1
  rw [h.count] at hlt
  refine ⟨?_, hlt⟩
  rw [UInt8.toNat_ofNat', Nat.mod_eq_of_lt (Nat.lt_trans hlt (by decide))]

/-- The entries of the map, as bytes. -/
theorem mem_map_lt (h : KeysSpec keys ourExec k) : ∀ a ∈ k.map.map UInt8.ofNat, a.toNat < route0TxNkeys := by
  intro a ha
  obtain ⟨j, hj, rfl⟩ := List.mem_map.mp ha
  obtain ⟨i, hi, rfl⟩ := List.mem_iff_getElem.mp hj
  have hat := h.account i (h.size ▸ hi)
  rw [List.getD_eq_getElem?_getD, List.getElem?_eq_getElem hi, Option.getD_some] at hat
  obtain ⟨hbyte, hlt⟩ := index_toNat h hat
  rw [hbyte]
  exact hlt

/-- **A template parses, whatever the fields are.** -/
theorem frameTx_template (h : KeysSpec keys ourExec k) (cuLimit : UInt32) (blockhash : Mint)
    {price direction amount profit : List UInt8} (hp : price.length = 8) (hd : direction.length = 1)
    (ha : amount.length = 8) (hm : profit.length = 8) :
    frameTx (templateParts k cuLimit (keyBytes blockhash) price direction amount profit).flatten 0
      = .ok ⟨false, templateMessage k blockhash (templateIxs k cuLimit price direction amount profit)⟩
        route0TxLen := by
  have hcu : (UInt8.ofNat k.cuIdx).toNat < route0TxNkeys := by
    obtain ⟨hbyte, hlt⟩ := index_toNat h h.budget
    rw [hbyte]
    exact hlt
  have hex : (UInt8.ofNat k.execIdx).toNat < route0TxNkeys := by
    obtain ⟨hbyte, hlt⟩ := index_toNat h h.exec
    rw [hbyte]
    exact hlt
  have hvector : (k.map.map UInt8.ofNat).length < 128 := by
    rw [List.length_map, h.size]
    decide
  have hixs : ∀ x ∈ templateIxs k cuLimit price direction amount profit,
      Scans (Framing.frameIx false route0TxNkeys) (Exec.ixBytes x) x := by
    intro x hx
    simp only [templateIxs, List.mem_cons, List.not_mem_nil, or_false] at hx
    rcases hx with rfl | rfl | rfl
    · exact scans_frameIx (by simp [ShortIx, length_leBytes]) hcu (by simp)
    · exact scans_frameIx (by simp [ShortIx, hp]) hcu (by simp)
    · exact scans_frameIx ⟨hvector, by simp [Route0.disc, hd, ha, hm]⟩ hex (mem_map_lt h)
  have hscan := (scans_message h.count blockhash rfl hixs).whole
  have hbytes : [1] ++ (zeros 64 ++ ([1] ++ ([0] ++ ([20] ++ ([35] ++ (k.uniq.flatMap keyBytes ++
      (keyBytes blockhash ++ ([3] ++
        (templateIxs k cuLimit price direction amount profit).flatMap Exec.ixBytes))))))))
      = (templateParts k cuLimit (keyBytes blockhash) price direction amount profit).flatten := by
    simp [templateParts, templateHead, templateBudget, templateVector, templateIxs, Exec.ixBytes,
      length_leBytes, h.size, hp, hd, ha, hm, Route0.disc]
    rfl
  have hlen : (templateParts k cuLimit (keyBytes blockhash) price direction amount profit).flatten.length
      = route0TxLen := by
    simp [templateParts, length_templateHead h.count, length_templateBudget, length_templateVector h.size,
      length_keyBytes, hp, hd, ha, hm]
  rw [hbytes, hlen] at hscan
  exact hscan

/-- **The exec instruction resolves**: the given accounts in order, under their
declared flags. -/
theorem resolves_template (h : KeysSpec keys ourExec k) (cuLimit : UInt32) (blockhash : Mint)
    (price direction amount profit : List UInt8) :
    Resolves keys ourExec (templateMessage k blockhash (templateIxs k cuLimit price direction amount profit))
    := by
  obtain ⟨hex, -⟩ := index_toNat h h.exec
  refine ⟨_, rfl, ?_, ?_, fun i hi => ?_⟩
  · show k.uniq[(UInt8.ofNat k.execIdx).toNat]? = some ourExec
    rw [hex, h.exec]
  · show (k.map.map UInt8.ofNat).length = route0N
    rw [List.length_map, h.size]
  · have hat := h.account i hi
    obtain ⟨hbyte, hlt⟩ := index_toNat h hat
    refine ⟨UInt8.ofNat (k.map.getD i 0), ?_, ?_, ?_, ?_⟩
    · show (k.map.map UInt8.ofNat)[i]? = _
      have hi' : i < k.map.length := h.size ▸ hi
      rw [List.getElem?_map, List.getElem?_eq_getElem hi', List.getD_eq_getElem?_getD,
        List.getElem?_eq_getElem hi']
      rfl
    · show k.uniq[(UInt8.ofNat (k.map.getD i 0)).toNat]? = _
      rw [hbyte, hat]
    · show decide ((UInt8.ofNat (k.map.getD i 0)).toNat < 1) = (accSigner.getD i 0 != 0)
      rw [hbyte, Bool.eq_iff_iff, decide_eq_true_iff, bne_iff_ne]
      exact h.signer i hi
    · have hwritable := h.writable i hi
      show (if (UInt8.ofNat (k.map.getD i 0)).toNat < 1 then
          decide ((UInt8.ofNat (k.map.getD i 0)).toNat < 1 - 0)
        else decide ((UInt8.ofNat (k.map.getD i 0)).toNat < k.uniq.length - 20)) = (accWrite.getD i 0 != 0)
      rw [hbyte, h.count, Bool.eq_iff_iff, bne_iff_ne, ← hwritable]
      -- a signer is writable: the header counts no read-only ones
      split
      · rename_i hone
        simp only [decide_eq_true_iff]
        omega
      · simp only [decide_eq_true_iff]
        exact Iff.rfl

end Template

/-! ## §8. Compiling and patching. -/

/-- **The legacy template is faithful**: compiled bytes are a legacy transaction
of the declared length whose exec instruction names the given accounts under
their declared flags, and a patch changes the documented bytes only and leaves
the same transaction with the patched values. -/
theorem route0Tx_faithful {keys : Vector Mint route0N} {ourExec : Mint} {cuLimit : UInt32}
    {t : List UInt8} (h : route0TxCompile keys ourExec cuLimit = some t) :
    t.length = route0TxLen ∧ ∃ tx, frameTx t 0 = .ok ⟨false, tx⟩ route0TxLen ∧
      Resolves keys ourExec tx ∧
      ∀ (opp : Opportunity) (minProfit : UInt64) (blockhash : Mint) (cuPrice : UInt64) (out : List UInt8),
        route0TxPatch t opp minProfit blockhash cuPrice = some out →
        PatchedBytes t out opp minProfit blockhash cuPrice ∧
          ∃ tx', frameTx out 0 = .ok ⟨false, tx'⟩ route0TxLen ∧
            PatchedMessage tx tx' opp minProfit blockhash cuPrice ∧ Resolves keys ourExec tx' := by
  obtain ⟨k, hk, hlen, rfl⟩ := route0TxCompile_eq_some h
  have hspec := compileKeys_spec hk
  have hzero : zeros 32 = keyBytes 0 := by decide +kernel
  refine ⟨hlen, _, ?_, resolves_template hspec cuLimit 0 (zeros 8) [0] (zeros 8) (zeros 8), ?_⟩
  · rw [hzero]
    exact frameTx_template hspec cuLimit 0 rfl rfl rfl rfl
  · intro opp minProfit blockhash cuPrice out hpatch
    have hbytes := route0TxPatch_bytes hlen hpatch
    obtain rfl := route0TxPatch_eq_some hspec.count hspec.size hpatch
    refine ⟨hbytes, _, frameTx_template hspec cuLimit blockhash (length_u64le cuPrice) rfl
      (length_u64le opp.amountIn) (length_u64le minProfit), ?_, resolves_template hspec cuLimit blockhash _ _ _ _⟩
    exact ⟨rfl, rfl, rfl, rfl, rfl, rfl⟩

/-- Accounts that differ but for the two mints. -/
def demoKeys : Vector Mint route0N := Vector.ofFn fun i => BitVec.ofNat 256 (1000 + canon i.val)

theorem route0Tx_faithful_demo : ∃ t, route0TxCompile demoKeys 7 400000 = some t ∧
    ∃ tx, frameTx t 0 = .ok ⟨false, tx⟩ route0TxLen ∧ Resolves demoKeys 7 tx := by
  have hsome : (route0TxCompile demoKeys 7 400000).isSome = true := by decide +kernel
  obtain ⟨t, ht⟩ := Option.isSome_iff_exists.mp hsome
  obtain ⟨-, tx, hframe, hres, -⟩ := route0Tx_faithful ht
  exact ⟨t, ht, tx, hframe, hres⟩

end ShredArb.Legacy
