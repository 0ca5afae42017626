/-
  ShredArb.Exec.Template — the v0 transaction template of Route0
  (`arb-exec/src/route0_v0.c`, `route0_v0.h`).

  The template is laid down byte by byte behind a cursor, and the fields of one
  shot are patched in at fixed offsets.

  Main results:
    * `route0V0Compile_eq` — compilation succeeds, with these bytes,
    * `route0V0Patch_eq` — the bytes a patch emits.
-/
import ShredArb.Exec.Program
import ShredArb.Tx.Wire

namespace ShredArb.Exec

open ShredArb.Univ ShredArb.Bytes ShredArb.Hops ShredArb.Tx

/-! ## §1. The locked layout. -/

abbrev v0NStatic : Nat := 11
abbrev v0TxLen : Nat := 623
abbrev v0OffBlockhash : Nat := 422
abbrev v0OffCuPrice : Nat := 467
abbrev v0OffDirection : Nat := 546
abbrev v0OffAmountIn : Nat := 547
abbrev v0OffMinProfit : Nat := 555
abbrev v0StaticOurExec : UInt8 := 1
abbrev v0StaticCu : UInt8 := 2

/-- `IX_IDX`. -/
def ixIdx : List UInt8 :=
  [0, 11, 12, 3, 4, 5, 6, 7, 26, 13,
   7, 14, 15, 16, 7, 27, 28, 17, 18, 8,
   29, 19, 30, 31, 10, 27, 28, 20, 21, 32,
   22, 23, 33, 34, 24,
   9,
   19, 0, 30, 27, 28, 12, 11, 20, 21, 32,
   22, 9, 3, 4, 5, 29, 8, 23, 33, 31,
   10, 34, 35, 25]

/-- `ALT_WR_IX`. -/
def altWrIx : List UInt8 := [0, 1, 2, 3, 4, 5, 6, 7, 8, 9, 10, 11, 12, 13, 23]

/-- `ALT_RO_IX`. -/
def altRoIx : List UInt8 := [14, 15, 16, 17, 18, 19, 20, 21, 22, 24]

def zeros (n : Nat) : List UInt8 := List.replicate n 0

/-! ## §2. Compilation. -/

/-- `put_bytes` (and `put_u8`). -/
def put (buf p : List UInt8) : Option (List UInt8) :=
  if buf.length + p.length > v0TxLen then none else some (buf ++ p)

/-- One put after another. -/
def putAll (buf : List UInt8) (ps : List (List UInt8)) : Option (List UInt8) := ps.foldlM put buf

/-- `route0_v0_compile`; `alt_wr` and `alt_ro` are not used. -/
def route0V0Compile (staticKeys : Vector Pubkey v0NStatic) (alt : Pubkey) (cuLimit : UInt32) :
    Option (List UInt8) := do
  let b ← putAll [] [[1], zeros 64, [0x80], [1], [0], [UInt8.ofNat (v0NStatic - 1)],
    [UInt8.ofNat v0NStatic]]
  let b ← putAll b (staticKeys.toList.map keyBytes)
  let offBh := b.length
  let b ← putAll b [zeros 32, [3], [v0StaticCu], [0], [5], [2], leBytes 4 cuLimit.toNat,
    [v0StaticCu], [0], [9], [3]]
  let offPrice := b.length
  let b ← putAll b [zeros 8, [v0StaticOurExec], [UInt8.ofNat ixIdx.length], ixIdx,
    [UInt8.ofNat ixLen]]
  if b.length ≠ v0OffDirection - 8 then none
  else
    let offDir := b.length + 8
    let offAmt := b.length + 9
    let offMin := b.length + 17
    let b ← putAll b [disc ++ zeros (ixLen - 8), [1], keyBytes alt]
    let b ← putAll b ([UInt8.ofNat altWrIx.length] :: altWrIx.map fun i => [i])
    let b ← putAll b ([UInt8.ofNat altRoIx.length] :: altRoIx.map fun i => [i])
    if b.length ≠ v0TxLen then none
    else if offBh ≠ v0OffBlockhash ∨ offPrice ≠ v0OffCuPrice ∨ offDir ≠ v0OffDirection ∨
        offAmt ≠ v0OffAmountIn ∨ offMin ≠ v0OffMinProfit then none
    else some b

/-! ## §3. Patching. -/

/-- `opportunity_t`. -/
structure Opportunity where
  routeId : UInt32
  amountIn : UInt64
  amountOut : UInt64
  grossProfit : UInt64
  direction : UInt8
  valid : UInt8
  deriving DecidableEq, Repr

abbrev routeDlmmPump : UInt32 := 0

/-- `route0_v0_patch`. -/
def route0V0Patch (t : List UInt8) (opp : Opportunity) (minProfit : UInt64) (blockhash : Mint)
    (cuPrice : UInt64) : Option (List UInt8) :=
  if opp.valid = 0 ∨ opp.routeId ≠ routeDlmmPump ∨ opp.direction > 1 then none
  else
    let out := patch t v0OffBlockhash (keyBytes blockhash)
    let out := patch out v0OffCuPrice (u64le cuPrice)
    let out := patch out v0OffDirection [opp.direction]
    let out := patch out v0OffAmountIn (u64le opp.amountIn)
    some (patch out v0OffMinProfit (u64le minProfit))

/-! ## §4. The bytes. -/

/-- The bytes before the blockhash. -/
def txHead (staticKeys : List Pubkey) : List UInt8 :=
  [1] ++ zeros 64 ++ [0x80, 1, 0, 10, 11] ++ staticKeys.flatMap keyBytes

/-- Between the blockhash and the price. -/
def txBudget (cuLimit : UInt32) : List UInt8 :=
  [3] ++ [2, 0, 5, 2] ++ leBytes 4 cuLimit.toNat ++ [2, 0, 9, 3]

/-- Between the price and the direction. -/
def txVector : List UInt8 := [1, 60] ++ ixIdx ++ [25] ++ disc

/-- After the profit. -/
def txTail (alt : Pubkey) : List UInt8 :=
  [1] ++ keyBytes alt ++ [15] ++ altWrIx ++ [10] ++ altRoIx

/-- A transaction with its fields. -/
def txBytes (staticKeys : List Pubkey) (alt : Pubkey) (cuLimit : UInt32) (blockhash : List UInt8)
    (price direction amount profit : List UInt8) : List UInt8 :=
  txHead staticKeys ++ blockhash ++ txBudget cuLimit ++ price ++ txVector ++ direction ++ amount ++
    profit ++ txTail alt

theorem putAll_eq (ps : List (List UInt8)) (buf : List UInt8)
    (h : buf.length + ps.flatten.length ≤ v0TxLen) : putAll buf ps = some (buf ++ ps.flatten) :=
  putWithin_all ps buf h

theorem length_flatMap_keyBytes (ks : List Pubkey) :
    (ks.flatMap keyBytes).length = 32 * ks.length := by
  induction ks with
  | nil => rfl
  | cons k ks ih =>
    rw [List.flatMap_cons, List.length_append, length_keyBytes, ih, List.length_cons]
    omega

theorem length_txHead (ks : Vector Pubkey v0NStatic) : (txHead ks.toList).length = 422 := by
  rw [txHead, List.length_append, length_flatMap_keyBytes, Vector.length_toList]
  rfl

theorem length_txBudget (cuLimit : UInt32) : (txBudget cuLimit).length = 13 := by
  simp [txBudget, length_leBytes]

theorem length_txVector : txVector.length = 71 := rfl

theorem length_txTail (alt : Pubkey) : (txTail alt).length = 60 := by
  simp [txTail, length_keyBytes, altWrIx, altRoIx]

section Compile

variable (ks : Vector Pubkey v0NStatic) (alt : Pubkey) (cuLimit : UInt32)

/-- What stands before the data of the Route0 instruction. -/
def txPrefix : List UInt8 :=
  txHead ks.toList ++ zeros 32 ++ txBudget cuLimit ++ zeros 8 ++ ([1, 60] ++ ixIdx ++ [25])

theorem length_txPrefix : (txPrefix ks cuLimit).length = 538 := by
  rw [txPrefix, List.length_append, List.length_append, List.length_append, List.length_append,
    length_txHead, length_txBudget]
  rfl

theorem putAll_head : putAll [] [[1], zeros 64, [0x80], [1], [0], [UInt8.ofNat (v0NStatic - 1)],
    [UInt8.ofNat v0NStatic]] = some ([1] ++ zeros 64 ++ [0x80, 1, 0, 10, 11]) := by
  rw [putAll_eq _ _ (by decide)]
  rfl

theorem putAll_static : putAll ([1] ++ zeros 64 ++ [0x80, 1, 0, 10, 11])
    (ks.toList.map keyBytes) = some (txHead ks.toList) := by
  have hlen : (ks.toList.map keyBytes).flatten.length = 352 := by
    rw [← List.flatMap_def, length_flatMap_keyBytes, Vector.length_toList]
    rfl
  rw [putAll_eq _ _ (by rw [hlen]; decide), txHead, List.flatMap_def]

theorem putAll_budget : putAll (txHead ks.toList) [zeros 32, [3], [v0StaticCu], [0], [5], [2],
    leBytes 4 cuLimit.toNat, [v0StaticCu], [0], [9], [3]] =
    some (txHead ks.toList ++ zeros 32 ++ txBudget cuLimit) := by
  rw [putAll_eq _ _ (by simp [length_txHead, zeros, length_leBytes, v0TxLen])]
  simp [txBudget]

theorem putAll_vector : putAll (txHead ks.toList ++ zeros 32 ++ txBudget cuLimit)
    [zeros 8, [v0StaticOurExec], [UInt8.ofNat ixIdx.length], ixIdx, [UInt8.ofNat ixLen]] =
    some (txPrefix ks cuLimit) := by
  rw [putAll_eq _ _ (by simp [length_txHead, length_txBudget, zeros, ixIdx, v0TxLen])]
  simp [txPrefix, ixIdx, ixLen]

theorem putAll_data : putAll (txPrefix ks cuLimit) [disc ++ zeros (ixLen - 8), [1], keyBytes alt] =
    some (txPrefix ks cuLimit ++ disc ++ zeros 17 ++ [1] ++ keyBytes alt) := by
  rw [putAll_eq _ _ (by simp [length_txPrefix, zeros, disc, length_keyBytes, v0TxLen, ixLen])]
  simp [ixLen]

theorem putAll_writable : putAll (txPrefix ks cuLimit ++ disc ++ zeros 17 ++ [1] ++ keyBytes alt)
    ([UInt8.ofNat altWrIx.length] :: altWrIx.map fun i => [i]) =
    some (txPrefix ks cuLimit ++ disc ++ zeros 17 ++ [1] ++ keyBytes alt ++ [15] ++ altWrIx) := by
  rw [putAll_eq _ _ (by
    simp [length_txPrefix, zeros, disc, length_keyBytes, v0TxLen, altWrIx])]
  simp [altWrIx]

theorem putAll_readonly :
    putAll (txPrefix ks cuLimit ++ disc ++ zeros 17 ++ [1] ++ keyBytes alt ++ [15] ++ altWrIx)
    ([UInt8.ofNat altRoIx.length] :: altRoIx.map fun i => [i]) =
    some (txPrefix ks cuLimit ++ disc ++ zeros 17 ++ txTail alt) := by
  rw [putAll_eq _ _ (by
    simp [length_txPrefix, zeros, disc, length_keyBytes, v0TxLen, altWrIx, altRoIx])]
  simp [txTail, altRoIx]

/-- **Compilation succeeds, with the fields all zero.** -/
theorem route0V0Compile_eq :
    route0V0Compile ks alt cuLimit =
      some (txBytes ks.toList alt cuLimit (zeros 32) (zeros 8) [0] (zeros 8) (zeros 8)) := by
  have hlen : (txPrefix ks cuLimit ++ disc ++ zeros 17 ++ txTail alt).length = v0TxLen := by
    simp [length_txPrefix, length_txTail, disc, zeros, v0TxLen]
  have hprice : (txHead ks.toList ++ zeros 32 ++ txBudget cuLimit).length = v0OffCuPrice := by
    simp [length_txHead, length_txBudget, zeros, v0OffCuPrice]
  have hbytes : txPrefix ks cuLimit ++ disc ++ zeros 17 ++ txTail alt =
      txBytes ks.toList alt cuLimit (zeros 32) (zeros 8) [0] (zeros 8) (zeros 8) := by
    have hz : zeros 17 = [0] ++ zeros 8 ++ zeros 8 := rfl
    simp [txPrefix, txBytes, txVector, hz]
  simp only [route0V0Compile, putAll_head, putAll_static, putAll_budget, putAll_vector,
    putAll_data, putAll_writable, putAll_readonly, Option.bind_eq_bind, Option.bind_some,
    length_txPrefix, length_txHead, hprice, hlen]
  rw [← hbytes]
  rfl

end Compile

/-! ## §5. The emitted bytes. -/

section Patch

variable {ks : Vector Pubkey v0NStatic} {alt : Pubkey} {cuLimit : UInt32}
  {b p d a m new : List UInt8}

theorem patch_blockhash (hb : b.length = 32) (hn : new.length = 32) :
    patch (txBytes ks.toList alt cuLimit b p d a m) v0OffBlockhash new =
      txBytes ks.toList alt cuLimit new p d a m := by
  have h := @patch_append (txHead ks.toList) b
    (txBudget cuLimit ++ p ++ txVector ++ d ++ a ++ m ++ txTail alt) new v0OffBlockhash
    (length_txHead ks).symm (hn.trans hb.symm)
  simpa [txBytes] using h

theorem patch_cuPrice (hb : b.length = 32) (hp : p.length = 8) (hn : new.length = 8) :
    patch (txBytes ks.toList alt cuLimit b p d a m) v0OffCuPrice new =
      txBytes ks.toList alt cuLimit b new d a m := by
  have h := @patch_append (txHead ks.toList ++ b ++ txBudget cuLimit) p
    (txVector ++ d ++ a ++ m ++ txTail alt) new v0OffCuPrice
    (by simp [length_txHead, length_txBudget, hb, v0OffCuPrice]) (hn.trans hp.symm)
  simpa [txBytes] using h

theorem patch_direction (hb : b.length = 32) (hp : p.length = 8) (hd : d.length = 1)
    (hn : new.length = 1) :
    patch (txBytes ks.toList alt cuLimit b p d a m) v0OffDirection new =
      txBytes ks.toList alt cuLimit b p new a m := by
  have h := @patch_append (txHead ks.toList ++ b ++ txBudget cuLimit ++ p ++ txVector) d
    (a ++ m ++ txTail alt) new v0OffDirection
    (by simp [length_txHead, length_txBudget, length_txVector, hb, hp, v0OffDirection])
    (hn.trans hd.symm)
  simpa [txBytes] using h

theorem patch_amountIn (hb : b.length = 32) (hp : p.length = 8) (hd : d.length = 1)
    (ha : a.length = 8) (hn : new.length = 8) :
    patch (txBytes ks.toList alt cuLimit b p d a m) v0OffAmountIn new =
      txBytes ks.toList alt cuLimit b p d new m := by
  have h := @patch_append (txHead ks.toList ++ b ++ txBudget cuLimit ++ p ++ txVector ++ d) a
    (m ++ txTail alt) new v0OffAmountIn
    (by simp [length_txHead, length_txBudget, length_txVector, hb, hp, hd, v0OffAmountIn])
    (hn.trans ha.symm)
  simpa [txBytes] using h

theorem patch_minProfit (hb : b.length = 32) (hp : p.length = 8) (hd : d.length = 1)
    (ha : a.length = 8) (hm : m.length = 8) (hn : new.length = 8) :
    patch (txBytes ks.toList alt cuLimit b p d a m) v0OffMinProfit new =
      txBytes ks.toList alt cuLimit b p d a new := by
  have h := @patch_append (txHead ks.toList ++ b ++ txBudget cuLimit ++ p ++ txVector ++ d ++ a) m
    (txTail alt) new v0OffMinProfit
    (by simp [length_txHead, length_txBudget, length_txVector, hb, hp, hd, ha, v0OffMinProfit])
    (hn.trans hm.symm)
  simpa [txBytes] using h

end Patch

/-- **A patch replaces the fields and nothing else.** -/
theorem route0V0Patch_eq {ks : Vector Pubkey v0NStatic} {alt : Pubkey} {cuLimit : UInt32}
    {opp : Opportunity} (hvalid : opp.valid ≠ 0) (hroute : opp.routeId = routeDlmmPump)
    (hdir : opp.direction ≤ 1) (minProfit : UInt64) (blockhash : Mint) (cuPrice : UInt64) :
    route0V0Patch (txBytes ks.toList alt cuLimit (zeros 32) (zeros 8) [0] (zeros 8) (zeros 8))
        opp minProfit blockhash cuPrice =
      some (txBytes ks.toList alt cuLimit (keyBytes blockhash) (u64le cuPrice) [opp.direction]
        (u64le opp.amountIn) (u64le minProfit)) := by
  have hok : ¬ (opp.valid = 0 ∨ opp.routeId ≠ routeDlmmPump ∨ opp.direction > 1) := by
    rintro (h | h | h)
    · exact hvalid h
    · exact h hroute
    · exact absurd hdir (UInt8.not_le.mpr h)
  have hb := length_keyBytes blockhash
  have hp := length_u64le cuPrice
  have ha := length_u64le opp.amountIn
  have hd : [opp.direction].length = 1 := rfl
  have hz : (zeros 8).length = 8 := rfl
  simp only [route0V0Patch, if_neg hok]
  rw [patch_blockhash rfl hb, patch_cuPrice hb hz hp,
    patch_direction hb hp rfl hd, patch_amountIn hb hp hd hz ha,
    patch_minProfit hb hp hd ha hz (length_u64le minProfit)]

/-- What a patch accepts. -/
theorem route0V0Patch_some {t tx : List UInt8} {opp : Opportunity} {minProfit : UInt64}
    {blockhash : Mint} {cuPrice : UInt64}
    (h : route0V0Patch t opp minProfit blockhash cuPrice = some tx) :
    opp.valid ≠ 0 ∧ opp.routeId = routeDlmmPump ∧ opp.direction ≤ 1 := by
  unfold route0V0Patch at h
  split at h
  · exact absurd h (by simp)
  · rename_i hok
    rw [not_or, not_or] at hok
    exact ⟨hok.1, not_not.mp hok.2.1, UInt8.not_lt.mp hok.2.2⟩

theorem length_txBytes {ks : Vector Pubkey v0NStatic} {alt : Pubkey} {cuLimit : UInt32}
    {b p d a m : List UInt8} (hb : b.length = 32) (hp : p.length = 8) (hd : d.length = 1)
    (ha : a.length = 8) (hm : m.length = 8) :
    (txBytes ks.toList alt cuLimit b p d a m).length = v0TxLen := by
  simp [txBytes, length_txHead, length_txBudget, length_txVector, length_txTail, hb, hp, hd, ha,
    hm, v0TxLen]

end ShredArb.Exec
