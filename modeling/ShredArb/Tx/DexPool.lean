/-
  ShredArb.Tx.DexPool — the pool a transaction names (`find_next_prog_id`,
  `msg_first_dex_pool`, `txn_dex_at` of `arb-core/src/tx.c`).

  A transaction names the pool of its first venue instruction: that instruction's
  first account, when it is a static key.  The walk goes by offsets and gives up
  at a program that is no static key.

  Conventions:
    • the length is a `uint16_t`: theorems ask for it,
    • `cand->key` and `mk->keys` are kept as values, not as pointers.

  Main results:
    * `dexLoop_eq_firstDex` — the walk over a framed transaction,
    * `txnDexAt_of_frame` — a transaction that names a pool is seen where it begins.
-/
import ShredArb.Tx.Frame

namespace ShredArb.Tx

open ShredArb.Univ ShredArb.Bytes ShredArb.Parse

/-! ## §1. The walks. -/

/-- `pool_cand_t`. -/
structure PoolCand where
  protocol : UInt8
  key : Mint
  deriving DecidableEq, Repr

/-- The loop of `msg_first_dex_pool`, over `n` instructions; `venue` is the
protocol of a program id, 0 for none. -/
def dexLoop (venue : Mint → UInt8) (p : List UInt8) (mk : MsgKeys) : Nat → Nat → Option PoolCand
  | 0, _ => none
  | n + 1, off =>
    if off + 1 > p.length then none
    else
      let prog := (byteAt p off).toNat
      if prog = 0 ∨ prog ≥ mk.nkeys then none
      else (cu16At p (off + 1)).bind fun (nacct, used) =>
        let acc := off + 1 + used
        let proto := venue (mk.key p prog)
        if nacct > 255 ∨ acc + nacct > p.length then none
        else if proto ≠ 0 ∧ nacct ≥ 1 ∧ (byteAt p acc).toNat < mk.nkeys then
          some ⟨proto, mk.key p (byteAt p acc).toNat⟩
        else (cu16At p (acc + nacct)).bind fun (dlen, used) =>
          let data := acc + nacct + used
          if data + dlen > p.length then none else dexLoop venue p mk n (data + dlen)

/-- The body of `msg_first_dex_pool`, from the end of the keys on. -/
def poolAfterKeys (venue : Mint → UInt8) (p : List UInt8) (mk : MsgKeys) : Option PoolCand :=
  let off := mk.keysOff + 32 * mk.nkeys
  if off + 32 > p.length then none
  else (cu16At p (off + 32)).bind fun (ninstr, used) =>
    if ninstr = 0 ∨ ninstr > txInstrMax then none else dexLoop venue p mk ninstr (off + 32 + used)

/-- `msg_first_dex_pool`. -/
def msgFirstDexPool (p : List UInt8) (mk : MsgKeys) : Option PoolCand := poolAfterKeys progProto p mk

/-- `txn_dex_at`. -/
def txnDexAt (p : List UInt8) (start : Nat) : Option (MsgKeys × PoolCand) :=
  let nsig := byteAt p start
  let ver := start + 1 + 64 * nsig.toNat
  if start + 134 > p.length ∨ nsig &&& 0x80 ≠ 0 ∨ nsig.toNat < 1 ∨ nsig.toNat > txSigMax then none
  else if ver ≥ p.length then none
  else (txoVersion p ver nsig).bind fun (versioned, i) =>
    if i + 2 > p.length then none
    else (cu16At p (i + 2)).bind fun (nkeys, used) =>
      let keysOff := i + 2 + used
      if !headerOk nsig (byteAt p i) (byteAt p (i + 1)) nkeys then none
      else if keysOff + 32 * nkeys + 32 > p.length then none
      else
        let mk : MsgKeys := ⟨keysOff, nkeys, versioned⟩
        (msgFirstDexPool p mk).map fun cand => (mk, cand)

/-! ## §2. The walk over a frame. -/

/-- The pool an instruction names: its first account, when its program is a
venue's and both are static keys. -/
def dexPool (keys : List Mint) (ix : CompiledIx) : Option PoolCand :=
  (keys[ix.prog.toNat]?).bind fun prog =>
    if progProto prog = 0 then none
    else ix.accounts.head?.bind fun a => (keys[a.toNat]?).map fun k => ⟨progProto prog, k⟩

/-- The first pool that is named; a program that is the payer or no static key
ends the walk. -/
def firstDex (keys : List Mint) : List CompiledIx → Option PoolCand
  | [] => none
  | ix :: ixs =>
    if ix.prog.toNat = 0 ∨ ix.prog.toNat ≥ keys.length then none
    else (dexPool keys ix).orElse fun _ => firstDex keys ixs

/-- Offset and rest of a length that is read. -/
theorem cu16At_rest {p rest : List UInt8} {off v : Nat} (hlen : p.length < 2 ^ 16)
    (h : cu16Dec (p.drop off) = some (v, rest)) :
    ∃ used, cu16At p off = some (v, used) ∧ rest = p.drop (off + used) ∧
      off + used ≤ p.length ∧ 1 ≤ used := by
  have hread := cu16At_of_dec hlen h
  have hdec := cu16Avail_dec hread
  have hshort := cu16Dec_length h
  rw [List.length_drop] at hshort
  rw [h] at hdec
  refine ⟨_, hread, (Prod.mk.inj (Option.some.inj hdec)).2, ?_, ?_⟩ <;>
  · rw [List.length_drop]
    omega

/-- A framed instruction has at most 255 accounts. -/
theorem frameIx_accounts {versioned : Bool} {nkeys : Nat} {bs rest : List UInt8} {ix : CompiledIx}
    (h : frameIx versioned nkeys bs = some (ix, rest)) : ix.accounts.length ≤ 255 := by
  obtain ⟨prog, r1, -, h⟩ := andThen_eq_some.mp h
  split at h
  · exact absurd h (by simp [fail])
  obtain ⟨nacct, r2, -, h⟩ := andThen_eq_some.mp h
  split at h
  · exact absurd h (by simp [fail])
  obtain ⟨accounts, r3, hacc, h⟩ := andThen_eq_some.mp h
  obtain ⟨-, rfl, rfl⟩ := exactly_eq_some.mp hacc
  split at h
  · exact absurd h (by simp [fail])
  obtain ⟨dlen, r4, -, h⟩ := andThen_eq_some.mp h
  obtain ⟨data, r5, -, h⟩ := andThen_eq_some.mp h
  obtain ⟨rfl, -⟩ := Prod.mk.inj (Option.some.inj h)
  show (r2.take nacct).length ≤ 255
  rw [List.length_take]
  omega

/-- The test of `msg_first_dex_pool` on one instruction. -/
theorem dexPool_eq {p : List UInt8} {mk : MsgKeys} {keys : List Mint} (hk : SameKeys p mk keys)
    {acc nacct : Nat} {ix : CompiledIx} (hprog : ix.prog.toNat < mk.nkeys)
    (hin : acc + nacct ≤ p.length) (hacc : ix.accounts = field p acc nacct) :
    dexPool keys ix =
      if progProto (mk.key p ix.prog.toNat) ≠ 0 ∧ nacct ≥ 1 ∧ (byteAt p acc).toNat < mk.nkeys then
        some ⟨progProto (mk.key p ix.prog.toNat), mk.key p (byteAt p acc).toNat⟩
      else none := by
  unfold dexPool
  rw [hk.key _ hprog, Option.bind_some]
  by_cases hvenue : progProto (mk.key p ix.prog.toNat) = 0
  · rw [if_pos hvenue, if_neg fun h => h.1 hvenue]
  rw [if_neg hvenue, hacc]
  cases nacct with
  | zero =>
    have hnil : field p acc 0 = [] := List.take_zero
    rw [hnil, if_neg (by omega)]
    rfl
  | succ n =>
    have hlt : acc < p.length := by omega
    have hhead : (field p acc (n + 1)).head? = some (byteAt p acc) := by
      have hb := (byteAt_of_drop (List.drop_eq_getElem_cons hlt)).1
      rw [field, List.drop_eq_getElem_cons hlt, List.take_succ_cons, hb]
      rfl
    rw [hhead, Option.bind_some]
    by_cases hs : (byteAt p acc).toNat < mk.nkeys
    · rw [if_pos ⟨hvenue, by omega, hs⟩, hk.key _ hs, Option.map_some]
    · rw [if_neg fun h => hs h.2.2, hk.getElem?_eq_none (by omega), Option.map_none]

/-- **The walk by offsets is the walk over the frame's instructions.** -/
theorem dexLoop_eq_firstDex {p : List UInt8} {mk : MsgKeys} {keys : List Mint}
    (hlen : p.length < 2 ^ 16) (hk : SameKeys p mk keys) {versioned : Bool} (n : Nat) :
    ∀ {off : Nat} {ixs : List CompiledIx} {rest : List UInt8},
    times (frameIx versioned mk.nkeys) n (p.drop off) = some (ixs, rest) →
    dexLoop progProto p mk n off = firstDex keys ixs := by
  induction n with
  | zero =>
    intro off ixs rest hframe
    obtain ⟨rfl, -⟩ := Prod.mk.inj (Option.some.inj hframe)
    rfl
  | succ n ih =>
    intro off ixs rest hframe
    obtain ⟨ix, r, hix, hframe⟩ := andThen_eq_some.mp hframe
    obtain ⟨ixs', r', hixs, hframe⟩ := andThen_eq_some.mp hframe
    obtain ⟨rfl, -⟩ := Prod.mk.inj (Option.some.inj hframe)
    obtain ⟨r1, nacct, r2, dlen, r3, hbs, hnacct, hle, hacc, hdlen, hle', -, rfl⟩ :=
      frameIx_eq_some hix
    obtain ⟨hprog, hlt, rfl⟩ := byteAt_of_drop hbs
    obtain ⟨used, hread, rfl, hin, hone⟩ := cu16At_rest hlen hnacct
    have hsmall := frameIx_accounts hix
    rw [hacc, List.length_take, Nat.min_eq_left hle] at hsmall
    rw [List.drop_drop] at hdlen
    obtain ⟨used', hread', rfl, hin', hone'⟩ := cu16At_rest hlen hdlen
    rw [List.drop_drop] at hixs
    rw [List.length_drop] at hle hle'
    rw [dexLoop, if_neg (by omega), hprog, firstDex, hk.length]
    show (if _ then _ else _) = _
    by_cases hout : ix.prog.toNat = 0 ∨ ix.prog.toNat ≥ mk.nkeys
    · rw [if_pos hout, if_pos hout]
    have hpool := dexPool_eq hk (show ix.prog.toNat < mk.nkeys by omega)
      (show off + 1 + used + nacct ≤ p.length by omega) hacc
    rw [if_neg hout, if_neg hout, hread, Option.bind_some]
    show (if _ then _ else if _ then _ else _) = _
    rw [if_neg (by omega), hpool]
    split
    · rfl
    · rw [hread', Option.bind_some]
      show (if _ then _ else _) = _
      rw [if_neg (by omega)]
      exact ih hixs

/-! ## §3. A transaction inside a payload. -/

theorem byteAt_drop (p : List UInt8) (off i : Nat) : byteAt (p.drop off) i = byteAt p (off + i) := by
  simp only [byteAt, List.getD_eq_getElem?_getD, List.getElem?_drop]

/-- The checks of a message that do not show in the frame. -/
theorem frameMessage_checks {versioned : Bool} {nsig : UInt8} {bs rest r1 : List UInt8} {fr : Frame}
    {nkeys : Nat} (h : frameMessage versioned nsig bs = some (fr, rest))
    (hnkeys : cu16Dec (bs.drop 2) = some (nkeys, r1)) :
    headerOk nsig (byteAt bs 0) (byteAt bs 1) nkeys = true ∧
      fr.ixs.length ≠ 0 ∧ fr.ixs.length ≤ txInstrMax := by
  obtain ⟨roS, b1, h1, hro⟩ := andThen_eq_some.mp h
  obtain ⟨roU, b2, h2, hmsg⟩ := andThen_eq_some.mp hro
  clear h hro
  obtain rfl := byte_eq_some h2
  obtain rfl := byte_eq_some h1
  obtain ⟨nkeys', r, hnkeys', h⟩ := andThen_eq_some.mp hmsg
  obtain ⟨rfl, rfl⟩ := Prod.mk.inj (Option.some.inj (hnkeys'.symm.trans hnkeys))
  split at h
  · exact absurd h (by simp [fail])
  rename_i hheader
  obtain ⟨keys, r2, -, h⟩ := andThen_eq_some.mp h
  obtain ⟨hash, r3, -, h⟩ := andThen_eq_some.mp h
  obtain ⟨ninstr, r4, -, h⟩ := andThen_eq_some.mp h
  split at h
  · exact absurd h (by simp [fail])
  rename_i hrange
  obtain ⟨ixs, r5, hixs, h⟩ := andThen_eq_some.mp h
  have hfr : fr.ixs = ixs := by
    split at h
    · obtain ⟨luts, r6, -, h⟩ := andThen_eq_some.mp h
      rw [← (Prod.mk.inj (Option.some.inj h)).1]
    · rw [← (Prod.mk.inj (Option.some.inj h)).1]
  rw [hfr, times_length ninstr hixs]
  exact ⟨(Bool.not_eq_false _).mp hheader, by omega, by omega⟩

/-- The version byte of a transaction inside a payload. -/
theorem txoVersion_drop {p : List UInt8} {start i off : Nat} {nsig v : UInt8}
    (h : txoVersion (p.drop start) i nsig = some (v, off)) :
    txoVersion p (start + i) nsig = some (v, start + off) ∧ i + 1 ≤ off := by
  unfold txoVersion at h ⊢
  simp only [byteAt_drop, List.length_drop] at h ⊢
  split at h
  · rename_i hver
    obtain ⟨hok, h⟩ := Option.ite_none_left_eq_some.mp h
    obtain ⟨rfl, rfl⟩ := Prod.mk.inj (Option.some.inj h)
    rw [if_pos hver, if_neg]
    · exact ⟨rfl, by omega⟩
    · intro hc
      apply hok
      rcases hc with hc | hc | hc
      · exact Or.inl hc
      · exact Or.inr (Or.inl (by omega))
      · exact Or.inr (Or.inr hc)
  · rename_i hver
    obtain ⟨hok, h⟩ := Option.ite_none_left_eq_some.mp h
    obtain ⟨rfl, rfl⟩ := Prod.mk.inj (Option.some.inj h)
    rw [if_neg hver, if_neg hok]
    exact ⟨rfl, le_rfl⟩

/-- The keys of a view lie in the payload. -/
def InPayload (p : List UInt8) (mk : MsgKeys) : Prop := mk.keysOff + 32 * mk.nkeys ≤ p.length

/-- **A transaction inside a payload is read where it begins**, as far as its
first named pool. -/
theorem txnDexAt_of_frame {p rest : List UInt8} {start : Nat} {fr : Frame}
    (hlen : p.length < 2 ^ 16) (h : frameParse (p.drop start) = some (fr, rest)) :
    ∃ mk, SameKeys p mk fr.keys ∧ InPayload p mk ∧ start + 134 ≤ p.length ∧
      txnDexAt p start = (firstDex fr.keys fr.ixs).map fun cand => (mk, cand) := by
  obtain ⟨versioned, off, hb, hpos, hmax, hsigs, hver, hmsg⟩ := frameParse_eq_some h
  rw [byteAt_drop, Nat.add_zero] at hb hpos hmax hsigs hver hmsg
  obtain ⟨hver, hoff⟩ := txoVersion_drop hver
  obtain ⟨nkeys, r1, ninstr, r2, r3, hnkeys, htwo, -, hkeys, hfit, hninstr, hixs⟩ :=
    frameMessage_eq_some hmsg
  obtain ⟨hheader, hsome, hfew⟩ := frameMessage_checks hmsg hnkeys
  rw [times_length ninstr hixs] at hsome hfew
  simp only [List.drop_drop, byteAt_drop, Nat.add_zero] at hnkeys hheader
  obtain ⟨used, hread, rfl, hin, hone⟩ := cu16At_rest hlen hnkeys
  rw [List.drop_drop] at hninstr
  obtain ⟨used', hread', rfl, hin', hone'⟩ := cu16At_rest hlen hninstr
  rw [List.length_drop] at hfit hsigs
  have hk := of_decide_eq_true hheader
  simp only [txSigMax, txKeyMax] at hk hmax
  have hsame : SameKeys p ⟨start + off + 2 + used, nkeys, if versioned then 1 else 0⟩ fr.keys := by
    have hlist : fr.keys = (List.range nkeys).map fun i =>
        keyAt p (start + off + 2 + used + 32 * i) := by
      rw [hkeys]
      exact List.map_congr_left fun i _ => keyAt_drop p _ _
    rw [hlist]
    exact sameKeys_range
  refine ⟨⟨start + off + 2 + used, nkeys, if versioned then 1 else 0⟩, hsame, ?_, ?_, ?_⟩
  · show start + off + 2 + used + 32 * nkeys ≤ p.length
    omega
  · omega
  have hnsig : ¬(start + 134 > p.length ∨ byteAt p start &&& 0x80 ≠ 0 ∨
      (byteAt p start).toNat < 1 ∨ (byteAt p start).toNat > txSigMax) := by
    intro hc
    rcases hc with hc | hc | hc | hc
    · omega
    · exact hc hb
    · omega
    · simp only [txSigMax] at hc
      omega
  have hwalk : msgFirstDexPool p ⟨start + off + 2 + used, nkeys, if versioned then 1 else 0⟩
      = firstDex fr.keys fr.ixs := by
    unfold msgFirstDexPool poolAfterKeys
    simp only [← Nat.add_assoc] at hread' hixs ⊢
    rw [if_neg (by omega), hread', Option.bind_some, if_neg (by omega)]
    exact dexLoop_eq_firstDex hlen hsame ninstr hixs
  unfold txnDexAt
  simp only
  rw [if_neg hnsig, if_neg (by omega), Nat.add_assoc start 1, hver, Option.bind_some,
    if_neg (by omega), hread, Option.bind_some]
  simp only
  rw [hheader, if_neg (by decide), if_neg (by omega), hwalk]

/-! ## §4. The keys of a view. -/

/-- The pool that is named is a static key, and its protocol another's venue. -/
theorem dexLoop_named {venue : Mint → UInt8} {p : List UInt8} {mk : MsgKeys} (n : Nat) :
    ∀ {off : Nat} {cand : PoolCand}, dexLoop venue p mk n off = some cand →
    (∃ i, i < mk.nkeys ∧ cand.key = mk.key p i) ∧
      ∃ i, i < mk.nkeys ∧ cand.protocol = venue (mk.key p i) ∧ cand.protocol ≠ 0 := by
  induction n with
  | zero => exact fun h => absurd h (by simp [dexLoop])
  | succ n ih =>
    intro off cand h
    rw [dexLoop] at h
    obtain ⟨-, h⟩ := Option.ite_none_left_eq_some.mp h
    obtain ⟨hprog, h⟩ := Option.ite_none_left_eq_some.mp h
    obtain ⟨⟨nacct, used⟩, -, h⟩ := Option.bind_eq_some_iff.mp h
    obtain ⟨-, h⟩ := Option.ite_none_left_eq_some.mp h
    split at h
    · rename_i hnamed
      rw [← Option.some.inj h]
      exact ⟨⟨_, hnamed.2.2, rfl⟩, _, by omega, rfl, hnamed.1⟩
    · obtain ⟨⟨dlen, used'⟩, -, h⟩ := Option.bind_eq_some_iff.mp h
      obtain ⟨-, h⟩ := Option.ite_none_left_eq_some.mp h
      exact ih h

theorem poolAfterKeys_named {venue : Mint → UInt8} {p : List UInt8} {mk : MsgKeys}
    {cand : PoolCand} (h : poolAfterKeys venue p mk = some cand) :
    (∃ i, i < mk.nkeys ∧ cand.key = mk.key p i) ∧
      ∃ i, i < mk.nkeys ∧ cand.protocol = venue (mk.key p i) ∧ cand.protocol ≠ 0 := by
  obtain ⟨-, h⟩ := Option.ite_none_left_eq_some.mp h
  obtain ⟨⟨ninstr, used⟩, -, h⟩ := Option.bind_eq_some_iff.mp h
  obtain ⟨-, h⟩ := Option.ite_none_left_eq_some.mp h
  exact dexLoop_named ninstr h

theorem frameV1Layout_inPayload {p : List UInt8} {start : Nat} {l : FrameV1}
    (h : frameV1Layout p start = some l) : l.keysOff + 32 * l.naddr ≤ p.length := by
  rw [frameV1Layout] at h
  extract_lets nsig mask ninstr naddr keysOff hdrOff payOff pay accounts at h
  obtain ⟨-, h⟩ := Option.ite_none_left_eq_some.mp h
  obtain ⟨-, h⟩ := Option.ite_none_left_eq_some.mp h
  obtain ⟨-, h⟩ := Option.ite_none_left_eq_some.mp h
  obtain ⟨-, h⟩ := Option.ite_none_left_eq_some.mp h
  obtain ⟨hkeys, h⟩ := Option.ite_none_left_eq_some.mp h
  -- none of the later checks changes where the keys are
  obtain ⟨-, h⟩ := Option.ite_none_left_eq_some.mp h
  obtain ⟨-, h⟩ := Option.ite_none_left_eq_some.mp h
  obtain ⟨-, h⟩ := Option.ite_none_left_eq_some.mp h
  obtain ⟨-, h⟩ := Option.ite_none_left_eq_some.mp h
  obtain ⟨-, h⟩ := Option.ite_none_left_eq_some.mp h
  obtain ⟨-, h⟩ := Option.ite_none_left_eq_some.mp h
  obtain ⟨-, h⟩ := Option.ite_none_left_eq_some.mp h
  rw [← Option.some.inj h]
  exact Nat.le_of_not_lt hkeys

/-- The keys found around a program id lie in the payload. -/
theorem msgKeysFromProg_inPayload {p : List UInt8} {off : Nat} {mk : MsgKeys}
    (h : msgKeysFromProg p off = some mk) : InPayload p mk := by
  obtain ⟨-, h⟩ := Option.ite_none_left_eq_some.mp h
  rcases Option.or_eq_some_iff.mp (Option.orElse_eq_or.symm.trans h) with h | ⟨-, h⟩
  · obtain ⟨vk, -, h⟩ := List.exists_of_findSome?_eq_some h
    obtain ⟨-, h⟩ := Option.ite_none_left_eq_some.mp h
    obtain ⟨l, hl, h⟩ := Option.bind_eq_some_iff.mp h
    obtain ⟨-, h⟩ := Option.ite_none_left_eq_some.mp h
    rw [← Option.some.inj h]
    exact frameV1Layout_inPayload hl
  · obtain ⟨⟨k, w⟩, -, h⟩ := List.exists_of_findSome?_eq_some h
    obtain ⟨-, h⟩ := Option.ite_none_left_eq_some.mp h
    obtain ⟨-, h⟩ := Option.ite_none_left_eq_some.mp h
    obtain ⟨⟨nkeys, used⟩, -, h⟩ := Option.bind_eq_some_iff.mp h
    obtain ⟨hfit, h⟩ := Option.ite_none_left_eq_some.mp h
    have hmk : mk.keysOff = off - 32 * k ∧ mk.nkeys = nkeys := by
      extract_lets ok at h
      split at h
      · rw [← Option.some.inj h]
        exact ⟨rfl, rfl⟩
      · obtain ⟨-, h⟩ := Option.ite_none_right_eq_some.mp h
        rw [← Option.some.inj h]
        exact ⟨rfl, rfl⟩
    show mk.keysOff + 32 * mk.nkeys ≤ p.length
    rw [hmk.1, hmk.2]
    omega

theorem txnDexAt_inPayload {p : List UInt8} {start : Nat} {mk : MsgKeys} {cand : PoolCand}
    (h : txnDexAt p start = some (mk, cand)) :
    InPayload p mk ∧ msgFirstDexPool p mk = some cand := by
  obtain ⟨-, h⟩ := Option.ite_none_left_eq_some.mp h
  obtain ⟨-, h⟩ := Option.ite_none_left_eq_some.mp h
  obtain ⟨⟨versioned, i⟩, -, h⟩ := Option.bind_eq_some_iff.mp h
  obtain ⟨-, h⟩ := Option.ite_none_left_eq_some.mp h
  obtain ⟨⟨nkeys, used⟩, -, h⟩ := Option.bind_eq_some_iff.mp h
  obtain ⟨-, h⟩ := Option.ite_none_left_eq_some.mp h
  obtain ⟨hfit, h⟩ := Option.ite_none_left_eq_some.mp h
  obtain ⟨c, hc, h⟩ := Option.map_eq_some_iff.mp h
  obtain ⟨rfl, rfl⟩ := Prod.mk.inj h
  refine ⟨?_, hc⟩
  show i + 2 + used + 32 * nkeys ≤ p.length
  omega

/-! ## §5. Transactions that name a pool. -/

/-- A transaction that names a pool: one of its instructions runs a venue's
program on a static first account, and up to it every program is a static key
other than the payer. -/
def NamesPool (fr : Frame) : Prop :=
  ∃ pre ix post, fr.ixs = pre ++ ix :: post ∧
    (∀ x ∈ pre ++ [ix], x.prog.toNat ≠ 0 ∧ x.prog.toNat < fr.keys.length) ∧
    (dexPool fr.keys ix).isSome = true

theorem firstDex_isSome {keys : List Mint} {ix : CompiledIx} {post : List CompiledIx}
    (hnamed : (dexPool keys ix).isSome = true) (pre : List CompiledIx)
    (hstatic : ∀ x ∈ pre ++ [ix], x.prog.toNat ≠ 0 ∧ x.prog.toNat < keys.length) :
    (firstDex keys (pre ++ ix :: post)).isSome = true := by
  induction pre with
  | nil =>
    have hix := hstatic ix (List.mem_singleton_self ix)
    show (firstDex keys (ix :: post)).isSome = true
    rw [firstDex, if_neg (by omega), Option.orElse_eq_or, Option.isSome_or, hnamed, Bool.true_or]
  | cons x pre ih =>
    have hx := hstatic x List.mem_cons_self
    show (firstDex keys (x :: (pre ++ ix :: post))).isSome = true
    rw [firstDex, if_neg (by omega), Option.orElse_eq_or, Option.isSome_or,
      ih fun y hy => hstatic y (List.mem_cons_of_mem x hy), Bool.or_true]

end ShredArb.Tx
