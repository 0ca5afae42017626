/-
  ShredArb.Trigger.Decoders — the two decoders of a Pump trigger
  (`hot_decode_trigger` of `arb-core/src/hot.c`, `decode_ix` of
  `arb-core/src/swapix.c`).

  Both read an amount and a minimum behind an 8-byte discriminator.  They know
  three discriminators between them: the sell is common; the exact-out buy is
  taken as an exact-in buy by the one and refused by the other; the buy with an
  exact quote amount is known to the second only.  And the second refuses an
  amount of zero.

  Main results:
    * `hotDecodeTrigger_pump` / `decodeIx_pump` — each decoder as one equation.
    * `decoders_agree_iff` — the instructions they agree on.
    * `decoders_agree_wrong` — an exact-out buy, read as a swap of its output.
-/
import ShredArb.Trigger.Swapix
import ShredArb.Hot.Kernel

namespace ShredArb.Trigger

open ShredArb.Univ ShredArb.Bytes ShredArb.Tx ShredArb.Pump ShredArb.Dlmm ShredArb.Hot

/-! ## §1. The hot path's decoder. -/

/-- `dlmm_decode_swap2`. -/
def dlmmDecodeSwap2 (data : List UInt8) : Option DlmmSwapIx :=
  if data.length < 8 + 8 + 8 then none
  else if data.take 8 ≠ dlmmSwap2Disc then none
  else some ⟨loadU64 (field data 8 8), loadU64 (field data 16 8), 0⟩

/-- `hot_decode_trigger`; the trigger of the other venue stays zero. -/
def hotDecodeTrigger (proto : UInt8) (data : List UInt8) (swapForY : UInt8) :
    Option HotTrigger :=
  if proto = protoDlmm then
    (dlmmDecodeSwap2 data).map fun ix => ⟨proto, { ix with swapForY := swapForY }, ⟨0, 0, 0⟩⟩
  else if proto = protoPump then
    if data.length < 24 then none
    else
      let ain := loadU64 (field data 8 8)
      let mino := loadU64 (field data 16 8)
      if data.take 8 = pumpBuyDisc then
        some ⟨proto, ⟨0, 0, 0⟩, ⟨ain, mino, pumpDirQuoteToBase⟩⟩
      else if data.take 8 = pumpSellDisc then
        some ⟨proto, ⟨0, 0, 0⟩, ⟨ain, mino, pumpDirBaseToQuote⟩⟩
      else none
  else none

/-! ## §2. What each decoder makes of a Pump instruction. -/

/-- The amount, minimum and direction the hot path reads. -/
def hotReads (data : List UInt8) (swapForY : UInt8) : Option PumpSwapIx :=
  (hotDecodeTrigger protoPump data swapForY).map (·.pump)

/-- The amount, minimum and direction the transaction decoder reads. -/
def txReads (sha256 : List UInt8 → Vector UInt8 32) (keys : List Mint) (ix : CompiledIx) :
    Option PumpSwapIx :=
  (decodeIx sha256 protoPump keys ix).map fun s => ⟨s.amountIn, s.minOut, s.direction⟩

/-- The amount of an instruction. -/
def ixAmount (data : List UInt8) : UInt64 := loadU64 (field data 8 8)

/-- The minimum of an instruction. -/
def ixMinimum (data : List UInt8) : UInt64 := loadU64 (field data 16 8)

/-- The direction the hot path gives a discriminator. -/
def hotDirection (disc : List UInt8) : Option UInt8 :=
  if disc = pumpBuyDisc then some pumpDirQuoteToBase
  else if disc = pumpSellDisc then some pumpDirBaseToQuote
  else none

/-- The direction the transaction decoder gives a discriminator. -/
def txDirection (disc : List UInt8) : Option UInt8 :=
  if disc = pumpSellDisc then some pumpDirBaseToQuote
  else if disc = pumpBuyEqDisc then some pumpDirQuoteToBase
  else none

/-- **The hot path's decoder**, as one equation. -/
theorem hotDecodeTrigger_pump (data : List UInt8) (swapForY : UInt8) :
    hotReads data swapForY =
      if data.length < 24 then none
      else (hotDirection (data.take 8)).map fun d => ⟨ixAmount data, ixMinimum data, d⟩ := by
  have hproto : ¬ protoPump = protoDlmm := by decide
  unfold hotReads hotDecodeTrigger hotDirection
  rw [if_neg hproto, if_pos rfl]
  by_cases hlen : data.length < 24
  · rw [if_pos hlen, if_pos hlen]
    rfl
  · rw [if_neg hlen, if_neg hlen]
    simp only
    by_cases hbuy : data.take 8 = pumpBuyDisc
    · rw [if_pos hbuy, if_pos hbuy]
      rfl
    · rw [if_neg hbuy, if_neg hbuy]
      by_cases hsell : data.take 8 = pumpSellDisc
      · rw [if_pos hsell, if_pos hsell]
        rfl
      · rw [if_neg hsell, if_neg hsell]
        rfl

/-- **The transaction decoder**, as one equation: the refusal of the exact-out
buy comes first, and is the refusal of an unknown discriminator. -/
theorem decodeIx_pump (sha256 : List UInt8 → Vector UInt8 32) (keys : List Mint)
    (ix : CompiledIx) :
    txReads sha256 keys ix =
      if ix.data.length < 24 ∨ ix.accounts.length < 1 ∨ ixAmount ix.data = 0 then none
      else (txDirection (ix.data.take 8)).map fun d =>
        ⟨ixAmount ix.data, ixMinimum ix.data, d⟩ := by
  have hproto : ¬ protoPump = protoDlmm := by decide
  unfold txReads decodeIx txDirection
  by_cases hshort : ix.data.length < 24 ∨ ix.accounts.length < 1
  · rw [if_pos hshort, if_pos (by tauto)]
    rfl
  · rw [if_neg hshort]
    simp only
    by_cases hzero : loadU64 (field ix.data 8 8) = 0
    · have hamt : ixAmount ix.data = 0 := hzero
      rw [if_pos hzero, if_pos (Or.inr (Or.inr hamt))]
      rfl
    · have hok : ¬ (ix.data.length < 24 ∨ ix.accounts.length < 1 ∨ ixAmount ix.data = 0) := by
        rintro (h | h | h)
        · exact hshort (Or.inl h)
        · exact hshort (Or.inr h)
        · exact hzero h
      rw [if_neg hzero, if_neg hproto, if_true, if_neg hok]
      by_cases hbuy : ix.data.take 8 = pumpBuyDisc
      · have hsell : ¬ pumpBuyDisc = pumpSellDisc := by decide
        have heq : ¬ pumpBuyDisc = pumpBuyEqDisc := by decide
        rw [if_pos hbuy, hbuy, if_neg hsell, if_neg heq]
        rfl
      · rw [if_neg hbuy]
        by_cases hsell : ix.data.take 8 = pumpSellDisc
        · rw [if_pos hsell, if_pos hsell]
          rfl
        · rw [if_neg hsell, if_neg hsell]
          by_cases heq : ix.data.take 8 = pumpBuyEqDisc
          · rw [if_pos heq, if_pos heq]
            rfl
          · rw [if_neg heq, if_neg heq]
            rfl

/-! ## §3. Where they agree. -/

/-- What the one decoder accepts the other accepts, with the same amount,
minimum and direction, and the other way round. -/
def DecodersAgree (sha256 : List UInt8 → Vector UInt8 32) (keys : List Mint) (ix : CompiledIx)
    (swapForY : UInt8) : Prop :=
  ∀ r : PumpSwapIx, hotReads ix.data swapForY = some r ↔ txReads sha256 keys ix = some r

/-- **The decoders agree exactly** on an instruction too short for either, and
else on one that is no exact-out buy, that has an amount (and an account) if it
is a sell, and none if it is a buy with an exact quote amount. -/
theorem decoders_agree_iff (sha256 : List UInt8 → Vector UInt8 32) (keys : List Mint)
    (ix : CompiledIx) (swapForY : UInt8) :
    DecodersAgree sha256 keys ix swapForY ↔
      ix.data.length < 24 ∨
        (ix.data.take 8 ≠ pumpBuyDisc ∧
          (ix.data.take 8 = pumpSellDisc → ixAmount ix.data ≠ 0 ∧ ix.accounts ≠ []) ∧
          (ix.data.take 8 = pumpBuyEqDisc → ixAmount ix.data = 0 ∨ ix.accounts = [])) := by
  have hsame : DecodersAgree sha256 keys ix swapForY ↔
      hotReads ix.data swapForY = txReads sha256 keys ix := by
    constructor
    · intro h
      exact Option.ext fun r => h r
    · intro h r
      rw [h]
  have hnoacc : ix.accounts.length < 1 ↔ ix.accounts = [] := by
    rw [Nat.lt_one_iff, List.length_eq_zero_iff]
  have hdiscs : pumpBuyDisc ≠ pumpSellDisc ∧ pumpBuyDisc ≠ pumpBuyEqDisc ∧
      pumpSellDisc ≠ pumpBuyEqDisc := by decide
  rw [hsame, hotDecodeTrigger_pump, decodeIx_pump]
  simp only [hnoacc]
  by_cases hlen : ix.data.length < 24
  · rw [if_pos hlen, if_pos (Or.inl hlen)]
    exact ⟨fun _ => Or.inl hlen, fun _ => rfl⟩
  · rw [if_neg hlen]
    simp only [hlen, false_or]
    generalize ix.data.take 8 = disc
    unfold hotDirection txDirection
    by_cases hbuy : disc = pumpBuyDisc
    · -- the exact-out buy: read by the one, refused by the other
      subst hbuy
      rw [if_pos rfl, if_neg hdiscs.1, if_neg hdiscs.2.1, Option.map_none, ite_self]
      constructor
      · intro h
        cases h
      · rintro ⟨hne, -⟩
        exact absurd rfl hne
    · rw [if_neg hbuy]
      by_cases hsell : disc = pumpSellDisc
      · subst hsell
        rw [if_pos rfl, if_pos rfl]
        by_cases hno : ix.accounts = [] ∨ ixAmount ix.data = 0
        · rw [if_pos hno]
          constructor
          · intro h
            cases h
          · rintro ⟨-, hok, -⟩
            obtain ⟨hamt, hacc⟩ := hok rfl
            exact (hno.elim hacc hamt).elim
        · rw [if_neg hno]
          obtain ⟨hacc, hamt⟩ := not_or.mp hno
          exact ⟨fun _ => ⟨hbuy, fun _ => ⟨hamt, hacc⟩, fun h => absurd h hdiscs.2.2⟩,
            fun _ => rfl⟩
      · rw [if_neg hsell, if_neg hsell, Option.map_none]
        by_cases heq : disc = pumpBuyEqDisc
        · -- the buy with an exact quote amount: the hot path does not know it
          rw [if_pos heq]
          by_cases hno : ix.accounts = [] ∨ ixAmount ix.data = 0
          · rw [if_pos hno]
            exact ⟨fun _ => ⟨hbuy, fun h => absurd h hsell, fun _ => hno.symm⟩, fun _ => rfl⟩
          · rw [if_neg hno]
            constructor
            · intro h
              cases h
            · rintro ⟨-, -, hok⟩
              exact absurd (hok heq).symm hno
        · rw [if_neg heq, Option.map_none, ite_self]
          exact ⟨fun _ => ⟨hbuy, fun h => absurd h hsell, fun h => absurd h heq⟩, fun _ => rfl⟩

/-- A buy of exactly 5 base for at most 9 quote. -/
def demoBuy : CompiledIx :=
  ⟨2, [1], pumpBuyDisc ++ u64le 5 ++ u64le 9⟩

/-- **An exact-out buy of 5 base is read by the hot path as a swap of 5 quote**;
the transaction decoder refuses it. -/
theorem decoders_agree_wrong :
    hotReads demoBuy.data 0 = some ⟨5, 9, pumpDirQuoteToBase⟩ ∧
      ∀ sha256 keys, txReads sha256 keys demoBuy = none ∧
        ¬ DecodersAgree sha256 keys demoBuy 0 := by
  have hhot : hotReads demoBuy.data 0 = some ⟨5, 9, pumpDirQuoteToBase⟩ := by decide +kernel
  refine ⟨hhot, fun sha256 keys => ?_⟩
  have htx : txReads sha256 keys demoBuy = none := by
    rw [decodeIx_pump, show txDirection (demoBuy.data.take 8) = none by decide +kernel,
      Option.map_none, ite_self]
  refine ⟨htx, fun h => ?_⟩
  have hread := (h _).mp hhot
  rw [htx] at hread
  cases hread

end ShredArb.Trigger
