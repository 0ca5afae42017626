/-
  ShredArb.Shyft.Shadow — the comparison of a predicted pool state with the
  published one (`arb-state/shyft/shadow.py`, `compare_exact`).

  Both states are dictionaries whose entries may be missing.  A field is
  compared when the prediction has it (for a reserve or the time of the last
  update: when both have it).  Two fields of the published state, the active
  id and the index reference, are read as `get(…) or -10**9`, and in Python a
  zero is as good as missing there: the comparison then sees −10⁹ where the pool
  published 0.

  Conventions:
    * an entry that is missing and one that is `None` are both `none`,
    * a prior state that is `None` or empty is `none`,
    * `staged` is never read and left out.

  Main results:
    * `compareExact_nil_iff` — exactly when no difference is returned.
    * `compareExact_sound_iff` — exactly when the comparison is right.
    * `compareExact_zero_wrong` — a pool at active id 0 that was predicted to
      the bit is reported as a kernel bug.
-/
import ShredArb.Lib.Dict
import Mathlib.Data.List.Dedup

namespace ShredArb.Shadow

open ShredArb.Dict

/-! ## §1. The states. -/

/-- The protocols `compare_exact` tells apart: every kind but `"pump"` is
compared as a DLMM pool. -/
inductive Kind
  | pump
  | dlmm
  deriving DecidableEq, Repr

/-- An entry of `touched`. -/
structure TouchedBin where
  id : Int
  x : Int
  y : Int
  deriving DecidableEq, Repr

/-- A key of `bins`: the id itself, or its decimal text. -/
inductive BinKey
  | num (id : Int)
  | text (s : String)
  deriving DecidableEq, Repr

/-- The entries of a state that `compare_exact` reads. -/
structure PoolRow where
  baseVaultAmount : Option Int := none
  reserveBase : Option Int := none
  quoteVaultAmount : Option Int := none
  reserveQuote : Option Int := none
  virtualQuoteReserves : Option Int := none
  virtualQuote : Option Int := none
  activeAfter : Option Int := none
  activeId : Option Int := none
  volAcc : Option Int := none
  volRef : Option Int := none
  idxRef : Option Int := none
  lastUpd : Option Int := none
  touched : List TouchedBin := []
  bins : Entries BinKey (List Int) := []
  deriving DecidableEq, Repr

/-- The names that go into the list of differences. -/
inductive FieldKey
  | reserves
  | virtualQuote
  | activeId
  | volatility
  | feeState
  | binLiquidity
  deriving DecidableEq, Repr

/-- The verdicts of `compare_exact`. -/
inductive Bucket
  /-- `"exact"` -/
  | bitExact
  | missingTransactionLocalWrite
  | kernelBug
  | binTraversalAccountCoverage
  | feeVolatilityTiming
  deriving DecidableEq, Repr

/-! ## §2. Reading the states. -/

/-- `_amt` over its two keys: the first that is not `None`. -/
def amt (a b : Option Int) : Option Int := a.or b

def PoolRow.base (r : PoolRow) : Option Int := amt r.baseVaultAmount r.reserveBase
def PoolRow.quote (r : PoolRow) : Option Int := amt r.quoteVaultAmount r.reserveQuote
def PoolRow.virtual_ (r : PoolRow) : Option Int := amt r.virtualQuoteReserves r.virtualQuote

/-- `want_active`. -/
def PoolRow.wantActive (r : PoolRow) : Option Int := r.activeAfter.or r.activeId

/-- What stands in for a published id that is not there. -/
abbrev noId : Int := -1000000000

/-- `int(v or -10**9)`: a zero is falsy too. -/
def orNoId : Option Int → Int
  | some v => if v = 0 then noId else v
  | none => noId

/-- `int(v if v is not None else -1)`. -/
def orMinusOne (v : Option Int) : Int := v.getD (-1)

/-- `bins.get(bid)`, and with the id as text when that is `None`. -/
def PoolRow.bin (r : PoolRow) (id : Int) : Option (List Int) :=
  (get r.bins (.num id)).or (get r.bins (.text (toString id)))

/-! ## §3. The comparison. -/

/-- A field of the prediction against the value read for the published one. -/
def unequal (want : Option Int) (seen : Int) : Bool := want.any fun w => w != seen

/-- A field both states must have to be compared. -/
def bothUnequal (want pub : Option Int) : Bool := want.any fun w => pub.any fun u => w != u

def noteIf (b : Bool) (f : FieldKey) : List FieldKey := if b then [f] else []

/-- The list of differences of a Pump pool. -/
def pumpFields (sPrime sPub : PoolRow) : List FieldKey :=
  noteIf (bothUnequal sPrime.base sPub.base) .reserves
    ++ noteIf (bothUnequal sPrime.quote sPub.quote) .reserves
    ++ noteIf (bothUnequal sPrime.virtual_ sPub.virtual_) .virtualQuote

/-- The list of differences of a DLMM pool, before repetitions are dropped. -/
def dlmmFields (sPrime sPub : PoolRow) : List FieldKey :=
  noteIf (unequal sPrime.wantActive (orNoId sPub.activeId)) .activeId
    ++ noteIf (unequal sPrime.volAcc (orMinusOne sPub.volAcc)) .volatility
    ++ noteIf (unequal sPrime.volRef (orMinusOne sPub.volRef)) .volatility
    ++ noteIf (unequal sPrime.idxRef (orNoId sPub.idxRef)) .feeState
    ++ noteIf (bothUnequal sPrime.lastUpd sPub.lastUpd) .feeState
    ++ sPrime.touched.flatMap fun b => noteIf (sPub.bin b.id != some [b.x, b.y]) .binLiquidity

/-- `compare_exact`. -/
def compareExact (kind : Kind) (sPrime sPub : PoolRow) (sBefore : Option PoolRow) :
    List FieldKey × Bucket :=
  match kind with
  | .pump =>
      let fields := pumpFields sPrime sPub
      if fields = [] then ([], .bitExact)
      else if sBefore.any fun b => b.base == sPub.base && b.quote == sPub.quote then
        (fields, .missingTransactionLocalWrite)
      else (fields, .kernelBug)
  | .dlmm =>
      let fields := dlmmFields sPrime sPub
      let missingBin := sPrime.touched.any fun b => (sPub.bin b.id).isNone
      if fields = [] then ([], .bitExact)
      else if missingBin then (fields.eraseDups, .binTraversalAccountCoverage)
      else if fields.all fun f => f == .volatility || f == .feeState then
        (fields, .feeVolatilityTiming)
      else if (sBefore.any fun b => b.activeId == sPub.activeId)
          && (fields.contains .activeId || fields.contains .binLiquidity) then
        (fields.eraseDups, .missingTransactionLocalWrite)
      else (fields.eraseDups, .kernelBug)

/-! ## §4. The fields that are compared. -/

/-- A field `compare_exact` looks at. -/
inductive Compared
  | base
  | quote
  | virtual_
  | active
  | volAcc
  | volRef
  | idxRef
  | lastUpd
  | bin (b : TouchedBin)

/-- The two states differ in a field that is compared. -/
def Differs (p q : PoolRow) : Kind → Compared → Prop
  | .pump, .base => ∃ v u, p.base = some v ∧ q.base = some u ∧ v ≠ u
  | .pump, .quote => ∃ v u, p.quote = some v ∧ q.quote = some u ∧ v ≠ u
  | .pump, .virtual_ => ∃ v u, p.virtual_ = some v ∧ q.virtual_ = some u ∧ v ≠ u
  | .dlmm, .active => ∃ v, p.wantActive = some v ∧ q.activeId ≠ some v
  | .dlmm, .volAcc => ∃ v, p.volAcc = some v ∧ q.volAcc ≠ some v
  | .dlmm, .volRef => ∃ v, p.volRef = some v ∧ q.volRef ≠ some v
  | .dlmm, .idxRef => ∃ v, p.idxRef = some v ∧ q.idxRef ≠ some v
  | .dlmm, .lastUpd => ∃ v u, p.lastUpd = some v ∧ q.lastUpd = some u ∧ v ≠ u
  | .dlmm, .bin b => b ∈ p.touched ∧ q.bin b.id ≠ some [b.x, b.y]
  | _, _ => False

/-- The two states agree on every field that is compared. -/
def Agree (kind : Kind) (p q : PoolRow) : Prop := ∀ c, ¬ Differs p q kind c

/-- **A zero on both sides**, of a field where the published zero is taken for
missing. -/
def ZeroBoth (p q : PoolRow) : Kind → Compared → Prop
  | .dlmm, .active => p.wantActive = some 0 ∧ q.activeId = some 0
  | .dlmm, .idxRef => p.idxRef = some 0 ∧ q.idxRef = some 0
  | _, _ => False

/-- The prediction is the very value that stands in for the published one: −10⁹
against an id that is missing or 0, −1 against a volatility that is missing. -/
def StandsIn (p q : PoolRow) : Kind → Compared → Prop
  | .dlmm, .active => p.wantActive = some noId ∧ (q.activeId = none ∨ q.activeId = some 0)
  | .dlmm, .idxRef => p.idxRef = some noId ∧ (q.idxRef = none ∨ q.idxRef = some 0)
  | .dlmm, .volAcc => p.volAcc = some (-1) ∧ q.volAcc = none
  | .dlmm, .volRef => p.volRef = some (-1) ∧ q.volRef = none
  | _, _ => False

/-- What the comparison makes of a field. -/
def Noted (p q : PoolRow) (kind : Kind) (c : Compared) : Prop :=
  (Differs p q kind c ∧ ¬ StandsIn p q kind c) ∨ ZeroBoth p q kind c

/-! ## §5. When a field is noted. -/

theorem noteIf_eq_nil {b : Bool} {f : FieldKey} : noteIf b f = [] ↔ b = false := by
  cases b with
  | true => simp [noteIf]
  | false => simp [noteIf]

theorem bothUnequal_iff {want pub : Option Int} :
    bothUnequal want pub = true ↔ ∃ v u, want = some v ∧ pub = some u ∧ v ≠ u := by
  cases want with
  | none => simp [bothUnequal]
  | some v =>
    cases pub with
    | none => simp [bothUnequal]
    | some u => simp [bothUnequal]

/-- An id is noted when it differs other than by the stand-in, or is 0 on both
sides. -/
theorem unequal_orNoId_iff {want pub : Option Int} :
    unequal want (orNoId pub) = true ↔
      ((∃ v, want = some v ∧ pub ≠ some v) ∧
          ¬ (want = some noId ∧ (pub = none ∨ pub = some 0))) ∨
        (want = some 0 ∧ pub = some 0) := by
  cases want with
  | none => simp [unequal]
  | some v =>
    cases pub with
    | none => simp [unequal, orNoId]
    | some u =>
      by_cases hu : u = 0
      · subst hu
        by_cases hv : v = 0
        · subst hv
          simp [unequal, orNoId, noId]
        · have hv' : ¬ (0 : Int) = v := fun h => hv h.symm
          simp [unequal, orNoId, hv, hv']
      · simp only [unequal, orNoId, hu, if_false, Option.any_some, bne_iff_ne, ne_eq,
          Option.some.injEq, exists_eq_left', reduceCtorEq, or_self, and_false,
          not_false_eq_true, and_true, or_false]
        exact ⟨fun h h' => h h'.symm, fun h h' => h h'.symm⟩

theorem unequal_orMinusOne_iff {want pub : Option Int} :
    unequal want (orMinusOne pub) = true ↔
      (∃ v, want = some v ∧ pub ≠ some v) ∧ ¬ (want = some (-1) ∧ pub = none) := by
  cases want with
  | none => simp [unequal]
  | some v =>
    cases pub with
    | none => simp [unequal, orMinusOne]
    | some u =>
      simp only [unequal, orMinusOne, Option.getD_some, Option.any_some, bne_iff_ne, ne_eq,
        Option.some.injEq, exists_eq_left', reduceCtorEq, and_false, not_false_eq_true, and_true]
      exact ⟨fun h h' => h h'.symm, fun h h' => h h'.symm⟩

/-! ## §6. When the comparison is right. -/

/-- The lists of differences, by protocol. -/
def fieldsOf (kind : Kind) (p q : PoolRow) : List FieldKey :=
  match kind with
  | .pump => pumpFields p q
  | .dlmm => dlmmFields p q

/-- **No difference is listed exactly when no field is noted.** -/
theorem fieldsOf_eq_nil_iff (kind : Kind) (p q : PoolRow) :
    fieldsOf kind p q = [] ↔ ∀ c, ¬ Noted p q kind c := by
  cases kind with
  | pump =>
    show pumpFields p q = [] ↔ _
    unfold pumpFields
    simp only [List.append_eq_nil_iff, noteIf_eq_nil, ← Bool.not_eq_true, bothUnequal_iff]
    constructor
    · rintro ⟨⟨hbase, hquote⟩, hvirt⟩ c hc
      rcases hc with ⟨hc, -⟩ | hc
      · cases c with
        | base => exact hbase hc
        | quote => exact hquote hc
        | virtual_ => exact hvirt hc
        | active => exact hc
        | volAcc => exact hc
        | volRef => exact hc
        | idxRef => exact hc
        | lastUpd => exact hc
        | bin b => exact hc
      · cases c <;> exact hc
    · intro h
      exact ⟨⟨fun hc => h .base (Or.inl ⟨hc, id⟩), fun hc => h .quote (Or.inl ⟨hc, id⟩)⟩,
        fun hc => h .virtual_ (Or.inl ⟨hc, id⟩)⟩
  | dlmm =>
    show dlmmFields p q = [] ↔ _
    unfold dlmmFields
    simp only [List.append_eq_nil_iff, noteIf_eq_nil, ← Bool.not_eq_true, bothUnequal_iff,
      unequal_orNoId_iff, unequal_orMinusOne_iff, List.flatMap_eq_nil_iff, bne_iff_ne]
    constructor
    · rintro ⟨⟨⟨⟨⟨hactive, hacc⟩, href⟩, hidx⟩, hupd⟩, hbins⟩ c hc
      cases c with
      | base => exact hc.elim And.left id
      | quote => exact hc.elim And.left id
      | virtual_ => exact hc.elim And.left id
      | active => exact hactive hc
      | volAcc => exact hacc (hc.elim id False.elim)
      | volRef => exact href (hc.elim id False.elim)
      | idxRef => exact hidx hc
      | lastUpd => exact hupd (hc.elim And.left False.elim)
      | bin b =>
        obtain ⟨⟨hmem, hne⟩, -⟩ | hc := hc
        · exact hbins b hmem hne
        · exact hc
    · intro h
      refine ⟨⟨⟨⟨⟨?_, ?_⟩, ?_⟩, ?_⟩, ?_⟩, ?_⟩
      · exact fun hc => h .active hc
      · exact fun hc => h .volAcc (Or.inl hc)
      · exact fun hc => h .volRef (Or.inl hc)
      · exact fun hc => h .idxRef hc
      · exact fun hc => h .lastUpd (Or.inl ⟨hc, id⟩)
      · exact fun b hmem hne => h (.bin b) (Or.inl ⟨⟨hmem, hne⟩, id⟩)

theorem eraseDups_ne_nil {l : List FieldKey} (h : l ≠ []) : l.eraseDups ≠ [] := by
  cases l with
  | nil => exact absurd rfl h
  | cons a l => simp [List.eraseDups_cons]

/-- The returned list is empty exactly when the list of differences is, and then
the verdict is exact. -/
theorem compareExact_fields (kind : Kind) (p q : PoolRow) (sBefore : Option PoolRow) :
    (fieldsOf kind p q = [] → compareExact kind p q sBefore = ([], .bitExact)) ∧
      (fieldsOf kind p q ≠ [] → (compareExact kind p q sBefore).1 ≠ []) := by
  cases kind with
  | pump =>
    show (pumpFields p q = [] → _) ∧ (pumpFields p q ≠ [] → _)
    unfold compareExact
    simp only
    constructor
    · intro h
      rw [if_pos h]
    · intro h
      rw [if_neg h]
      split
      next => exact h
      next => exact h
  | dlmm =>
    show (dlmmFields p q = [] → _) ∧ (dlmmFields p q ≠ [] → _)
    unfold compareExact
    simp only
    constructor
    · intro h
      rw [if_pos h]
    · intro h
      have hdup := eraseDups_ne_nil h
      rw [if_neg h]
      split
      next => exact hdup
      next =>
        split
        next => exact h
        next =>
          split
          next => exact hdup
          next => exact hdup

/-- **When no difference is returned.** -/
theorem compareExact_nil_iff (kind : Kind) (p q : PoolRow) (sBefore : Option PoolRow) :
    (compareExact kind p q sBefore).1 = [] ↔ ∀ c, ¬ Noted p q kind c := by
  obtain ⟨hnil, hcons⟩ := compareExact_fields kind p q sBefore
  rw [← fieldsOf_eq_nil_iff]
  constructor
  · intro h
    by_contra hne
    exact hcons hne h
  · intro h
    rw [hnil h]

/-- The two halves of a right comparison: states that agree are exact, and a
difference is reported. -/
def Sound (kind : Kind) (p q : PoolRow) (sBefore : Option PoolRow) : Prop :=
  (Agree kind p q → compareExact kind p q sBefore = ([], .bitExact)) ∧
    ((∃ c, Differs p q kind c) → (compareExact kind p q sBefore).1 ≠ [])

/-- **The comparison is right exactly when** states that agree have no zero in a
field where a published zero is taken for missing, and states that differ have
such a zero or differ in some field other than by its stand-in. -/
theorem compareExact_sound_iff (kind : Kind) (p q : PoolRow) (sBefore : Option PoolRow) :
    Sound kind p q sBefore ↔
      (Agree kind p q → ∀ c, ¬ ZeroBoth p q kind c) ∧
        ((∃ c, Differs p q kind c) →
          (∃ c, Differs p q kind c ∧ ¬ StandsIn p q kind c) ∨ ∃ c, ZeroBoth p q kind c) := by
  have hiff := compareExact_nil_iff kind p q sBefore
  obtain ⟨hnil, -⟩ := compareExact_fields kind p q sBefore
  constructor
  · rintro ⟨hexact, hreport⟩
    constructor
    · intro hagree c hzero
      have hfst : (compareExact kind p q sBefore).1 = [] := by rw [hexact hagree]
      exact hiff.mp hfst c (Or.inr hzero)
    · intro hdiff
      have hnoted : ∃ c, Noted p q kind c := by
        by_contra hnone
        exact hreport hdiff (hiff.mpr fun c hc => hnone ⟨c, hc⟩)
      obtain ⟨c, hc | hc⟩ := hnoted
      · exact Or.inl ⟨c, hc⟩
      · exact Or.inr ⟨c, hc⟩
  · rintro ⟨hzero, hdiff⟩
    constructor
    · intro hagree
      refine hnil ((fieldsOf_eq_nil_iff kind p q).mpr ?_)
      rintro c (⟨hc, -⟩ | hc)
      · exact hagree c hc
      · exact hzero hagree c hc
    · intro hex hfst
      rcases hdiff hex with ⟨c, hc⟩ | ⟨c, hc⟩
      · exact hiff.mp hfst c (Or.inl hc)
      · exact hiff.mp hfst c (Or.inr hc)

/-- A prediction at active id 0, and the pool published just so. -/
def demoAtZero : PoolRow := { activeId := some 0, volAcc := some 0, idxRef := some 0 }

/-- **A pool at active id 0 that was predicted to the bit is reported as a
kernel bug.** -/
theorem compareExact_zero_wrong :
    compareExact .dlmm demoAtZero demoAtZero none = ([.activeId, .feeState], .kernelBug) ∧
      ¬ ∀ kind p q sBefore, Sound kind p q sBefore := by
  have hrun : compareExact .dlmm demoAtZero demoAtZero none
      = ([.activeId, .feeState], .kernelBug) := by decide
  refine ⟨hrun, fun h => ?_⟩
  have hagree : Agree .dlmm demoAtZero demoAtZero := by
    intro c hc
    cases c with
    | active =>
      obtain ⟨v, hv, hne⟩ := hc
      exact hne hv
    | volAcc =>
      obtain ⟨v, hv, hne⟩ := hc
      exact hne hv
    | idxRef =>
      obtain ⟨v, hv, hne⟩ := hc
      exact hne hv
    | volRef =>
      obtain ⟨v, hv, -⟩ := hc
      cases hv
    | lastUpd =>
      obtain ⟨v, u, hv, -⟩ := hc
      cases hv
    | bin b => exact absurd hc.1 List.not_mem_nil
    | base => exact hc
    | quote => exact hc
    | virtual_ => exact hc
  have hexact := (h .dlmm demoAtZero demoAtZero none).1 hagree
  rw [hrun] at hexact
  cases hexact

end ShredArb.Shadow
