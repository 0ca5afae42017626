/-
  ShredArb.Hot.Sizing — what the ladder and its refinement end with.

  Both sizing loops are one best-so-far over the candidates that quote with a
  profit.  A sized route (or pair) re-quotes to what it records, and gains at
  least what any size of the ladder gains; there is one exactly when some
  ladder size gains.

  Main results:
    * `sizeRoute_eq_none`, `sizeRoute_spec` — for a compiled route,
    * `cycleSize_eq_none`, `cycleSize_spec` — for the DLMM/Pump pair.
-/
import ShredArb.Hot.Cycle
import Mathlib.Tactic.Linarith

namespace ShredArb.Hot

open ShredArb.Dlmm ShredArb.Pump ShredArb.Best

/-! ## §1. The two comparisons. -/

theorem better_eq_true {c b : Opportunity} : better c b = true ↔
    b.grossProfit.toNat < c.grossProfit.toNat ∨
      (c.grossProfit.toNat = b.grossProfit.toNat ∧ c.amountIn.toNat < b.amountIn.toNat) := by
  unfold better
  rw [Bool.not_eq_true', Bool.or_eq_false_iff, decide_eq_false_iff_not, Bool.and_eq_false_iff,
    beq_eq_false_iff_ne, decide_eq_false_iff_not, UInt64.lt_iff_toNat_lt,
    ge_iff_le, UInt64.le_iff_toNat_le, ne_eq, ← UInt64.toNat_inj]
  omega

theorem better_eq_false {c b : Opportunity} : better c b = false ↔
    c.grossProfit.toNat < b.grossProfit.toNat ∨
      (c.grossProfit.toNat = b.grossProfit.toNat ∧ b.amountIn.toNat ≤ c.amountIn.toNat) := by
  rw [← Bool.not_eq_true, better_eq_true]
  omega

theorem better_trans {a b c : Opportunity} (h : better a b = true) (h' : better b c = true) :
    better a c = true := by
  rw [better_eq_true] at h h' ⊢
  omega

theorem better_of_not_better {a b c : Opportunity} (h : better a b = true)
    (h' : better c b = false) : better a c = true := by
  rw [better_eq_true] at h ⊢
  rw [better_eq_false] at h'
  omega

/-- The gross of a sized route. -/
def Sized.gross (s : Sized) : Nat := (s.bestOut - s.bestIn).toNat

theorem Sized.gross_eq {s : Sized} (h : s.bestIn < s.bestOut) :
    s.gross = s.bestOut.toNat - s.bestIn.toNat :=
  UInt64.toNat_sub_of_le _ _ (UInt64.le_of_lt h)

theorem moreGross_eq_true {c b : Sized} : moreGross c b = true ↔ b.gross < c.gross := by
  unfold moreGross Sized.gross
  rw [decide_eq_true_eq, gt_iff_lt, UInt64.lt_iff_toNat_lt]

/-! ## §2. A compiled route. -/

/-- A size that quotes with a profit. -/
def sizeCand (quote : UInt64 → Option UInt64) (size : UInt64) : Option Sized :=
  (quote size).bind fun aout => if aout > size then some ⟨size, aout⟩ else none

theorem sizeCand_eq_some {quote : UInt64 → Option UInt64} {size : UInt64} {s : Sized} :
    sizeCand quote size = some s ↔
      quote size = some s.bestOut ∧ size = s.bestIn ∧ s.bestIn < s.bestOut := by
  rw [sizeCand, Option.bind_eq_some_iff]
  constructor
  · rintro ⟨a, ha, hs⟩
    split at hs
    · rename_i hgt
      rw [← Option.some.inj hs]
      exact ⟨ha, rfl, hgt⟩
    · exact absurd hs (by simp)
  · rintro ⟨hq, rfl, hlt⟩
    exact ⟨s.bestOut, hq, if_pos hlt⟩

theorem ladderTurn_eq (quote : UInt64 → Option UInt64) (best : Option Sized) (size : UInt64) :
    ladderTurn quote best size
      = match sizeCand quote size with
        | some c => keepBest moreGross best c
        | none => best := by
  unfold ladderTurn sizeCand
  cases quote size with
  | none => rfl
  | some a =>
    rw [Option.bind_some]
    by_cases h : a > size
    · simp only [if_pos h]
    · simp only [if_neg h]

theorem foldl_ladderTurn (quote : UInt64 → Option UInt64) (sizes : List UInt64)
    (best : Option Sized) : sizes.foldl (ladderTurn quote) best
      = bestOf moreGross best (sizes.filterMap (sizeCand quote)) := by
  rw [bestOf, List.foldl_filterMap]
  congr 1
  funext b s
  rw [ladderTurn_eq]
  cases sizeCand quote s <;> rfl

/-- What a sized route records is what it quotes to. -/
def Requotes (quote : UInt64 → Option UInt64) (s : Sized) : Prop :=
  quote s.bestIn = some s.bestOut ∧ s.bestIn < s.bestOut

theorem requotes_of_sizeCand {quote : UInt64 → Option UInt64} {size : UInt64} {s : Sized}
    (h : sizeCand quote size = some s) : Requotes quote s := by
  obtain ⟨hq, rfl, hlt⟩ := sizeCand_eq_some.mp h
  exact ⟨hq, hlt⟩

/-- One refinement turn keeps the record honest and never loses gross. -/
theorem refineTurn_spec {quote : UInt64 → Option UInt64} {best : Sized} (ain : UInt64)
    (h : Requotes quote best) :
    Requotes quote (refineTurn quote best ain) ∧
      best.gross ≤ (refineTurn quote best ain).gross := by
  unfold refineTurn
  split
  · exact ⟨h, Nat.le_refl _⟩
  · cases hq : quote ain with
    | none => exact ⟨h, Nat.le_refl _⟩
    | some aout =>
      simp only
      split
      · rename_i hgt
        cases hm : moreGross ⟨ain, aout⟩ best with
        | true =>
          rw [keepBest, hm, if_pos rfl, Option.getD_some]
          exact ⟨⟨hq, hgt⟩, Nat.le_of_lt (moreGross_eq_true.mp hm)⟩
        | false =>
          rw [keepBest, hm, if_neg (by simp), Option.getD_some]
          exact ⟨h, Nat.le_refl _⟩
      · exact ⟨h, Nat.le_refl _⟩

theorem foldl_refineTurn_spec {quote : UInt64 → Option UInt64} (sizes : List UInt64) :
    ∀ {best : Sized}, Requotes quote best →
      Requotes quote (sizes.foldl (refineTurn quote) best) ∧
        best.gross ≤ (sizes.foldl (refineTurn quote) best).gross := by
  exact foldl_improves Sized.gross (fun _ a h => refineTurn_spec a h) sizes

/-- **A route is sized exactly when some ladder size gains.** -/
theorem sizeRoute_eq_none {quote : UInt64 → Option UInt64} :
    sizeRoute quote = none ↔ ∀ size ∈ sizeLadder, sizeCand quote size = none := by
  rw [sizeRoute, Option.map_eq_none_iff, foldl_ladderTurn, bestOf_eq_none,
    List.filterMap_eq_nil_iff]
  exact ⟨fun h => h.2, fun h => ⟨rfl, h⟩⟩

/-- **And then re-quotes, and gains at least what any ladder size gains.** -/
theorem sizeRoute_spec {quote : UInt64 → Option UInt64} {s : Sized}
    (h : sizeRoute quote = some s) :
    Requotes quote s ∧ ∀ size ∈ sizeLadder, ∀ c, sizeCand quote size = some c →
      c.gross ≤ s.gross := by
  unfold sizeRoute at h
  obtain ⟨b, hb, hs⟩ := Option.map_eq_some_iff.mp h
  rw [foldl_ladderTurn] at hb
  have hreq : ∀ c ∈ sizeLadder.filterMap (sizeCand quote), Requotes quote c := by
    intro c hc
    obtain ⟨size, -, hsize⟩ := List.mem_filterMap.mp hc
    exact requotes_of_sizeCand hsize
  have hbreq : Requotes quote b := by
    rcases bestOf_mem hb with hx | hx
    · exact absurd hx (by simp)
    · exact hreq b hx
  have hmax := (gain_le_bestOf Sized.gross
    (fun hc => Nat.le_of_lt (moreGross_eq_true.mp hc))
    (fun hc => Nat.not_lt.mp (fun hlt => by
      rw [moreGross_eq_true.mpr hlt] at hc
      exact absurd hc (by simp))) hb).2
  have hfinal : Requotes quote s ∧ b.gross ≤ s.gross := by
    rw [← hs]
    simp only
    split
    · exact foldl_refineTurn_spec _ hbreq
    · exact ⟨hbreq, Nat.le_refl _⟩
  refine ⟨hfinal.1, ?_⟩
  intro size hsize c hc
  exact Nat.le_trans (hmax c (List.mem_filterMap.mpr ⟨size, hsize, hc⟩)) hfinal.2

/-! ## §3. The pair. -/

/-- A size and direction of the pair that quotes with a profit. -/
def pairCand (dlmm : DlmmState) (pump : PumpState) (s : UInt8 × UInt64) : Option Opportunity :=
  (cycleQuote dlmm pump s.2 s.1).bind fun q =>
    if q.grossProfit ≤ 0 then none
    else some ⟨routeDlmmPump, q.amountIn, q.amountOut, UInt64.ofNat q.grossProfit.toNat,
      q.direction⟩

theorem cycleQuote_spec {dlmm : DlmmState} {pump : PumpState} {ain : UInt64} {dir : UInt8}
    {q : CycleQuote} (h : cycleQuote dlmm pump ain dir = some q) :
    q.amountIn = ain ∧ q.direction = dir ∧ q.amountOut.toNat ≤ int64Max ∧
      q.grossProfit = (q.amountOut.toNat : Int) - ain.toNat := by
  unfold cycleQuote at h
  split at h
  · exact absurd h (by simp)
  · obtain ⟨final, -, h⟩ := Option.bind_eq_some_iff.mp h
    split at h
    · exact absurd h (by simp)
    · rename_i hle
      rw [← Option.some.inj h]
      exact ⟨rfl, rfl, Nat.not_lt.mp hle, rfl⟩

/-- What an opportunity of the pair records is what the cycle quotes to. -/
structure PairRequotes (dlmm : DlmmState) (pump : PumpState) (o : Opportunity) : Prop where
  quote : ∃ q, cycleQuote dlmm pump o.amountIn o.direction = some q ∧ q.amountOut = o.amountOut
  lt : o.amountIn < o.amountOut
  gross : o.grossProfit = o.amountOut - o.amountIn
  id_eq : o.routeId = routeDlmmPump

theorem pairCand_eq_some {dlmm : DlmmState} {pump : PumpState} {s : UInt8 × UInt64}
    {o : Opportunity} (h : pairCand dlmm pump s = some o) :
    PairRequotes dlmm pump o ∧ o.direction = s.1 ∧ o.amountIn = s.2 ∧
      ∃ q, cycleQuote dlmm pump s.2 s.1 = some q ∧ (o.grossProfit.toNat : Int) = q.grossProfit := by
  obtain ⟨q, hq, ho⟩ := Option.bind_eq_some_iff.mp h
  obtain ⟨hin, hdir, hmax, hgross⟩ := cycleQuote_spec hq
  split at ho
  · exact absurd ho (by simp)
  · rename_i hpos
    rw [← Option.some.inj ho]
    have hlt : s.2.toNat < q.amountOut.toNat := by omega
    have hnat : (UInt64.ofNat q.grossProfit.toNat).toNat = q.grossProfit.toNat := by
      refine UInt64.toNat_ofNat_of_lt' ?_
      have := UInt64.toNat_lt q.amountOut
      show q.grossProfit.toNat < 2 ^ 64
      omega
    refine ⟨⟨⟨q, ?_, rfl⟩, ?_, ?_, rfl⟩, hdir, hin, q, hq, ?_⟩
    · rw [hin, hdir]
      exact hq
    · rw [UInt64.lt_iff_toNat_lt]
      simp only [hin]
      exact hlt
    · rw [← UInt64.toNat_inj]
      simp only [hin]
      rw [hnat, UInt64.toNat_sub_of_le _ _ (UInt64.le_iff_toNat_le.mpr (Nat.le_of_lt hlt))]
      omega
    · simp only [hnat]
      omega

theorem evalSize_eq (dlmm : DlmmState) (pump : PumpState) (best : Option Opportunity)
    (s : UInt8 × UInt64) : evalSize dlmm pump best s
      = match pairCand dlmm pump s with
        | some c => keepBest better best c
        | none => best := by
  unfold evalSize pairCand considerCycle
  cases cycleQuote dlmm pump s.2 s.1 with
  | none => rfl
  | some q =>
    rw [Option.bind_some]
    by_cases h : q.grossProfit ≤ 0
    · simp only [if_pos h]
    · simp only [if_neg h]

theorem foldl_evalSize (dlmm : DlmmState) (pump : PumpState) (l : List (UInt8 × UInt64))
    (best : Option Opportunity) : l.foldl (evalSize dlmm pump) best
      = bestOf better best (l.filterMap (pairCand dlmm pump)) := by
  rw [bestOf, List.foldl_filterMap]
  congr 1
  funext b s
  rw [evalSize_eq]
  cases pairCand dlmm pump s <;> rfl

theorem gross_le_of_better {c b : Opportunity} (h : better c b = true) :
    b.grossProfit.toNat ≤ c.grossProfit.toNat := by
  rw [better_eq_true] at h
  omega

theorem gross_le_of_not_better {c b : Opportunity} (h : better c b = false) :
    c.grossProfit.toNat ≤ b.grossProfit.toNat := by
  rw [better_eq_false] at h
  omega

theorem refineCycle_spec {dlmm : DlmmState} {pump : PumpState} {best : Opportunity} (ain : UInt64)
    (h : PairRequotes dlmm pump best) :
    PairRequotes dlmm pump (refineCycle dlmm pump best ain) ∧
      best.grossProfit.toNat ≤ (refineCycle dlmm pump best ain).grossProfit.toNat := by
  unfold refineCycle
  split
  · exact ⟨h, Nat.le_refl _⟩
  · rw [evalSize_eq]
    cases hc : pairCand dlmm pump (best.direction, ain) with
    | none => exact ⟨h, Nat.le_refl _⟩
    | some c =>
      simp only
      cases hb : better c best with
      | true =>
        rw [keepBest, hb, if_pos rfl, Option.getD_some]
        exact ⟨(pairCand_eq_some hc).1, gross_le_of_better hb⟩
      | false =>
        rw [keepBest, hb, if_neg (by simp), Option.getD_some]
        exact ⟨h, Nat.le_refl _⟩

theorem foldl_refineCycle_spec {dlmm : DlmmState} {pump : PumpState} (sizes : List UInt64) :
    ∀ {best : Opportunity}, PairRequotes dlmm pump best →
      PairRequotes dlmm pump (sizes.foldl (refineCycle dlmm pump) best) ∧
        best.grossProfit.toNat
          ≤ (sizes.foldl (refineCycle dlmm pump) best).grossProfit.toNat := by
  exact foldl_improves (fun o : Opportunity => o.grossProfit.toNat)
    (fun _ a h => refineCycle_spec a h) sizes

/-- **The pair is sized exactly when some ladder size gains in a direction.** -/
theorem cycleSize_eq_none {dlmm : DlmmState} {pump : PumpState} :
    cycleSize dlmm pump = none ↔ ∀ s ∈ ladderPairs, pairCand dlmm pump s = none := by
  rw [cycleSize, Option.map_eq_none_iff, foldl_evalSize, bestOf_eq_none,
    List.filterMap_eq_nil_iff]
  exact ⟨fun h => h.2, fun h => ⟨rfl, h⟩⟩

/-- **And then re-quotes, and gains at least what the ladder gains.** -/
theorem cycleSize_spec {dlmm : DlmmState} {pump : PumpState} {o : Opportunity}
    (h : cycleSize dlmm pump = some o) :
    PairRequotes dlmm pump o ∧ ∀ s ∈ ladderPairs, ∀ c, pairCand dlmm pump s = some c →
      c.grossProfit.toNat ≤ o.grossProfit.toNat := by
  unfold cycleSize at h
  obtain ⟨b, hb, ho⟩ := Option.map_eq_some_iff.mp h
  rw [foldl_evalSize] at hb
  have hbreq : PairRequotes dlmm pump b := by
    rcases bestOf_mem hb with hx | hx
    · exact absurd hx (by simp)
    · obtain ⟨s, -, hs⟩ := List.mem_filterMap.mp hx
      exact (pairCand_eq_some hs).1
  have hmax := (gain_le_bestOf (fun o : Opportunity => o.grossProfit.toNat)
    gross_le_of_better gross_le_of_not_better hb).2
  have hfinal : PairRequotes dlmm pump o ∧ b.grossProfit.toNat ≤ o.grossProfit.toNat := by
    rw [← ho]
    simp only
    split
    · exact ⟨hbreq, Nat.le_refl _⟩
    · exact foldl_refineCycle_spec _ hbreq
  refine ⟨hfinal.1, ?_⟩
  intro s hs c hc
  exact Nat.le_trans (hmax c (List.mem_filterMap.mpr ⟨s, hs, hc⟩)) hfinal.2

end ShredArb.Hot
