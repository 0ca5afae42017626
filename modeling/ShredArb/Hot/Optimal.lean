/-
  ShredArb.Hot.Optimal — `cycle_size` is OPTIMAL ON ITS GRID.

  The search keeps one record through the ladder, in both directions, and then
  through eight points around the best ladder size, in that size's direction.
  Both loops replace the record by a candidate of higher rank: more gross, or
  the same gross for less in.  The record's direction cannot change in the
  second loop, and a point that is skipped is the record itself.

  Main results:
    * `refineCycle_rank` — one turn of the refinement.
    * `cycleSize_optimal` — the whole search.
-/
import ShredArb.Hot.Sizing

namespace ShredArb.Hot

open ShredArb.Dlmm ShredArb.Pump ShredArb.Best

/-! ## §1. The rank of a record. -/

/-- More gross first, then less in. -/
def Opportunity.rank (o : Opportunity) : Nat :=
  o.grossProfit.toNat * 2 ^ 64 + (2 ^ 64 - 1 - o.amountIn.toNat)

theorem better_iff_rank {c b : Opportunity} : better c b = true ↔ b.rank < c.rank := by
  have hb := UInt64.toNat_lt b.amountIn
  have hc := UInt64.toNat_lt c.amountIn
  rw [better_eq_true]
  unfold Opportunity.rank
  omega

theorem rank_le_of_not_better {c b : Opportunity} (h : better c b = false) :
    c.rank ≤ b.rank :=
  Nat.not_lt.mp fun hlt => by
    rw [better_iff_rank.mpr hlt] at h
    exact absurd h (by simp)

/-- What a rank that is not exceeded says about gross and amount. -/
theorem le_of_rank_le {c o : Opportunity} (h : c.rank ≤ o.rank) :
    c.grossProfit.toNat ≤ o.grossProfit.toNat ∧
      (c.grossProfit.toNat = o.grossProfit.toNat → o.amountIn.toNat ≤ c.amountIn.toNat) := by
  have ho := UInt64.toNat_lt o.amountIn
  have hc := UInt64.toNat_lt c.amountIn
  unfold Opportunity.rank at h
  omega

/-! ## §2. One turn of the refinement. -/

/-- A record is the candidate of its own size and direction. -/
theorem PairRequotes.pairCand_self {dlmm : DlmmState} {pump : PumpState} {o : Opportunity}
    (h : PairRequotes dlmm pump o) : pairCand dlmm pump (o.direction, o.amountIn) = some o := by
  obtain ⟨q, hq, hout⟩ := h.quote
  obtain ⟨hin, hdir, hmax, hgross⟩ := cycleQuote_spec hq
  have hlt := UInt64.lt_iff_toNat_lt.mp h.lt
  have hgrossNat : UInt64.ofNat q.grossProfit.toNat = o.grossProfit := by
    rw [h.gross, hgross, hout, ← UInt64.toNat_inj,
      UInt64.toNat_sub_of_le _ _ (UInt64.le_iff_toNat_le.mpr (Nat.le_of_lt hlt))]
    have hsmall := UInt64.toNat_lt o.amountOut
    rw [UInt64.toNat_ofNat_of_lt' (show _ < 2 ^ 64 by omega)]
    omega
  have hpos : ¬ q.grossProfit ≤ 0 := by
    rw [hgross, hout]
    omega
  rw [pairCand, hq, Option.bind_some, if_neg hpos, hgrossNat, hin, hout, hdir, ← h.id_eq]

/-- **One turn of the refinement**: the direction stays, the record stays honest,
its rank is at least the old one's and the candidate's, and it is one of the
two. -/
theorem refineCycle_rank {dlmm : DlmmState} {pump : PumpState} {best : Opportunity}
    (ain : UInt64) (h : PairRequotes dlmm pump best) :
    PairRequotes dlmm pump (refineCycle dlmm pump best ain) ∧
      (refineCycle dlmm pump best ain).direction = best.direction ∧
      best.rank ≤ (refineCycle dlmm pump best ain).rank ∧
      (∀ c, pairCand dlmm pump (best.direction, ain) = some c →
        c.rank ≤ (refineCycle dlmm pump best ain).rank) ∧
      (refineCycle dlmm pump best ain = best ∨
        (refineCycle dlmm pump best ain).amountIn = ain) := by
  refine ⟨(refineCycle_spec ain h).1, ?_⟩
  unfold refineCycle
  split
  next hskip =>
    refine ⟨rfl, Nat.le_refl _, ?_, Or.inl rfl⟩
    -- a zero amount is no candidate, and the record's own amount is the record
    intro c hc
    rcases hskip with rfl | rfl
    · obtain ⟨q, hq, -⟩ := Option.bind_eq_some_iff.mp hc
      rw [cycleQuote, if_pos (Or.inl rfl)] at hq
      cases hq
    · rw [h.pairCand_self] at hc
      rw [Option.some.inj hc]
  next =>
    rw [evalSize_eq]
    cases hc : pairCand dlmm pump (best.direction, ain) with
    | none => exact ⟨rfl, Nat.le_refl _, fun c hc' => (nomatch hc'), Or.inl rfl⟩
    | some c =>
      obtain ⟨-, hdir, hin, -⟩ := pairCand_eq_some hc
      simp only
      cases hb : better c best with
      | true =>
        rw [keepBest, hb, if_pos rfl, Option.getD_some]
        refine ⟨hdir, Nat.le_of_lt (better_iff_rank.mp hb), ?_, Or.inr hin⟩
        intro c' hc'
        rw [Option.some.inj hc']
      | false =>
        rw [keepBest, hb, if_neg (by simp), Option.getD_some]
        refine ⟨rfl, Nat.le_refl _, ?_, Or.inl rfl⟩
        intro c' hc'
        rw [← Option.some.inj hc']
        exact rank_le_of_not_better hb

/-- The whole refinement. -/
theorem foldl_refineCycle_rank {dlmm : DlmmState} {pump : PumpState} (sizes : List UInt64) :
    ∀ {best : Opportunity}, PairRequotes dlmm pump best →
      (sizes.foldl (refineCycle dlmm pump) best).direction = best.direction ∧
      best.rank ≤ (sizes.foldl (refineCycle dlmm pump) best).rank ∧
      (∀ ain ∈ sizes, ∀ c, pairCand dlmm pump (best.direction, ain) = some c →
        c.rank ≤ (sizes.foldl (refineCycle dlmm pump) best).rank) ∧
      (sizes.foldl (refineCycle dlmm pump) best = best ∨
        (sizes.foldl (refineCycle dlmm pump) best).amountIn ∈ sizes) := by
  induction sizes with
  | nil =>
    intro best _
    exact ⟨rfl, Nat.le_refl _, fun a ha => absurd ha List.not_mem_nil, Or.inl rfl⟩
  | cons a sizes ih =>
    intro best h
    obtain ⟨hreq, hdir, hle, hcand, hone⟩ := refineCycle_rank a h
    obtain ⟨hdir', hle', hcand', hone'⟩ := ih hreq
    rw [List.foldl_cons]
    refine ⟨hdir'.trans hdir, Nat.le_trans hle hle', ?_, ?_⟩
    · intro ain hain c hc
      rcases List.mem_cons.mp hain with rfl | hain
      · exact Nat.le_trans (hcand c hc) hle'
      · rw [← hdir] at hc
        exact hcand' ain hain c hc
    · rcases hone' with hsame | hin
      · rw [hsame]
        rcases hone with hb | hin
        · exact Or.inl hb
        · exact Or.inr (List.mem_cons.mpr (Or.inl hin))
      · exact Or.inr (List.mem_cons_of_mem _ hin)

/-! ## §3. The whole search. -/

/-- The neighbours of a ladder size are apart, so it is refined. -/
theorem refineBounds_lt : ∀ size ∈ sizeLadder,
    (refineBounds size).1 < (refineBounds size).2 := by
  -- over the ladder as a list, not over every word
  have hall : sizeLadder.all (fun size => (refineBounds size).1 < (refineBounds size).2)
      = true := by decide +kernel
  intro size hsize
  exact of_decide_eq_true (List.all_eq_true.mp hall size hsize)

/-- The points the search quotes when `best` is the ladder's record: the ladder
in both directions, and the refinement of the record's size in its direction. -/
def searchGrid (best : Opportunity) : List (UInt8 × UInt64) :=
  ladderPairs ++ (refineSizes (refineBounds best.amountIn).1 (refineBounds best.amountIn).2).map
    fun ain => (best.direction, ain)

/-- `o` is at least as good as what `(direction, amount)` quotes to: no less
gross, and no more in for the same gross. -/
def AtLeast (dlmm : DlmmState) (pump : PumpState) (o : Opportunity) (p : UInt8 × UInt64) :
    Prop :=
  ∀ q, cycleQuote dlmm pump p.2 p.1 = some q → q.grossProfit ≤ o.grossProfit.toNat ∧
    (q.grossProfit = o.grossProfit.toNat → o.amountIn ≤ p.2)

theorem atLeast_of_rank {dlmm : DlmmState} {pump : PumpState} {o : Opportunity}
    {p : UInt8 × UInt64} (ho : 0 < o.grossProfit.toNat)
    (h : ∀ c, pairCand dlmm pump p = some c → c.rank ≤ o.rank) : AtLeast dlmm pump o p := by
  intro q hq
  rcases lt_or_ge 0 q.grossProfit with hpos | hneg
  · have hc : pairCand dlmm pump p = some ⟨routeDlmmPump, q.amountIn, q.amountOut,
        UInt64.ofNat q.grossProfit.toNat, q.direction⟩ := by
      rw [pairCand, hq, Option.bind_some, if_neg (by omega)]
    obtain ⟨-, -, hin, q', hq', hgross⟩ := pairCand_eq_some hc
    obtain rfl := Option.some.inj (hq.symm.trans hq')
    obtain ⟨hle, htie⟩ := le_of_rank_le (h _ hc)
    simp only at hgross hle htie hin
    refine ⟨by omega, fun heq => ?_⟩
    rw [UInt64.le_iff_toNat_le, ← hin]
    exact htie (by omega)
  · exact ⟨by omega, fun heq => by omega⟩

theorem PairRequotes.gross_pos {dlmm : DlmmState} {pump : PumpState} {o : Opportunity}
    (h : PairRequotes dlmm pump o) : 0 < o.grossProfit.toNat := by
  have hlt := UInt64.lt_iff_toNat_lt.mp h.lt
  rw [h.gross, UInt64.toNat_sub_of_le _ _ (UInt64.le_iff_toNat_le.mpr (Nat.le_of_lt hlt))]
  omega

/-- A record re-quotes to the amount and the gross it reports. -/
theorem PairRequotes.requote {dlmm : DlmmState} {pump : PumpState} {o : Opportunity}
    (h : PairRequotes dlmm pump o) : ∃ q, cycleQuote dlmm pump o.amountIn o.direction = some q ∧
      q.amountOut = o.amountOut ∧ q.grossProfit = o.grossProfit.toNat := by
  obtain ⟨q, hq, hout⟩ := h.quote
  obtain ⟨-, -, -, hgross⟩ := cycleQuote_spec hq
  have hlt := UInt64.lt_iff_toNat_lt.mp h.lt
  refine ⟨q, hq, hout, ?_⟩
  rw [hgross, hout, h.gross,
    UInt64.toNat_sub_of_le _ _ (UInt64.le_iff_toNat_le.mpr (Nat.le_of_lt hlt))]
  omega

/-- What the search of one pair guarantees for its result `o`: `best` is the
ladder's record, at least as good as every ladder point; `o` is a point of the
grid around it, re-quotes to what it reports, and is at least as good as every
point of the grid. -/
structure SearchResult (dlmm : DlmmState) (pump : PumpState) (best o : Opportunity) : Prop where
  ladder : ladderPairs.foldl (evalSize dlmm pump) none = some best
  best_mem : (best.direction, best.amountIn) ∈ ladderPairs
  best_ladder : ∀ p ∈ ladderPairs, AtLeast dlmm pump best p
  mem : (o.direction, o.amountIn) ∈ searchGrid best
  requote : ∃ q, cycleQuote dlmm pump o.amountIn o.direction = some q ∧
    q.amountOut = o.amountOut ∧ q.grossProfit = o.grossProfit.toNat
  optimal : ∀ p ∈ searchGrid best, AtLeast dlmm pump o p

/-- **`cycle_size` is optimal on its grid**: there is a result exactly when some
ladder size gains in some direction, and then it is the best point of the grid,
with the smallest amount among the best. -/
theorem cycleSize_optimal (dlmm : DlmmState) (pump : PumpState) :
    ((cycleSize dlmm pump).isSome = true ↔ ∃ p ∈ ladderPairs, ∃ q,
      cycleQuote dlmm pump p.2 p.1 = some q ∧ 0 < q.grossProfit) ∧
    ∀ o, cycleSize dlmm pump = some o → ∃ best, SearchResult dlmm pump best o := by
  have hcand : ∀ p, pairCand dlmm pump p = none ↔
      ∀ q, cycleQuote dlmm pump p.2 p.1 = some q → ¬ 0 < q.grossProfit := by
    intro p
    unfold pairCand
    cases cycleQuote dlmm pump p.2 p.1 with
    | none => simp
    | some q =>
      rw [Option.bind_some]
      by_cases hpos : q.grossProfit ≤ 0
      · simp [hpos]
      · simp [hpos]
  constructor
  · rw [← Option.ne_none_iff_isSome, ne_eq, cycleSize_eq_none]
    simp only [hcand]
    push Not
    rfl
  · intro o h
    obtain ⟨hreq, -⟩ := cycleSize_spec h
    unfold cycleSize at h
    obtain ⟨best, hb, ho⟩ := Option.map_eq_some_iff.mp h
    have hb' := hb
    rw [foldl_evalSize] at hb'
    obtain ⟨p0, hp0, hs0⟩ : ∃ p ∈ ladderPairs, pairCand dlmm pump p = some best := by
      rcases bestOf_mem hb' with hx | hx
      · exact absurd hx (by simp)
      · exact List.mem_filterMap.mp hx
    obtain ⟨hbreq, hbdir, hbin, -⟩ := pairCand_eq_some hs0
    have hp0eq : (best.direction, best.amountIn) = p0 := by rw [hbdir, hbin]
    have hladder := (gain_le_bestOf Opportunity.rank
      (fun hc => Nat.le_of_lt (better_iff_rank.mp hc)) rank_le_of_not_better hb').2
    have hladder' : ∀ p ∈ ladderPairs, ∀ c, pairCand dlmm pump p = some c →
        c.rank ≤ best.rank := fun p hp c hc =>
      hladder c (List.mem_filterMap.mpr ⟨p, hp, hc⟩)
    have hsize : best.amountIn ∈ sizeLadder := by
      obtain ⟨dir, -, hmem⟩ := List.mem_flatMap.mp hp0
      obtain ⟨size, hmem, hpair⟩ := List.mem_map.mp hmem
      rw [hbin, ← hpair]
      exact hmem
    -- the bounds of a ladder size are apart, so the refinement runs
    have hbounds := UInt64.lt_iff_toNat_lt.mp (refineBounds_lt _ hsize)
    simp only at ho
    rw [if_neg (by rw [UInt64.le_iff_toNat_le]; omega)] at ho
    obtain ⟨hdir, hle, hpoints, hone⟩ := foldl_refineCycle_rank
      (refineSizes (refineBounds best.amountIn).1 (refineBounds best.amountIn).2) hbreq
    rw [ho] at hdir hle hpoints hone
    refine ⟨best, hb, hp0eq ▸ hp0, fun p hp => atLeast_of_rank hbreq.gross_pos (hladder' p hp),
      ?_, hreq.requote, ?_⟩
    · rcases hone with rfl | hin
      · exact List.mem_append_left _ (hp0eq ▸ hp0)
      · exact List.mem_append_right _ (List.mem_map.mpr ⟨o.amountIn, hin, by rw [hdir]⟩)
    · intro p hp
      refine atLeast_of_rank hreq.gross_pos ?_
      rcases List.mem_append.mp hp with hp | hp
      · exact fun c hc => Nat.le_trans (hladder' p hp c hc) hle
      · obtain ⟨ain, hain, rfl⟩ := List.mem_map.mp hp
        exact hpoints ain hain

/-- A DLMM bin at price one, and a Pump pool that pays twice as much. -/
def demoDlmm : DlmmState :=
  { activeId := 0, binStep := 1, status := 0
    parameters := ⟨0, 0, 0, 0, 0, 0, 0, 0, 0⟩
    vParameters := ⟨0, 0, 0, 0⟩
    reserveX := 1000000000000, reserveY := 0
    bins := [⟨0, 1000000000000, 0, 2 ^ 64⟩], nowTs := 0 }

def demoPump : PumpState := ⟨1000000000000, 2000000000000, 0, 20, 5, 5, 0, 0⟩

theorem cycleSize_optimal_demo : ∃ o best, cycleSize demoDlmm demoPump = some o ∧
    SearchResult demoDlmm demoPump best o := by
  have hsome : (cycleSize demoDlmm demoPump).isSome = true := by decide +kernel
  obtain ⟨o, ho⟩ := Option.isSome_iff_exists.mp hsome
  obtain ⟨best, hbest⟩ := (cycleSize_optimal demoDlmm demoPump).2 o ho
  exact ⟨o, best, ho, hbest⟩

end ShredArb.Hot
