/-
  ShredArb.Hot.Faithful — what a reported opportunity stands for.

  The hot path reports under two numberings: 0 is the Route0 pair
  (`ROUTE_DLMM_PUMP`), and a compiled route is reported under its index, which
  starts at 0 as well.  Whatever wins the search re-quotes to what is reported,
  but when the winner is COMPILED ROUTE 0, the id says that it is the pair.

  Main results:
    * `decideFrom_eq_some` — the winner of the search by position,
    * `hotDecide_faithful_iff` — faithful exactly when route 0 does not win.
-/
import ShredArb.Hot.Decide

namespace ShredArb.Hot

open ShredArb.Dlmm ShredArb.Pump ShredArb.Univ ShredArb.Best

/-! ## §1. The winner of the search. -/

/-- Compiled route 0 wins on S': it is in the slice of the pool, executable and
sized, its result beats the pair's and those of the routes before it, and no
route after it beats it. -/
def RouteZeroWins (u : LiveUniv) (i : Nat) (pred : Pred) : Prop :=
  ∃ o before after, routeCand u pred 0 = some o ∧ routesOf u i = before ++ 0 :: after ∧
    (∀ b, sizePair (triggerPair u i pred) = some b → better o b = true) ∧
    (∀ rid ∈ before, ∀ c, routeCand u pred rid = some c → better o c = true) ∧
    ∀ rid ∈ after, ∀ c, routeCand u pred rid = some c → better c o = false

/-- A compiled route as a candidate. -/
def tagged (u : LiveUniv) (pred : Pred) (rid : Nat) : Option (Source × Opportunity) :=
  (routeCand u pred rid).map fun o => (Source.compiled rid, o)

theorem candidates_eq (u : LiveUniv) (i : Nat) (pred : Pred) : candidates u i pred
    = ((sizePair (triggerPair u i pred)).map fun o => (Source.pair, o)).toList ++
        (routesOf u i).filterMap (tagged u pred) := rfl

theorem decideFrom_eq_some {u : LiveUniv} {i : Nat} {pred : Pred} {w : Source × Opportunity} :
    decideFrom u i pred = some w ↔ ∃ pre post, candidates u i pred = pre ++ w :: post ∧
      WinsAt (fun c b : Source × Opportunity => better c.2 b.2) pre w post := by
  refine bestOf_eq_some ?_ ?_
  · intro a b c
    exact better_trans
  · intro a b c
    exact better_of_not_better

theorem mem_candidates {u : LiveUniv} {i : Nat} {pred : Pred} {src : Source} {o : Opportunity}
    (h : (src, o) ∈ candidates u i pred) :
    (src = .pair ∧ sizePair (triggerPair u i pred) = some o) ∨
      ∃ rid, src = .compiled rid ∧ routeCand u pred rid = some o := by
  rcases List.mem_append.mp h with h | h
  · obtain ⟨b, hb, heq⟩ := Option.map_eq_some_iff.mp (Option.mem_toList.mp h)
    obtain ⟨rfl, rfl⟩ := Prod.mk.inj heq
    exact Or.inl ⟨rfl, hb⟩
  · obtain ⟨rid, -, h⟩ := List.mem_filterMap.mp h
    obtain ⟨b, hb, heq⟩ := Option.map_eq_some_iff.mp h
    obtain ⟨rfl, rfl⟩ := Prod.mk.inj heq
    exact Or.inr ⟨rid, rfl, hb⟩

/-- The compiled part of the candidates splits where the slice does. -/
theorem routeZeroWins_iff {u : LiveUniv} {i : Nat} {pred : Pred} :
    RouteZeroWins u i pred ↔ ∃ o, decideFrom u i pred = some (.compiled 0, o) := by
  constructor
  · rintro ⟨o, before, after, ho, hslice, hpair, hbefore, hafter⟩
    refine ⟨o, decideFrom_eq_some.mpr
      ⟨((sizePair (triggerPair u i pred)).map fun o => (Source.pair, o)).toList ++
          before.filterMap (tagged u pred), after.filterMap (tagged u pred), ?_, ?_, ?_⟩⟩
    · rw [candidates_eq, hslice, List.filterMap_append,
        List.filterMap_cons_some (by rw [tagged, ho]; rfl), List.append_assoc]
    · intro x hx
      rcases List.mem_append.mp hx with hx | hx
      · obtain ⟨b, hb, rfl⟩ := Option.map_eq_some_iff.mp (Option.mem_toList.mp hx)
        exact hpair b hb
      · obtain ⟨rid, hrid, hx⟩ := List.mem_filterMap.mp hx
        obtain ⟨c, hc, rfl⟩ := Option.map_eq_some_iff.mp hx
        exact hbefore rid hrid c hc
    · intro x hx
      obtain ⟨rid, hrid, hx⟩ := List.mem_filterMap.mp hx
      obtain ⟨c, hc, rfl⟩ := Option.map_eq_some_iff.mp hx
      exact hafter rid hrid c hc
  · rintro ⟨o, h⟩
    obtain ⟨pre, post, hsplit, hpre, hpost⟩ := decideFrom_eq_some.mp h
    rw [candidates_eq] at hsplit
    -- a compiled winner stands behind the pair
    obtain ⟨mid, hmid, hroutes⟩ : ∃ mid,
        pre = ((sizePair (triggerPair u i pred)).map fun o => (Source.pair, o)).toList ++ mid ∧
          (routesOf u i).filterMap (tagged u pred) = mid ++ (.compiled 0, o) :: post := by
      rcases List.append_eq_append_iff.mp hsplit with ⟨mid, hpre, hroutes⟩ | ⟨bs, hP, hbs⟩
      · exact ⟨mid, hpre, hroutes⟩
      · cases bs with
        | nil => exact ⟨[], by rw [hP, List.append_nil, List.append_nil], hbs.symm⟩
        | cons b bs =>
          rw [List.cons_append, List.cons.injEq] at hbs
          have hmem : (Source.compiled 0, o) ∈
              ((sizePair (triggerPair u i pred)).map fun o => (Source.pair, o)).toList := by
            rw [hP, hbs.1]
            exact List.mem_append_right _ List.mem_cons_self
          obtain ⟨x, -, hx⟩ := Option.map_eq_some_iff.mp (Option.mem_toList.mp hmem)
          exact absurd (congrArg Prod.fst hx) (by simp)
    obtain ⟨l1, l2, hl, hl1, hl2⟩ := List.filterMap_eq_append_iff.mp hroutes
    obtain ⟨l3, rid, l4, rfl, hl3, hrid, rfl⟩ := List.filterMap_eq_cons_iff.mp hl2
    obtain ⟨o', ho, heq⟩ := Option.map_eq_some_iff.mp hrid
    obtain ⟨hsrc, rfl⟩ := Prod.mk.inj heq
    obtain rfl := Source.compiled.inj hsrc
    refine ⟨o', l1 ++ l3, l4, ho, by rw [hl, List.append_assoc], ?_, ?_, ?_⟩
    · intro b hb
      refine hpre (.pair, b) ?_
      rw [hmid, hb]
      exact List.mem_cons_self
    · intro rid hrid c hc
      rcases List.mem_append.mp hrid with hrid | hrid
      · refine hpre (.compiled rid, c) ?_
        rw [hmid, ← hl1]
        exact List.mem_append_right _
          (List.mem_filterMap.mpr ⟨rid, hrid, by rw [tagged, hc]; rfl⟩)
      · have hnone := hl3 rid hrid
        rw [tagged, hc] at hnone
        exact absurd hnone (by simp)
    · intro rid hrid c hc
      exact hpost (.compiled rid, c)
        (List.mem_filterMap.mpr ⟨rid, hrid, by rw [tagged, hc]; rfl⟩)

/-! ## §2. What is reported. -/

/-- An opportunity says what it is: under the pair's id the cycle re-quotes to
it on S' and the partner, under another id that compiled route does; and no
compiled route comes under the pair's id. -/
structure Faithful (u : LiveUniv) (i : Nat) (pred : Pred) (src : Source) (o : Opportunity) :
    Prop where
  pair : o.routeId = routeDlmmPump → ∃ ds ps q, triggerPair u i pred = some (ds, ps) ∧
    cycleQuote ds ps o.amountIn o.direction = some q ∧ q.amountOut = o.amountOut
  route : o.routeId ≠ routeDlmmPump → ∃ r, u.routes.route[o.routeId]? = some r ∧
    quoteLiveRoute u r pred o.amountIn = some o.amountOut
  reserved : ∀ rid, src = .compiled rid → o.routeId ≠ routeDlmmPump

theorem sizePair_requotes {u : LiveUniv} {i : Nat} {pred : Pred} {o : Opportunity}
    (h : sizePair (triggerPair u i pred) = some o) :
    o.routeId = routeDlmmPump ∧ ∃ ds ps q, triggerPair u i pred = some (ds, ps) ∧
      cycleQuote ds ps o.amountIn o.direction = some q ∧ q.amountOut = o.amountOut := by
  obtain ⟨best, hbest, rfl⟩ := Option.map_eq_some_iff.mp h
  obtain ⟨⟨ds, ps⟩, hpair, hsize⟩ := Option.bind_eq_some_iff.mp hbest
  obtain ⟨q, hq, hout⟩ := (cycleSize_spec hsize).1.quote
  exact ⟨rfl, ds, ps, q, hpair, hq, hout⟩

theorem routeCand_requotes {u : LiveUniv} {pred : Pred} {rid : Nat} {o : Opportunity}
    (h : routeCand u pred rid = some o) :
    o.routeId = rid ∧ ∃ r, u.routes.route[rid]? = some r ∧
      quoteLiveRoute u r pred o.amountIn = some o.amountOut := by
  obtain ⟨r, s, hr, -, hs, rfl⟩ := routeCand_eq_some.mp h
  exact ⟨rfl, r, hr, (sizeRoute_spec hs).1.1⟩

theorem decideFrom_faithful_iff {u : LiveUniv} {i : Nat} {pred : Pred} {src : Source}
    {o : Opportunity} (h : decideFrom u i pred = some (src, o)) :
    Faithful u i pred src o ↔ src ≠ .compiled 0 := by
  have hmem : (src, o) ∈ candidates u i pred := by
    rcases bestOf_mem h with hx | hx
    · exact absurd hx (by simp)
    · exact hx
  constructor
  · rintro hf rfl
    rcases mem_candidates hmem with ⟨hsrc, -⟩ | ⟨rid, hsrc, ho⟩
    · exact absurd hsrc (by simp)
    · obtain rfl := Source.compiled.inj hsrc
      exact hf.reserved 0 rfl (routeCand_requotes ho).1
  · intro hne
    rcases mem_candidates hmem with ⟨rfl, ho⟩ | ⟨rid, rfl, ho⟩
    · obtain ⟨hid, hquote⟩ := sizePair_requotes ho
      exact ⟨fun _ => hquote, fun hid' => absurd hid hid', fun rid hsrc => absurd hsrc (by simp)⟩
    · obtain ⟨rfl, r, hr, hquote⟩ := routeCand_requotes ho
      have hid : o.routeId ≠ routeDlmmPump := fun hid => hne (by rw [hid])
      exact ⟨fun hid' => absurd hid' hid, fun _ => ⟨r, hr, hquote⟩, fun _ _ => hid⟩

end ShredArb.Hot
