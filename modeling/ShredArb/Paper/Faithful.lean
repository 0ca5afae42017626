/-
  ShredArb.Paper.Faithful — what the paper record stands for.

  The loop is one best-so-far over the candidates, but the DIRECTION of the
  record is written by every sized pair, taken or not: it ends as the direction
  of the last sized pair after the winner, if there is one.

  Main results:
    * `foldl_takeCand` — the record of a winner by position,
    * `paperEvalTrigger_faithful_iff` — the opportunity re-quotes exactly when
      that direction is right for the winner.
-/
import ShredArb.Paper.Kernel
import ShredArb.Hot.Decide

namespace ShredArb.Paper

open ShredArb.Dlmm ShredArb.Pump ShredArb.Univ ShredArb.Best ShredArb.Hot

/-! ## §1. The candidates. -/

/-- A sized route; `cycle` is the direction of the pair's cycle. -/
structure PaperCand where
  rid : Nat
  route : CompiledRoute
  ain : UInt64
  aout : UInt64
  cycle : Option UInt8
  deriving DecidableEq, Repr

/-- The direction its own trade has: 0 for a route that is not a pair. -/
def PaperCand.dir (c : PaperCand) : UInt8 := c.cycle.getD 0

/-- What `keep` records of it. -/
def PaperCand.opp (c : PaperCand) : Opportunity := ⟨c.rid, c.ain, c.aout, c.aout - c.ain, 0⟩

/-- The comparison of `keep`. -/
def PaperCand.beats (c b : PaperCand) : Bool := better c.opp b.opp

theorem PaperCand.beats_trans {a b c : PaperCand} (h : a.beats b = true) (h' : b.beats c = true) :
    a.beats c = true := by
  unfold PaperCand.beats at h h' ⊢
  exact better_trans h h'

theorem PaperCand.beats_of_not_beats {a b c : PaperCand} (h : a.beats b = true)
    (h' : c.beats b = false) : a.beats c = true := by
  unfold PaperCand.beats at h h' ⊢
  exact better_of_not_better h h'

/-- A route of the slice, sized. -/
def paperCand (u : PaperUniv) (st : UnivState) (pred : Pred) (rid : Nat) : Option PaperCand :=
  (u.routes.route[rid]?).bind fun r =>
    if isPairRoute r then
      ((routePair u pred r).bind fun p => cycleSize p.1 p.2).map fun cyc =>
        ⟨rid, r, cyc.amountIn, cyc.amountOut, some cyc.direction⟩
    else
      (sizeRoute (quoteRoutePred u st rid pred)).map fun s => ⟨rid, r, s.bestIn, s.bestOut, none⟩

/-- The candidates of the pool, in the order of the loop. -/
def paperCands (u : PaperUniv) (st : UnivState) (i : Nat) (pred : Pred) : List PaperCand :=
  (routesOf u.toLiveUniv i).filterMap (paperCand u st pred)

/-- `keep`, then the direction of a pair. -/
def takeCand (best : PaperOpp) (c : PaperCand) : PaperOpp :=
  let best := keep best c.rid c.route c.ain c.aout true
  match c.cycle with
  | none => best
  | some d => { best with opp := best.opp.map fun o => { o with direction := d } }

theorem evalTurn_eq (u : PaperUniv) (st : UnivState) (pred : Pred) (best : PaperOpp) (rid : Nat) :
    evalTurn u st pred best rid
      = match paperCand u st pred rid with
        | some c => takeCand best c
        | none => best := by
  unfold evalTurn paperCand sizeRoutePred
  cases u.routes.route[rid]? with
  | none => rfl
  | some r =>
    rw [Option.bind_some]
    cases hpair : isPairRoute r with
    | true =>
      simp only [hpair, if_true]
      cases (routePair u pred r).bind fun p => cycleSize p.1 p.2 <;> rfl
    | false =>
      simp only [hpair, Bool.false_eq_true, if_false]
      cases sizeRoute (quoteRoutePred u st rid pred) <;> rfl

theorem evalLoop_eq (u : PaperUniv) (st : UnivState) (i : Nat) (pred : Pred) :
    evalLoop u st i pred = (paperCands u st i pred).foldl takeCand (startRecord i) := by
  rw [evalLoop, paperCands, List.foldl_filterMap]
  congr 1
  funext b rid
  rw [evalTurn_eq]
  cases paperCand u st pred rid <;> rfl

/-- What its own trade re-quotes to. -/
def PaperCand.Requotes (u : PaperUniv) (st : UnivState) (pred : Pred) (c : PaperCand) : Prop :=
  match c.cycle with
  | some d => ∃ ds ps q, routePair u pred c.route = some (ds, ps) ∧
      cycleQuote ds ps c.ain d = some q ∧ q.amountOut = c.aout
  | none => quoteRoutePred u st c.rid pred c.ain = some c.aout

theorem paperCand_spec {u : PaperUniv} {st : UnivState} {pred : Pred} {rid : Nat} {c : PaperCand}
    (h : paperCand u st pred rid = some c) :
    u.routes.route[c.rid]? = some c.route ∧ c.ain < c.aout ∧
      (c.cycle.isSome = true ↔ isPairRoute c.route = true) ∧ c.Requotes u st pred := by
  unfold paperCand at h
  obtain ⟨r, hr, h⟩ := Option.bind_eq_some_iff.mp h
  split at h
  · rename_i hpair
    obtain ⟨cyc, hcyc, rfl⟩ := Option.map_eq_some_iff.mp h
    obtain ⟨⟨ds, ps⟩, hstates, hsize⟩ := Option.bind_eq_some_iff.mp hcyc
    have hre := (cycleSize_spec hsize).1
    obtain ⟨q, hq, hout⟩ := hre.quote
    exact ⟨hr, hre.lt, ⟨fun _ => hpair, fun _ => rfl⟩, ds, ps, q, hstates, hq, hout⟩
  · rename_i hpair
    obtain ⟨s, hs, rfl⟩ := Option.map_eq_some_iff.mp h
    obtain ⟨hq, hlt⟩ := (sizeRoute_spec hs).1
    exact ⟨hr, hlt, ⟨fun hsome => absurd hsome (by simp), fun hp => absurd hp hpair⟩, hq⟩

/-! ## §2. The record by position. -/

/-- The record that holds a candidate, with some direction. -/
def recordOf (i : Nat) (w : PaperCand) (d : UInt8) : PaperOpp where
  opp := some { w.opp with direction := d }
  poolIdx := i
  routeId := w.rid
  family := w.route.family
  nHop := w.route.hops.length
  proto := w.route.hops.map (·.proto)
  searchable := true
  signedReady := routeExecutable w.route
  reason := if routeExecutable w.route then paperSigned else paperExecFamilyMissing
  stateOk := true

/-- The direction after a candidate that was NOT taken. -/
def writeDir (d : UInt8) (c : PaperCand) : UInt8 := c.cycle.getD d

/-- The direction the record ends with when `w` wins before `post`. -/
def lastDir (w : PaperCand) (post : List PaperCand) : UInt8 := post.foldl writeDir w.dir

theorem keep_start {i : Nat} {c : PaperCand} (h : c.ain < c.aout) :
    keep (startRecord i) c.rid c.route c.ain c.aout true = recordOf i c 0 := by
  unfold keep
  rw [if_neg (UInt64.not_le.mpr h)]
  rfl

theorem keep_record {i : Nat} {w c : PaperCand} {d : UInt8} (h : c.ain < c.aout) :
    keep (recordOf i w d) c.rid c.route c.ain c.aout true
      = if c.beats w then recordOf i c 0 else recordOf i w d := by
  have hb : (recordOf i w d).opp.any (fun b => !better ⟨c.rid, c.ain, c.aout, c.aout - c.ain, 0⟩ b)
      = !c.beats w := rfl
  unfold keep
  simp only [if_neg (UInt64.not_le.mpr h), hb]
  cases c.beats w <;> rfl

theorem takeCand_start {i : Nat} {c : PaperCand} (h : c.ain < c.aout) :
    takeCand (startRecord i) c = recordOf i c c.dir := by
  unfold takeCand PaperCand.dir
  rw [keep_start h]
  cases c.cycle <;> rfl

/-- A candidate that loses still writes its direction. -/
theorem takeCand_record {i : Nat} {w c : PaperCand} {d : UInt8} (h : c.ain < c.aout) :
    takeCand (recordOf i w d) c
      = if c.beats w then recordOf i c c.dir else recordOf i w (writeDir d c) := by
  unfold takeCand PaperCand.dir writeDir
  rw [keep_record h]
  cases c.beats w <;> cases c.cycle <;> rfl

/-- What the record holds after some candidates is one of them. -/
theorem foldl_takeCand_cases {i : Nat} : ∀ {cs : List PaperCand}, (∀ c ∈ cs, c.ain < c.aout) →
    cs = [] ∨ ∃ x ∈ cs, ∃ d, cs.foldl takeCand (startRecord i) = recordOf i x d := by
  intro cs
  induction cs using List.reverseRecOn with
  | nil => exact fun _ => Or.inl rfl
  | append_singleton cs c ih =>
    intro hgain
    have hc := hgain c (by simp)
    rw [List.foldl_append]
    rcases ih (fun x hx => hgain x (List.mem_append_left _ hx)) with rfl | ⟨x, hx, d, heq⟩
    · exact Or.inr ⟨c, by simp, c.dir, takeCand_start hc⟩
    · refine Or.inr ?_
      rw [heq]
      show ∃ y ∈ cs ++ [c], ∃ d', takeCand (recordOf i x d) c = recordOf i y d'
      rw [takeCand_record hc]
      split
      · exact ⟨c, by simp, c.dir, rfl⟩
      · exact ⟨x, List.mem_append_left _ hx, writeDir d c, rfl⟩

theorem foldl_takeCand_post {i : Nat} {w : PaperCand} : ∀ {post : List PaperCand} {d : UInt8},
    (∀ c ∈ post, c.ain < c.aout) → (∀ c ∈ post, c.beats w = false) →
      post.foldl takeCand (recordOf i w d) = recordOf i w (post.foldl writeDir d) := by
  intro post
  induction post with
  | nil => intro d _ _; rfl
  | cons c post ih =>
    intro d hgain hno
    rw [List.foldl_cons, takeCand_record (hgain c List.mem_cons_self),
      hno c List.mem_cons_self, if_neg Bool.false_ne_true, List.foldl_cons]
    exact ih (fun x hx => hgain x (List.mem_cons_of_mem _ hx))
      (fun x hx => hno x (List.mem_cons_of_mem _ hx))

/-- **The record of the winner**: its own trade, in the last direction written. -/
theorem foldl_takeCand {i : Nat} {pre post : List PaperCand} {w : PaperCand}
    (hgain : ∀ c ∈ pre ++ w :: post, c.ain < c.aout) (hwins : WinsAt PaperCand.beats pre w post) :
    (pre ++ w :: post).foldl takeCand (startRecord i) = recordOf i w (lastDir w post) := by
  have hw := hgain w (by simp)
  have hpost : ∀ c ∈ post, c.ain < c.aout := fun c hc =>
    hgain c (List.mem_append_right _ (List.mem_cons_of_mem _ hc))
  rw [List.foldl_append, List.foldl_cons]
  have htaken : takeCand (pre.foldl takeCand (startRecord i)) w = recordOf i w w.dir := by
    rcases foldl_takeCand_cases (i := i) (fun c hc => hgain c (List.mem_append_left _ hc))
      with rfl | ⟨x, hx, d, heq⟩
    · exact takeCand_start hw
    · rw [heq, takeCand_record hw, hwins.1 x hx, if_pos rfl]
  rw [htaken]
  exact foldl_takeCand_post hpost hwins.2

/-- Some candidate wins. -/
theorem exists_winner {cs : List PaperCand} (h : cs ≠ []) :
    ∃ pre w post, cs = pre ++ w :: post ∧ WinsAt PaperCand.beats pre w post := by
  cases hb : bestOf PaperCand.beats none cs with
  | none => exact absurd (bestOf_eq_none.mp hb).2 h
  | some w =>
    have hwin : ∃ pre post, cs = pre ++ w :: post ∧ WinsAt PaperCand.beats pre w post := by
      refine (bestOf_eq_some ?_ ?_).mp hb
      · intro a b c
        exact PaperCand.beats_trans
      · intro a b c
        exact PaperCand.beats_of_not_beats
    obtain ⟨pre, post, hsplit, hwins⟩ := hwin
    exact ⟨pre, w, post, hsplit, hwins⟩

/-! ## §3. What is reported. -/

/-- The opportunity re-quotes on S': a pair's through the cycle in the reported
direction, another route's hop by hop, with direction 0. -/
def PaperFaithful (u : PaperUniv) (st : UnivState) (pred : Pred) (o : Opportunity) : Prop :=
  ∃ r, u.routes.route[o.routeId]? = some r ∧
    if isPairRoute r = true then
      ∃ ds ps q, routePair u pred r = some (ds, ps) ∧
        cycleQuote ds ps o.amountIn o.direction = some q ∧ q.amountOut = o.amountOut ∧
        q.grossProfit = o.grossProfit.toNat
    else
      quoteRoutePred u st o.routeId pred o.amountIn = some o.amountOut ∧
        o.amountOut.toNat = o.amountIn.toNat + o.grossProfit.toNat ∧ o.direction = 0

/-- The direction left by the sized pairs behind the winner is the winner's own,
or the winner is a pair that quotes the same amount in that direction too. -/
def DirectionKept (u : PaperUniv) (st : UnivState) (i : Nat) (pred : Pred) : Prop :=
  ∃ pre w post, paperCands u st i pred = pre ++ w :: post ∧ WinsAt PaperCand.beats pre w post ∧
    (lastDir w post = w.dir ∨
      ∃ d ds ps q, w.cycle = some d ∧ routePair u pred w.route = some (ds, ps) ∧
        cycleQuote ds ps w.ain (lastDir w post) = some q ∧ q.amountOut = w.aout)

theorem mem_paperCands {u : PaperUniv} {st : UnivState} {i : Nat} {pred : Pred} {c : PaperCand}
    (h : c ∈ paperCands u st i pred) :
    u.routes.route[c.rid]? = some c.route ∧ c.ain < c.aout ∧
      (c.cycle.isSome = true ↔ isPairRoute c.route = true) ∧ c.Requotes u st pred := by
  obtain ⟨rid, -, hc⟩ := List.mem_filterMap.mp h
  exact paperCand_spec hc

/-- The winner under a direction is faithful exactly when the direction suits it. -/
theorem recordOf_faithful_iff {u : PaperUniv} {st : UnivState} {i : Nat} {pred : Pred}
    {w : PaperCand} (h : w ∈ paperCands u st i pred) (d : UInt8) :
    PaperFaithful u st pred { w.opp with direction := d } ↔
      (d = w.dir ∨ ∃ d0 ds ps q, w.cycle = some d0 ∧ routePair u pred w.route = some (ds, ps) ∧
        cycleQuote ds ps w.ain d = some q ∧ q.amountOut = w.aout) := by
  obtain ⟨hr, hlt, hpair, hre⟩ := mem_paperCands h
  have hlt' := UInt64.lt_iff_toNat_lt.mp hlt
  have hgross : (w.aout - w.ain).toNat = w.aout.toNat - w.ain.toNat :=
    UInt64.toNat_sub_of_le _ _ (UInt64.le_of_lt hlt)
  cases hcyc : w.cycle with
  | none =>
    have hnot : ¬isPairRoute w.route = true := by
      rw [← hpair, hcyc]
      simp
    have hq : quoteRoutePred u st w.rid pred w.ain = some w.aout := by
      simpa only [PaperCand.Requotes, hcyc] using hre
    have hdir : w.dir = 0 := by rw [PaperCand.dir, hcyc]; rfl
    constructor
    · rintro ⟨r, hr', hf⟩
      obtain rfl : w.route = r := Option.some.inj (hr.symm.trans hr')
      rw [if_neg hnot] at hf
      exact Or.inl (hf.2.2.trans hdir.symm)
    · rintro (hd | ⟨d0, ds, ps, q, hc, -⟩)
      · refine ⟨w.route, hr, ?_⟩
        rw [if_neg hnot]
        refine ⟨hq, ?_, hd.trans hdir⟩
        show w.aout.toNat = w.ain.toNat + (w.aout - w.ain).toNat
        omega
      · exact absurd hc (by simp)
  | some d0 =>
    have hyes : isPairRoute w.route = true := by
      rw [← hpair, hcyc]
      rfl
    have hdir : w.dir = d0 := by rw [PaperCand.dir, hcyc]; rfl
    constructor
    · rintro ⟨r, hr', hf⟩
      obtain rfl : w.route = r := Option.some.inj (hr.symm.trans hr')
      rw [if_pos hyes] at hf
      obtain ⟨ds, ps, q, hstates, hq, hout, -⟩ := hf
      exact Or.inr ⟨d0, ds, ps, q, rfl, hstates, hq, hout⟩
    · intro hd
      obtain ⟨ds, ps, q, hstates, hq, hout⟩ : ∃ ds ps q, routePair u pred w.route = some (ds, ps) ∧
          cycleQuote ds ps w.ain d = some q ∧ q.amountOut = w.aout := by
        rcases hd with rfl | ⟨-, ds, ps, q, -, hstates, hq, hout⟩
        · rw [hdir]
          simpa only [PaperCand.Requotes, hcyc] using hre
        · exact ⟨ds, ps, q, hstates, hq, hout⟩
      obtain ⟨-, -, -, hg⟩ := cycleQuote_spec hq
      refine ⟨w.route, hr, ?_⟩
      rw [if_pos hyes]
      refine ⟨ds, ps, q, hstates, hq, hout, ?_⟩
      show q.grossProfit = ((w.aout - w.ain).toNat : Int)
      rw [hg, hout, hgross]
      omega

theorem evalPoolPred_eq {u : PaperUniv} {st : UnivState} {i : Nat} {pred : Pred}
    {best : PaperOpp} (h : evalPoolPred u st i pred = some best) (hsome : best.opp.isSome = true) :
    best = evalLoop u st i pred := by
  unfold evalPoolPred at h
  split at h
  · exact absurd h (by simp)
  · simp only at h
    split at h
    · rename_i hnone
      rw [← Option.some.inj h] at hsome
      simp only at hsome
      rw [Option.isNone_iff_eq_none.mp hnone] at hsome
      exact absurd hsome (by simp)
    · exact (Option.some.inj h).symm

/-- The record of a run that reports is the one of its winner. -/
theorem evalLoop_winner {u : PaperUniv} {st : UnivState} {i : Nat} {pred : Pred}
    {pre post : List PaperCand} {w : PaperCand} (hsplit : paperCands u st i pred = pre ++ w :: post)
    (hwins : WinsAt PaperCand.beats pre w post) :
    evalLoop u st i pred = recordOf i w (lastDir w post) := by
  rw [evalLoop_eq, hsplit]
  refine foldl_takeCand ?_ hwins
  intro c hc
  rw [← hsplit] at hc
  exact (mem_paperCands hc).2.1

theorem paperCands_ne_nil {u : PaperUniv} {st : UnivState} {i : Nat} {pred : Pred}
    (hsome : (evalLoop u st i pred).opp.isSome = true) : paperCands u st i pred ≠ [] := by
  intro hnil
  rw [evalLoop_eq, hnil] at hsome
  exact absurd hsome (by simp [startRecord, PaperOpp.zero])

/-- A reported opportunity comes from an evaluation on S'. -/
theorem paperEvalTrigger_reported {u : PaperUniv} {st : UnivState} {i : Nat}
    {n : Option HotTrigger} {best : PaperOpp} {o : Opportunity}
    (h : paperEvalTrigger u st i n = some best) (ho : best.opp = some o) :
    ∃ pred, n.bind (predictTrigger u.toLiveUniv i) = some pred ∧
      evalPoolPred u st i pred = some best := by
  unfold paperEvalTrigger at h
  split at h
  · exact absurd h (by simp)
  · cases hpred : n.bind (predictTrigger u.toLiveUniv i) with
    | none =>
      rw [hpred] at h
      rw [← Option.some.inj h] at ho
      exact absurd ho (by simp [PaperOpp.zero])
    | some pred =>
      rw [hpred] at h
      exact ⟨pred, rfl, h⟩

/-- One DLMM pool at price 1 and two Pump pools on its token, one above and one
below. -/
def twoPairs : Universe where
  pool :=
    [⟨protoDlmm, 1, mintSol, 0, 0, 0, one_ne_mintSol⟩, ⟨protoPump, 1, mintSol, 1, 0, 0, one_ne_mintSol⟩,
     ⟨protoPump, 1, mintSol, 2, 0, 0, one_ne_mintSol⟩]
  route := []
  rindex := List.replicate 24 0
  protoMask := 0
  poolCap := 4
  routeCap := 8

def oneBin : DlmmState where
  activeId := 0
  binStep := 10
  status := 0
  parameters := default
  vParameters := default
  reserveX := 1000000000000
  reserveY := 1000000000000
  bins := [⟨0, 1000000000000, 1000000000000, 0⟩]
  nowTs := 0

def twoPairsLive (routes : Universe) : PaperUniv where
  tbl := routes.pool.map liveMetaOf
  dlmm := ⟨[hotOfState oneBin], 1⟩
  pump :=
    [none, some ⟨100000000000, 120000000000, 0, 20, 5, 0, 0, 0⟩,
     some ⟨100000000000, 90000000000, 0, 20, 5, 0, 0, 0⟩]
  routes := routes
  stateVersion := 7
  extraLive := []

def noExtra : UnivState := ⟨[], [], 0⟩

/-- A thousand units sold into the DLMM pool. -/
def smallSwap : HotTrigger := ⟨protoDlmm, ⟨1000, 0, 1⟩, ⟨0, 0, 0⟩⟩

/-- A thousand units sold into the first Pump pool: only its own pair is sized. -/
def smallSell : HotTrigger := ⟨protoPump, ⟨0, 0, 0⟩, ⟨1000, 0, pumpDirBaseToQuote⟩⟩

/-- The amount a reported pair re-quotes to, in the reported direction. -/
def pairRequote (u : PaperUniv) (pred : Pred) (o : Opportunity) : Option UInt64 :=
  (u.routes.route[o.routeId]?).bind fun r =>
  (routePair u pred r).bind fun p =>
  (cycleQuote p.1 p.2 o.amountIn o.direction).map (·.amountOut)

end ShredArb.Paper
