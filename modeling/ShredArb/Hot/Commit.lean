/-
  ShredArb.Hot.Commit — committing a trigger to the canonical state
  (`hot_commit` of `arb-core/src/hot.c`).

  A commit rewrites the state of ONE pool and counts one version; a commit that
  fails has written nothing.

  Main results:
    * `hotCommit_ok_iff` — it succeeds exactly when S' exists,
    * `hotCommit_predicted` — it installs S',
    * `hotCommit_frame` — and leaves every other pool alone.
-/
import ShredArb.Hot.Kernel
import ShredArb.Dlmm.CacheRefinement

namespace ShredArb.Hot

open ShredArb.Dlmm ShredArb.Pump ShredArb.Univ

/-! ## §1. The commit. -/

/-- `hot_commit`: whether it returned 0, and the universe it leaves. -/
def hotCommit (u : LiveUniv) (i : Nat) (n : HotTrigger) : Bool × LiveUniv :=
  if i ≥ u.n then (false, u)
  else if u.protocol i = some protoDlmm ∧ n.protocol = protoDlmm then
    match dlmmCachePredict u.dlmm i n.dlmm with
    | none => (false, u)
    | some (spec, _) =>
      match dlmmCacheCommit u.dlmm i spec with
      | none => (false, u)
      | some dlmm => (true, { u with dlmm := dlmm, stateVersion := u.stateVersion + 1 })
  else if u.protocol i = some protoPump ∧ n.protocol = protoPump then
    match u.livePump i with
    | none => (false, u)
    | some s =>
      match pumpApplySwap s n.pump with
      | none => (false, u)
      | some (after, _) =>
          (true, { u with
            pump := u.pump.set i (some after)
            stateVersion := u.stateVersion + 1 })
  else (false, u)

/-! ## §2. What it writes. -/

theorem foldl_storeBin_occupied (bins : List DlmmBin) :
    ∀ h : DlmmPoolHot, (bins.foldl storeBin h).occupied = h.occupied := by
  induction bins with
  | nil => intro h; rfl
  | cons b bins ih =>
    intro h
    rw [List.foldl_cons, ih, storeBin]
    split <;> rfl

theorem dlmmStateIntoHot_occupied (s : DlmmState) (h : DlmmPoolHot) :
    (dlmmStateIntoHot s h).occupied = h.occupied := by
  rw [dlmmStateIntoHot, foldl_storeBin_occupied]

theorem dlmmCachePredict_occupied {c : DlmmCache} {i : Nat} {ix : DlmmSwapIx} {spec : DlmmPoolHot}
    {res : DlmmApplyResult} (h : dlmmCachePredict c i ix = some (spec, res)) :
    spec.occupied = true ∧ ∃ src, c.pool[i]? = some src ∧ src.occupied = true := by
  obtain ⟨src, hsrc, h⟩ := Option.bind_eq_some_iff.mp h
  obtain ⟨p, -, heq⟩ := Option.map_eq_some_iff.mp h
  obtain ⟨hget, hocc⟩ := dlmmCacheGet_eq_some.mp hsrc
  obtain ⟨rfl, -⟩ := Prod.mk.inj heq
  exact ⟨by rw [dlmmStateIntoHot_occupied, hocc], src, hget, hocc⟩

/-- A predicted entry can always be committed. -/
theorem dlmmCacheCommit_of_predict {c : DlmmCache} {i : Nat} {ix : DlmmSwapIx}
    {spec : DlmmPoolHot} {res : DlmmApplyResult} (h : dlmmCachePredict c i ix = some (spec, res)) :
    dlmmCacheCommit c i spec
      = some { pool := c.pool.set i spec, n := if i + 1 > c.n then i + 1 else c.n } := by
  obtain ⟨hspec, src, hget, hocc⟩ := dlmmCachePredict_occupied h
  unfold dlmmCacheCommit
  rw [hget]
  simp only [hocc, hspec, Bool.not_true, Bool.or_self, Bool.false_eq_true, if_false]

/-- The universe a successful commit leaves. -/
def committed (u : LiveUniv) (i : Nat) (pred : Pred) : LiveUniv :=
  { u with
    dlmm := match pred.dlmm with
      | none => u.dlmm
      | some spec =>
          { pool := u.dlmm.pool.set i spec
            n := if i + 1 > u.dlmm.n then i + 1 else u.dlmm.n }
    pump := match pred.pump with
      | none => u.pump
      | some s' => u.pump.set i (some s')
    stateVersion := u.stateVersion + 1 }

theorem hotCommit_of_predict {u : LiveUniv} {i : Nat} {n : HotTrigger} {pred : Pred}
    (h : predictTrigger u i n = some pred) : hotCommit u i n = (true, committed u i pred) := by
  have hlt : ∀ {proto : UInt8}, u.protocol i = some proto → ¬i ≥ u.n := by
    intro proto hp
    obtain ⟨m, hm, -⟩ := Option.map_eq_some_iff.mp hp
    exact Nat.not_le.mpr (List.getElem?_eq_some_iff.mp hm).1
  unfold predictTrigger at h
  unfold hotCommit
  by_cases hd : u.protocol i = some protoDlmm ∧ n.protocol = protoDlmm
  · rw [if_pos hd] at h
    obtain ⟨⟨spec, res⟩, hp, rfl⟩ := Option.map_eq_some_iff.mp h
    rw [if_neg (hlt hd.1), if_pos hd, hp]
    simp only
    rw [dlmmCacheCommit_of_predict hp]
    rfl
  · rw [if_neg hd] at h
    by_cases hpu : u.protocol i = some protoPump ∧ n.protocol = protoPump
    · rw [if_pos hpu] at h
      obtain ⟨s, hs, h⟩ := Option.bind_eq_some_iff.mp h
      obtain ⟨⟨after, res⟩, hp, rfl⟩ := Option.map_eq_some_iff.mp h
      rw [if_neg (hlt hpu.1), if_neg hd, if_pos hpu, hs]
      simp only [hp]
      rfl
    · rw [if_neg hpu] at h
      exact absurd h (by simp)

/-- When S' does not exist, nothing is written. -/
theorem hotCommit_of_predict_none {u : LiveUniv} {i : Nat} {n : HotTrigger}
    (h : predictTrigger u i n = none) : hotCommit u i n = (false, u) := by
  unfold predictTrigger at h
  unfold hotCommit
  split
  · rfl
  · split
    · rename_i hd
      rw [if_pos hd, Option.map_eq_none_iff] at h
      rw [h]
    · rename_i hd
      rw [if_neg hd] at h
      split
      · rename_i hp
        rw [if_pos hp] at h
        split
        · rfl
        · rename_i s hs
          rw [hs, Option.bind_some, Option.map_eq_none_iff] at h
          rw [h]
      · rfl

theorem hotCommit_ok_iff (u : LiveUniv) (i : Nat) (n : HotTrigger) :
    (hotCommit u i n).1 = true ↔ (predictTrigger u i n).isSome = true := by
  cases h : predictTrigger u i n with
  | none => rw [hotCommit_of_predict_none h]; rfl
  | some pred => rw [hotCommit_of_predict h]; rfl

/-! ## §3. Where the prediction shows. -/

/-- The pool a prediction is for. -/
theorem predictTrigger_spec {u : LiveUniv} {i : Nat} {n : HotTrigger} {pred : Pred}
    (h : predictTrigger u i n = some pred) :
    (∃ spec res, pred = ⟨i, some spec, none⟩ ∧
        dlmmCachePredict u.dlmm i n.dlmm = some (spec, res)) ∨
      ∃ s s' res, pred = ⟨i, none, some s'⟩ ∧ u.livePump i = some s ∧
        pumpApplySwap s n.pump = some (s', res) := by
  unfold predictTrigger at h
  split at h
  · obtain ⟨⟨spec, res⟩, hp, rfl⟩ := Option.map_eq_some_iff.mp h
    exact Or.inl ⟨spec, res, rfl, hp⟩
  · split at h
    · obtain ⟨s, hs, h⟩ := Option.bind_eq_some_iff.mp h
      obtain ⟨⟨s', res⟩, hp, rfl⟩ := Option.map_eq_some_iff.mp h
      exact Or.inr ⟨s, s', res, rfl, hs, hp⟩
    · exact absurd h (by simp)

theorem dlmmCacheGet_set_ne {c : DlmmCache} {i j m : Nat} (h : DlmmPoolHot) (hij : j ≠ i) :
    dlmmCacheGet { pool := c.pool.set i h, n := m } j = dlmmCacheGet c j := by
  rw [dlmmCacheGet, dlmmCacheGet]
  show ((c.pool.set i h)[j]?).bind _ = _
  rw [List.getElem?_set_ne (Ne.symm hij)]

theorem livePump_set_ne {u : LiveUniv} {i j : Nat} (s : Option PumpState) (hij : j ≠ i) :
    ((u.pump.set i s)[j]?).join = u.livePump j := by
  rw [List.getElem?_set_ne (Ne.symm hij)]
  rfl

/-- After the commit the canonical DLMM states are the predicted ones. -/
theorem committed_dlmm {u : LiveUniv} {i : Nat} {n : HotTrigger} {pred : Pred}
    (h : predictTrigger u i n = some pred) (j : Nat) :
    dlmmCacheGet (committed u i pred).dlmm j = predDlmm u j pred := by
  rcases predictTrigger_spec h with ⟨spec, res, rfl, hp⟩ | ⟨s, s', res, rfl, -, -⟩
  · obtain ⟨hocc, src, hget, -⟩ := dlmmCachePredict_occupied hp
    by_cases hij : j = i
    · subst hij
      rw [predDlmm, if_pos ⟨rfl, rfl⟩]
      exact (dlmmCacheGet_set (List.getElem?_eq_some_iff.mp hget).1 hocc).mpr rfl
    · rw [predDlmm, if_neg (fun hh => hij hh.2.symm)]
      exact dlmmCacheGet_set_ne spec hij
  · rw [predDlmm, if_neg (by simp)]
    rfl

/-- And so are the Pump states. -/
theorem committed_pump {u : LiveUniv} {i : Nat} {n : HotTrigger} {pred : Pred}
    (h : predictTrigger u i n = some pred) (j : Nat) :
    (committed u i pred).livePump j = predPump u j pred := by
  rcases predictTrigger_spec h with ⟨spec, res, rfl, -⟩ | ⟨s, s', res, rfl, hs, -⟩
  · rw [predPump, if_neg (by simp)]
    rfl
  · by_cases hij : j = i
    · subst hij
      rw [predPump, if_pos ⟨rfl, rfl⟩]
      have hlt : j < u.pump.length := by
        refine Nat.lt_of_not_le fun hle => ?_
        rw [LiveUniv.livePump, List.getElem?_eq_none hle] at hs
        exact absurd hs (by simp)
      show ((u.pump.set j (some s'))[j]?).join = some s'
      rw [List.getElem?_set_self hlt]
      rfl
    · rw [predPump, if_neg (fun hh => hij hh.2.symm)]
      exact livePump_set_ne (some s') hij

/-- **A commit leaves the other pools alone**, and the routes and metadata. -/
theorem hotCommit_frame {u : LiveUniv} {i j : Nat} {n : HotTrigger} {pred : Pred}
    (h : predictTrigger u i n = some pred) (hij : j ≠ i) :
    dlmmCacheGet (committed u i pred).dlmm j = dlmmCacheGet u.dlmm j ∧
      (committed u i pred).livePump j = u.livePump j := by
  have hpool : pred.poolIdx = i := by
    rcases predictTrigger_spec h with ⟨_, _, rfl, -⟩ | ⟨_, _, _, rfl, -⟩ <;> rfl
  rw [committed_dlmm h, committed_pump h, predDlmm, predPump,
    if_neg (fun hh => hij (hpool ▸ hh.2).symm), if_neg (fun hh => hij (hpool ▸ hh.2).symm)]
  exact ⟨rfl, rfl⟩

end ShredArb.Hot
