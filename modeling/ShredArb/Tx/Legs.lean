/-
  ShredArb.Tx.Legs — what an overlay is made of.

  `txo_apply` folds the exact legs of its pool and venue over the state before;
  `txo_bind_watched` and `txo_stamp_n` decide whether it may.

  Main results:
    * `applyDlmmLegs_ok`, `applyPumpLegs_ok`, `txoApply_ok` — an overlay is a fold
      of its legs,
    * `ranLegs_of_ok` — the legs an overlay ran,
    * `txExact_spec` — what TX_EXACT says of the legs.
-/
import ShredArb.Tx.Overlay
import Mathlib.Data.List.TakeWhile

namespace ShredArb.Tx

open ShredArb.Dlmm ShredArb.Pump ShredArb.Univ

/-! ## §1. The overlay is a fold. -/

/-- The exact legs on a pool, of one venue. -/
def legsOf (ov : TxOverlay) (pool : Mint) (proto : UInt8) : List Leg :=
  ov.legs.filter fun l => l.at pool && l.proto == proto

/-- One DLMM leg. -/
def dlmmLeg (s : DlmmState) (l : Leg) : Option DlmmState :=
  (dlmmApplySwap s ⟨l.amountIn, 0, l.direction⟩).map (·.1)

/-- One Pump leg. -/
def pumpLeg (s : PumpState) (l : Leg) : Option PumpState :=
  (pumpApplySwap s ⟨l.amountIn, 0, l.direction⟩).map (·.1)

theorem skips_iff {l : Leg} {pool : Mint} {proto : UInt8} :
    (l.at pool = false ∨ l.proto ≠ proto) ↔ ¬(l.at pool && l.proto == proto) = true := by
  rw [Bool.and_eq_true, beq_iff_eq, not_and_or, Bool.not_eq_true]

theorem applyDlmmLegs_ok {pool : Mint} (ls : List Leg) : ∀ {cur : DlmmState} {ov ov' : TxOverlay},
    ov.sDlmm = some cur → applyDlmmLegs pool ls cur ov = (true, ov') →
    ∃ s, (ls.filter fun l => l.at pool && l.proto == protoDlmm).foldlM dlmmLeg cur = some s ∧
      ov'.sDlmm = some s := by
  induction ls with
  | nil =>
    intro cur ov ov' hs h
    obtain ⟨-, rfl⟩ := Prod.mk.inj h
    exact ⟨cur, rfl, hs⟩
  | cons l ls ih =>
    intro cur ov ov' hs h
    rw [applyDlmmLegs] at h
    split at h
    · rename_i hskip
      rw [List.filter_cons, if_neg (skips_iff.mp hskip)]
      exact ih hs h
    · rename_i hkeep
      rw [List.filter_cons, if_pos (not_not.mp (mt skips_iff.mpr hkeep)), List.foldlM_cons]
      split at h
      · exact absurd (Prod.mk.inj h).1 (by simp)
      · split at h
        · exact absurd (Prod.mk.inj h).1 (by simp)
        · rename_i next res happly
          obtain ⟨s, hfold, hov⟩ := ih rfl h
          refine ⟨s, ?_, hov⟩
          rw [dlmmLeg, happly]
          exact hfold

theorem applyPumpLegs_ok {pool : Mint} (ls : List Leg) : ∀ {cur : PumpState} {ov ov' : TxOverlay},
    ov.sPump = some cur → applyPumpLegs pool ls cur ov = (true, ov') →
    ∃ s, (ls.filter fun l => l.at pool && l.proto == protoPump).foldlM pumpLeg cur = some s ∧
      ov'.sPump = some s := by
  induction ls with
  | nil =>
    intro cur ov ov' hs h
    obtain ⟨-, rfl⟩ := Prod.mk.inj h
    exact ⟨cur, rfl, hs⟩
  | cons l ls ih =>
    intro cur ov ov' hs h
    rw [applyPumpLegs] at h
    split at h
    · rename_i hskip
      rw [List.filter_cons, if_neg (skips_iff.mp hskip)]
      exact ih hs h
    · rename_i hkeep
      rw [List.filter_cons, if_pos (not_not.mp (mt skips_iff.mpr hkeep)), List.foldlM_cons]
      split at h
      · exact absurd (Prod.mk.inj h).1 (by simp)
      · rename_i next res happly
        obtain ⟨s, hfold, hov⟩ := ih rfl h
        refine ⟨s, ?_, hov⟩
        rw [pumpLeg, happly]
        exact hfold

/-- **An overlay that applies is the fold of the legs on its pool.** -/
theorem txoApply_ok {ov ov' : TxOverlay} {pool : Mint} {proto : UInt8} {ds : Option DlmmState}
    {ps : Option PumpState} (h : txoApply ov pool proto ds ps = (true, ov')) :
    (proto = protoDlmm ∧ ∃ before s, ds = some before ∧
        (legsOf ov pool protoDlmm).foldlM dlmmLeg before = some s ∧ ov'.sDlmm = some s) ∨
      (proto = protoPump ∧ ∃ before s, ps = some before ∧
        (legsOf ov pool protoPump).foldlM pumpLeg before = some s ∧ ov'.sPump = some s) := by
  unfold txoApply at h
  split at h
  · exact absurd (Prod.mk.inj h).1 (by simp)
  · split at h
    · rename_i before hd
      obtain ⟨s, hfold, hs⟩ := applyDlmmLegs_ok ov.legs rfl h
      exact Or.inl ⟨by simpa using hd, before, s, rfl, hfold, hs⟩
    · rename_i before hp _
      obtain ⟨s, hfold, hs⟩ := applyPumpLegs_ok ov.legs rfl h
      exact Or.inr ⟨by simpa using hp, before, s, rfl, hfold, hs⟩
    · exact absurd (Prod.mk.inj h).1 (by simp)

theorem stamped_legs (ov : TxOverlay) (nix : SwapIx) (pool : Mint) :
    (txoStampN (txoBindWatched ov pool) nix).legs = ov.legs.map (stampLeg ov.nExact nix) := by
  have hbind : (txoBindWatched ov pool).legs = ov.legs ∧
      (txoBindWatched ov pool).nExact = ov.nExact := by
    unfold txoBindWatched
    simp only
    split
    · exact ⟨rfl, rfl⟩
    · split <;> exact ⟨rfl, rfl⟩
  unfold txoStampN
  simp only
  rw [← hbind.1, ← hbind.2]
  split <;> rfl

/-- The legs of the pool after the stamp. -/
theorem legsOf_stamp (ov : TxOverlay) (nix : SwapIx) (pool : Mint) (proto : UInt8) :
    legsOf (txoStampN (txoBindWatched ov pool) nix) nix.pool proto
      = (legsOf ov nix.pool proto).map (stampLeg ov.nExact nix) := by
  have hkeep : ∀ l : Leg, ((stampLeg ov.nExact nix l).at nix.pool &&
      (stampLeg ov.nExact nix l).proto == proto) = (l.at nix.pool && l.proto == proto) := by
    intro l
    unfold stampLeg
    split <;> rfl
  rw [legsOf, stamped_legs, legsOf, List.filter_map]
  congr 2
  funext l
  exact hkeep l

/-- The swaps `txo_apply` hands to the kernel, in order: amount and direction.
The DLMM loop stops at a leg without a direction. -/
def ranLegs (ov : TxOverlay) (pool : Mint) (proto : UInt8) : List (UInt64 × UInt8) :=
  ((legsOf ov pool proto).takeWhile fun l => l.haveDir || proto != protoDlmm).map
    fun l => (l.amountIn, l.direction)

theorem applyDlmmLegs_dirs {pool : Mint} (ls : List Leg) :
    ∀ {cur : DlmmState} {ov ov' : TxOverlay}, applyDlmmLegs pool ls cur ov = (true, ov') →
    ∀ l ∈ ls.filter fun l => l.at pool && l.proto == protoDlmm, l.haveDir = true := by
  induction ls with
  | nil => exact fun _ l hl => absurd hl (by simp)
  | cons l ls ih =>
    intro cur ov ov' h
    rw [applyDlmmLegs] at h
    split at h
    · rename_i hskip
      rw [List.filter_cons, if_neg (skips_iff.mp hskip)]
      exact ih h
    · rename_i hkeep
      rw [List.filter_cons, if_pos (not_not.mp (mt skips_iff.mpr hkeep))]
      split at h
      · exact absurd (Prod.mk.inj h).1 (by simp)
      · rename_i hdir
        split at h
        · exact absurd (Prod.mk.inj h).1 (by simp)
        · intro l' hl'
          rcases List.mem_cons.mp hl' with rfl | hl'
          · exact Bool.eq_true_of_not_eq_false hdir
          · exact ih h l' hl'

/-- **An overlay that applies ran every leg of its pool and venue.** -/
theorem ranLegs_of_ok {ov ov' : TxOverlay} {pool : Mint} {proto : UInt8} {ds : Option DlmmState}
    {ps : Option PumpState} (h : txoApply ov pool proto ds ps = (true, ov')) :
    ranLegs ov pool proto = (legsOf ov pool proto).map fun l => (l.amountIn, l.direction) := by
  have hall : ∀ l ∈ legsOf ov pool proto, (l.haveDir || proto != protoDlmm) = true := by
    intro l hl
    by_cases hp : proto = protoDlmm
    · subst hp
      unfold txoApply at h
      split at h
      · exact absurd (Prod.mk.inj h).1 (by simp)
      · split at h
        · rw [applyDlmmLegs_dirs ov.legs h l hl]
          rfl
        · rename_i hp' _
          exact absurd hp' (by decide)
        · exact absurd (Prod.mk.inj h).1 (by simp)
    · rw [Bool.or_eq_true, bne_iff_ne]
      exact Or.inr hp
  rw [ranLegs, List.takeWhile_eq_self_iff.mpr hall]

/-! ## §2. TX_EXACT. -/

/-- A bound and stamped overlay is exact only in the class EXACT. -/
theorem klass_of_txExact {ov : TxOverlay} {pool : Mint} {nix : SwapIx}
    (h : (txoStampN (txoBindWatched ov pool) nix).txExact = true) :
    (txoStampN (txoBindWatched ov pool) nix).klass = .exact := by
  have hbind : (txoBindWatched ov pool).txExact = true → (txoBindWatched ov pool).klass = .exact := by
    unfold txoBindWatched
    simp only
    split
    · exact fun h => absurd h (by simp)
    · split
      · exact fun _ => rfl
      · exact fun h => absurd h (by simp)
  unfold txoStampN at h ⊢
  simp only at h ⊢
  split at h
  · exact absurd h (by simp)
  · rename_i hany
    rw [if_neg hany]
    exact hbind h

/-- What TX_EXACT says: no leg of unknown pricing is on the pool, and every exact
leg on the pool of N has a direction. -/
theorem txExact_spec {ov : TxOverlay} {pool : Mint} {nix : SwapIx}
    (h : (txoStampN (txoBindWatched ov pool) nix).txExact = true) :
    (∀ l ∈ ov.legs, l.pool = pool → l.unknownPricing = false) ∧
      ∀ l ∈ ov.legs, (stampLeg ov.nExact nix l).at nix.pool = true →
        (stampLeg ov.nExact nix l).haveDir = true := by
  have hlegs := stamped_legs ov nix pool
  unfold txoStampN at h hlegs
  simp only at h hlegs
  split at h
  · exact absurd h (by simp)
  · rename_i hany
    rw [if_neg hany] at hlegs
    constructor
    · intro l hl hpool
      have hunk : (ov.legs.any fun l => l.pool == pool && l.unknownPricing) = false := by
        by_contra hc
        rw [Bool.not_eq_false] at hc
        unfold txoBindWatched at h
        simp only at h
        rw [hc, if_pos (by simp)] at h
        exact absurd h (by simp)
      have hnot := List.any_eq_false.mp hunk l hl
      rw [hpool, beq_self_eq_true, Bool.true_and] at hnot
      exact Bool.eq_false_of_not_eq_true hnot
    · intro l hl hat
      have hmem : stampLeg ov.nExact nix l ∈ ov.legs.map (stampLeg ov.nExact nix) :=
        List.mem_map_of_mem hl
      rw [← hlegs] at hmem
      have hnot := List.any_eq_false.mp (Bool.eq_false_of_not_eq_true hany) _ hmem
      rw [hat, Bool.true_and, Bool.not_eq_true'] at hnot
      exact Bool.eq_true_of_not_eq_false hnot

end ShredArb.Tx
