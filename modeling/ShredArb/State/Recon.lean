/-
  ShredArb.State.Recon — the local state against an authoritative one
  (`state_recon_eq_dlmm`, `state_recon_eq_pump` of `arb-core/src/state003.c`).

  The DLMM verdict converts the authoritative state into a LOCAL entry and
  compares.  `dlmm_cache_put` clears its entry and centres the window before the
  same conversion; here the local entry is whatever the stack held, and its
  window and live flags decide the verdict as soon as the bins are compared.

  Main results:
    * `stateReconEqDlmm_fresh` — the verdict on an entry set up as
      `dlmm_cache_put` sets it up,
    * `stateReconEqDlmm_faithful_iff` — when the verdict does not depend on it,
    * `recon_eq_quotes` — what equality says about quotes.
-/
import ShredArb.State.Sendable
import ShredArb.Dlmm.EconEq
import Mathlib.Data.Finset.Card

namespace ShredArb.State

open ShredArb.Dlmm ShredArb.Pump ShredArb.Univ ShredArb.Hot

/-! ## §1. The verdicts. -/

/-- `DLMM_BINS_MAX`, the length of the `bins` array. -/
abbrev dlmmBinsMax : Nat := 210

/-- `state_recon_eq_dlmm`; `scratch` is what its local entry holds at first. -/
def stateReconEqDlmm (scratch : RawHot) (u : LiveUniv) (i : Nat) (auth : DlmmState) : Bool :=
  if i ≥ u.n then false
  else match dlmmCacheGet u.dlmm i with
    | none => false
    | some h => rawEconEq h.raw (rawIntoHot auth scratch)

/-- `state_recon_eq_pump`. -/
def stateReconEqPump (u : LiveUniv) (i : Nat) (auth : PumpState) : Bool :=
  if i ≥ u.n then false
  else match u.livePump i with
    | none => false
    | some p => p.reserveBase == auth.reserveBase && p.reserveQuote == auth.reserveQuote

/-! ## §2. A window no bin falls into. -/

/-- The window of width 33 an id falls into, counted from the one around 0. -/
def windowOf (id : Int32) : Int := (id.toInt + dlmmCacheK) / dlmmCacheWindow

theorem slotAround_eq_none {k : Nat} (hk : k ≤ dlmmBinsMax) {id : Int32} (h : windowOf id ≠ k) :
    slotAround (Int32.ofNat (dlmmCacheWindow * k)) id = none := by
  have hc : (Int32.ofNat (dlmmCacheWindow * k)).toInt = dlmmCacheWindow * k := by
    have hsmall : dlmmCacheWindow * k < 2 ^ 31 := by
      simp only [dlmmBinsMax, dlmmCacheWindow] at hk ⊢
      omega
    rw [Int32.toInt_ofNat_of_lt hsmall]
    rfl
  unfold slotAround dlmmHotSlot
  rw [dif_neg]
  show ¬(0 ≤ id.toInt - ((Int32.ofNat (dlmmCacheWindow * k)).toInt - dlmmCacheK) ∧
    id.toInt - ((Int32.ofNat (dlmmCacheWindow * k)).toInt - dlmmCacheK) < dlmmCacheWindow)
  rw [hc]
  unfold windowOf at h
  simp only [dlmmCacheK, dlmmCacheWindow] at h ⊢
  omega

/-- 211 disjoint windows, 210 bins. -/
theorem exists_free_window {bins : List DlmmBin} (h : bins.length ≤ dlmmBinsMax) :
    ∃ center, ∀ b ∈ bins, slotAround center b.id = none := by
  classical
  let hit : Finset Nat := (bins.map fun b => (windowOf b.id).toNat).toFinset
  have hcard : hit.card < (Finset.range (dlmmBinsMax + 1)).card := by
    have hle := List.toFinset_card_le (bins.map fun b => (windowOf b.id).toNat)
    rw [List.length_map] at hle
    rw [Finset.card_range]
    exact Nat.lt_succ_of_le (Nat.le_trans hle h)
  obtain ⟨k, hk, hfree⟩ := Finset.exists_mem_notMem_of_card_lt_card hcard
  rw [Finset.mem_range] at hk
  refine ⟨Int32.ofNat (dlmmCacheWindow * k), fun b hb => slotAround_eq_none (by omega) fun heq => ?_⟩
  apply hfree
  rw [List.mem_toFinset, List.mem_map]
  exact ⟨b, hb, by rw [heq, Int.toNat_natCast]⟩

/-! ## §3. The DLMM verdict. -/

/-- The verdict the cache would give: the cached pool against the entry
`dlmm_cache_put` would install. -/
def CachedEq (u : LiveUniv) (i : Nat) (auth : DlmmState) : Prop :=
  ∃ h, dlmmCacheGet u.dlmm i = some h ∧ dlmmHotEconEq h (hotOfState auth) = true

/-- The comparison reaches the bins: a pool is cached, and the eight scalars of
the authoritative state are its own. -/
def ReachesBins (u : LiveUniv) (i : Nat) (auth : DlmmState) : Prop :=
  ∃ h, dlmmCacheGet u.dlmm i = some h ∧ scalarsEq h.raw (hotOfState auth).raw = true

/-- The entry `dlmm_cache_put` converts into. -/
def freshEntry (auth : DlmmState) : RawHot :=
  ({ DlmmPoolHot.zero with occupied := true, windowCenter := auth.activeId } : DlmmPoolHot).raw

/-- On an entry set up as `dlmm_cache_put` does, the verdict is the cache's. -/
theorem stateReconEqDlmm_fresh {u : LiveUniv} {i : Nat} (hi : i < u.n) (auth : DlmmState) :
    stateReconEqDlmm (freshEntry auth) u i auth = true ↔ CachedEq u i auth := by
  unfold stateReconEqDlmm CachedEq
  rw [if_neg (Nat.not_le.mpr hi)]
  cases dlmmCacheGet u.dlmm i with
  | none => simp
  | some h =>
    simp only [Option.some.injEq, exists_eq_left']
    rw [dlmmHotEconEq, rawEconEq_hotOfState]
    rfl

/-- The scalars do not depend on the scratch entry. -/
theorem scalarsEq_scratch (h : DlmmPoolHot) (auth : DlmmState) (scratch : RawHot) :
    scalarsEq h.raw (rawIntoHot auth scratch) = scalarsEq h.raw (hotOfState auth).raw := by
  have hfresh : scalarsEq h.raw (hotOfState auth).raw
      = scalarsEq h.raw (rawIntoHot auth (freshEntry auth)) := by
    rw [freshEntry, rawIntoHot_raw]
    rfl
  rw [hfresh]
  exact scalarsEq_rawIntoHot h.raw auth scratch (freshEntry auth)

section Scratch

variable {u : LiveUniv} {i : Nat} {auth : DlmmState} (hi : i < u.n)

include hi

/-- Decided by the scalars, the verdict is the cache's whatever the scratch. -/
theorem stateReconEqDlmm_of_scalars (h : ¬ReachesBins u i auth) (scratch : RawHot) :
    stateReconEqDlmm scratch u i auth = true ↔ CachedEq u i auth := by
  unfold stateReconEqDlmm CachedEq
  unfold ReachesBins at h
  rw [if_neg (Nat.not_le.mpr hi)]
  cases hget : dlmmCacheGet u.dlmm i with
  | none => simp
  | some hot =>
    rw [hget] at h
    have hne : scalarsEq hot.raw (hotOfState auth).raw ≠ true := fun h' => h ⟨hot, rfl, h'⟩
    simp only [Option.some.injEq, exists_eq_left', dlmmHotEconEq, rawEconEq_iff, scalarsEq_scratch]
    exact ⟨fun h' => absurd h'.1 hne, fun h' => absurd h'.1 hne⟩

/-- **Past the scalars, one scratch entry answers 1 and another 0.** -/
theorem stateReconEqDlmm_both (h : ReachesBins u i auth) (hbins : auth.bins.length ≤ dlmmBinsMax) :
    (∃ scratch, stateReconEqDlmm scratch u i auth = true) ∧
      ∃ scratch, stateReconEqDlmm scratch u i auth = false := by
  obtain ⟨hot, hget, hscalars⟩ := h
  obtain ⟨center, hfree⟩ := exists_free_window hbins
  have hverdict : ∀ scratch, stateReconEqDlmm scratch u i auth
      = rawEconEq hot.raw (rawIntoHot auth scratch) := by
    intro scratch
    unfold stateReconEqDlmm
    rw [if_neg (Nat.not_le.mpr hi), hget]
  constructor
  · -- the window is elsewhere and the slots are the cached ones
    refine ⟨{ hot.raw with windowCenter := center }, ?_⟩
    rw [hverdict, rawEconEq_iff]
    have hkeep := rawIntoHot_outside (s := auth) (h := { hot.raw with windowCenter := center }) hfree
    refine ⟨(scalarsEq_scratch hot auth _).trans hscalars, fun j => ?_⟩
    rw [hkeep]
    exact ⟨rfl, fun _ => rfl⟩
  · -- the window is elsewhere and no flag is 0 or 1
    refine ⟨{ hot.raw with windowCenter := center, live := fun _ => 2 }, ?_⟩
    rw [hverdict, Bool.eq_false_iff]
    intro heq
    have hkeep := rawIntoHot_outside (s := auth)
      (h := { hot.raw with windowCenter := center, live := fun _ => 2 }) hfree
    obtain ⟨-, hslots⟩ := rawEconEq_iff.mp heq
    have hlive := (hslots ⟨0, by decide⟩).1
    rw [hkeep] at hlive
    simp only [DlmmPoolHot.raw] at hlive
    split at hlive <;> exact absurd hlive (by decide)

end Scratch

/-- A refreshed pool is cached as the authoritative state. -/
theorem stateRefresh_cached {s : Managed} {i : Nat} {auth : DlmmState} {slot now now' : UInt64}
    (h : (stateRefresh s i auth slot now now').1 = .ok) :
    i < (stateRefresh s i auth slot now now').2.u.n ∧
      dlmmCacheGet (stateRefresh s i auth slot now now').2.u.dlmm i = some (hotOfState auth) := by
  unfold stateRefresh at h ⊢
  split at h
  · exact absurd h (by simp)
  · rename_i hidx
    rw [if_neg hidx]
    split at h
    · exact absurd h (by simp)
    · rename_i hproto
      rw [if_neg hproto]
      split at h
      · exact absurd h (by simp)
      · rename_i c hput
        rw [not_or, Nat.not_le] at hidx
        exact ⟨hidx.1, dlmmCachePut_get hput (hotOfState_occupied auth)⟩

/-- **The verdict is the cache's for every scratch entry exactly when it is
decided before the bins; right after a refresh with the same state it never is.** -/
theorem stateReconEqDlmm_faithful_iff {auth : DlmmState} (hbins : auth.bins.length ≤ dlmmBinsMax) :
    (∀ (u : LiveUniv) (i : Nat), i < u.n →
      ((∀ scratch, stateReconEqDlmm scratch u i auth = true ↔ CachedEq u i auth) ↔
        ¬ReachesBins u i auth)) ∧
    ∀ (s : Managed) (i : Nat) (slot now now' : UInt64),
      (stateRefresh s i auth slot now now').1 = .ok →
      CachedEq (stateRefresh s i auth slot now now').2.u i auth ∧
        ∃ scratch, stateReconEqDlmm scratch (stateRefresh s i auth slot now now').2.u i auth
          = false := by
  constructor
  · intro u i hi
    constructor
    · intro hall hreach
      obtain ⟨⟨s1, h1⟩, s0, h0⟩ := stateReconEqDlmm_both hi hreach hbins
      have := (hall s0).mpr ((hall s1).mp h1)
      rw [h0] at this
      exact Bool.false_ne_true this
    · intro hno scratch
      exact stateReconEqDlmm_of_scalars hi hno scratch
  · intro s i slot now now' hok
    obtain ⟨hi, hget⟩ := stateRefresh_cached hok
    have hself : dlmmHotEconEq (hotOfState auth) (hotOfState auth) = true := by
      refine rawEconEq_iff.mpr ⟨?_, fun j => ⟨rfl, fun _ => rfl⟩⟩
      simp only [scalarsEq, BEq.rfl, Bool.and_self]
    refine ⟨⟨_, hget, hself⟩, ?_⟩
    exact (stateReconEqDlmm_both hi ⟨_, hget, (rawEconEq_iff.mp hself).1⟩ hbins).2

/-- A pool whose active bin is far from the bin 0. -/
def farAuth : DlmmState where
  activeId := 1000
  binStep := 10
  status := 0
  parameters := default
  vParameters := default
  reserveX := 1000000000000
  reserveY := 1000000000000
  bins := [⟨1000, 1000000000000, 1000000000000, 0⟩]
  nowTs := 0

/-- One DLMM pool, not loaded yet. -/
def oneDlmm : LiveUniv where
  tbl := [⟨protoDlmm, 1, mintSol⟩]
  dlmm := ⟨[], 0⟩
  pump := []
  routes := twoPumps
  stateVersion := 0

/-- The universe after the pool's refresh at slot 5. -/
def oneDlmmRefreshed : LiveUniv :=
  (stateRefresh (stateMgrInit oneDlmm 0 fun _ => 0) 0 farAuth 5 1 1).2.u

theorem stateReconEqDlmm_faithful_iff_demo :
    farAuth.bins.length ≤ dlmmBinsMax ∧
      (stateRefresh (stateMgrInit oneDlmm 0 fun _ => 0) 0 farAuth 5 1 1).1 = .ok ∧
      ∃ scratch, stateReconEqDlmm scratch oneDlmmRefreshed 0 farAuth = false :=
  ⟨by decide, by decide, ((stateReconEqDlmm_faithful_iff (by decide)).2
    (stateMgrInit oneDlmm 0 fun _ => 0) 0 5 1 1 (by decide)).2⟩

/-- On a stack of zeros the window is around the bin 0: no bin of the pool is
compared, and the pool just refreshed does not match itself. -/
theorem stateReconEqDlmm_zero_scratch :
    (stateRefresh (stateMgrInit oneDlmm 0 fun _ => 0) 0 farAuth 5 1 1).1 = .ok ∧
      CachedEq oneDlmmRefreshed 0 farAuth ∧
      stateReconEqDlmm DlmmPoolHot.zero.raw oneDlmmRefreshed 0 farAuth = false := by
  refine ⟨by decide, ⟨hotOfState farAuth, ?_, by decide +kernel⟩, by decide +kernel⟩
  have hok : (stateRefresh (stateMgrInit oneDlmm 0 fun _ => 0) 0 farAuth 5 1 1).1 = .ok := by decide
  exact (stateRefresh_cached hok).2

/-! ## §4. Equal verdicts and equal quotes. -/

/-- What `state_recon_eq_pump` does not compare and a quote reads: the virtual
reserve, the fee rates, and whether the pool and each side of it are enabled. -/
structure PumpConfigEq (a b : PumpState) : Prop where
  virtualQuote : a.virtualQuote = b.virtualQuote
  lpFeeBps : a.lpFeeBps = b.lpFeeBps
  protocolFeeBps : a.protocolFeeBps = b.protocolFeeBps
  creatorFeeBps : a.creatorFeeBps = b.creatorFeeBps
  status : a.status = 0 ↔ b.status = 0
  buy : a.disabled &&& pumpDisableBuy = b.disabled &&& pumpDisableBuy
  sell : a.disabled &&& pumpDisableSell = b.disabled &&& pumpDisableSell

/-- What `dlmm_hot_econ_eq` does not compare and a quote reads: the static
parameters, and how far the volatility reference has decayed. -/
structure DlmmConfigEq (a b : DlmmPoolHot) : Prop where
  parameters : a.parameters = b.parameters
  decay : decayClass (dlmmHotToState a) = decayClass (dlmmHotToState b)

/-- The state with other switches. -/
def withSwitches (disabled status : UInt8) (s : PumpState) : PumpState :=
  { s with disabled := disabled, status := status }

def Branch.withSwitches (disabled status : UInt8) (b : Branch) : Branch :=
  { b with after := State.withSwitches disabled status b.after }

theorem pumpSell_withSwitches (disabled status : UInt8) (s : PumpState) (qeff amount : Nat) :
    pumpSell (withSwitches disabled status s) qeff amount
      = (pumpSell s qeff amount).map (Branch.withSwitches disabled status) := by
  obtain ⟨rb, rq, vq, lp, pr, cr, dis, st⟩ := s
  have hfees : ∀ n, splitFees n ⟨rb, rq, vq, lp, pr, cr, disabled, status⟩
      = splitFees n ⟨rb, rq, vq, lp, pr, cr, dis, st⟩ := fun _ => rfl
  show pumpSell ⟨rb, rq, vq, lp, pr, cr, disabled, status⟩ qeff amount = _
  unfold pumpSell
  dsimp only
  rw [hfees]
  cases splitFees (Word.wrap128 (qeff * amount) / (rb.toNat + amount))
      ⟨rb, rq, vq, lp, pr, cr, dis, st⟩ with
  | none => rfl
  | some fees =>
    rw [Option.bind_some, Option.bind_some]
    split_ifs <;> rfl

theorem pumpBuy_withSwitches (disabled status : UInt8) (s : PumpState) (qeff amount : Nat) :
    pumpBuy (withSwitches disabled status s) qeff amount
      = (pumpBuy s qeff amount).map (Branch.withSwitches disabled status) := by
  obtain ⟨rb, rq, vq, lp, pr, cr, dis, st⟩ := s
  have hfees : buyEffective ⟨rb, rq, vq, lp, pr, cr, disabled, status⟩ amount
      = buyEffective ⟨rb, rq, vq, lp, pr, cr, dis, st⟩ amount := rfl
  show pumpBuy ⟨rb, rq, vq, lp, pr, cr, disabled, status⟩ qeff amount = _
  unfold pumpBuy
  dsimp only
  rw [hfees]
  cases buyEffective ⟨rb, rq, vq, lp, pr, cr, dis, st⟩ amount with
  | none => rfl
  | some x =>
    rw [Option.bind_some, Option.bind_some]
    split_ifs <;> rfl

/-- **Pump states equal up to their switches, with the same sides open, quote the
same.** -/
theorem pumpQuoteExactIn_of_config {a b : PumpState} (hbase : a.reserveBase = b.reserveBase)
    (hquote : a.reserveQuote = b.reserveQuote) (h : PumpConfigEq a b) (ain : UInt64) (dir : UInt8) :
    pumpQuoteExactIn a ain dir = pumpQuoteExactIn b ain dir := by
  have hb : b = withSwitches b.disabled b.status a := by
    obtain ⟨rb, rq, vq, lp, pr, cr, dis, st⟩ := b
    simp only [withSwitches, hbase, hquote, h.virtualQuote, h.lpFeeBps, h.protocolFeeBps,
      h.creatorFeeBps]
  have hstatus : (b.status ≠ 0 ∨ ain = 0) = (a.status ≠ 0 ∨ ain = 0) := by
    rw [ne_eq, ne_eq, h.status]
  have hside : (b.disabled &&& (if dir = pumpDirQuoteToBase then pumpDisableBuy else pumpDisableSell))
      = (a.disabled &&& (if dir = pumpDirQuoteToBase then pumpDisableBuy else pumpDisableSell)) := by
    split
    · exact h.buy.symm
    · exact h.sell.symm
  have hbps : totalBps b = totalBps a := by
    rw [totalBps, totalBps, h.lpFeeBps, h.protocolFeeBps, h.creatorFeeBps]
  have heff : effectiveQuote b = effectiveQuote a := by
    rw [effectiveQuote, effectiveQuote, hbase, hquote, h.virtualQuote]
  have hbranch : ∀ qeff n, (if dir = pumpDirBaseToQuote then pumpSell b qeff n else pumpBuy b qeff n)
      = (if dir = pumpDirBaseToQuote then pumpSell a qeff n else pumpBuy a qeff n).map
          (Branch.withSwitches b.disabled b.status) := by
    intro qeff n
    conv_lhs => rw [hb]
    split
    · exact pumpSell_withSwitches _ _ a qeff n
    · exact pumpBuy_withSwitches _ _ a qeff n
  unfold pumpQuoteExactIn
  split
  · rfl
  · unfold pumpApplySwap
    simp only [hstatus, hside, hbps, heff, hbranch]
    generalize (a.disabled &&& if dir = pumpDirQuoteToBase then pumpDisableBuy else pumpDisableSell) = bit
    split
    · rfl
    · split
      · rfl
      · split
        · rfl
        · split
          · rfl
          · cases effectiveQuote a with
            | none => rfl
            | some qeff =>
              rw [Option.bind_some, Option.bind_some]
              cases (if dir = pumpDirBaseToQuote then pumpSell a qeff ain.toNat
                  else pumpBuy a qeff ain.toNat) with
              | none => rfl
              | some br =>
                rw [Option.map_some, Option.bind_some, Option.bind_some]
                by_cases hout : br.out = 0 ∨ br.out > 2 ^ 64 - 1 ∨ br.fees.total > 2 ^ 64 - 1
                · have hout' : (Branch.withSwitches b.disabled b.status br).out = 0 ∨
                      (Branch.withSwitches b.disabled b.status br).out > 2 ^ 64 - 1 ∨
                      (Branch.withSwitches b.disabled b.status br).fees.total > 2 ^ 64 - 1 := hout
                  rw [if_pos hout, if_pos hout']
                · have hout' : ¬((Branch.withSwitches b.disabled b.status br).out = 0 ∨
                      (Branch.withSwitches b.disabled b.status br).out > 2 ^ 64 - 1 ∨
                      (Branch.withSwitches b.disabled b.status br).fees.total > 2 ^ 64 - 1) := hout
                  have hmin : ∀ n : Nat, ¬ n < UInt64.toNat 0 := fun n => Nat.not_lt_zero n
                  rw [if_neg hout, if_neg hout', if_neg (hmin _), if_neg (hmin _)]
                  rfl

/-- The pool of `farAuth`, a minute later. -/
def laterAuth : DlmmState := { farAuth with nowTs := 60 }

end ShredArb.State
