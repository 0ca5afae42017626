/-
  ShredArb.Dlmm.Cache — the dense DLMM hot cache
  (`arb-core/src/dex/dlmm_cache.c`, `arb-core/include/dlmm_cache.h`).

  A pool keeps a fixed window of `2 * K + 1` slots around the active bin of
  its last confirmed refresh; slot `i` is for the bin with id
  `window_center - K + i`, and `live[i]` says whether that bin is known.
  `predict` copies the hot entry, rebuilds a `dlmm_state_t` from its live
  slots, applies a swap and writes the result back into the copy.

  The pool array is a list of length `cap`; growing it is assumed to succeed
  (the source returns −1 when `realloc` does).  `live` and `occupied` are only
  ever 0 or 1.
-/
import ShredArb.Dlmm.Kernel

namespace ShredArb.Dlmm

/-! ## §1. The hot entry. -/

abbrev dlmmCacheK : Nat := 16
abbrev dlmmCacheWindow : Nat := 33
abbrev dlmmCacheMaxPools : Nat := 65535

/-- `dlmm_hot_bin_t`. -/
structure DlmmHotBin where
  id : Int32
  amountX : UInt64
  amountY : UInt64
  deriving DecidableEq, Repr, Inhabited

/-- `dlmm_pool_hot_t`. -/
structure DlmmPoolHot where
  occupied : Bool
  status : UInt8
  binStep : UInt16
  activeId : Int32
  windowCenter : Int32
  parameters : DlmmStaticParams
  vParameters : DlmmVParams
  reserveX : UInt64
  reserveY : UInt64
  nowTs : Int64
  bin : Fin dlmmCacheWindow → DlmmHotBin
  live : Fin dlmmCacheWindow → Bool
  deriving DecidableEq, Inhabited

/-- The entry `memset` leaves. -/
def DlmmPoolHot.zero : DlmmPoolHot where
  occupied := false
  status := 0
  binStep := 0
  activeId := 0
  windowCenter := 0
  parameters := ⟨0, 0, 0, 0, 0, 0, 0, 0, 0⟩
  vParameters := ⟨0, 0, 0, 0⟩
  reserveX := 0
  reserveY := 0
  nowTs := 0
  bin := fun _ => ⟨0, 0, 0⟩
  live := fun _ => false

/-- The id slot `i` of a window around `center` is for. -/
def slotId (center : Int32) (i : Fin dlmmCacheWindow) : Int :=
  center.toInt - dlmmCacheK + i.val

/-- `dlmm_hot_slot`. -/
def dlmmHotSlot (h : DlmmPoolHot) (id : Int32) : Option (Fin dlmmCacheWindow) :=
  let lo := h.windowCenter.toInt - dlmmCacheK
  let off := id.toInt - lo
  if hoff : 0 ≤ off ∧ off < dlmmCacheWindow then
    some ⟨off.toNat, by omega⟩
  else none

/-- The bin slot `i` contributes to a state, its price to be derived again. -/
def hotBinAt (h : DlmmPoolHot) (i : Fin dlmmCacheWindow) : Option DlmmBin :=
  if h.live i then some ⟨(h.bin i).id, (h.bin i).amountX, (h.bin i).amountY, 0⟩ else none

/-- `dlmm_hot_to_state`.  (The source's second loop bound, `nbin <
DLMM_BINS_MAX`, never stops a 33-slot loop.) -/
def dlmmHotToState (h : DlmmPoolHot) : DlmmState where
  activeId := h.activeId
  binStep := h.binStep
  status := h.status
  parameters := h.parameters
  vParameters := h.vParameters
  reserveX := h.reserveX
  reserveY := h.reserveY
  bins := (List.finRange dlmmCacheWindow).filterMap (hotBinAt h)
  nowTs := h.nowTs

/-- One turn of the loop of `dlmm_state_into_hot`. -/
def storeBin (h : DlmmPoolHot) (b : DlmmBin) : DlmmPoolHot :=
  match dlmmHotSlot h b.id with
  | none => h
  | some i => { h with
      bin := Function.update h.bin i ⟨b.id, b.amountX, b.amountY⟩
      live := Function.update h.live i true }

/-- `dlmm_state_into_hot`: the slots of the destination keep their place and
what no bin of the state overwrites. -/
def dlmmStateIntoHot (s : DlmmState) (h : DlmmPoolHot) : DlmmPoolHot :=
  s.bins.foldl storeBin { h with
    activeId := s.activeId
    binStep := s.binStep
    status := s.status
    parameters := s.parameters
    vParameters := s.vParameters
    reserveX := s.reserveX
    reserveY := s.reserveY
    nowTs := s.nowTs }

/-- The entry `dlmm_cache_put` installs: the window recentred on the active
bin, bins outside it dropped, dead slots labelled with their id. -/
def hotOfState (s : DlmmState) : DlmmPoolHot :=
  let h := dlmmStateIntoHot s
    { DlmmPoolHot.zero with occupied := true, windowCenter := s.activeId }
  { h with bin := fun i =>
      if h.live i then h.bin i
      else { h.bin i with id := Int32.ofInt (slotId h.windowCenter i) } }

/-! ## §2. The cache. -/

/-- `dlmm_cache_t`. -/
structure DlmmCache where
  pool : List DlmmPoolHot
  n : Nat

/-- The length of the pool array. -/
def DlmmCache.cap (c : DlmmCache) : Nat := c.pool.length

/-- `dlmm_cache_reserve`. -/
def dlmmCacheReserve (c : DlmmCache) (cap : Nat) : Option DlmmCache :=
  if cap = 0 ∨ cap > dlmmCacheMaxPools then none
  else if c.cap ≥ cap then some c
  else some { c with pool := c.pool ++ List.replicate (cap - c.cap) DlmmPoolHot.zero }

/-- The doubling loop of `dlmm_cache_put`; sixteen doublings pass the hard
limit. -/
def growCap (poolIdx : Nat) : (fuel nc : Nat) → Nat
  | 0, nc => nc
  | fuel + 1, nc =>
      if nc ≤ poolIdx then
        if nc > dlmmCacheMaxPools / 2 then dlmmCacheMaxPools
        else growCap poolIdx fuel (nc * 2)
      else nc

/-- `dlmm_cache_put`. -/
def dlmmCachePut (c : DlmmCache) (poolIdx : Nat) (s : DlmmState) : Option DlmmCache :=
  if poolIdx ≥ dlmmCacheMaxPools then none
  else
    (if poolIdx ≥ c.cap then
        dlmmCacheReserve c (growCap poolIdx 16 (if c.cap ≠ 0 then c.cap else 8))
      else some c).map fun c =>
    { pool := c.pool.set poolIdx (hotOfState s)
      n := if poolIdx + 1 > c.n then poolIdx + 1 else c.n }

/-- `dlmm_cache_get`. -/
def dlmmCacheGet (c : DlmmCache) (poolIdx : Nat) : Option DlmmPoolHot :=
  (c.pool[poolIdx]?).bind fun h => if h.occupied then some h else none

/-- `dlmm_cache_predict`: the speculative entry and the swap's result.  The
cache itself is only read. -/
def dlmmCachePredict (c : DlmmCache) (poolIdx : Nat) (ix : DlmmSwapIx) :
    Option (DlmmPoolHot × DlmmApplyResult) :=
  (dlmmCacheGet c poolIdx).bind fun src =>
  (dlmmApplySwap (dlmmHotToState src) ix).map fun (after, res) =>
    (dlmmStateIntoHot after src, res)

/-- `dlmm_cache_commit`. -/
def dlmmCacheCommit (c : DlmmCache) (poolIdx : Nat) (spec : DlmmPoolHot) :
    Option DlmmCache :=
  match c.pool[poolIdx]? with
  | none => none
  | some h =>
    if !h.occupied || !spec.occupied then none
    else some
      { pool := c.pool.set poolIdx spec
        n := if poolIdx + 1 > c.n then poolIdx + 1 else c.n }

end ShredArb.Dlmm
