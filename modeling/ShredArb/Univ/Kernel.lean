/-
  ShredArb.Univ.Kernel — the route compiler
  (`arb-core/src/universe.c`, `arb-core/include/universe.h`, `proto.h`, and
  `live_univ_assert_route0` of `arb-core/src/live.c`).

  `universe_compile` hashes the mints of the admitted pools into a table,
  packs the pool sides by mint (count, offset, fill), enumerates the 2-hop and
  3-hop cycles through SOL, and packs the routes by pool in the same three
  passes.

  Conventions:
    • a return of −1 is `none`; allocation is assumed to succeed,
    • arrays are lists; `hop[0 .. n_hop)` of a route is the list `hops`, its
      unused entries are zero in the source,
    • a 32-byte key is a `BitVec 256`, byte `i` at bits `8 * i` and up, so that
      the 8 bytes `mint_hash` reads are its low word.
-/
import ShredArb.Lib.Buckets
import ShredArb.Lib.Probe

namespace ShredArb.Univ

open ShredArb.Probe ShredArb.Buckets

/-! ## §1. Protocols and mints (`proto.h`). -/

abbrev Mint := BitVec 256

/-- wSOL. -/
def mintSol : Mint :=
  0x100000000f0a098553beb1adc39c4da35c01846637f68fb8481abfe57889b06#256

abbrev protoDlmm : UInt8 := 1
abbrev protoPump : UInt8 := 2
abbrev protoClmm : UInt8 := 3
abbrev protoCpmm : UInt8 := 4
abbrev protoDamm : UInt8 := 5
abbrev protoOrca : UInt8 := 6

abbrev relNDlmm : UInt32 := 1
abbrev relNPump : UInt32 := 2
abbrev relNClmm : UInt32 := 4
abbrev relNCpmm : UInt32 := 8
abbrev relNDamm : UInt32 := 16
abbrev relNOrca : UInt32 := 32

/-- `proto_rel_bit`. -/
def protoRelBit (proto : UInt8) : UInt32 :=
  if proto = protoDlmm then relNDlmm
  else if proto = protoPump then relNPump
  else if proto = protoClmm then relNClmm
  else if proto = protoCpmm then relNCpmm
  else if proto = protoDamm then relNDamm
  else if proto = protoOrca then relNOrca
  else 0

/-! ## §2. The data model (`universe.h`). -/

abbrev routeFam0DlmmPump : UInt8 := 0
abbrev routeFam1ClmmDlmm : UInt8 := 1
abbrev routeFam2CpmmDlmm : UInt8 := 2
abbrev routeFam3DlmmDamm : UInt8 := 3
abbrev routeFam4OrcaDlmm : UInt8 := 4
abbrev routeFam5DlmmPumpTyped : UInt8 := 5
abbrev routeFam6Supported : UInt8 := 6
abbrev routeFamOther : UInt8 := 255

abbrev routeVenueSupported : UInt32 := relNDlmm ||| relNPump

/-- `pool_meta_t`; `universe_add_pool` refuses a pool of one mint. -/
structure PoolMeta where
  protocol : UInt8
  mintX : Mint
  mintY : Mint
  stateIdx : Nat
  routeOff : Nat
  routeN : Nat
  distinct : mintX ≠ mintY

instance : Inhabited PoolMeta := ⟨⟨0, 0, mintSol, 0, 0, 0, by decide⟩⟩

/-- The token the small universes below trade against SOL. -/
theorem one_ne_mintSol : (1 : Mint) ≠ mintSol := by
  decide

/-- One hop of a `compiled_route_t`; `dir = 0` swaps X for Y. -/
structure Hop where
  proto : UInt8
  pool : Nat
  dir : UInt8
  deriving DecidableEq, Repr, Inhabited

/-- `compiled_route_t`. -/
structure CompiledRoute where
  family : UInt8
  hops : List Hop
  deriving DecidableEq, Repr, Inhabited

/-- `universe_t`; the lengths of the lists are `n_pool`, `n_route` and
`rindex_cap`. -/
structure Universe where
  pool : List PoolMeta
  route : List CompiledRoute
  rindex : List Nat
  protoMask : UInt32
  poolCap : Nat
  routeCap : Nat

/-- `universe_init`. -/
def universeInit (poolCap routeCap : UInt32) : Option Universe :=
  if poolCap = 0 ∨ routeCap = 0 ∨ routeCap * 3 < routeCap then none
  else some
    { pool := []
      route := []
      rindex := List.replicate (routeCap * 3).toNat 0
      protoMask := 0
      poolCap := poolCap.toNat
      routeCap := routeCap.toNat }

/-- `universe_add_pool`. -/
def universeAddPool (u : Universe) (proto : UInt8) (mintX mintY : Mint) : Option Universe :=
  if proto = 0 ∨ u.pool.length ≥ u.poolCap then none
  else if h : mintX = mintY then none
  else some { u with pool := u.pool ++ [⟨proto, mintX, mintY, u.pool.length, 0, 0, h⟩] }

/-! ## §3. Route families. -/

/-- `route_hops_supported`. -/
def routeHopsSupported (hops : List Hop) : Bool :=
  (hops.length == 2 || hops.length == 3) &&
    hops.all fun h =>
      protoRelBit h.proto != 0 && protoRelBit h.proto &&& routeVenueSupported != 0

/-- `route_executable`. -/
def routeExecutable (r : CompiledRoute) : Bool := routeHopsSupported r.hops

/-- `route_family_of`. -/
def routeFamilyOf (hops : List Hop) : UInt8 :=
  if hops.length < 2 then routeFamOther
  else
    let bits := hops.foldl (fun b h => b ||| protoRelBit h.proto) 0
    if hops.length = 2 ∧ bits = relNDlmm ||| relNPump then routeFam0DlmmPump
    else if routeHopsSupported hops then routeFam6Supported
    else if hops.length = 2 ∧ bits = relNClmm ||| relNDlmm then routeFam1ClmmDlmm
    else if hops.length = 2 ∧ bits = relNCpmm ||| relNDlmm then routeFam2CpmmDlmm
    else if hops.length = 2 ∧ bits = relNDlmm ||| relNDamm then routeFam3DlmmDamm
    else if hops.length = 2 ∧ bits = relNOrca ||| relNDlmm then routeFam4OrcaDlmm
    else routeFamOther

/-- `route0_pair_compatible`. -/
def route0PairCompatible (dlmmX dlmmY pumpBase pumpQuote : Mint) : Bool :=
  if dlmmY ≠ mintSol ∨ pumpQuote ≠ mintSol then false
  else if dlmmX = mintSol ∨ pumpBase = mintSol then false
  else dlmmX == pumpBase

/-- The loop that looks for the DLMM and the Pump hop of a route: the last of
each, or `none` when a hop names no pool. -/
def lastByProto {μ : Type} (protocol : μ → UInt8) (tbl : List μ) (hops : List Hop) :
    Option (Option μ × Option μ) :=
  hops.foldlM (fun dp h => (tbl[h.pool]?).map fun m =>
    if protocol m = protoDlmm then (some m, dp.2)
    else if protocol m = protoPump then (dp.1, some m)
    else dp) (none, none)

/-- `route0_ok_or_not_route0`. -/
def route0OkOrNotRoute0 (pools : List PoolMeta) (hops : List Hop) : Bool :=
  if routeFamilyOf hops ≠ routeFam0DlmmPump then true
  else match lastByProto (·.protocol) pools hops with
    | some (some d, some p) => route0PairCompatible d.mintX d.mintY p.mintX p.mintY
    | _ => false

/-- The family `push_route` stores. -/
def familyOf (pools : List PoolMeta) (hops : List Hop) : UInt8 :=
  let fam := routeFamilyOf hops
  if fam = routeFam0DlmmPump ∧ ¬route0OkOrNotRoute0 pools hops then routeFam5DlmmPumpTyped
  else fam

/-- `push_route`. -/
def pushRoute (u : Universe) (hops : List Hop) : Option Universe :=
  if u.route.length ≥ u.routeCap then none
  else some { u with route := u.route ++ [⟨familyOf u.pool hops, hops⟩] }

/-! ## §4. The mint table. -/

abbrev mintTab : Nat := 4096

/-- `mint_slot_t`. -/
structure MintSlot where
  mint : Mint
  off : Nat
  n : UInt16
  used : Bool
  deriving DecidableEq, Repr

/-- The table `memset` leaves. -/
def emptyTab : List MintSlot := List.replicate mintTab ⟨0, 0, 0, false⟩

def MintSlot.key (s : MintSlot) : Option Mint := if s.used then some s.mint else none

/-- `mint_hash`. -/
def mintHash (m : Mint) : UInt32 :=
  let x := UInt64.ofBitVec (m.setWidth 64)
  let x := x ^^^ (x >>> 30)
  let x := x * 0xbf58476d1ce4e5b9
  let x := x ^^^ (x >>> 27)
  x.toUInt32

/-- `mint_put`: the slot of the mint, taken if it was free. -/
def mintPut (tab : List MintSlot) (m : Mint) : Option (List MintSlot × Nat) :=
  (probe MintSlot.key tab m mintTab ((mintHash m).toNat % mintTab)).map fun j =>
    (if (keyAt MintSlot.key tab j).isSome then tab else tab.set j ⟨m, 0, 0, true⟩, j)

/-- `tab[j].n++`. -/
def bumpN (tab : List MintSlot) (j : Nat) : List MintSlot :=
  tab.modify j fun s => { s with n := s.n + 1 }

def offAt (tab : List MintSlot) (j : Nat) : Nat := ((tab[j]?).map (·.off)).getD 0

def cntAt (tab : List MintSlot) (j : Nat) : Nat := ((tab[j]?).map (·.n.toNat)).getD 0

/-! ## §5. Pool sides by mint. -/

/-- `edge_t`: a side of a pool; `dir = 0` when the mint is X. -/
structure Edge where
  pool : Nat
  dir : UInt8
  deriving DecidableEq, Repr, Inhabited

/-- `allowed`. -/
def allowed (proto : UInt8) (mask : UInt32) : Bool := protoRelBit proto &&& mask != 0

/-- One turn of the counting loop. -/
def countPool (mask : UInt32) (tab : List MintSlot) (p : PoolMeta) : Option (List MintSlot) :=
  if !allowed p.protocol mask then some tab
  else
    (mintPut tab p.mintX).bind fun x =>
    (mintPut x.1 p.mintY).map fun y =>
      bumpN (bumpN y.1 x.2) y.2

/-- The offset loop: every used slot gets its start and an empty count. -/
def assignOffsets : List MintSlot → Nat → List MintSlot × Nat
  | [], off => ([], off)
  | s :: ss, off =>
      if s.used then
        let r := assignOffsets ss (off + s.n.toNat)
        ({ s with off := off, n := 0 } :: r.1, r.2)
      else
        let r := assignOffsets ss off
        (s :: r.1, r.2)

/-- `edges[tab[j].off + tab[j].n] = e; tab[j].n++`. -/
def putEdge (st : List MintSlot × List Edge) (j : Nat) (e : Edge) : List MintSlot × List Edge :=
  (bumpN st.1 j, st.2.set (offAt st.1 j + cntAt st.1 j) e)

/-- One turn of the filling loop. -/
def fillPool (mask : UInt32) (st : List MintSlot × List Edge) (p : PoolMeta × Nat) :
    Option (List MintSlot × List Edge) :=
  if !allowed p.1.protocol mask then some st
  else
    (mintPut st.1 p.1.mintX).bind fun x =>
    (mintPut x.1 p.1.mintY).map fun y =>
      putEdge (putEdge (y.1, st.2) x.2 ⟨p.2, 0⟩) y.2 ⟨p.2, 1⟩

/-! ## §6. The cycles through SOL. -/

/-- `u->pool[i]`. -/
def poolAt (pools : List PoolMeta) (i : Nat) : PoolMeta := pools.getD i default

/-- The mint an edge leads to. -/
def edgeOut (pools : List PoolMeta) (e : Edge) : Mint :=
  if e.dir = 0 then (poolAt pools e.pool).mintY else (poolAt pools e.pool).mintX

def hopOf (pools : List PoolMeta) (e : Edge) : Hop :=
  ⟨(poolAt pools e.pool).protocol, e.pool, e.dir⟩

/-- `edges[tab[j].off .. + tab[j].n)`. -/
def edgesAt (tab : List MintSlot) (edges : List Edge) (j : Nat) : List Edge :=
  slice edges (offAt tab j) (cntAt tab j)

/-- Innermost turn of the 2-hop loops. -/
def twoHopTurn (e1 : Edge) (u : Universe) (e2 : Edge) : Option Universe :=
  if e2.pool = e1.pool then some u
  else if edgeOut u.pool e2 ≠ mintSol then some u
  else pushRoute u [hopOf u.pool e1, hopOf u.pool e2]

/-- Outer turn of the 2-hop loops. -/
def twoHopFrom (edges : List Edge) (st : List MintSlot × Universe) (e1 : Edge) :
    Option (List MintSlot × Universe) :=
  let t := edgeOut st.2.pool e1
  if t = mintSol then some st
  else match mintPut st.1 t with
    | none => some st
    | some (tab, tidx) =>
        ((edgesAt tab edges tidx).foldlM (twoHopTurn e1) st.2).map fun u => (tab, u)

/-- Innermost turn of the 3-hop loops. -/
def threeHopTurn (e1 e2 : Edge) (u : Universe) (e3 : Edge) : Option Universe :=
  if e3.pool = e1.pool ∨ e3.pool = e2.pool then some u
  else if edgeOut u.pool e3 ≠ mintSol then some u
  else pushRoute u [hopOf u.pool e1, hopOf u.pool e2, hopOf u.pool e3]

/-- Middle turn of the 3-hop loops. -/
def threeHopMid (edges : List Edge) (e1 : Edge) (st : List MintSlot × Universe) (e2 : Edge) :
    Option (List MintSlot × Universe) :=
  if e2.pool = e1.pool then some st
  else
    let t2 := edgeOut st.2.pool e2
    if t2 = mintSol ∨ t2 = edgeOut st.2.pool e1 then some st
    else match mintPut st.1 t2 with
      | none => some st
      | some (tab, tidx) =>
          ((edgesAt tab edges tidx).foldlM (threeHopTurn e1 e2) st.2).map fun u => (tab, u)

/-- Outer turn of the 3-hop loops. -/
def threeHopFrom (edges : List Edge) (st : List MintSlot × Universe) (e1 : Edge) :
    Option (List MintSlot × Universe) :=
  let t1 := edgeOut st.2.pool e1
  if t1 = mintSol then some st
  else match mintPut st.1 t1 with
    | none => some st
    | some (tab, tidx) =>
        (edgesAt tab edges tidx).foldlM (threeHopMid edges e1) (tab, st.2)

/-- The search loops; with no slot left for SOL there is nothing to search. -/
def searchRoutes (tab : List MintSlot) (edges : List Edge) (u : Universe) : Option Universe :=
  match mintPut tab mintSol with
  | none => some u
  | some (tab, sidx) =>
      ((edgesAt tab edges sidx).foldlM (twoHopFrom edges) (tab, u)).bind fun st =>
      ((edgesAt st.1 edges sidx).foldlM (threeHopFrom edges) st).map (·.2)

/-! ## §7. Routes by pool. -/

/-- One turn of the loop that counts the routes of each pool. -/
def countHop (nPool : Nat) (count : List Nat) (h : Hop) : List Nat :=
  if h.pool < nPool then count.modify h.pool (· + 1) else count

/-- The offset loop over the pools; `rfill` is a 32-bit counter. -/
def assignRouteOff : List PoolMeta → List Nat → Nat → List PoolMeta × Nat
  | [], _, rfill => ([], rfill)
  | p :: ps, count, rfill =>
      let r := assignRouteOff ps count.tail ((rfill + count.headD 0) % 2 ^ 32)
      ({ p with routeOff := rfill, routeN := 0 } :: r.1, r.2)

/-- One turn of the loop that fills the reverse index. -/
def indexHop (r : Nat) (st : List PoolMeta × List Nat) (h : Hop) : List PoolMeta × List Nat :=
  match st.1[h.pool]? with
  | none => st
  | some p => (st.1.modify h.pool fun p => { p with routeN := p.routeN + 1 },
      st.2.set (p.routeOff + p.routeN) r)

/-- The `index:` block. -/
def buildIndex (u : Universe) : Option Universe :=
  let count := u.route.foldl (fun c r => r.hops.foldl (countHop u.pool.length) c)
    (List.replicate u.pool.length 0)
  let offs := assignRouteOff u.pool count 0
  if offs.2 > u.rindex.length then none
  else
    let st := u.route.zipIdx.foldl (fun st r => r.1.hops.foldl (indexHop r.2) st)
      (offs.1, u.rindex)
    some { u with pool := st.1, rindex := st.2 }

/-- `universe_compile`. -/
def universeCompile (u : Universe) (mask : UInt32) : Option Universe :=
  if mask = 0 then none
  else
    let u := { u with route := [], protoMask := mask }
    let ecap := u.pool.length * 2
    if ecap = 0 then some u
    else
      (u.pool.foldlM (countPool mask) emptyTab).bind fun tab =>
      let offs := assignOffsets tab 0
      if offs.2 > ecap then none
      else
        (u.pool.zipIdx.foldlM (fillPool mask) (offs.1, List.replicate ecap default)).bind fun st =>
        (searchRoutes st.1 st.2 u).bind buildIndex

/-! ## §8. The start-up assertion (`live.c`). -/

/-- The part of `live_meta_t` the assertion reads. -/
structure LiveMeta where
  protocol : UInt8
  mintX : Mint
  mintY : Mint

/-- The mint contract of one DLMM/Pump pair. -/
def route0Mints (d p : LiveMeta) : Bool :=
  !(d.mintX == mintSol || d.mintY != mintSol || p.mintX == mintSol || p.mintY != mintSol
    || d.mintX != p.mintX)

/-- `live_univ_assert_route0`, true for a return of 0. -/
def liveUnivAssertRoute0 (tbl : List LiveMeta) (routes : List CompiledRoute) : Bool :=
  routes.all fun cr =>
    if cr.family ≠ routeFam0DlmmPump then true
    else match lastByProto (·.protocol) tbl cr.hops with
      | some (some d, some p) => route0Mints d p
      | _ => false

/-- The metadata `live_univ_load` keeps for the pools it adds. -/
def liveMetaOf (p : PoolMeta) : LiveMeta := ⟨p.protocol, p.mintX, p.mintY⟩

end ShredArb.Univ
