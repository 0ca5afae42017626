/-
  ShredArb.Tx.Exact — how much of a transaction TX_EXACT covers.

  `tx_overlay.h` reads TX_EXACT as "every pricing-relevant effect on the watched
  pool".  The scan books at most eight legs, stops at the first program outside
  the static keys, and books a leg to the FIRST account of its instruction, when
  that is static; `txo_bind_watched` then looks at the booked legs only.  So what
  the scan did not book is not seen.

  Main results:
    * `legAt_eq` — which instructions are booked,
    * `scanOuter_legs` — the legs, position by position,
    * `txExact_covers_iff` — when TX_EXACT is coverage.
-/
import ShredArb.Tx.Frame
import ShredArb.Tx.Legs

namespace ShredArb.Tx

open ShredArb.Univ ShredArb.Bytes ShredArb.Dlmm ShredArb.Pump

/-! ## §1. What is booked. -/

/-- The leg of an instruction, were it booked. -/
def legOf (keys : List Mint) (ix : CompiledIx) : Option Leg :=
  keys[ix.prog.toNat]?.bind fun prog =>
    if progProto prog = 0 ∨ isEvent ix.data = true then none
    else match isExact (progProto prog) ix.data with
      | some variant => some (exactLeg (progProto prog) variant (poolKey keys ix) ix.data)
      | none => some (unknownLeg (progProto prog) (poolKey keys ix))

/-- The overlay the scan starts from. -/
abbrev scanStart : TxOverlay := .empty .fail false

/-- The leg the scan books at position `k`, if it does. -/
def legAt (keys : List Mint) (ixs : List CompiledIx) (k : Nat) : Option Leg :=
  (scanOuter keys (ixs.take (k + 1)) scanStart).legs[
    (scanOuter keys (ixs.take k) scanStart).legs.length]?

/-- The scan comes to position `k` with room for a leg. -/
def Reached (keys : List Mint) (ixs : List CompiledIx) (k : Nat) : Prop :=
  (∀ ix ∈ ixs.take (k + 1), ix.prog.toNat < keys.length) ∧
    ((ixs.take k).filterMap (legOf keys)).length < txoLegMax

instance (keys : List Mint) (ixs : List CompiledIx) (k : Nat) : Decidable (Reached keys ixs k) := by
  unfold Reached
  infer_instance

theorem legOf_eq_some {keys : List Mint} {ix : CompiledIx} {l : Leg} (h : legOf keys ix = some l) :
    ∃ prog, keys[ix.prog.toNat]? = some prog ∧ progProto prog ≠ 0 ∧ isEvent ix.data = false ∧
      ((∃ v, isExact (progProto prog) ix.data = some v ∧
          l = exactLeg (progProto prog) v (poolKey keys ix) ix.data) ∨
        isExact (progProto prog) ix.data = none ∧
          l = unknownLeg (progProto prog) (poolKey keys ix)) := by
  obtain ⟨prog, hprog, h⟩ := Option.bind_eq_some_iff.mp h
  obtain ⟨hvenue, h⟩ := Option.ite_none_left_eq_some.mp h
  refine ⟨prog, hprog, fun hc => hvenue (Or.inl hc),
    Bool.eq_false_of_not_eq_true fun hc => hvenue (Or.inr hc), ?_⟩
  cases hex : isExact (progProto prog) ix.data with
  | none =>
    rw [hex] at h
    exact Or.inr ⟨rfl, (Option.some.inj h).symm⟩
  | some v =>
    rw [hex] at h
    exact Or.inl ⟨v, rfl, (Option.some.inj h).symm⟩

theorem legOf_pool {keys : List Mint} {ix : CompiledIx} {l : Leg} (h : legOf keys ix = some l) :
    l.pool = poolKey keys ix := by
  obtain ⟨prog, -, -, -, ⟨v, -, rfl⟩ | ⟨-, rfl⟩⟩ := legOf_eq_some h <;> rfl

theorem outerStep_legs {keys : List Mint} {prog : Mint} {ov : TxOverlay} {ix : CompiledIx}
    (h : keys[ix.prog.toNat]? = some prog) : (outerStep keys prog ov ix).legs
      = ov.legs ++ (if ov.legs.length < txoLegMax then legOf keys ix else none).toList := by
  unfold outerStep legOf
  rw [h, Option.bind_some]
  by_cases hvenue : progProto prog = 0
  · rw [if_pos hvenue, if_pos (Or.inl hvenue), ite_self, Option.toList_none, List.append_nil]
  · rw [if_neg hvenue]
    by_cases hfull : ov.legs.length ≥ txoLegMax
    · rw [if_pos hfull, if_neg (by omega), Option.toList_none, List.append_nil]
      rfl
    · rw [if_neg hfull, if_pos (by omega)]
      unfold noteIx
      cases hev : isEvent ix.data with
      | true =>
        rw [if_pos rfl, if_pos (Or.inr rfl), Option.toList_none, List.append_nil]
      | false =>
        rw [if_neg Bool.false_ne_true, if_neg (by simp [hvenue])]
        cases isExact (progProto prog) ix.data <;> rfl

/-- One more instruction: it is booked when every program before it is static
and there is room. -/
theorem scanOuter_snoc {keys : List Mint} {ix : CompiledIx} (xs : List CompiledIx) :
    ∀ ov, (scanOuter keys (xs ++ [ix]) ov).legs = (scanOuter keys xs ov).legs ++
      (if (∀ x ∈ xs, x.prog.toNat < keys.length) ∧ (scanOuter keys xs ov).legs.length < txoLegMax
        then legOf keys ix else none).toList := by
  induction xs with
  | nil =>
    intro ov
    rw [List.nil_append, scanOuter, scanOuter]
    cases hprog : keys[ix.prog.toNat]? with
    | none =>
      have hleg : legOf keys ix = none := by rw [legOf, hprog]; rfl
      rw [hleg, ite_self, Option.toList_none, List.append_nil]
      rfl
    | some prog =>
      show (outerStep keys prog ov ix).legs = _
      rw [outerStep_legs hprog]
      simp
  | cons x xs ih =>
    intro ov
    rw [List.cons_append, scanOuter, scanOuter]
    cases hprog : keys[x.prog.toNat]? with
    | none =>
      have hout : ¬ x.prog.toNat < keys.length := by
        rw [List.getElem?_eq_none_iff] at hprog
        omega
      rw [if_neg fun hc => hout (hc.1 x List.mem_cons_self), Option.toList_none, List.append_nil]
    | some prog =>
      have hin : x.prog.toNat < keys.length := (List.getElem?_eq_some_iff.mp hprog).1
      simp only
      rw [ih]
      congr 2
      simp [hin]

/-- How many legs there are after instructions with static programs. -/
theorem scanOuter_length {keys : List Mint} (xs : List CompiledIx)
    (hs : ∀ x ∈ xs, x.prog.toNat < keys.length) :
    (scanOuter keys xs scanStart).legs.length
      = min txoLegMax (xs.filterMap (legOf keys)).length := by
  induction xs using List.reverseRecOn with
  | nil => rfl
  | append_singleton xs ix ih =>
    have hxs : ∀ x ∈ xs, x.prog.toNat < keys.length := fun x hx => hs x (List.mem_append_left _ hx)
    have ih := ih hxs
    rw [scanOuter_snoc, List.length_append, List.filterMap_append, List.length_append]
    rcases Nat.lt_or_ge (scanOuter keys xs scanStart).legs.length txoLegMax with hroom | hfull
    · rw [if_pos ⟨hxs, hroom⟩]
      cases hleg : legOf keys ix with
      | none => simp [hleg]; omega
      | some l => simp [hleg]; omega
    · rw [if_neg (by omega)]
      simp
      omega

theorem scanVerdict_legs (ov : TxOverlay) : (scanVerdict ov).legs = ov.legs := by
  unfold scanVerdict
  split
  · rfl
  · split <;> rfl

theorem take_snoc {ixs : List CompiledIx} {k : Nat} {ix : CompiledIx} (h : ixs[k]? = some ix) :
    ixs.take (k + 1) = ixs.take k ++ [ix] := by
  rw [List.take_add_one, h]
  rfl

/-- The leg at a position, by the scan up to it. -/
theorem legAt_scan {keys : List Mint} {ixs : List CompiledIx} {k : Nat} {ix : CompiledIx}
    (h : ixs[k]? = some ix) : legAt keys ixs k =
      if (∀ x ∈ ixs.take k, x.prog.toNat < keys.length) ∧
          (scanOuter keys (ixs.take k) scanStart).legs.length < txoLegMax
        then legOf keys ix else none := by
  have hget : ∀ (xs : List Leg) (o : Option Leg), (xs ++ o.toList)[xs.length]? = o := by
    intro xs o
    rw [List.getElem?_append_right (Nat.le_refl _), Nat.sub_self]
    cases o <;> rfl
  unfold legAt
  rw [take_snoc h, scanOuter_snoc, hget]

/-- **An instruction is booked when it is reached.** -/
theorem legAt_eq {keys : List Mint} {ixs : List CompiledIx} {k : Nat} {ix : CompiledIx}
    (h : ixs[k]? = some ix) :
    legAt keys ixs k = if Reached keys ixs k then legOf keys ix else none := by
  rw [legAt_scan h]
  cases hleg : legOf keys ix with
  | none => rw [ite_self, ite_self]
  | some l =>
    obtain ⟨prog, hprog, -⟩ := legOf_eq_some hleg
    have hin : ix.prog.toNat < keys.length := (List.getElem?_eq_some_iff.mp hprog).1
    by_cases hs : ∀ x ∈ ixs.take k, x.prog.toNat < keys.length
    · have hlen := scanOuter_length _ hs
      have hs' : ∀ x ∈ ixs.take (k + 1), x.prog.toNat < keys.length := by
        intro x hx
        rw [take_snoc h] at hx
        rcases List.mem_append.mp hx with hx | hx
        · exact hs x hx
        · rw [List.mem_singleton.mp hx]
          exact hin
      by_cases hroom : ((ixs.take k).filterMap (legOf keys)).length < txoLegMax
      · rw [if_pos ⟨hs, by omega⟩, if_pos ⟨hs', hroom⟩]
      · rw [if_neg fun hc => hroom (by omega), if_neg fun hc => hroom hc.2]
    · rw [if_neg fun hc => hs hc.1, if_neg]
      intro hc
      refine hs fun x hx => hc.1 x ?_
      rw [take_snoc h]
      exact List.mem_append_left _ hx

/-- **The legs of the scan, position by position.** -/
theorem scanOuter_legs (keys : List Mint) (ixs : List CompiledIx) :
    (scanOuter keys ixs scanStart).legs = (List.range ixs.length).filterMap (legAt keys ixs) := by
  have hpre : ∀ n, n ≤ ixs.length → (scanOuter keys (ixs.take n) scanStart).legs
      = (List.range n).filterMap (legAt keys ixs) := by
    intro n
    induction n with
    | zero => exact fun _ => rfl
    | succ n ih =>
      intro hn
      have hix : ixs[n]? = some ixs[n] := List.getElem?_eq_getElem (by omega)
      rw [List.range_succ, List.filterMap_append, ← ih (by omega), take_snoc hix, scanOuter_snoc,
        ← legAt_scan hix]
      cases hl : legAt keys ixs n <;> simp [hl]
  have hall := hpre ixs.length (Nat.le_refl _)
  rwa [List.take_length] at hall

/-! ## §2. What the transaction does to a pool. -/

/-- The key an index names: through the static keys, then the loaded ones. -/
def resolve (keys alt : List Mint) (i : UInt8) : Option Mint := (keys ++ alt)[i.toNat]?

/-- The venue an instruction runs in, 0 for none. -/
def venueOf (keys alt : List Mint) (ix : CompiledIx) : UInt8 :=
  ((resolve keys alt ix.prog).map progProto).getD 0

/-- The instruction names the pool and is no event of a venue. -/
def touches (keys alt : List Mint) (pool : Mint) (ix : CompiledIx) : Bool :=
  (ix.accounts.any fun a => resolve keys alt a == some pool) &&
    !(venueOf keys alt ix != 0 && isEvent ix.data)

/-- The swap an instruction makes on the pool: its amount and its direction.  The
data of a DLMM swap has no direction; `ownDir` is the one it has on chain. -/
def ownLeg (keys alt : List Mint) (ownDir : CompiledIx → UInt8) (pool : Mint) (ix : CompiledIx) :
    Option (UInt64 × UInt8) :=
  if ix.accounts.head?.bind (resolve keys alt) = some pool then
    (isExact (venueOf keys alt ix) ix.data).map fun v =>
      let l := exactLeg (venueOf keys alt ix) v pool ix.data
      (l.amountIn, if l.haveDir then l.direction else ownDir ix)
  else none

/-- Whole-transaction coverage: the applied swaps are those of the transaction, and
an instruction touches the pool iff it was booked to it. -/
structure Covers (fr : Frame) (alt : List Mint) (ownDir : CompiledIx → UInt8) (pool : Mint)
    (proto : UInt8) (ov : TxOverlay) : Prop where
  applied : ranLegs ov pool proto = fr.ixs.filterMap (ownLeg fr.keys alt ownDir pool)
  booked : ∀ k ix, fr.ixs[k]? = some ix →
    (touches fr.keys alt pool ix = true ↔ ∃ l, legAt fr.keys fr.ixs k = some l ∧ l.pool = pool)

/-- An instruction the overlay sees as it is: reached with room, run by the venue's
static program, the pool its static first account, and, for a DLMM swap, in the
direction of N. -/
structure Seen (fr : Frame) (ownDir : CompiledIx → UInt8) (pool : Mint) (proto : UInt8)
    (nix : SwapIx) (k : Nat) (ix : CompiledIx) : Prop where
  reached : Reached fr.keys fr.ixs k
  venue : ∃ prog, fr.keys[ix.prog.toNat]? = some prog ∧ progProto prog = proto ∧ proto ≠ 0
  first : ∃ a, ix.accounts.head? = some a ∧ fr.keys[a.toNat]? = some pool
  direction : proto = protoDlmm → nix.pool = pool ∧ nix.direction = ownDir ix

theorem resolve_static {keys : List Mint} (alt : List Mint) {i : UInt8} {k : Mint}
    (h : keys[i.toNat]? = some k) : resolve keys alt i = some k := by
  have hlt := (List.getElem?_eq_some_iff.mp h).1
  rw [resolve, List.getElem?_append_left hlt, h]

theorem venueOf_static {keys : List Mint} (alt : List Mint) {ix : CompiledIx} {prog : Mint}
    (h : keys[ix.prog.toNat]? = some prog) : venueOf keys alt ix = progProto prog := by
  rw [venueOf, resolve_static alt h]
  rfl

/-- Only a static first account is a pool key other than 0. -/
theorem poolKey_ne_zero {keys : List Mint} {ix : CompiledIx} {pool : Mint} (hpool : pool ≠ 0)
    (h : poolKey keys ix = pool) :
    ∃ a, ix.accounts.head? = some a ∧ keys[a.toNat]? = some pool := by
  unfold poolKey at h
  cases hacc : ix.accounts with
  | nil =>
    rw [hacc] at h
    exact absurd h.symm hpool
  | cons a as =>
    rw [hacc] at h
    simp only at h
    rw [List.getD_eq_getElem?_getD] at h
    cases hk : keys[a.toNat]? with
    | none =>
      rw [hk] at h
      exact absurd h.symm hpool
    | some k =>
      rw [hk] at h
      exact ⟨a, rfl, by rw [hk, ← h]; rfl⟩

theorem poolKey_of_head {keys : List Mint} {ix : CompiledIx} {pool : Mint} {a : UInt8}
    (ha : ix.accounts.head? = some a) (hk : keys[a.toNat]? = some pool) :
    poolKey keys ix = pool := by
  unfold poolKey
  obtain ⟨as, has⟩ := List.head?_eq_some_iff.mp ha
  rw [has]
  simp only
  rw [List.getD_eq_getElem?_getD, hk]
  rfl

/-- A venue event is no swap. -/
theorem isExact_of_isEvent {data : List UInt8} (h : isEvent data = true) (proto : UInt8) :
    isExact proto data = none := by
  have hdisc := of_decide_eq_true h
  unfold isExact
  rw [hdisc]
  split
  · rfl
  · split
    · rfl
    · split <;> rfl

/-- Pump's swaps say their direction, DLMM's do not. -/
theorem exactLeg_haveDir {proto v : UInt8} {data : List UInt8} (h : isExact proto data = some v)
    (pool : Mint) : (exactLeg proto v pool data).haveDir = decide (proto = protoPump) := by
  unfold isExact at h
  obtain ⟨-, hd⟩ := Option.ite_none_left_eq_some.mp h
  by_cases hp : proto = protoDlmm
  · rw [if_pos hp] at hd
    rw [hp]
    split at hd
    · rw [← Option.some.inj hd]
      rfl
    · split at hd
      · rw [← Option.some.inj hd]
        rfl
      · exact absurd hd (by simp)
  · rw [if_neg hp] at hd
    by_cases hp' : proto = protoPump
    · rw [if_pos hp'] at hd
      rw [hp']
      split at hd
      · rw [← Option.some.inj hd]
        rfl
      · split at hd
        · rw [← Option.some.inj hd]
          rfl
        · exact absurd hd (by simp)
    · rw [if_neg hp'] at hd
      exact absurd hd (by simp)

/-! ## §3. Coverage. -/

/-- Two selections that keep the same positions and agree as lists agree at every
position. -/
theorem filterMap_pointwise {α β : Type} {f g : α → Option β} (xs : List α) :
    (∀ x ∈ xs, (f x).isSome = (g x).isSome) → xs.filterMap f = xs.filterMap g →
    ∀ x ∈ xs, f x = g x := by
  induction xs with
  | nil => exact fun _ _ x hx => absurd hx (by simp)
  | cons y ys ih =>
    intro hs h x hx
    have hy := hs y List.mem_cons_self
    rw [List.filterMap_cons, List.filterMap_cons] at h
    have hrest := ih fun z hz => hs z (List.mem_cons_of_mem _ hz)
    cases hf : f y with
    | none =>
      rw [hf] at hy h
      cases hg : g y with
      | none =>
        rw [hg] at h
        rcases List.mem_cons.mp hx with rfl | hx
        · rw [hf, hg]
        · exact hrest h x hx
      | some b =>
        rw [hg] at hy
        exact absurd hy (by simp)
    | some a =>
      rw [hf] at hy h
      cases hg : g y with
      | none =>
        rw [hg] at hy
        exact absurd hy (by simp)
      | some b =>
        rw [hg] at h
        obtain ⟨hab, hys⟩ := List.cons.inj h
        rcases List.mem_cons.mp hx with rfl | hx
        · rw [hf, hg, hab]
        · exact hrest hys x hx

/-- A selection of instructions, by positions. -/
theorem filterMap_positions {β : Type} (f : CompiledIx → Option β) (ixs : List CompiledIx) :
    ixs.filterMap f = (List.range ixs.length).filterMap fun k => ixs[k]?.bind f := by
  have hpre : ∀ n, n ≤ ixs.length →
      (ixs.take n).filterMap f = (List.range n).filterMap fun k => ixs[k]?.bind f := by
    intro n
    induction n with
    | zero => exact fun _ => rfl
    | succ n ih =>
      intro hn
      have hix : ixs[n]? = some ixs[n] := List.getElem?_eq_getElem (by omega)
      rw [List.range_succ, List.filterMap_append, ← ih (by omega), take_snoc hix,
        List.filterMap_append]
      congr 1
      rw [List.filterMap_cons, List.filterMap_cons, hix]
      rfl
  have hall := hpre ixs.length (Nat.le_refl _)
  rwa [List.take_length] at hall

/-- The swap a leg stands for once N's direction is stamped. -/
def stampedSwap (nExact : Nat) (nix : SwapIx) (l : Leg) : UInt64 × UInt8 :=
  ((stampLeg nExact nix l).amountIn, (stampLeg nExact nix l).direction)

/-- The leg `txo_apply` does not skip and does not stop at. -/
def Runs (nExact : Nat) (nix : SwapIx) (proto : UInt8) (l : Leg) : Prop :=
  l.proto = proto ∧ ((stampLeg nExact nix l).haveDir = true ∨ proto ≠ protoDlmm)

theorem stampLeg_fields (n : Nat) (nix : SwapIx) (l : Leg) :
    (stampLeg n nix l).proto = l.proto ∧ (stampLeg n nix l).amountIn = l.amountIn ∧
      (stampLeg n nix l).exact = l.exact ∧ (stampLeg n nix l).pool = l.pool := by
  unfold stampLeg
  split <;> exact ⟨rfl, rfl, rfl, rfl⟩

section

variable {ov : TxOverlay} {pool : Mint} {nix : SwapIx}
    (hexact : (txoStampN (txoBindWatched ov pool) nix).txExact = true)
    (hlegs : ∀ l ∈ ov.legs, l.exact = true ∨ l.unknownPricing = true)

include hexact hlegs

/-- The legs of a venue on the watched pool: TX_EXACT left exact ones only. -/
theorem legsOf_exact (proto : UInt8) :
    legsOf (txoStampN (txoBindWatched ov pool) nix) pool proto
      = ((ov.legs.filter fun l => l.pool == pool).filter fun l => l.proto == proto).map
          (stampLeg ov.nExact nix) := by
  obtain ⟨hknown, -⟩ := txExact_spec hexact
  rw [legsOf, stamped_legs, List.filter_map, List.filter_filter]
  congr 1
  refine List.filter_congr fun l hl => ?_
  obtain ⟨hproto, -, hex, hpool⟩ := stampLeg_fields ov.nExact nix l
  rw [Function.comp_apply, Leg.at, hproto, hex, hpool]
  cases hhere : l.pool == pool with
  | false => rw [Bool.and_false, Bool.false_and, Bool.and_false]
  | true =>
    rcases hlegs l hl with he | hu
    · rw [he, Bool.true_and, Bool.true_and, Bool.and_true]
    · rw [hknown l hl (beq_iff_eq.mp hhere)] at hu
      exact absurd hu (by simp)

/-- When every leg on the pool runs, all of them are applied. -/
theorem ranLegs_of_runs {proto : UInt8}
    (h : ∀ l ∈ ov.legs.filter fun l => l.pool == pool, Runs ov.nExact nix proto l) :
    ranLegs (txoStampN (txoBindWatched ov pool) nix) pool proto
      = (ov.legs.filter fun l => l.pool == pool).map (stampedSwap ov.nExact nix) := by
  have hkeep : ((ov.legs.filter fun l => l.pool == pool).filter fun l => l.proto == proto)
      = ov.legs.filter fun l => l.pool == pool :=
    List.filter_eq_self.mpr fun l hl => beq_iff_eq.mpr (h l hl).1
  rw [ranLegs, legsOf_exact hexact hlegs, hkeep, List.takeWhile_eq_self_iff.mpr, List.map_map]
  · rfl
  · intro l hl
    obtain ⟨l', hl', rfl⟩ := List.mem_map.mp hl
    rw [Bool.or_eq_true, bne_iff_ne]
    exact (h l' hl').2

/-- And only then are that many applied. -/
theorem runs_of_length {proto : UInt8}
    (h : (ranLegs (txoStampN (txoBindWatched ov pool) nix) pool proto).length
      = (ov.legs.filter fun l => l.pool == pool).length) :
    ∀ l ∈ ov.legs.filter fun l => l.pool == pool, Runs ov.nExact nix proto l := by
  rw [ranLegs, legsOf_exact hexact hlegs, List.length_map] at h
  generalize ov.legs.filter (fun l => l.pool == pool) = here at h ⊢
  have hpre := List.takeWhile_prefix (fun l : Leg => l.haveDir || proto != protoDlmm)
    (l := (here.filter fun l => l.proto == proto).map (stampLeg ov.nExact nix))
  have hle := hpre.length_le
  rw [List.length_map] at hle
  have hproto : (here.filter fun l => l.proto == proto).length = here.length :=
    Nat.le_antisymm (List.length_filter_le _ _) (by omega)
  have hrun := List.takeWhile_eq_self_iff.mp
    (hpre.eq_of_length (by rw [List.length_map]; omega))
  have hmine := List.length_filter_eq_length_iff.mp hproto
  intro l hl
  have hstop := hrun _ (List.mem_map_of_mem (List.mem_filter.mpr ⟨hl, hmine l hl⟩))
  rw [Bool.or_eq_true, bne_iff_ne] at hstop
  exact ⟨beq_iff_eq.mp (hmine l hl), hstop⟩

end

theorem legAt_eq_some {keys : List Mint} {ixs : List CompiledIx} {k : Nat} {ix : CompiledIx} {l : Leg}
    (hix : ixs[k]? = some ix) (h : legAt keys ixs k = some l) :
    Reached keys ixs k ∧ legOf keys ix = some l := by
  rw [legAt_eq hix] at h
  exact Option.ite_none_right_eq_some.mp h

/-- A booked leg is exact or of unknown pricing. -/
theorem scanOuter_exact_or {keys : List Mint} {ixs : List CompiledIx} :
    ∀ l ∈ (scanOuter keys ixs scanStart).legs, l.exact = true ∨ l.unknownPricing = true := by
  intro l hl
  rw [scanOuter_legs] at hl
  obtain ⟨k, hk, hleg⟩ := List.mem_filterMap.mp hl
  have hlt := List.mem_range.mp hk
  have hleg := (legAt_eq_some (List.getElem?_eq_getElem hlt) hleg).2
  obtain ⟨prog, -, -, -, ⟨v, -, rfl⟩ | ⟨-, rfl⟩⟩ := legOf_eq_some hleg
  · exact Or.inl rfl
  · exact Or.inr rfl

theorem stampLeg_of_haveDir {n : Nat} {nix : SwapIx} {l : Leg} (h : l.haveDir = true) :
    stampLeg n nix l = l := by
  unfold stampLeg
  rw [if_neg (by simp [h])]

/-- A leg that got its direction from the stamp. -/
theorem stampLeg_stamped {n : Nat} {nix : SwapIx} {l : Leg} (h : l.haveDir = false)
    (hs : (stampLeg n nix l).haveDir = true) :
    l.pool = nix.pool ∧ (stampLeg n nix l).direction = nix.direction := by
  unfold stampLeg at hs ⊢
  split at hs
  · rename_i hc
    rw [if_pos hc]
    simp only [Bool.and_eq_true, Leg.at, beq_iff_eq] at hc
    exact ⟨hc.1.1.2, rfl⟩
  · rw [h] at hs
    exact absurd hs (by simp)

/-- An exact leg booked to the pool is a swap of an instruction that touches it. -/
theorem booked_swap {keys : List Mint} (alt : List Mint) (ownDir : CompiledIx → UInt8) {pool : Mint}
    (hpool : pool ≠ 0) {ix : CompiledIx} {l : Leg} (hleg : legOf keys ix = some l)
    (hl : l.pool = pool) (hex : l.unknownPricing = false) :
    touches keys alt pool ix = true ∧
      ownLeg keys alt ownDir pool ix
        = some (l.amountIn, if l.haveDir then l.direction else ownDir ix) ∧
      (∃ prog, keys[ix.prog.toNat]? = some prog ∧ progProto prog = l.proto ∧ l.proto ≠ 0) ∧
      (∃ a, ix.accounts.head? = some a ∧ keys[a.toNat]? = some pool) ∧
      l.haveDir = decide (l.proto = protoPump) := by
  obtain ⟨prog, hprog, hvenue, hevent, ⟨v, hv, rfl⟩ | ⟨-, rfl⟩⟩ := legOf_eq_some hleg
  · have hkey : poolKey keys ix = pool := hl
    obtain ⟨a, ha, hk⟩ := poolKey_ne_zero hpool hkey
    obtain ⟨as, has⟩ := List.head?_eq_some_iff.mp ha
    refine ⟨?_, ?_, ⟨prog, hprog, rfl, hvenue⟩, ⟨a, ha, hk⟩, exactLeg_haveDir hv _⟩
    · rw [touches, has, List.any_cons, resolve_static alt hk, hevent]
      simp
    · rw [ownLeg, ha, Option.bind_some, resolve_static alt hk, if_pos rfl, venueOf_static alt hprog,
        hv, hkey]
      rfl
  · exact absurd hex (by simp [unknownLeg])

/-- A swap on the pool touches it. -/
theorem touches_of_ownLeg {keys alt : List Mint} {ownDir : CompiledIx → UInt8} {pool : Mint}
    {ix : CompiledIx} (h : (ownLeg keys alt ownDir pool ix).isSome = true) :
    touches keys alt pool ix = true := by
  unfold ownLeg at h
  split at h
  · rename_i hhead
    obtain ⟨a, ha, hk⟩ := Option.bind_eq_some_iff.mp hhead
    obtain ⟨as, has⟩ := List.head?_eq_some_iff.mp ha
    have hevent : isEvent ix.data = false := by
      by_contra hc
      rw [isExact_of_isEvent (Bool.eq_true_of_not_eq_false hc)] at h
      exact absurd h (by simp)
    rw [touches, has, List.any_cons, hk, hevent]
    simp
  · exact absurd h (by simp)

theorem progProto_cases (k : Mint) :
    progProto k = 0 ∨ progProto k = protoDlmm ∨ progProto k = protoPump := by
  unfold progProto
  split
  · exact Or.inr (Or.inl rfl)
  · split
    · exact Or.inr (Or.inr rfl)
    · exact Or.inl rfl

theorem proto_of_venue {keys : List Mint} {ix : CompiledIx} {l : Leg}
    (h : ∃ prog, keys[ix.prog.toNat]? = some prog ∧ progProto prog = l.proto ∧ l.proto ≠ 0) :
    l.proto = protoDlmm ∨ l.proto = protoPump := by
  obtain ⟨prog, -, hproto, hne⟩ := h
  rw [← hproto] at hne ⊢
  exact (progProto_cases prog).resolve_left hne

/-- A touching instruction that is seen is booked to the pool. -/
theorem legAt_of_seen {fr : Frame} {alt : List Mint} {ownDir : CompiledIx → UInt8} {pool : Mint}
    {proto : UInt8} {nix : SwapIx} {k : Nat} {ix : CompiledIx} (hix : fr.ixs[k]? = some ix)
    (ht : touches fr.keys alt pool ix = true) (hs : Seen fr ownDir pool proto nix k ix) :
    ∃ l, legAt fr.keys fr.ixs k = some l ∧ l.pool = pool ∧ l.proto = proto := by
  obtain ⟨prog, hprog, hproto, hvenue⟩ := hs.venue
  obtain ⟨a, ha, hk⟩ := hs.first
  have hevent : isEvent ix.data = false := by
    rw [touches, Bool.and_eq_true, venueOf_static alt hprog, hproto] at ht
    have hnot := ht.2
    simpa [hvenue] using hnot
  rw [legAt_eq hix, if_pos hs.reached, legOf, hprog, Option.bind_some,
    if_neg (by simp [hproto, hvenue, hevent]), poolKey_of_head ha hk, hproto]
  cases isExact proto ix.data with
  | none => exact ⟨_, rfl, rfl, rfl⟩
  | some v => exact ⟨_, rfl, rfl, rfl⟩

/-- A leg that runs is applied as the instruction's own swap iff the stamp gave it
its own direction. -/
theorem stampedSwap_own_iff {n : Nat} {nix : SwapIx} {pool : Mint} {proto own : UInt8} {l : Leg}
    (hrun : Runs n nix proto l) (hlp : l.pool = pool)
    (hdir : l.haveDir = decide (l.proto = protoPump))
    (hvenue : l.proto = protoDlmm ∨ l.proto = protoPump) :
    stampedSwap n nix l = (l.amountIn, if l.haveDir then l.direction else own) ↔
      (proto = protoDlmm → nix.pool = pool ∧ nix.direction = own) := by
  obtain ⟨rfl, hstop⟩ := hrun
  rw [stampedSwap, (stampLeg_fields n nix l).2.1, Prod.mk.injEq]
  rcases hvenue with hd | hp
  · have hnone : l.haveDir = false := by rw [hdir, hd]; rfl
    obtain ⟨hpool, hstamped⟩ := stampLeg_stamped hnone (hstop.resolve_right fun hc => hc hd)
    rw [hnone, hstamped, if_neg Bool.false_ne_true]
    exact ⟨fun h _ => ⟨hpool.symm.trans hlp, h.2⟩, fun h => ⟨rfl, (h hd).2⟩⟩
  · have hsome : l.haveDir = true := by rw [hdir, hp]; rfl
    rw [stampLeg_of_haveDir hsome, hsome, if_pos rfl]
    exact ⟨fun _ hc => absurd (hc.symm.trans hp) (by decide), fun _ => ⟨rfl, rfl⟩⟩

section

variable {fr : Frame} {ov : TxOverlay} {pool : Mint} {nix : SwapIx}
    (hov : ov.legs = (scanOuter fr.keys fr.ixs scanStart).legs) (hpool : pool ≠ 0)
    (hexact : (txoStampN (txoBindWatched ov pool) nix).txExact = true)

include hov

theorem mem_legs_of_legAt {k : Nat} {l : Leg} (hk : k < fr.ixs.length)
    (hl : legAt fr.keys fr.ixs k = some l) : l ∈ ov.legs := by
  rw [hov, scanOuter_legs]
  exact List.mem_filterMap.mpr ⟨k, List.mem_range.mpr hk, hl⟩

theorem exact_or_of_scan : ∀ l ∈ ov.legs, l.exact = true ∨ l.unknownPricing = true := by
  rw [hov]
  exact scanOuter_exact_or

/-- The legs on the pool, position by position. -/
theorem legs_here : (ov.legs.filter fun l => l.pool == pool) = (List.range fr.ixs.length).filterMap
    fun k => (legAt fr.keys fr.ixs k).filter fun l => l.pool == pool := by
  rw [hov, scanOuter_legs, List.filter_filterMap]

include hpool hexact

/-- What is booked to the pool is a swap on it. -/
theorem legAt_swap (alt : List Mint) (ownDir : CompiledIx → UInt8) {k : Nat} {ix : CompiledIx}
    {l : Leg} (hix : fr.ixs[k]? = some ix) (hl : legAt fr.keys fr.ixs k = some l)
    (hlp : l.pool = pool) : touches fr.keys alt pool ix = true ∧
      ownLeg fr.keys alt ownDir pool ix
        = some (l.amountIn, if l.haveDir then l.direction else ownDir ix) ∧
      (∃ prog, fr.keys[ix.prog.toNat]? = some prog ∧ progProto prog = l.proto ∧ l.proto ≠ 0) ∧
      (∃ a, ix.accounts.head? = some a ∧ fr.keys[a.toNat]? = some pool) ∧
      l.haveDir = decide (l.proto = protoPump) := by
  have hk := (List.getElem?_eq_some_iff.mp hix).1
  exact booked_swap alt ownDir hpool (legAt_eq_some hix hl).2 hlp
    ((txExact_spec hexact).1 l (mem_legs_of_legAt hov hk hl) hlp)

theorem seen_of_covers {alt : List Mint} {ownDir : CompiledIx → UInt8} {proto : UInt8}
    (h : Covers fr alt ownDir pool proto (txoStampN (txoBindWatched ov pool) nix)) {k : Nat}
    {ix : CompiledIx} (hix : fr.ixs[k]? = some ix) (ht : touches fr.keys alt pool ix = true) :
    Seen fr ownDir pool proto nix k ix := by
  have hsome : ∀ k ∈ List.range fr.ixs.length,
      (((legAt fr.keys fr.ixs k).filter fun l => l.pool == pool).map
        (stampedSwap ov.nExact nix)).isSome
      = (fr.ixs[k]?.bind (ownLeg fr.keys alt ownDir pool)).isSome := by
    intro k hk
    have hix := List.getElem?_eq_getElem (List.mem_range.mp hk)
    rw [Option.isSome_map, hix, Option.bind_some, Bool.eq_iff_iff]
    constructor
    · intro hs
      obtain ⟨l, hl⟩ := Option.isSome_iff_exists.mp hs
      obtain ⟨hl, hlp⟩ := Option.filter_eq_some_iff.mp hl
      rw [(legAt_swap hov hpool hexact alt ownDir hix hl (beq_iff_eq.mp hlp)).2.1]
      rfl
    · intro hs
      obtain ⟨l, hl, hlp⟩ := (h.booked k _ hix).mp (touches_of_ownLeg hs)
      rw [hl, Option.filter_some, if_pos (beq_iff_eq.mpr hlp)]
      rfl
  have happlied := h.applied
  rw [filterMap_positions] at happlied
  have hlen : (ranLegs (txoStampN (txoBindWatched ov pool) nix) pool proto).length
      = (ov.legs.filter fun l => l.pool == pool).length := by
    rw [happlied, legs_here hov, List.length_filterMap_eq_countP, List.length_filterMap_eq_countP]
    refine List.countP_congr fun k hk => ?_
    rw [← hsome k hk, Option.isSome_map]
  have hruns := runs_of_length hexact (exact_or_of_scan hov) hlen
  rw [ranLegs_of_runs hexact (exact_or_of_scan hov) hruns, legs_here hov, List.map_filterMap] at happlied
  have hpoint := filterMap_pointwise _ hsome happlied
  obtain ⟨l, hl, hlp⟩ := (h.booked k ix hix).mp ht
  have hk := (List.getElem?_eq_some_iff.mp hix).1
  obtain ⟨-, hown, hvenue, hfirst, hdir⟩ := legAt_swap hov hpool hexact alt ownDir hix hl hlp
  have hrun := hruns l (List.mem_filter.mpr ⟨mem_legs_of_legAt hov hk hl, beq_iff_eq.mpr hlp⟩)
  have hpk := hpoint k (List.mem_range.mpr hk)
  rw [hl, hix, Option.bind_some, hown, Option.filter_some, if_pos (beq_iff_eq.mpr hlp),
    Option.map_some] at hpk
  refine ⟨(legAt_eq_some hix hl).1, ?_, hfirst, ?_⟩
  · rw [← hrun.1]
    exact hvenue
  · exact (stampedSwap_own_iff hrun hlp hdir (proto_of_venue hvenue)).mp (Option.some.inj hpk)

section

variable {alt : List Mint} {ownDir : CompiledIx → UInt8} {proto : UInt8}
    (hseen : ∀ k ix, fr.ixs[k]? = some ix → touches fr.keys alt pool ix = true →
      Seen fr ownDir pool proto nix k ix)

include hseen

theorem booked_of_seen {k : Nat} {ix : CompiledIx} (hix : fr.ixs[k]? = some ix) :
    touches fr.keys alt pool ix = true ↔
      ∃ l, legAt fr.keys fr.ixs k = some l ∧ l.pool = pool := by
  constructor
  · intro ht
    obtain ⟨l, hl, hlp, -⟩ := legAt_of_seen hix ht (hseen k ix hix ht)
    exact ⟨l, hl, hlp⟩
  · rintro ⟨l, hl, hlp⟩
    exact (legAt_swap hov hpool hexact alt ownDir hix hl hlp).1

/-- A leg on the pool runs, and its direction comes from N. -/
theorem runs_of_seen {k : Nat} {ix : CompiledIx} {l : Leg} (hix : fr.ixs[k]? = some ix)
    (hl : legAt fr.keys fr.ixs k = some l) (hlp : l.pool = pool) :
    Runs ov.nExact nix proto l ∧
      (proto = protoDlmm → nix.pool = pool ∧ nix.direction = ownDir ix) := by
  have hmem := mem_legs_of_legAt hov (List.getElem?_eq_some_iff.mp hix).1 hl
  have ht := (booked_of_seen hov hpool hexact hseen hix).mpr ⟨l, hl, hlp⟩
  have hs := hseen k ix hix ht
  obtain ⟨l', hl', -, hproto⟩ := legAt_of_seen hix ht hs
  rw [hl] at hl'
  obtain rfl := Option.some.inj hl'
  refine ⟨⟨hproto, ?_⟩, hs.direction⟩
  by_cases hd : proto = protoDlmm
  · obtain ⟨hknown, hdirs⟩ := txExact_spec hexact
    have hle : l.exact = true := by
      refine (exact_or_of_scan hov l hmem).resolve_right ?_
      rw [hknown l hmem hlp]
      exact Bool.false_ne_true
    obtain ⟨-, -, hex, hsp⟩ := stampLeg_fields ov.nExact nix l
    refine Or.inl (hdirs l hmem ?_)
    rw [Leg.at, hex, hle, hsp, hlp, (hs.direction hd).1]
    simp
  · exact Or.inr hd

theorem covers_of_seen :
    Covers fr alt ownDir pool proto (txoStampN (txoBindWatched ov pool) nix) := by
  refine ⟨?_, fun k ix hix => booked_of_seen hov hpool hexact hseen hix⟩
  have hruns : ∀ l ∈ ov.legs.filter fun l => l.pool == pool, Runs ov.nExact nix proto l := by
    intro l hl
    rw [legs_here hov] at hl
    obtain ⟨k, hk, hl⟩ := List.mem_filterMap.mp hl
    obtain ⟨hl, hlp⟩ := Option.filter_eq_some_iff.mp hl
    have hix := List.getElem?_eq_getElem (List.mem_range.mp hk)
    exact (runs_of_seen hov hpool hexact hseen hix hl (beq_iff_eq.mp hlp)).1
  rw [ranLegs_of_runs hexact (exact_or_of_scan hov) hruns, legs_here hov, List.map_filterMap,
    filterMap_positions]
  refine List.filterMap_congr fun k hk => ?_
  obtain ⟨ix, hix⟩ : ∃ ix, fr.ixs[k]? = some ix :=
    ⟨_, List.getElem?_eq_getElem (List.mem_range.mp hk)⟩
  rw [hix, Option.bind_some]
  cases hhere : (legAt fr.keys fr.ixs k).filter fun l => l.pool == pool with
  | none =>
    cases hown : ownLeg fr.keys alt ownDir pool ix with
    | none => rfl
    | some x =>
      have ht : touches fr.keys alt pool ix = true := touches_of_ownLeg (by rw [hown]; rfl)
      obtain ⟨l, hl, hlp⟩ := (booked_of_seen hov hpool hexact hseen hix).mp ht
      rw [hl, Option.filter_some, if_pos (beq_iff_eq.mpr hlp)] at hhere
      exact absurd hhere (by simp)
  | some l =>
    obtain ⟨hl, hlp⟩ := Option.filter_eq_some_iff.mp hhere
    have hlp := beq_iff_eq.mp hlp
    obtain ⟨-, hown, hvenue, -, hdir⟩ := legAt_swap hov hpool hexact alt ownDir hix hl hlp
    obtain ⟨hrun, hn⟩ := runs_of_seen hov hpool hexact hseen hix hl hlp
    rw [hown, Option.map_some]
    exact congrArg some ((stampedSwap_own_iff hrun hlp hdir (proto_of_venue hvenue)).mpr hn)

end

end

/-- **TX_EXACT is coverage**: on a framed transaction, what is applied to the pool
is what the transaction does to it iff every instruction that touches the pool is
seen. -/
theorem txExact_covers_iff {p : List UInt8} {fr : Frame} {ov : TxOverlay} {pool : Mint}
    {nix : SwapIx} (hframe : frameTryAny p = some fr) (hkeys : (txoKeys p).isSome = true)
    (hscan : txoScan p = some ov) (hpool : pool ≠ 0)
    (hexact : (txoStampN (txoBindWatched ov pool) nix).txExact = true) (alt : List Mint)
    (ownDir : CompiledIx → UInt8) (proto : UInt8) :
    Covers fr alt ownDir pool proto (txoStampN (txoBindWatched ov pool) nix) ↔
      ∀ k ix, fr.ixs[k]? = some ix → touches fr.keys alt pool ix = true →
        Seen fr ownDir pool proto nix k ix := by
  have hov : ov.legs = (scanOuter fr.keys fr.ixs scanStart).legs := by
    rw [txoScan_framed hframe hkeys hscan, scanVerdict_legs]
  constructor
  · intro h k ix hix ht
    exact seen_of_covers hov hpool hexact h hix ht
  · exact fun h => covers_of_seen hov hpool hexact h

/-- N: a DLMM swap on the pool 3. -/
def swapN : SwapIx := ⟨protoDlmm, 3, 7, 1000, 0, 1, 1⟩

/-- The swap alone. -/
def swapAlone : Frame :=
  ⟨[9, 3, progDlmm, 5], [⟨2, [1], swapData dlmmSwap2Disc 1000 0⟩]⟩

/-- The swap, and then liquidity added to the same pool: DLMM's `add_liquidity`
names the position first and the pool second. -/
def swapThenAdd : Frame :=
  { swapAlone with ixs := swapAlone.ixs ++
    [⟨2, [3, 1], [0xb5, 0x9d, 0x59, 0x43, 0x8f, 0xb6, 0x34, 0x48]⟩] }

theorem txExact_covers_demo :
    ∃ ov, frameTryAny (legacyTx 7 swapAlone.keys swapAlone.ixs) = some swapAlone ∧
      txoScan (legacyTx 7 swapAlone.keys swapAlone.ixs) = some ov ∧
      (txoStampN (txoBindWatched ov 3) swapN).txExact = true ∧
      Covers swapAlone [] (fun _ => 1) 3 protoDlmm (txoStampN (txoBindWatched ov 3) swapN) := by
  have hframe : frameTryAny (legacyTx 7 swapAlone.keys swapAlone.ixs) = some swapAlone := by
    decide +kernel
  have hrun : ((txoScan (legacyTx 7 swapAlone.keys swapAlone.ixs)).map fun ov =>
      (txoStampN (txoBindWatched ov 3) swapN).txExact) = some true := by
    decide +kernel
  obtain ⟨ov, hov, hexact⟩ := Option.map_eq_some_iff.mp hrun
  refine ⟨ov, hframe, hov, hexact, ?_⟩
  refine (txExact_covers_iff hframe (by decide +kernel) hov (by decide) hexact [] (fun _ => 1)
    protoDlmm).mpr ?_
  intro k ix hix _
  match k with
  | 0 =>
    obtain rfl := Option.some.inj hix
    exact ⟨by decide +kernel, ⟨progDlmm, rfl, by decide +kernel, by decide⟩, ⟨1, rfl, rfl⟩,
      fun _ => ⟨rfl, rfl⟩⟩
  | k + 1 => exact absurd hix (by simp [swapAlone])

/-- The liquidity is added to the pool and TX_EXACT stands: the leg was booked to the
position. -/
theorem txExact_without_coverage :
    ∃ ov, frameTryAny (legacyTx 7 swapThenAdd.keys swapThenAdd.ixs) = some swapThenAdd ∧
      txoScan (legacyTx 7 swapThenAdd.keys swapThenAdd.ixs) = some ov ∧
      (txoStampN (txoBindWatched ov 3) swapN).txExact = true ∧
      ¬Covers swapThenAdd [] (fun _ => 1) 3 protoDlmm
        (txoStampN (txoBindWatched ov 3) swapN) := by
  have hframe : frameTryAny (legacyTx 7 swapThenAdd.keys swapThenAdd.ixs) = some swapThenAdd := by
    decide +kernel
  have hrun : ((txoScan (legacyTx 7 swapThenAdd.keys swapThenAdd.ixs)).map fun ov =>
      (txoStampN (txoBindWatched ov 3) swapN).txExact) = some true := by
    decide +kernel
  have hbooked : ((legAt swapThenAdd.keys swapThenAdd.ixs 1).map fun l => l.pool) = some 5 := by
    decide +kernel
  obtain ⟨ov, hov, hexact⟩ := Option.map_eq_some_iff.mp hrun
  refine ⟨ov, hframe, hov, hexact, fun hc => ?_⟩
  obtain ⟨l, hl, hlp⟩ := (hc.booked 1 _ rfl).mp (by decide +kernel)
  rw [hl, Option.map_some, hlp] at hbooked
  exact absurd hbooked (by decide)

end ShredArb.Tx
