/-
  ShredArb.Exec.AltPack — how routes are packed into address tables
  (`greedy_pack` of `arb-exec/scripts/alt_plane.py`).

  Tables on the chain can be appended to only.  The routes are placed one by
  one, those that need most first; a route goes into the FIRST pack with room
  for what that pack lacks, or into a pack of its own.

  A new pack takes each address of the need once.  A pack that is extended takes
  every address of the need it does not have yet AS OFTEN AS THE NEED LISTS IT.

  Conventions:
    • `sorted` is stable, so the routes of equal need keep their order,
    • `route["pack"]` is the number of the pack in the list returned.

  Main results:
    * `placeRoute_grows` — packs only grow, at their end,
    * `Placed.step` — what holds after every placement,
    * `greedyPack_packed_iff` — when no address is added twice,
    * `greedyPack_resolveAll` — none is for the routes of `resolve_all`.
-/
import ShredArb.Exec.AltPlane

namespace ShredArb.AltPack

open ShredArb.AltPlane

/-! ## §1. The packs (`greedy_pack`). -/

/-- `ALT_MAX`. -/
abbrev altMax : Nat := 256

/-- A pack. -/
structure Pack where
  pubkey : Option Key
  frozenN : Nat
  planned : List Key
  deriving DecidableEq

/-- The pack of an existing table. -/
def packOf (alt : Alt) : Pack := ⟨some alt.pubkey, alt.addresses.length, alt.addresses⟩

/-- `extra`: what the pack lacks. -/
def Pack.extra (p : Pack) (need : List Key) : List Key := need.filter fun a => a ∉ p.planned

/-- There is room for it. -/
def Pack.fits (p : Pack) (need : List Key) : Bool :=
  p.planned.length + (p.extra need).length ≤ altMax

/-- `p["planned"].extend(extra)`. -/
def Pack.extend (p : Pack) (need : List Key) : Pack :=
  { p with planned := p.planned ++ p.extra need }

/-- The routes with their packs' numbers, and the packs. -/
abbrev Plan := List (Route × Nat) × List Pack

/-- One turn of the loop over the routes. -/
def placeRoute (st : Plan) (route : Route) : Plan :=
  match st.2.findIdx? fun p => p.fits route.need with
  | some i => (st.1 ++ [(route, i)], st.2.modify i fun p => p.extend route.need)
  | none =>
    (st.1 ++ [(route, st.2.length)], st.2 ++ [⟨none, 0, distinctKeys route.need⟩])

/-- `sorted(routes, key=lambda r: -len(r["need"]))`. -/
def byNeed (routes : List Route) : List Route :=
  routes.mergeSort fun r s => s.need.length ≤ r.need.length

/-- `greedy_pack`. -/
def greedyPack (routes : List Route) (existing : List Alt) : Plan :=
  (byNeed routes).foldl placeRoute ([], existing.map packOf)

/-! ## §2. What a packing is. -/

/-- The addresses added to a pack. -/
def Pack.added (p : Pack) : List Key := p.planned.drop p.frozenN

/-- No address was added that the pack had already. -/
structure Pack.Once (p : Pack) : Prop where
  nodup : p.added.Nodup
  fresh : ∀ a ∈ p.added, a ∉ p.planned.take p.frozenN

/-- A packing of the routes into tables, the existing ones first. -/
structure Packed (routes : List Route) (existing : List Alt) (plan : Plan) : Prop where
  every : (plan.1.map Prod.fst).Perm routes
  holds : ∀ q ∈ plan.1, ∃ p, plan.2[q.2]? = some p ∧ q.1.need ⊆ p.planned
  kept : ∀ (i : Nat) (alt : Alt), existing[i]? = some alt →
    ∃ p : Pack, plan.2[i]? = some p ∧ p.pubkey = some alt.pubkey ∧ alt.addresses <+: p.planned
  bounded : ∀ p ∈ plan.2, p.planned.length ≤ altMax
  once : ∀ p ∈ plan.2, p.Once

/-- The pack that takes the need, if there is one, lacks each address once. -/
def CleanAt (packs : List Pack) (need : List Key) : Prop :=
  ∀ p, (packs.find? fun p => p.fits need) = some p → (p.extra need).Nodup

/-! ## §3. Keys each once. -/

theorem distinct_step (l need : List Key) (hneed : need.Nodup) :
    let d := l.foldl (fun need a => if a ∈ need then need else need ++ [a]) need
    d.Nodup ∧ (∀ a, a ∈ d ↔ a ∈ need ∨ a ∈ l) ∧ d.length ≤ need.length + l.length := by
  induction l generalizing need with
  | nil => exact ⟨hneed, fun a => by simp, by simp⟩
  | cons b l ih =>
    rw [List.foldl_cons]
    by_cases hb : b ∈ need
    · rw [if_pos hb]
      obtain ⟨hnodup, hmem, hlen⟩ := ih need hneed
      refine ⟨hnodup, fun a => ?_, ?_⟩
      · rw [hmem, List.mem_cons]
        constructor
        · rintro (h | h)
          · exact Or.inl h
          · exact Or.inr (Or.inr h)
        · rintro (h | rfl | h)
          · exact Or.inl h
          · exact Or.inl hb
          · exact Or.inr h
      · rw [List.length_cons]
        omega
    · rw [if_neg hb]
      have hnext : (need ++ [b]).Nodup := by
        rw [List.nodup_append]
        refine ⟨hneed, List.nodup_singleton b, fun x hx y hy => ?_⟩
        rw [List.mem_singleton] at hy
        rintro rfl
        exact hb (hy ▸ hx)
      obtain ⟨hnodup, hmem, hlen⟩ := ih (need ++ [b]) hnext
      refine ⟨hnodup, fun a => ?_, ?_⟩
      · rw [hmem, List.mem_append, List.mem_singleton, List.mem_cons, or_assoc]
      · rw [List.length_append, List.length_singleton] at hlen
        rw [List.length_cons]
        omega

theorem nodup_distinctKeys (l : List Key) : (distinctKeys l).Nodup :=
  (distinct_step l [] List.nodup_nil).1

theorem mem_distinctKeys {l : List Key} {a : Key} : a ∈ distinctKeys l ↔ a ∈ l := by
  have h := (distinct_step l [] List.nodup_nil).2.1 a
  rwa [or_iff_right List.not_mem_nil] at h

theorem length_distinctKeys_le (l : List Key) : (distinctKeys l).length ≤ l.length := by
  have h := (distinct_step l [] List.nodup_nil).2.2
  rwa [List.length_nil, Nat.zero_add] at h

/-! ## §4. Packs grow. -/

/-- The packs keep their places, and are added to at their ends only. -/
def Grows (packs packs' : List Pack) : Prop :=
  ∀ (i : Nat) (p : Pack), packs[i]? = some p → ∃ p' : Pack, packs'[i]? = some p' ∧ p'.pubkey = p.pubkey ∧
    p'.frozenN = p.frozenN ∧ p.planned <+: p'.planned

theorem Grows.refl (packs : List Pack) : Grows packs packs :=
  fun _ p h => ⟨p, h, rfl, rfl, List.prefix_refl _⟩

theorem Grows.trans {a b c : List Pack} (hab : Grows a b) (hbc : Grows b c) : Grows a c := by
  intro i p h
  obtain ⟨q, hq, hpub, hfrozen, hplanned⟩ := hab i p h
  obtain ⟨r, hr, hpub', hfrozen', hplanned'⟩ := hbc i q hq
  exact ⟨r, hr, hpub'.trans hpub, hfrozen'.trans hfrozen, hplanned.trans hplanned'⟩

/-- **What a placement does**: the first pack with room is extended, or there is
none and a new one comes last. -/
theorem placeRoute_cases (st : Plan) (route : Route) :
    (∃ i p, st.2[i]? = some p ∧ p.fits route.need = true ∧
      (st.2.find? fun p => p.fits route.need) = some p ∧
      placeRoute st route = (st.1 ++ [(route, i)], st.2.set i (p.extend route.need))) ∨
    (∀ p ∈ st.2, p.fits route.need = false) ∧
      placeRoute st route = (st.1 ++ [(route, st.2.length)],
        st.2 ++ [⟨none, 0, distinctKeys route.need⟩]) := by
  unfold placeRoute
  cases hfind : st.2.findIdx? fun p => p.fits route.need with
  | none =>
    exact Or.inr ⟨List.findIdx?_eq_none_iff.mp hfind, rfl⟩
  | some i =>
    obtain ⟨hlt, hfits, hfirst⟩ := List.findIdx?_eq_some_iff_getElem.mp hfind
    refine Or.inl ⟨i, st.2[i], List.getElem?_eq_getElem hlt, hfits, ?_, ?_⟩
    · exact List.find?_eq_some_iff_getElem.mpr ⟨hfits, i, hlt, rfl, fun j hj => by
        rw [Bool.not_eq_true']
        exact Bool.eq_false_iff.mpr (hfirst j hj)⟩
    · show (_, st.2.modify i _) = _
      rw [List.modify_eq_set_getElem?, List.getElem?_eq_getElem hlt]
      rfl

theorem prefix_extend (p : Pack) (need : List Key) : p.planned <+: (p.extend need).planned :=
  List.prefix_append _ _

/-- A placement only makes packs grow. -/
theorem placeRoute_grows (st : Plan) (route : Route) : Grows st.2 (placeRoute st route).2 := by
  intro j q hq
  rcases placeRoute_cases st route with ⟨i, p, hp, -, -, heq⟩ | ⟨-, heq⟩
  · rw [heq]
    by_cases hij : i = j
    · subst hij
      obtain rfl : p = q := Option.some.inj (hp.symm.trans hq)
      have hlt := (List.getElem?_eq_some_iff.mp hq).1
      exact ⟨p.extend route.need, List.getElem?_set_self hlt, rfl, rfl, prefix_extend p _⟩
    · exact ⟨q, (List.getElem?_set_ne hij).trans hq, rfl, rfl, List.prefix_refl _⟩
  · rw [heq]
    have hlt := (List.getElem?_eq_some_iff.mp hq).1
    exact ⟨q, (List.getElem?_append_left hlt).trans hq, rfl, rfl, List.prefix_refl _⟩

theorem placeAll_grows : ∀ (routes : List Route) (st : Plan),
    Grows st.2 (routes.foldl placeRoute st).2 := by
  intro routes
  induction routes with
  | nil => exact fun st => Grows.refl st.2
  | cons r routes ih => exact fun st => (placeRoute_grows st r).trans (ih (placeRoute st r))

/-! ## §5. What holds after every placement. -/

/-- A pack that takes a need has it all. -/
theorem subset_extend (p : Pack) (need : List Key) : need ⊆ (p.extend need).planned := by
  intro a ha
  by_cases hin : a ∈ p.planned
  · exact List.mem_append_left _ hin
  · exact List.mem_append_right _ (List.mem_filter.mpr ⟨ha, decide_eq_true hin⟩)

/-- The invariant of the loop. -/
structure Placed (existing : List Alt) (st : Plan) : Prop where
  holds : ∀ q ∈ st.1, ∃ p, st.2[q.2]? = some p ∧ q.1.need ⊆ p.planned
  grown : Grows (existing.map packOf) st.2
  bounded : ∀ p ∈ st.2, p.planned.length ≤ altMax
  frozen : ∀ p ∈ st.2, p.frozenN ≤ p.planned.length

theorem placed_existing {existing : List Alt}
    (h : ∀ alt ∈ existing, alt.addresses.length ≤ altMax) :
    Placed existing ([], existing.map packOf) where
  holds := fun q hq => absurd hq List.not_mem_nil
  grown := Grows.refl _
  bounded := by
    intro p hp
    obtain ⟨alt, halt, rfl⟩ := List.mem_map.mp hp
    exact h alt halt
  frozen := by
    intro p hp
    obtain ⟨alt, -, rfl⟩ := List.mem_map.mp hp
    exact Nat.le_refl _

/-- The pack that the route is given has its need. -/
theorem placeRoute_holds (st : Plan) (route : Route) :
    ∃ i p, (placeRoute st route).1 = st.1 ++ [(route, i)] ∧
      (placeRoute st route).2[i]? = some p ∧ route.need ⊆ p.planned := by
  rcases placeRoute_cases st route with ⟨i, p, hp, -, -, heq⟩ | ⟨-, heq⟩
  · have hlt := (List.getElem?_eq_some_iff.mp hp).1
    rw [heq]
    exact ⟨i, p.extend route.need, rfl, List.getElem?_set_self hlt, subset_extend p _⟩
  · rw [heq]
    exact ⟨st.2.length, _, rfl, List.getElem?_concat_length, fun a ha => mem_distinctKeys.mpr ha⟩

/-- **Every placement keeps the invariant**: the needs held, the tables' own
addresses in front, and no table too long. -/
theorem Placed.step {existing : List Alt} {st : Plan} (h : Placed existing st) {route : Route}
    (hneed : route.need.length ≤ altMax) : Placed existing (placeRoute st route) := by
  have hgrows := placeRoute_grows st route
  constructor
  · obtain ⟨i, p, hassigned, hget, hsub⟩ := placeRoute_holds st route
    intro q hq
    rw [hassigned, List.mem_append, List.mem_singleton] at hq
    rcases hq with hq | rfl
    · obtain ⟨p, hp, hsub⟩ := h.holds q hq
      obtain ⟨p', hp', -, -, hgrown⟩ := hgrows q.2 p hp
      exact ⟨p', hp', fun a ha => hgrown.subset (hsub ha)⟩
    · exact ⟨p, hget, hsub⟩
  · exact h.grown.trans hgrows
  · rcases placeRoute_cases st route with ⟨i, p, -, hfits, -, heq⟩ | ⟨-, heq⟩
    · rw [heq]
      intro q hq
      rcases List.mem_or_eq_of_mem_set hq with hq | rfl
      · exact h.bounded q hq
      · show (p.planned ++ p.extra route.need).length ≤ altMax
        rw [List.length_append]
        exact of_decide_eq_true hfits
    · rw [heq]
      intro q hq
      rw [List.mem_append, List.mem_singleton] at hq
      rcases hq with hq | rfl
      · exact h.bounded q hq
      · exact Nat.le_trans (length_distinctKeys_le _) hneed
  · rcases placeRoute_cases st route with ⟨i, p, hp, -, -, heq⟩ | ⟨-, heq⟩
    · rw [heq]
      intro q hq
      rcases List.mem_or_eq_of_mem_set hq with hq | rfl
      · exact h.frozen q hq
      · have hle := h.frozen p (List.mem_of_getElem? hp)
        exact Nat.le_trans hle (prefix_extend p _).length_le
    · rw [heq]
      intro q hq
      rw [List.mem_append, List.mem_singleton] at hq
      rcases hq with hq | rfl
      · exact h.frozen q hq
      · exact Nat.zero_le _

theorem Placed.run {existing : List Alt} : ∀ (routes : List Route) (st : Plan),
    Placed existing st → (∀ r ∈ routes, r.need.length ≤ altMax) →
    Placed existing (routes.foldl placeRoute st) := by
  intro routes
  induction routes with
  | nil => exact fun st h _ => h
  | cons r routes ih =>
    intro st h hneeds
    exact ih _ (h.step (hneeds r List.mem_cons_self)) fun s hs =>
      hneeds s (List.mem_cons_of_mem r hs)

theorem placeAll_assigned : ∀ (routes : List Route) (st : Plan),
    (routes.foldl placeRoute st).1.map Prod.fst = st.1.map Prod.fst ++ routes := by
  intro routes
  induction routes with
  | nil => exact fun st => (List.append_nil _).symm
  | cons r routes ih =>
    intro st
    obtain ⟨i, -, hassigned, -⟩ := placeRoute_holds st r
    rw [List.foldl_cons, ih, hassigned, List.map_append, List.append_assoc]
    rfl

/-! ## §6. Addresses added once. -/

/-- What a pack gains goes to the end of what was added. -/
theorem added_extend {p : Pack} (hfrozen : p.frozenN ≤ p.planned.length) (need : List Key) :
    (p.extend need).added = p.added ++ p.extra need :=
  List.drop_append_of_le_length hfrozen

theorem once_new (need : List Key) : (⟨none, 0, distinctKeys need⟩ : Pack).Once where
  nodup := nodup_distinctKeys need
  fresh := fun _ _ h => absurd h List.not_mem_nil

theorem once_packOf (alt : Alt) : (packOf alt).Once := by
  have hnone : (packOf alt).added = [] := List.drop_length
  constructor
  · rw [hnone]
    exact List.nodup_nil
  · intro a ha
    rw [hnone] at ha
    exact absurd ha List.not_mem_nil

/-- A pack that lacks each address once still has each added once. -/
theorem Pack.Once.extend {p : Pack} (h : p.Once) (hfrozen : p.frozenN ≤ p.planned.length)
    {need : List Key} (hclean : (p.extra need).Nodup) : (p.extend need).Once := by
  have hadded := added_extend hfrozen need
  have hnew : ∀ a ∈ p.extra need, a ∉ p.planned := fun a ha =>
    of_decide_eq_true (List.mem_filter.mp ha).2
  constructor
  · rw [hadded, List.nodup_append]
    refine ⟨h.nodup, hclean, fun a ha b hb => ?_⟩
    rintro rfl
    exact hnew a hb (List.mem_of_mem_drop ha)
  · intro a ha
    have htake : (p.extend need).planned.take (p.extend need).frozenN = p.planned.take p.frozenN :=
      List.take_append_of_le_length hfrozen
    rw [htake]
    rw [hadded, List.mem_append] at ha
    rcases ha with ha | ha
    · exact h.fresh a ha
    · exact fun hmem => hnew a ha (List.mem_of_mem_take hmem)

/-- A pack to which an address was added twice keeps it twice. -/
theorem Grows.nodup {packs packs' : List Pack} (h : Grows packs packs') {i : Nat} {p : Pack}
    (hp : packs[i]? = some p) (honce : ∀ q ∈ packs', q.Once) : p.added.Nodup := by
  obtain ⟨p', hp', -, hfrozen, hgrown⟩ := h i p hp
  have hadded := (honce p' (List.mem_of_getElem? hp')).nodup
  rw [Pack.added, hfrozen] at hadded
  exact hadded.sublist (hgrown.drop _).sublist

theorem CleanAt.of_unfit {packs : List Pack} {need : List Key}
    (h : ∀ p ∈ packs, p.fits need = false) : CleanAt packs need := by
  intro q hq
  have hfits := List.find?_some hq
  rw [h q (List.mem_of_find?_eq_some hq)] at hfits
  exact absurd hfits (by decide)

/-- A clean placement adds each address once. -/
theorem Placed.once_step {existing : List Alt} {st : Plan} (hplaced : Placed existing st)
    (honce : ∀ p ∈ st.2, p.Once) {route : Route} (hclean : CleanAt st.2 route.need) :
    ∀ p ∈ (placeRoute st route).2, p.Once := by
  rcases placeRoute_cases st route with ⟨i, p, hp, -, hfind, heq⟩ | ⟨-, heq⟩
  · have hmem := List.mem_of_getElem? hp
    rw [heq]
    intro q hq
    rcases List.mem_or_eq_of_mem_set hq with hq | rfl
    · exact honce q hq
    · exact (honce p hmem).extend (hplaced.frozen p hmem) (hclean p hfind)
  · rw [heq]
    intro q hq
    rw [List.mem_append, List.mem_singleton] at hq
    rcases hq with hq | rfl
    · exact honce q hq
    · exact once_new route.need

/-- A placement after which no pack, however it grows, has an address added
twice was clean. -/
theorem Placed.cleanAt {existing : List Alt} {st : Plan} (hplaced : Placed existing st)
    {route : Route} {packs : List Pack} (hgrows : Grows (placeRoute st route).2 packs)
    (honce : ∀ p ∈ packs, p.Once) : CleanAt st.2 route.need := by
  rcases placeRoute_cases st route with ⟨i, p, hp, -, hfind, heq⟩ | ⟨hnone, -⟩
  · intro q hq
    obtain rfl : p = q := Option.some.inj (hfind.symm.trans hq)
    have hlt := (List.getElem?_eq_some_iff.mp hp).1
    have hget : (placeRoute st route).2[i]? = some (p.extend route.need) := by
      rw [heq]
      exact List.getElem?_set_self hlt
    have hnodup := hgrows.nodup hget honce
    rw [added_extend (hplaced.frozen p (List.mem_of_getElem? hp)), List.nodup_append] at hnodup
    exact hnodup.2.1
  · exact CleanAt.of_unfit hnone

/-- **Each address is added once** in a run exactly when every placement lets a
pack take addresses it lacks once. -/
theorem placeAll_once_iff {existing : List Alt} : ∀ (routes : List Route) (st : Plan),
    Placed existing st → (∀ p ∈ st.2, p.Once) → (∀ r ∈ routes, r.need.length ≤ altMax) →
    ((∀ p ∈ (routes.foldl placeRoute st).2, p.Once) ↔
      ∀ before r after, routes = before ++ r :: after →
        CleanAt (before.foldl placeRoute st).2 r.need) := by
  intro routes
  induction routes with
  | nil =>
    intro st _ honce _
    refine ⟨fun _ before r after h => ?_, fun _ => honce⟩
    exact absurd h.symm (List.append_ne_nil_of_right_ne_nil _ (List.cons_ne_nil r after))
  | cons r routes ih =>
    intro st hplaced honce hneeds
    have hplaced' := hplaced.step (hneeds r List.mem_cons_self)
    have hneeds' : ∀ s ∈ routes, s.need.length ≤ altMax := fun s hs =>
      hneeds s (List.mem_cons_of_mem r hs)
    constructor
    · intro h
      -- what a placement adds twice is there twice to the end
      have hone := hplaced.cleanAt (placeAll_grows routes (placeRoute st r)) h
      have hrest := (ih _ hplaced' (hplaced.once_step honce hone) hneeds').mp h
      intro before s after hsplit
      cases before with
      | nil =>
        obtain ⟨rfl, -⟩ := List.cons.inj hsplit
        exact hone
      | cons b before =>
        obtain ⟨rfl, hroutes⟩ := List.cons.inj hsplit
        exact hrest before s after hroutes
    · intro h
      have hone := h [] r routes rfl
      refine (ih _ hplaced' (hplaced.once_step honce hone) hneeds').mpr ?_
      intro before s after hsplit
      exact h (r :: before) s after (by rw [hsplit, List.cons_append])

/-! ## §7. The packing. -/

section Packing

variable {routes : List Route} {existing : List Alt}

theorem byNeed_need (hneeds : ∀ r ∈ routes, r.need.length ≤ altMax) :
    ∀ r ∈ byNeed routes, r.need.length ≤ altMax :=
  fun r hr => hneeds r ((List.mergeSort_perm routes _).mem_iff.mp hr)

theorem greedyPack_once_iff (hneeds : ∀ r ∈ routes, r.need.length ≤ altMax)
    (hexisting : ∀ alt ∈ existing, alt.addresses.length ≤ altMax) :
    (∀ p ∈ (greedyPack routes existing).2, p.Once) ↔
      ∀ before r after, byNeed routes = before ++ r :: after →
        CleanAt (before.foldl placeRoute ([], existing.map packOf)).2 r.need := by
  refine placeAll_once_iff _ _ (placed_existing hexisting) (fun p hp => ?_) (byNeed_need hneeds)
  obtain ⟨alt, -, rfl⟩ := List.mem_map.mp hp
  exact once_packOf alt

/-- The other parts of a packing hold for every list of routes. -/
theorem packed_of_once (hneeds : ∀ r ∈ routes, r.need.length ≤ altMax)
    (hexisting : ∀ alt ∈ existing, alt.addresses.length ≤ altMax)
    (honce : ∀ p ∈ (greedyPack routes existing).2, p.Once) :
    Packed routes existing (greedyPack routes existing) := by
  have hplaced : Placed existing (greedyPack routes existing) :=
    Placed.run _ _ (placed_existing hexisting) (byNeed_need hneeds)
  exact
    { every := by
        rw [greedyPack, placeAll_assigned]
        exact List.mergeSort_perm routes _
      holds := hplaced.holds
      kept := by
        intro i alt halt
        obtain ⟨p, hp, hpub, -, hgrown⟩ := hplaced.grown i (packOf alt) (by
          rw [List.getElem?_map, halt]
          rfl)
        exact ⟨p, hp, hpub, hgrown⟩
      bounded := hplaced.bounded
      once := honce }

end Packing

/-- A route with the need `need`. -/
def demoRoute (need : List Key) : Route where
  dlmm := "d"
  pump := "p"
  token := "t"
  mintX := "x"
  baseTok := token2022
  userQuote := "q"
  userBase := "b"
  static := []
  wr := []
  wrBuy := need
  ro := []
  need := need
  activeId := 0

/-- What a need of `resolve_all` is made of. -/
theorem keys_resolveAll {dv : Derive} {owner : Key → Option Key} {wallet ourExec : Key}
    {pairs : List Pair} {r : Route} (hr : r ∈ resolveAll dv owner wallet ourExec pairs) :
    ∃ keys, r.need = distinctKeys keys ∧ keys.length ≤ altMax := by
  obtain ⟨pr, -, hpr⟩ := List.mem_filterMap.mp hr
  simp only [resolveOne, Option.bind_eq_some_iff] at hpr
  obtain ⟨lb, -, p, -, hpr⟩ := hpr
  split at hpr
  next => cases hpr
  next =>
    split at hpr
    next => cases hpr
    next =>
      split at hpr
      next b0 b1 rest hbins =>
        have hlen := congrArg List.length hbins
        have hle := List.length_filter_le (fun b => (owner b).isSome)
          (neighborBins dv pr.dlmm lb.activeId)
        rw [hlen] at hle
        have hneed := congrArg Route.need (Option.some.inj hpr)
        dsimp only at hneed
        refine ⟨_, hneed.symm, ?_⟩
        simp only [List.length_append, List.length_cons, List.length_nil, v0Wr, v0Ro, neighborBins,
          List.length_map, altMax] at hle ⊢
        omega
      next => cases hpr

/-- A need of `resolve_all` lists each address once, and is short. -/
theorem need_resolveAll {dv : Derive} {owner : Key → Option Key} {wallet ourExec : Key}
    {pairs : List Pair} {r : Route} (hr : r ∈ resolveAll dv owner wallet ourExec pairs) :
    r.need.Nodup ∧ r.need.length ≤ altMax := by
  obtain ⟨keys, hkeys, hlen⟩ := keys_resolveAll hr
  rw [hkeys]
  exact ⟨nodup_distinctKeys keys, Nat.le_trans (length_distinctKeys_le keys) hlen⟩

/-- **The routes of `resolve_all` are packed**, whatever the tables. -/
theorem greedyPack_resolveAll {dv : Derive} {owner : Key → Option Key} {wallet ourExec : Key}
    {pairs : List Pair} {existing : List Alt}
    (hexisting : ∀ alt ∈ existing, alt.addresses.length ≤ altMax) :
    Packed (resolveAll dv owner wallet ourExec pairs) existing
      (greedyPack (resolveAll dv owner wallet ourExec pairs) existing) := by
  have hneeds : ∀ r ∈ resolveAll dv owner wallet ourExec pairs, r.need.length ≤ altMax :=
    fun r hr => (need_resolveAll hr).2
  refine packed_of_once hneeds hexisting ((greedyPack_once_iff hneeds hexisting).mpr ?_)
  intro before r after hsplit q _
  have hr : r ∈ byNeed (resolveAll dv owner wallet ourExec pairs) :=
    hsplit ▸ List.mem_append_right _ List.mem_cons_self
  exact (need_resolveAll ((List.mergeSort_perm _ _).mem_iff.mp hr)).1.filter _

end ShredArb.AltPack
