/-
  ShredArb.Gates.Loaders — the two loaders of a plane.

  Both keep, for a key, the last row that names it, but `index_plane` looks at
  ALL rows and `load_race_plane` only at the ready ones: a row that is not
  ready counts for the one and not for the other, both for which row is last
  and for whether two pairs share the key.

  Main results:
    * `mem_ambiguousPoolKeys` — the shared keys are those of two pairs,
    * `readyAt_load`, `readyAt_index` — when a key is ready,
    * `loaders_agree_iff`.
-/
import ShredArb.Gates.Plane

namespace ShredArb.Gates

open ShredArb.Dict

/-! ## §1. Shared keys. -/

/-- The keys of a row. -/
def Route.keys (r : Route) : List Text := [r.dlmm, r.pump]

/-- Two rows of different pairs name the key. -/
def SharedKey (routes : List Route) (k : Text) : Prop :=
  ∃ r ∈ routes, ∃ r' ∈ routes, k ∈ r.keys ∧ k ∈ r'.keys ∧ r.pair ≠ r'.pair

theorem ownKey_owner (pair : Text × Text) (s : Owners) (key k : Text) :
    get (ownKey pair s key).owner k = if k = key ∧ k ≠ [] then some pair else get s.owner k := by
  unfold ownKey
  by_cases he : key.isEmpty = true
  · have hnil : key = [] := List.isEmpty_iff.mp he
    rw [if_pos he, if_neg]
    rintro ⟨hk, hne⟩
    exact hne (hk.trans hnil)
  · have hnil : key ≠ [] := fun h => he (List.isEmpty_iff.mpr h)
    rw [if_neg he]
    simp only
    rw [get_set]
    by_cases hk : key = k
    · rw [if_pos hk, if_pos ⟨hk.symm, hk ▸ hnil⟩]
    · rw [if_neg hk, if_neg]
      rintro ⟨h, -⟩
      exact hk h.symm

theorem ownKey_shared (pair : Text × Text) (s : Owners) (key k : Text) :
    k ∈ (ownKey pair s key).shared ↔ k ∈ s.shared ∨
      (k = key ∧ k ≠ [] ∧ ∃ p, get s.owner k = some p ∧ p ≠ pair) := by
  unfold ownKey
  by_cases he : key.isEmpty = true
  · have hnil : key = [] := List.isEmpty_iff.mp he
    rw [if_pos he]
    constructor
    · exact Or.inl
    · rintro (h | ⟨hk, hne, -⟩)
      · exact h
      · exact absurd (hk.trans hnil) hne
  · have hnil : key ≠ [] := fun h => he (List.isEmpty_iff.mpr h)
    rw [if_neg he]
    simp only
    cases hget : get s.owner key with
    | none =>
      simp only
      constructor
      · exact Or.inl
      · rintro (h | ⟨rfl, -, p, hp, -⟩)
        · exact h
        · rw [hget] at hp
          exact absurd hp (by simp)
    | some prev =>
      simp only
      by_cases hne : prev ≠ pair
      · rw [if_pos hne, List.mem_cons]
        constructor
        · rintro (rfl | h)
          · exact Or.inr ⟨rfl, hnil, prev, hget, hne⟩
          · exact Or.inl h
        · rintro (h | ⟨rfl, -⟩)
          · exact Or.inr h
          · exact Or.inl rfl
      · rw [if_neg hne]
        constructor
        · exact Or.inl
        · rintro (h | ⟨rfl, -, p, hp, hpne⟩)
          · exact h
          · rw [hget] at hp
            obtain rfl := Option.some.inj hp
            exact absurd hpne hne

/-- The keys of one row. -/
theorem ownKeys_spec (pair : Text × Text) (ks : List Text) : ∀ (s : Owners) (k : Text),
    get (ks.foldl (ownKey pair) s).owner k =
        (if k ∈ ks ∧ k ≠ [] then some pair else get s.owner k) ∧
      (k ∈ (ks.foldl (ownKey pair) s).shared ↔ k ∈ s.shared ∨
        (k ∈ ks ∧ k ≠ [] ∧ ∃ p, get s.owner k = some p ∧ p ≠ pair)) := by
  induction ks with
  | nil =>
    intro s k
    simp
  | cons key ks ih =>
    intro s k
    obtain ⟨ihown, ihsh⟩ := ih (ownKey pair s key) k
    rw [List.foldl_cons, ihown, ihsh, ownKey_owner, ownKey_shared]
    constructor
    · by_cases h : k ∈ ks ∧ k ≠ []
      · rw [if_pos h, if_pos ⟨List.mem_cons_of_mem _ h.1, h.2⟩]
      · rw [if_neg h]
        by_cases hk : k = key ∧ k ≠ []
        · rw [if_pos hk, if_pos ⟨hk.1 ▸ List.mem_cons_self, hk.2⟩]
        · rw [if_neg hk, if_neg]
          rintro ⟨hm, hne⟩
          rcases List.mem_cons.mp hm with rfl | hm
          · exact hk ⟨rfl, hne⟩
          · exact h ⟨hm, hne⟩
    · -- a key met again is already owned by the pair itself
      by_cases hk : k = key ∧ k ≠ []
      · rw [if_pos hk]
        constructor
        · rintro ((h | ⟨-, -, hp⟩) | ⟨-, -, p, hp, hne⟩)
          · exact Or.inl h
          · exact Or.inr ⟨hk.1 ▸ List.mem_cons_self, hk.2, hp⟩
          · exact absurd (Option.some.inj hp).symm hne
        · rintro (h | ⟨-, -, hp⟩)
          · exact Or.inl (Or.inl h)
          · exact Or.inl (Or.inr ⟨hk.1, hk.2, hp⟩)
      · rw [if_neg hk]
        constructor
        · rintro ((h | ⟨h1, h2, -⟩) | ⟨hm, hne, hp⟩)
          · exact Or.inl h
          · exact absurd ⟨h1, h2⟩ hk
          · exact Or.inr ⟨List.mem_cons_of_mem _ hm, hne, hp⟩
        · rintro (h | ⟨hm, hne, hp⟩)
          · exact Or.inl (Or.inl h)
          · rcases List.mem_cons.mp hm with rfl | hm
            · exact absurd ⟨rfl, hne⟩ hk
            · exact Or.inr ⟨hm, hne, hp⟩

/-- The loop over the rows. -/
def ownRows (routes : List Route) : Owners :=
  routes.foldl (fun s r => [r.dlmm, r.pump].foldl (ownKey r.pair) s) ⟨[], []⟩

theorem getLast?_of_mem {α : Type} {xs : List α} {x : α} (h : x ∈ xs) :
    ∃ y ∈ xs, xs.getLast? = some y := by
  have hne : xs ≠ [] := List.ne_nil_of_mem h
  exact ⟨xs.getLast hne, List.getLast_mem hne, List.getLast?_eq_some_getLast hne⟩

/-- The loop keeps the last pair of every key, and has marked the keys of two
pairs. -/
theorem ownRows_spec (routes : List Route) (k : Text) (hk : k ≠ []) :
    get (ownRows routes).owner k = (rowsOf Route.keys routes k).getLast?.map Route.pair ∧
      (k ∈ (ownRows routes).shared ↔ SharedKey routes k) := by
  induction routes using List.reverseRecOn with
  | nil =>
    refine ⟨rfl, ?_⟩
    constructor
    · intro h
      exact absurd h List.not_mem_nil
    · rintro ⟨r, hr, -⟩
      exact absurd hr List.not_mem_nil
  | append_singleton routes r ih =>
    obtain ⟨ihown, ihsh⟩ := ih
    obtain ⟨hown, hsh⟩ := ownKeys_spec r.pair [r.dlmm, r.pump] (ownRows routes) k
    have hstep : ownRows (routes ++ [r]) = [r.dlmm, r.pump].foldl (ownKey r.pair) (ownRows routes) := by
      rw [ownRows, List.foldl_append]
      rfl
    rw [hstep, hown, hsh, rowsOf_append, ihown, ihsh]
    constructor
    · by_cases hm : k ∈ r.keys
      · rw [if_pos hm, if_pos ⟨hm, hk⟩, List.getLast?_append]
        rfl
      · rw [if_neg hm, if_neg (fun h => hm h.1)]
    · constructor
      · rintro (⟨x, hx, y, hy, hkx, hky, hne⟩ | ⟨hm, -, p, hp, hne⟩)
        · exact ⟨x, List.mem_append_left _ hx, y, List.mem_append_left _ hy, hkx, hky, hne⟩
        · obtain ⟨x, hx, rfl⟩ := Option.map_eq_some_iff.mp hp
          obtain ⟨hxr, hkx⟩ := mem_rowsOf.mp (List.mem_of_getLast? hx)
          exact ⟨x, List.mem_append_left _ hxr, r, List.mem_append_right _ List.mem_cons_self, hkx,
            hm, hne⟩
      · rintro ⟨x, hx, y, hy, hkx, hky, hne⟩
        -- a row of another pair than `r` differs from the last owner, or the last owner does
        have hnew : ∀ z ∈ routes, k ∈ z.keys → k ∈ r.keys → z.pair ≠ r.pair →
            SharedKey routes k ∨ (k ∈ [r.dlmm, r.pump] ∧ k ≠ [] ∧ ∃ p,
              (rowsOf Route.keys routes k).getLast?.map Route.pair = some p ∧ p ≠ r.pair) := by
          intro z hz hkz hkr hzr
          obtain ⟨l, hl, hlast⟩ := getLast?_of_mem (mem_rowsOf.mpr ⟨hz, hkz⟩)
          obtain ⟨hlr, hkl⟩ := mem_rowsOf.mp hl
          by_cases hlp : l.pair = r.pair
          · exact Or.inl ⟨z, hz, l, hlr, hkz, hkl, fun h => hzr (h.trans hlp)⟩
          · exact Or.inr ⟨hkr, hk, l.pair, by rw [hlast]; rfl, hlp⟩
        rcases List.mem_append.mp hx with hx' | hx'
        · rcases List.mem_append.mp hy with hy' | hy'
          · exact Or.inl ⟨x, hx', y, hy', hkx, hky, hne⟩
          · have hyr : y = r := List.mem_singleton.mp hy'
            rw [hyr] at hky hne
            exact hnew x hx' hkx hky hne
        · have hxr : x = r := List.mem_singleton.mp hx'
          rw [hxr] at hkx hne
          rcases List.mem_append.mp hy with hy' | hy'
          · exact hnew y hy' hky hkx (Ne.symm hne)
          · exact absurd (congrArg Route.pair (List.mem_singleton.mp hy').symm) hne

theorem not_mem_shared_nil (routes : List Route) : [] ∉ (ownRows routes).shared := by
  induction routes using List.reverseRecOn with
  | nil => exact List.not_mem_nil
  | append_singleton routes r ih =>
    have hstep : ownRows (routes ++ [r]) = [r.dlmm, r.pump].foldl (ownKey r.pair) (ownRows routes) := by
      rw [ownRows, List.foldl_append]
      rfl
    rw [hstep, (ownKeys_spec r.pair [r.dlmm, r.pump] (ownRows routes) []).2]
    rintro (h | ⟨-, h, -⟩)
    · exact ih h
    · exact h rfl

/-- **The shared keys are the keys of two different pairs.** -/
theorem mem_ambiguousPoolKeys {routes : List Route} {k : Text} :
    k ∈ ambiguousPoolKeys routes ↔ k ≠ [] ∧ SharedKey routes k := by
  show k ∈ (ownRows routes).shared ↔ _
  by_cases hk : k = []
  · rw [hk]
    exact ⟨fun h => absurd h (not_mem_shared_nil routes), fun h => absurd rfl h.1⟩
  · rw [(ownRows_spec routes k hk).2]
    exact ⟨fun h => ⟨hk, h⟩, fun h => h.2⟩

/-! ## §2. When a key is ready. -/

/-- The key has a ready row. -/
def ReadyAt {τ : Type} (plane : Plane τ) (k : Text) (row : PlaneRow τ) : Prop :=
  get plane k = some row ∧ row.planeRaceReady = true

theorem indexPlane_eq (routes : List Route) :
    indexPlane routes = index (fun r : Route => r.keys.filter fun k => !k.isEmpty)
      (fun r k => markShared (ambiguousPoolKeys routes) k (indexRow r)) routes := by
  simp only [indexPlane, index, setAll, List.foldl_filter]
  congr 1
  funext d r
  show List.foldl _ d [r.dlmm, r.pump] = List.foldl _ d [r.dlmm, r.pump]
  congr 1
  funext d key
  cases key.isEmpty <;> rfl

theorem markShared_of_not_mem {τ : Type} {shared : List Text} {k : Text} (h : k ∉ shared)
    (row : PlaneRow τ) : markShared shared k row = row := by
  rw [markShared, if_neg]
  intro hc
  exact h (List.contains_iff_mem.mp hc)

theorem markShared_ready {τ : Type} {shared : List Text} {k : Text} {row : PlaneRow τ} :
    (markShared shared k row).planeRaceReady = true ↔ k ∉ shared ∧ row.planeRaceReady = true := by
  unfold markShared
  by_cases h : k ∈ shared
  · rw [if_pos (by simpa using h)]
    simp [h]
  · rw [if_neg (by simpa using h)]
    simp [h]

/-- `index_plane`: the last row naming the key is ready, and no other pair
names it. -/
theorem readyAt_index {routes : List Route} {k : Text} {row : PlaneRow Char} :
    ReadyAt (indexPlane routes) k row ↔ k ≠ [] ∧ ¬ SharedKey routes k ∧
      ∃ r, (rowsOf Route.keys routes k).getLast? = some r ∧ r.ready = true ∧
        row = indexRow r := by
  have hrows : ∀ rs : List Route,
      rowsOf (fun r : Route => r.keys.filter fun k => !k.isEmpty) rs k =
        if k = [] then [] else rowsOf Route.keys rs k := by
    intro rs
    unfold rowsOf
    by_cases hk : k = []
    · rw [if_pos hk, hk]
      simp
    · rw [if_neg hk]
      refine List.filter_congr fun r _ => ?_
      simp [hk]
  rw [ReadyAt, indexPlane_eq, get_index, hrows]
  by_cases hk : k = []
  · rw [if_pos hk]
    constructor
    · rintro ⟨h, -⟩
      exact absurd h (by simp)
    · rintro ⟨h, -⟩
      exact absurd hk h
  · rw [if_neg hk]
    constructor
    · rintro ⟨h, hready⟩
      obtain ⟨r, hr, rfl⟩ := Option.map_eq_some_iff.mp h
      obtain ⟨hns, hrr⟩ := markShared_ready.mp hready
      have hsh : ¬ SharedKey routes k := fun hs => hns (mem_ambiguousPoolKeys.mpr ⟨hk, hs⟩)
      refine ⟨hk, hsh, r, hr, hrr, ?_⟩
      exact markShared_of_not_mem hns _
    · rintro ⟨-, hsh, r, hr, hready, rfl⟩
      have hns : k ∉ ambiguousPoolKeys routes := fun h => hsh (mem_ambiguousPoolKeys.mp h).2
      rw [hr, Option.map_some, markShared_of_not_mem hns]
      exact ⟨rfl, hready⟩

/-- The ready rows. -/
def readyRows (routes : List Route) : List Route := routes.filter Route.ready

/-- `load_race_plane`: the same, among the ready rows only. -/
theorem readyAt_load {srcs : List (List Route)} {plane : Plane UInt8}
    (h : loadRacePlane srcs = some plane) {k : Text} {row : PlaneRow UInt8} :
    ReadyAt plane k row ↔ ¬ (k ≠ [] ∧ SharedKey (readyRows srcs.flatten) k) ∧
      ∃ r, (rowsOf Route.keys (readyRows srcs.flatten) k).getLast? = some r ∧
        raceRow r = some row := by
  obtain ⟨d, hd, rfl⟩ := Option.map_eq_some_iff.mp h
  have hindex : indexM Route.keys raceRow (readyRows srcs.flatten) = some d := hd
  obtain ⟨-, hget⟩ := get_indexM hindex
  have hflag : ∀ r (v : PlaneRow UInt8), raceRow r = some v → v.planeRaceReady = true := by
    intro r v hv
    obtain ⟨t0, -, hv⟩ := Option.bind_eq_some_iff.mp hv
    obtain ⟨t1, -, rfl⟩ := Option.map_eq_some_iff.mp hv
    rfl
  rw [ReadyAt, get_adjust, hget, ← mem_ambiguousPoolKeys]
  constructor
  · rintro ⟨hrow, hready⟩
    obtain ⟨v, hv, rfl⟩ := Option.map_eq_some_iff.mp hrow
    obtain ⟨hns, -⟩ := markShared_ready.mp hready
    obtain ⟨r, hr, hv⟩ := Option.bind_eq_some_iff.mp hv
    exact ⟨hns, r, hr, hv.trans (congrArg some (markShared_of_not_mem hns v).symm)⟩
  · rintro ⟨hns, r, hr, hv⟩
    rw [hr, Option.bind_some, hv]
    exact ⟨congrArg some (markShared_of_not_mem hns row), hflag r row hv⟩

/-! ## §3. The two planes. -/

/-- The key is named by rows of exactly one pair. -/
def OnePair (routes : List Route) (k : Text) : Prop :=
  ∃! p : Text × Text, ∃ r ∈ routes, k ∈ r.keys ∧ r.pair = p

/-- Both planes have the same ready keys, with the same pair and templates, and
a ready key belongs to one pair of the whole list. -/
structure PlanesAgree (plane : Plane UInt8) (funnel : Plane Char) (routes : List Route) : Prop where
  ready : ∀ k, (∃ row, ReadyAt plane k row) ↔ ∃ row, ReadyAt funnel k row
  rows : ∀ k row row', ReadyAt plane k row → ReadyAt funnel k row' →
    row.dlmm = row'.dlmm ∧ row.pump = row'.pump ∧ fromHex row'.tmpl0 = some row.tmpl0 ∧
      fromHex row'.tmpl1 = some row.tmpl1
  onePair : ∀ k row, ReadyAt plane k row → OnePair routes k

/-- A key with a ready row that the ready rows give to one pair is given to it
by ALL rows, and the last row naming it is ready.  (And ready rows have keys.) -/
structure KeysSettled (routes : List Route) : Prop where
  named : ∀ r ∈ routes, r.ready = true → [] ∉ r.keys
  settled : ∀ k, (∃ r ∈ routes, r.ready = true ∧ k ∈ r.keys) → ¬ SharedKey (readyRows routes) k →
    ¬ SharedKey routes k ∧ ∃ r, (rowsOf Route.keys routes k).getLast? = some r ∧ r.ready = true

theorem onePair_of_not_shared {routes : List Route} {k : Text} (hns : ¬ SharedKey routes k)
    {r : Route} (hr : r ∈ routes) (hk : k ∈ r.keys) : OnePair routes k := by
  refine ⟨r.pair, ⟨r, hr, hk, rfl⟩, ?_⟩
  rintro p ⟨x, hx, hkx, rfl⟩
  by_contra hne
  exact hns ⟨x, hx, r, hr, hkx, hk, hne⟩

theorem mem_readyRows {routes : List Route} {r : Route} :
    r ∈ readyRows routes ↔ r ∈ routes ∧ r.ready = true := List.mem_filter

theorem SharedKey.of_ready {routes : List Route} {k : Text} (h : SharedKey (readyRows routes) k) :
    SharedKey routes k := by
  obtain ⟨x, hx, y, hy, hkx, hky, hne⟩ := h
  exact ⟨x, (mem_readyRows.mp hx).1, y, (mem_readyRows.mp hy).1, hkx, hky, hne⟩

/-- When the last row naming a key is ready, it is the last ready one. -/
theorem getLast?_readyRows {routes : List Route} {k : Text} {r : Route}
    (h : (rowsOf Route.keys routes k).getLast? = some r) (hready : r.ready = true) :
    (rowsOf Route.keys (readyRows routes) k).getLast? = some r := by
  have hcomm : rowsOf Route.keys (readyRows routes) k =
      (rowsOf Route.keys routes k).filter Route.ready := by
    rw [rowsOf, readyRows, rowsOf, List.filter_filter, List.filter_filter]
    exact List.filter_congr fun x _ => Bool.and_comm _ _
  obtain ⟨rs, hrs⟩ := List.getLast?_eq_some_iff.mp h
  rw [hcomm, hrs, List.filter_append, List.filter_cons_of_pos hready, List.filter_nil,
    List.getLast?_append]
  rfl

section Agree

variable {srcs : List (List Route)} {plane : Plane UInt8} (h : loadRacePlane srcs = some plane)

include h

theorem load_ready_of_row {k : Text} {r : Route}
    (hr : r ∈ readyRows srcs.flatten) (hk : k ∈ r.keys)
    (hns : ¬ (k ≠ [] ∧ SharedKey (readyRows srcs.flatten) k)) : ∃ row, ReadyAt plane k row := by
  obtain ⟨d, hd, -⟩ := Option.map_eq_some_iff.mp h
  have hindex : indexM Route.keys raceRow (readyRows srcs.flatten) = some d := hd
  obtain ⟨hall, -⟩ := get_indexM hindex
  obtain ⟨l, hl, hlast⟩ := getLast?_of_mem (mem_rowsOf.mpr ⟨hr, hk⟩)
  obtain ⟨row, hrow⟩ := Option.isSome_iff_exists.mp (hall l (mem_rowsOf.mp hl).1)
  exact ⟨row, (readyAt_load h).mpr ⟨hns, l, hlast, hrow⟩⟩

/-- A key ready in the funnel is ready for the sender, with the same row. -/
theorem load_of_index {k : Text} {row' : PlaneRow Char}
    (hi : ReadyAt (indexPlane srcs.flatten) k row') :
    ∃ row, ReadyAt plane k row ∧ row.dlmm = row'.dlmm ∧ row.pump = row'.pump ∧
      fromHex row'.tmpl0 = some row.tmpl0 ∧ fromHex row'.tmpl1 = some row.tmpl1 := by
  obtain ⟨hk, hns, r, hlast, hready, rfl⟩ := readyAt_index.mp hi
  have hlast' := getLast?_readyRows hlast hready
  obtain ⟨hmem, hkr⟩ := mem_rowsOf.mp (List.mem_of_getLast? hlast')
  obtain ⟨row, hrow⟩ := load_ready_of_row h hmem hkr fun hs => hns hs.2.of_ready
  obtain ⟨-, r', hr', hv⟩ := (readyAt_load h).mp hrow
  rw [hlast'] at hr'
  obtain rfl := Option.some.inj hr'
  obtain ⟨t0, ht0, hv⟩ := Option.bind_eq_some_iff.mp hv
  obtain ⟨t1, ht1, rfl⟩ := Option.map_eq_some_iff.mp hv
  exact ⟨_, hrow, rfl, rfl, ht0, ht1⟩

/-- **The loaders agree on a list exactly when its keys are settled.** -/
theorem loaders_agree_iff :
    PlanesAgree plane (indexPlane srcs.flatten) srcs.flatten ↔ KeysSettled srcs.flatten := by
  constructor
  · intro hag
    refine ⟨?_, ?_⟩
    · intro r hr hready hnil
      obtain ⟨row, hrow⟩ := load_ready_of_row h (mem_readyRows.mpr ⟨hr, hready⟩) hnil
        fun hs => hs.1 rfl
      obtain ⟨row', hrow'⟩ := (hag.ready []).mp ⟨row, hrow⟩
      exact (readyAt_index.mp hrow').1 rfl
    · rintro k ⟨r, hr, hready, hk⟩ hns
      obtain ⟨row, hrow⟩ := load_ready_of_row h (mem_readyRows.mpr ⟨hr, hready⟩) hk
        fun hs => hns hs.2
      obtain ⟨row', hrow'⟩ := (hag.ready k).mp ⟨row, hrow⟩
      obtain ⟨-, hns', l, hlast, hlready, -⟩ := readyAt_index.mp hrow'
      exact ⟨hns', l, hlast, hlready⟩
  · intro hset
    -- a ready key of the sender is ready in the funnel
    have hto : ∀ k row, ReadyAt plane k row →
        ∃ row', ReadyAt (indexPlane srcs.flatten) k row' := by
      intro k row hrow
      obtain ⟨hns, r, hlast, -⟩ := (readyAt_load h).mp hrow
      obtain ⟨hmem, hk⟩ := mem_rowsOf.mp (List.mem_of_getLast? hlast)
      obtain ⟨hr, hready⟩ := mem_readyRows.mp hmem
      have hne : k ≠ [] := fun hnil => hset.named r hr hready (hnil ▸ hk)
      obtain ⟨hns', l, hl, hlready⟩ := hset.settled k ⟨r, hr, hready, hk⟩ fun hs => hns ⟨hne, hs⟩
      exact ⟨_, readyAt_index.mpr ⟨hne, hns', l, hl, hlready, rfl⟩⟩
    refine ⟨?_, ?_, ?_⟩
    · intro k
      constructor
      · rintro ⟨row, hrow⟩
        exact hto k row hrow
      · rintro ⟨row', hrow'⟩
        obtain ⟨row, hrow, -⟩ := load_of_index h hrow'
        exact ⟨row, hrow⟩
    · intro k row row' hrow hrow'
      obtain ⟨row₀, hrow₀, hsame⟩ := load_of_index h hrow'
      have heq : row = row₀ := Option.some.inj (hrow.1.symm.trans hrow₀.1)
      rw [heq]
      exact hsame
    · intro k row hrow
      obtain ⟨row', hrow'⟩ := hto k row hrow
      obtain ⟨-, hns, r, hlast, -⟩ := readyAt_index.mp hrow'
      obtain ⟨hr, hk⟩ := mem_rowsOf.mp (List.mem_of_getLast? hlast)
      exact onePair_of_not_shared hns hr hk

end Agree

/-- A ready row. -/
def readyRow : Route := ⟨true, ['D'], ['P'], ['0', '1'], ['0', '2']⟩

/-- A row of another pair on the same DLMM pool, never compiled. -/
def strayRow : Route := ⟨false, ['D'], ['Q'], [], []⟩

theorem keysSettled_single : KeysSettled [readyRow] := by
  refine ⟨?_, ?_⟩
  · intro r hr _
    rw [List.mem_singleton.mp hr]
    decide
  · rintro k ⟨r, hr, -, hk⟩ -
    rw [List.mem_singleton.mp hr] at hk
    refine ⟨?_, readyRow, ?_, rfl⟩
    · rintro ⟨x, hx, y, hy, -, -, hne⟩
      rw [List.mem_singleton.mp hx, List.mem_singleton.mp hy] at hne
      exact hne rfl
    · rw [rowsOf, List.filter_cons_of_pos (by simpa using hk)]
      rfl

theorem loaders_agree_demo :
    ∃ plane, loadRacePlane [[readyRow]] = some plane ∧
      PlanesAgree plane (indexPlane [readyRow]) [readyRow] := by
  obtain ⟨plane, hplane⟩ := Option.isSome_iff_exists.mp
    (by decide : (loadRacePlane [[readyRow]]).isSome = true)
  exact ⟨plane, hplane, (loaders_agree_iff hplane).mpr keysSettled_single⟩

/-- The sender keeps a key ready that two pairs of the list share. -/
theorem loaders_differ_on_stray_row :
    ∃ plane, loadRacePlane [[readyRow, strayRow]] = some plane ∧
      ¬ PlanesAgree plane (indexPlane [readyRow, strayRow]) [readyRow, strayRow] := by
  obtain ⟨plane, hplane⟩ := Option.isSome_iff_exists.mp
    (by decide : (loadRacePlane [[readyRow, strayRow]]).isSome = true)
  refine ⟨plane, hplane, fun hag => ?_⟩
  have hready : ((loadRacePlane [[readyRow, strayRow]]).bind fun p =>
      (get p ['D']).map PlaneRow.planeRaceReady) = some true := by decide
  rw [hplane, Option.bind_some] at hready
  obtain ⟨row, hrow, hflag⟩ := Option.map_eq_some_iff.mp hready
  obtain ⟨row', hrow', hflag'⟩ := (hag.ready ['D']).mp ⟨row, hrow, hflag⟩
  have hnot : ((get (indexPlane [readyRow, strayRow]) ['D']).map PlaneRow.planeRaceReady) =
      some false := by decide
  rw [hrow', Option.map_some, hflag'] at hnot
  exact absurd hnot (by decide)

end ShredArb.Gates
