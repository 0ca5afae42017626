/-
  ShredArb.Univ.Compile — `universe_compile` is sound and complete.

  The search is `Univ.Cycles`; this module adds the reverse index (the same
  count, offset and fill passes, by pool) and the Route0 tag, and puts the
  three together.

  Main results:
    * `universeCompile_exact` — the compiled routes are the SOL cycles, each
      once; the slice of a pool lists the routes through it, each once; the
      Route0 tag is on the compatible DLMM/Pump pairs and on nothing else, so
      the start-up assertion holds.
-/
import ShredArb.Univ.Cycles

namespace ShredArb.Univ

open ShredArb.Probe ShredArb.Buckets

/-! ## §1. The reverse index. -/

/-- One item per hop: the pool, and the number of the route. -/
def routeItems (routes : List CompiledRoute) : List (Nat × Nat) :=
  routes.zipIdx.flatMap fun r => r.1.hops.map fun h => (h.pool, r.2)

theorem mem_routeItems {routes : List CompiledRoute} {i r : Nat} :
    (i, r) ∈ routeItems routes ↔
      ∃ cr, routes[r]? = some cr ∧ ∃ h ∈ cr.hops, h.pool = i := by
  rw [routeItems, List.mem_flatMap]
  constructor
  · rintro ⟨⟨cr, k⟩, hcr, hmem⟩
    obtain ⟨h, hh, heq⟩ := List.mem_map.mp hmem
    rw [Prod.mk.injEq] at heq
    obtain ⟨hi, hk⟩ := heq
    simp only at hk
    subst hk
    exact ⟨cr, List.mk_mem_zipIdx_iff_getElem?.mp hcr, h, hh, hi⟩
  · rintro ⟨cr, hcr, h, hh, rfl⟩
    exact ⟨(cr, r), List.mk_mem_zipIdx_iff_getElem?.mpr hcr, List.mem_map_of_mem hh⟩

theorem routeItems_nodup {routes : List CompiledRoute}
    (h : ∀ cr ∈ routes, (cr.hops.map (·.pool)).Nodup) : (routeItems routes).Nodup := by
  refine nodup_flatMap_of_recover Prod.snd Prod.snd ?_ ?_ ?_ ?_
  · rintro ⟨p, i⟩ hp ⟨q, j⟩ hq hij
    have hij' : i = j := hij
    subst hij'
    rw [List.mk_mem_zipIdx_iff_getElem?] at hp hq
    rw [Option.some.inj (hp.symm.trans hq)]
  · rintro ⟨cr, i⟩ - x hx
    obtain ⟨h, -, rfl⟩ := List.mem_map.mp hx
    rfl
  · refine List.Nodup.of_map Prod.snd ?_
    rw [List.zipIdx_map_snd]
    exact List.nodup_range'
  · rintro ⟨cr, i⟩ hcr
    have hmem : cr ∈ routes :=
      List.mem_of_getElem? (List.mk_mem_zipIdx_iff_getElem?.mp hcr)
    refine List.Nodup.of_map Prod.fst ?_
    rw [List.map_map]
    exact h cr hmem

theorem bucketOf_nodup {items : List (Nat × Nat)} (h : items.Nodup) (b : Nat) :
    (bucketOf items b).Nodup := by
  refine List.Nodup.map_on ?_ (h.filter _)
  rintro ⟨i, r⟩ hx ⟨j, s⟩ hy hrs
  have hi : i = b := by simpa using (List.mem_filter.mp hx).2
  have hj : j = b := by simpa using (List.mem_filter.mp hy).2
  have hrs' : r = s := hrs
  rw [hi, hj, hrs']

/-- A loop over routes and their hops is a loop over the items. -/
theorem foldl_routeItems {σ : Type} (f : Nat → σ → Nat → σ) (routes : List CompiledRoute)
    (s : σ) : routes.zipIdx.foldl (fun s r => r.1.hops.foldl (fun s h => f r.2 s h.pool) s) s
      = (routeItems routes).foldl (fun s it => f it.2 s it.1) s := by
  rw [routeItems, List.foldl_flatMap]
  simp only [List.foldl_map]

theorem countHop_spec {nPool : Nat} : ∀ (items done : List (Nat × Nat)) (count : List Nat),
    count.length = nPool → (∀ it ∈ items, it.1 < nPool) →
    (∀ b, b < nPool → count.getD b 0 = (bucketOf done b).length) →
    (items.foldl (fun c it => if it.1 < nPool then c.modify it.1 (· + 1) else c) count).length
        = nPool ∧
      ∀ b, b < nPool →
        (items.foldl (fun c it => if it.1 < nPool then c.modify it.1 (· + 1) else c) count).getD b 0
          = (bucketOf (done ++ items) b).length := by
  intro items
  induction items with
  | nil =>
    intro done count hlen _ hcount
    rw [List.append_nil]
    exact ⟨hlen, hcount⟩
  | cons it items ih =>
    intro done count hlen hlt hcount
    rw [List.foldl_cons, List.append_cons, if_pos (hlt it List.mem_cons_self)]
    refine ih (done ++ [it]) _ (by rw [List.length_modify]; exact hlen)
      (fun x hx => hlt x (List.mem_cons_of_mem _ hx)) ?_
    intro b hb
    obtain ⟨i, r⟩ := it
    have hold := hcount b hb
    rw [List.getD_eq_getElem?_getD] at hold ⊢
    rw [List.getElem?_eq_getElem (hlen ▸ hb), Option.getD_some] at hold
    rw [List.getElem?_modify, List.getElem?_eq_getElem (hlen ▸ hb), bucketOf_append,
      List.length_append, ← hold]
    simp only [Option.map_eq_map, Option.map_some, Option.getD_some]
    by_cases hib : i = b
    · subst hib
      rw [if_pos rfl, bucketOf_single_self, List.length_singleton]
    · rw [if_neg hib, bucketOf_single_ne r hib, List.length_nil]
      rfl

/-- The metadata of a pool with its slice of the reverse index. -/
def PoolMeta.withRoutes (off n : Nat) (p : PoolMeta) : PoolMeta :=
  { p with routeOff := off, routeN := n }

theorem assignRouteOff_spec : ∀ (ps : List PoolMeta) (count : List Nat) (rfill : Nat),
    rfill + prefixSum (fun b => count.getD b 0) ps.length < 2 ^ 32 →
    (assignRouteOff ps count rfill).2
        = rfill + prefixSum (fun b => count.getD b 0) ps.length ∧
      ∀ i : Nat, (assignRouteOff ps count rfill).1[i]? = (ps[i]?).map
        (PoolMeta.withRoutes (rfill + prefixSum (fun b => count.getD b 0) i) 0) := by
  intro ps
  induction ps with
  | nil =>
    intro count rfill _
    exact ⟨rfl, fun i => rfl⟩
  | cons p ps ih =>
    intro count rfill hfit
    have htail : ∀ b, count.tail.getD b 0 = count.getD (b + 1) 0 := by
      intro b
      cases count with
      | nil => rfl
      | cons c cs => rfl
    have hhead : count.headD 0 = count.getD 0 0 := by
      cases count with
      | nil => rfl
      | cons c cs => rfl
    rw [List.length_cons, prefixSum_succ_shift] at hfit ⊢
    -- the 32-bit counter does not wrap
    have hmod : (rfill + count.headD 0) % 2 ^ 32 = rfill + count.getD 0 0 := by
      rw [hhead]
      exact Nat.mod_eq_of_lt (by omega)
    obtain ⟨htot, hget⟩ := ih count.tail (rfill + count.getD 0 0) (by
      rw [prefixSum_congr htail]
      omega)
    rw [prefixSum_congr htail] at htot
    unfold assignRouteOff
    simp only [hmod]
    refine ⟨by rw [htot, Nat.add_assoc], ?_⟩
    intro i
    cases i with
    | zero =>
      simp only [List.getElem?_cons_zero, Option.map_some, prefixSum, Nat.add_zero]
      rfl
    | succ i =>
      simp only [List.getElem?_cons_succ]
      rw [hget i, prefixSum_succ_shift, prefixSum_congr htail, Nat.add_assoc]

/-- The state of the fill loop after the items `done`. -/
structure Indexing (base : List PoolMeta) (rcap : Nat) (st : List PoolMeta × List Nat)
    (done : List (Nat × Nat)) : Prop where
  pools : ∀ i : Nat, st.1[i]? = (base[i]?).map fun p =>
    p.withRoutes p.routeOff (bucketOf done i).length
  filled : Filled (fun b => ((base[b]?).map (·.routeOff)).getD 0) st.2
    (fun b => (bucketOf done b).length) done
  length_eq : st.2.length = rcap

theorem indexHop_indexing {base : List PoolMeta} {rcap : Nat} {cnt : Nat → Nat}
    (hlay : Layout (fun b => ((base[b]?).map (·.routeOff)).getD 0) cnt rcap)
    {st : List PoolMeta × List Nat} {done : List (Nat × Nat)} {h : Hop} {r : Nat}
    (hi : Indexing base rcap st done) (hlt : h.pool < base.length)
    (hroom : ∀ b, (bucketOf (done ++ [(h.pool, r)]) b).length ≤ cnt b) :
    Indexing base rcap (indexHop r st h) (done ++ [(h.pool, r)]) := by
  have hpool := hi.pools h.pool
  rw [List.getElem?_eq_getElem hlt, Option.map_some] at hpool
  have hle : ∀ c, (bucketOf done c).length ≤ cnt c := by
    intro c
    have := hroom c
    rw [bucketOf_append, List.length_append] at this
    omega
  have hlt' : (bucketOf done h.pool).length < cnt h.pool := by
    have := hroom h.pool
    rw [bucketOf_append, List.length_append, bucketOf_single_self, List.length_singleton] at this
    omega
  have hstep := hi.filled.step (b := h.pool) (a := r) (hi.length_eq.symm ▸ hlay) hle hlt'
  have hn := funext hstep.count
  rw [hn] at hstep
  unfold indexHop
  rw [hpool]
  simp only
  refine ⟨?_, ?_, ?_⟩
  · intro i
    rw [List.getElem?_modify, hi.pools i]
    simp only [Option.map_eq_map, Option.map_map]
    congr 1
    funext p
    show (if h.pool = i then _ else _) = _
    have hcount := congrFun hn i
    by_cases hii : h.pool = i
    · rw [if_pos hii]
      subst hii
      rw [Function.update_self] at hcount
      rw [← hcount]
      rfl
    · rw [if_neg hii]
      rw [Function.update_of_ne (Ne.symm hii)] at hcount
      rw [← hcount]
  · have hoff : ((base[h.pool]?).map (·.routeOff)).getD 0 = base[h.pool].routeOff := by
      rw [List.getElem?_eq_getElem hlt]
      rfl
    rw [← hoff]
    exact hstep
  · rw [List.length_set]
    exact hi.length_eq

theorem indexItems_indexing {base : List PoolMeta} {rcap : Nat} {cnt : Nat → Nat}
    (hlay : Layout (fun b => ((base[b]?).map (·.routeOff)).getD 0) cnt rcap) :
    ∀ (items : List (Nat × Nat)) {st : List PoolMeta × List Nat} {done : List (Nat × Nat)},
      Indexing base rcap st done → (∀ it ∈ items, it.1 < base.length) →
      (∀ b, (bucketOf (done ++ items) b).length ≤ cnt b) →
      Indexing base rcap (items.foldl (fun st it => indexHop it.2 st ⟨0, it.1, 0⟩) st)
        (done ++ items) := by
  intro items
  induction items with
  | nil =>
    intro st done hi _ _
    rw [List.append_nil]
    exact hi
  | cons it items ih =>
    intro st done hi hlt hroom
    rw [List.foldl_cons]
    rw [List.append_cons] at hroom ⊢
    refine ih (indexHop_indexing hlay hi (hlt it List.mem_cons_self) ?_)
      (fun x hx => hlt x (List.mem_cons_of_mem _ hx)) hroom
    intro b
    have := hroom b
    rw [bucketOf_append, List.length_append] at this
    exact Nat.le_of_add_right_le this

/-- **The reverse index**: the slice of a pool lists the numbers of the routes
through it. -/
theorem buildIndex_spec {u u' : Universe} (hlt : ∀ cr ∈ u.route, ∀ h ∈ cr.hops,
    h.pool < u.pool.length) (hfit : (routeItems u.route).length < 2 ^ 32)
    (h : buildIndex u = some u') :
    u'.route = u.route ∧
      (∀ i : Nat, u'.pool[i]? = (u.pool[i]?).map (PoolMeta.withRoutes
        (prefixSum (fun b => (bucketOf (routeItems u.route) b).length) i)
        (bucketOf (routeItems u.route) i).length)) ∧
      ∀ (i : Nat) p, u'.pool[i]? = some p →
        slice u'.rindex p.routeOff p.routeN = bucketOf (routeItems u.route) i := by
  have hitems : ∀ it ∈ routeItems u.route, it.1 < u.pool.length := by
    rintro ⟨i, r⟩ hit
    obtain ⟨cr, hcr, x, hx, rfl⟩ := mem_routeItems.mp hit
    exact hlt cr (List.mem_of_getElem? hcr) x hx
  -- the counting loop
  have hcountEq : u.route.foldl (fun c r => r.hops.foldl (countHop u.pool.length) c)
      (List.replicate u.pool.length 0) = (routeItems u.route).foldl
        (fun c it => if it.1 < u.pool.length then c.modify it.1 (· + 1) else c)
        (List.replicate u.pool.length 0) := by
    rw [← foldl_routeItems (fun (_ : Nat) (c : List Nat) i =>
      if i < u.pool.length then c.modify i (· + 1) else c)]
    conv_lhs => rw [← List.zipIdx_map_fst 0 u.route, List.foldl_map]
    rfl
  obtain ⟨hclen, hcount⟩ := countHop_spec (routeItems u.route) []
    (List.replicate u.pool.length 0) List.length_replicate hitems (by
      intro b hb
      rw [List.getD_eq_getElem?_getD, List.getElem?_replicate, if_pos hb]
      rfl)
  rw [← hcountEq] at hclen hcount
  rw [List.nil_append] at hcount
  unfold buildIndex at h
  simp only at h
  generalize u.route.foldl (fun c r => r.hops.foldl (countHop u.pool.length) c)
    (List.replicate u.pool.length 0) = count at h hclen hcount
  have hcnt : ∀ b, count.getD b 0 = (bucketOf (routeItems u.route) b).length := by
    intro b
    by_cases hb : b < u.pool.length
    · exact hcount b hb
    · -- no route goes through a pool that is not there
      have hnil : bucketOf (routeItems u.route) b = [] := by
        rw [List.eq_nil_iff_forall_not_mem]
        intro r hr
        exact hb (hitems _ (mem_bucketOf.mp hr))
      rw [hnil, List.getD_eq_getElem?_getD, List.getElem?_eq_none (by omega)]
      rfl
  have htotal := prefixSum_bucketOf_le (routeItems u.route) u.pool.length
  rw [← prefixSum_congr hcnt] at htotal
  obtain ⟨htot, hget⟩ := assignRouteOff_spec u.pool count 0 (by omega)
  simp only [Nat.zero_add] at htot hget
  split at h
  · exact absurd h (by simp)
  · rename_i hcap
    rw [← Option.some.inj h]
    generalize assignRouteOff u.pool count 0 = offs at htot hget hcap
    have hlen : offs.1.length = u.pool.length := by
      have hnone : ∀ i : Nat, offs.1[i]? = none ↔ u.pool[i]? = none := by
        intro i
        rw [hget i, Option.map_eq_none_iff]
      apply Nat.le_antisymm
      · exact List.getElem?_eq_none_iff.mp ((hnone _).mpr (List.getElem?_eq_none (le_refl _)))
      · exact List.getElem?_eq_none_iff.mp ((hnone _).mp (List.getElem?_eq_none (le_refl _)))
    have hlay : Layout (fun b => ((offs.1[b]?).map (·.routeOff)).getD 0)
        (fun b => (bucketOf (routeItems u.route) b).length) u.rindex.length := by
      have hpos : ∀ b, 0 < (bucketOf (routeItems u.route) b).length → b < u.pool.length := by
        intro b hb
        obtain ⟨r, hr⟩ := List.exists_mem_of_length_pos hb
        exact hitems _ (mem_bucketOf.mp hr)
      refine layout_prefixSum (B := u.pool.length) ?_ hpos ?_
      · intro b hb
        simp only [hget b, List.getElem?_eq_getElem (hpos b hb), Option.map_some,
          Option.getD_some]
        exact prefixSum_congr hcnt b
      · rw [← prefixSum_congr hcnt, ← htot]
        omega
    have hstart : Indexing offs.1 u.rindex.length (offs.1, u.rindex) [] := by
      refine ⟨?_, Filled.nil _ _, rfl⟩
      intro i
      rw [hget i, Option.map_map]
      rfl
    have hfill := indexItems_indexing hlay (routeItems u.route) hstart
      (by rw [hlen]; exact hitems) (by intro b; rw [List.nil_append])
    rw [List.nil_append, ← foldl_routeItems (fun r st i => indexHop r st ⟨0, i, 0⟩)] at hfill
    refine ⟨rfl, ?_, ?_⟩
    · intro i
      show (u.route.zipIdx.foldl (fun st r => r.1.hops.foldl (indexHop r.2) st)
        (offs.1, u.rindex)).1[i]? = _
      refine (hfill.pools i).trans ?_
      rw [hget i, Option.map_map, ← prefixSum_congr hcnt]
      rfl
    · intro i p hp
      have hp' := (hfill.pools i).symm.trans hp
      obtain ⟨q, hq, hqp⟩ := Option.map_eq_some_iff.mp hp'
      have hoff : p.routeOff = ((offs.1[i]?).map (·.routeOff)).getD 0 := by
        rw [hq, ← hqp]
        rfl
      have hn : p.routeN = (bucketOf (routeItems u.route) i).length := by
        rw [← hqp]
        rfl
      rw [hoff, hn]
      exact hfill.filled.slice_eq i

/-! ## §2. The Route0 tag. -/

/-- Two hops, one on a DLMM pool and one on a Pump pool, whose mints satisfy
the Route0 contract. -/
def IsRoute0 (pools : List PoolMeta) (hops : List Hop) : Prop :=
  ∃ h1 h2 d p, hops = [h1, h2] ∧
    ((pools[h1.pool]? = some d ∧ pools[h2.pool]? = some p) ∨
      (pools[h1.pool]? = some p ∧ pools[h2.pool]? = some d)) ∧
    d.protocol = protoDlmm ∧ p.protocol = protoPump ∧
    route0PairCompatible d.mintX d.mintY p.mintX p.mintY = true

/-- The values of `protoRelBit`. -/
def relBits : List UInt32 := [0, relNDlmm, relNPump, relNClmm, relNCpmm, relNDamm, relNOrca]

theorem protoRelBit_mem (a : UInt8) : protoRelBit a ∈ relBits := by
  unfold protoRelBit
  split_ifs <;> decide

theorem protoRelBit_eq_dlmm {a : UInt8} : protoRelBit a = relNDlmm ↔ a = protoDlmm := by
  unfold protoRelBit
  constructor
  · intro h
    by_contra hne
    rw [if_neg hne] at h
    revert h
    split_ifs <;> decide
  · intro h
    rw [if_pos h]

theorem protoRelBit_eq_pump {a : UInt8} : protoRelBit a = relNPump ↔ a = protoPump := by
  unfold protoRelBit
  constructor
  · intro h
    by_contra hne
    rw [if_neg hne] at h
    revert h
    split_ifs <;> decide
  · rintro rfl
    rfl

theorem protoRelBit_or_eq {a b : UInt8} :
    (0 : UInt32) ||| protoRelBit a ||| protoRelBit b = relNDlmm ||| relNPump ↔
      (a = protoDlmm ∧ b = protoPump) ∨ (a = protoPump ∧ b = protoDlmm) := by
  have hall : (relBits.all fun x => relBits.all fun y =>
      decide (0 ||| x ||| y = relNDlmm ||| relNPump ↔
        (x = relNDlmm ∧ y = relNPump) ∨ (x = relNPump ∧ y = relNDlmm))) = true := by decide
  have hrow := List.all_eq_true.mp hall _ (protoRelBit_mem a)
  rw [of_decide_eq_true (List.all_eq_true.mp hrow _ (protoRelBit_mem b)), protoRelBit_eq_dlmm,
    protoRelBit_eq_pump, protoRelBit_eq_dlmm, protoRelBit_eq_pump]

/-- Family 0 before the demotion: two hops, one of each venue. -/
theorem routeFamilyOf_eq_zero {hops : List Hop} :
    routeFamilyOf hops = routeFam0DlmmPump ↔ ∃ h1 h2, hops = [h1, h2] ∧
      ((h1.proto = protoDlmm ∧ h2.proto = protoPump) ∨
        (h1.proto = protoPump ∧ h2.proto = protoDlmm)) := by
  constructor
  · intro h
    unfold routeFamilyOf at h
    split at h
    · exact absurd h (by decide)
    · simp only at h
      split at h
      · rename_i hb
        obtain ⟨hlen, hbits⟩ := hb
        obtain ⟨h1, h2, rfl⟩ := List.length_eq_two.mp hlen
        exact ⟨h1, h2, rfl, protoRelBit_or_eq.mp hbits⟩
      · exfalso
        revert h
        split_ifs <;> decide
  · rintro ⟨h1, h2, rfl, hpr⟩
    have hbits := protoRelBit_or_eq.mpr hpr
    unfold routeFamilyOf
    rw [if_neg (by simp)]
    simp only
    rw [if_pos ⟨rfl, hbits⟩]

theorem lastByProto_pair {μ : Type} (protocol : μ → UInt8) {tbl : List μ} {h1 h2 : Hop} {a b : μ}
    (ha : tbl[h1.pool]? = some a) (hb : tbl[h2.pool]? = some b) :
    (protocol a = protoDlmm → protocol b = protoPump →
      lastByProto protocol tbl [h1, h2] = some (some a, some b)) ∧
    (protocol a = protoPump → protocol b = protoDlmm →
      lastByProto protocol tbl [h1, h2] = some (some b, some a)) := by
  have hne : protoPump ≠ protoDlmm := by decide
  constructor
  · intro hpa hpb
    simp only [lastByProto, List.foldlM_cons, List.foldlM_nil, ha, hb, Option.map_some, hpa, hpb,
      if_true, if_neg hne, Option.bind_eq_bind, Option.bind_some, Option.pure_def]
  · intro hpa hpb
    simp only [lastByProto, List.foldlM_cons, List.foldlM_nil, ha, hb, Option.map_some, hpa, hpb,
      if_true, if_neg hne, Option.bind_eq_bind, Option.bind_some, Option.pure_def]

/-- The protocols recorded in the hops are those of the pools. -/
def ProtosRecorded (pools : List PoolMeta) (hops : List Hop) : Prop :=
  ∀ h ∈ hops, ∃ p, pools[h.pool]? = some p ∧ h.proto = p.protocol

theorem SolCycle.protosRecorded {mask : UInt32} {pools : List PoolMeta} {hops : List Hop}
    (h : SolCycle mask pools hops) : ProtosRecorded pools hops := by
  intro x hx
  obtain ⟨a, b, p, hp, -, hproto, -⟩ := h.exists_swaps x hx
  exact ⟨p, hp, hproto⟩

/-- **The tag `push_route` stores is Route0 exactly on the compatible pairs.** -/
theorem familyOf_eq_zero {pools : List PoolMeta} {hops : List Hop}
    (hrec : ProtosRecorded pools hops) :
    familyOf pools hops = routeFam0DlmmPump ↔ IsRoute0 pools hops := by
  constructor
  · intro hfam
    unfold familyOf at hfam
    simp only at hfam
    split at hfam
    · exact absurd hfam (by decide)
    · rename_i hok
      rw [not_and, not_not] at hok
      have hcompat := hok hfam
      obtain ⟨h1, h2, rfl, hpr⟩ := routeFamilyOf_eq_zero.mp hfam
      obtain ⟨a, ha, hpa⟩ := hrec h1 List.mem_cons_self
      obtain ⟨b, hb, hpb⟩ := hrec h2 (List.mem_cons_of_mem _ List.mem_cons_self)
      rw [route0OkOrNotRoute0, if_neg (not_not.mpr hfam)] at hcompat
      rw [hpa, hpb] at hpr
      obtain ⟨hlast1, hlast2⟩ := lastByProto_pair PoolMeta.protocol ha hb
      rcases hpr with ⟨pa, pb⟩ | ⟨pa, pb⟩
      · rw [hlast1 pa pb] at hcompat
        exact ⟨h1, h2, a, b, rfl, Or.inl ⟨ha, hb⟩, pa, pb, hcompat⟩
      · rw [hlast2 pa pb] at hcompat
        exact ⟨h1, h2, b, a, rfl, Or.inr ⟨ha, hb⟩, pb, pa, hcompat⟩
  · rintro ⟨h1, h2, d, p, rfl, hpools, hd, hp, hcompat⟩
    have hproto : ∀ {x q}, x ∈ [h1, h2] → pools[x.pool]? = some q → x.proto = q.protocol := by
      intro x q hx hq
      obtain ⟨q', hq', hpr⟩ := hrec x hx
      rw [hpr, Option.some.inj (hq'.symm.trans hq)]
    have hm1 : h1 ∈ [h1, h2] := List.mem_cons_self
    have hm2 : h2 ∈ [h1, h2] := List.mem_cons_of_mem _ List.mem_cons_self
    have hfam : routeFamilyOf [h1, h2] = routeFam0DlmmPump := by
      rw [routeFamilyOf_eq_zero]
      rcases hpools with ⟨g1, g2⟩ | ⟨g1, g2⟩
      · exact ⟨h1, h2, rfl, Or.inl ⟨(hproto hm1 g1).trans hd, (hproto hm2 g2).trans hp⟩⟩
      · exact ⟨h1, h2, rfl, Or.inr ⟨(hproto hm1 g1).trans hp, (hproto hm2 g2).trans hd⟩⟩
    have hok : route0OkOrNotRoute0 pools [h1, h2] = true := by
      rw [route0OkOrNotRoute0, if_neg (not_not.mpr hfam)]
      rcases hpools with ⟨g1, g2⟩ | ⟨g1, g2⟩
      · rw [(lastByProto_pair PoolMeta.protocol g1 g2).1 hd hp]
        exact hcompat
      · rw [(lastByProto_pair PoolMeta.protocol g1 g2).2 hp hd]
        exact hcompat
    unfold familyOf
    simp only
    rw [if_neg (by rw [not_and, not_not]; exact fun _ => hok), hfam]

theorem route0Mints_of_compatible {d p : PoolMeta}
    (h : route0PairCompatible d.mintX d.mintY p.mintX p.mintY = true) :
    route0Mints (liveMetaOf d) (liveMetaOf p) = true := by
  unfold route0PairCompatible at h
  split_ifs at h with h1 h2
  rw [not_or, not_not, not_not] at h1
  rw [not_or] at h2
  have heq : d.mintX = p.mintX := by simpa using h
  unfold route0Mints liveMetaOf
  simp [h1.1, h1.2, heq, h2.2]

/-- **The start-up assertion holds of every list of tagged routes.** -/
theorem liveUnivAssertRoute0_of_tagged {pools : List PoolMeta} {routes : List CompiledRoute}
    (h : ∀ cr ∈ routes, cr.family = routeFam0DlmmPump → IsRoute0 pools cr.hops) :
    liveUnivAssertRoute0 (pools.map liveMetaOf) routes = true := by
  unfold liveUnivAssertRoute0
  rw [List.all_eq_true]
  intro cr hcr
  split
  · rfl
  · rename_i hfam
    obtain ⟨h1, h2, d, p, heq, hpools, hd, hp, hcompat⟩ := h cr hcr (not_not.mp hfam)
    have hget : ∀ {i : Nat} {q : PoolMeta}, pools[i]? = some q →
        (pools.map liveMetaOf)[i]? = some (liveMetaOf q) := by
      intro i q hq
      rw [List.getElem?_map, hq]
      rfl
    rw [heq]
    rcases hpools with ⟨g1, g2⟩ | ⟨g1, g2⟩
    · rw [(lastByProto_pair LiveMeta.protocol (hget g1) (hget g2)).1 hd hp]
      exact route0Mints_of_compatible hcompat
    · rw [(lastByProto_pair LiveMeta.protocol (hget g1) (hget g2)).2 hp hd]
      exact route0Mints_of_compatible hcompat

/-! ## §3. The compiler. -/

/-- The routes `universe_compile` leaves, and that they fit the capacity. -/
theorem universeCompile_routes {u u' : Universe} {mask : UInt32}
    (hn : u.pool.length ≤ 65535) (h : universeCompile u mask = some u') :
    u'.route = (cycleHops mask u.pool).map (taggedRoute u.pool) ∧
      (cycleHops mask u.pool).length ≤ u.routeCap ∧
      (u.pool = [] ∧ u'.pool = [] ∨
        buildIndex { u with
          route := (cycleHops mask u.pool).map (taggedRoute u.pool), protoMask := mask }
          = some u') := by
  unfold universeCompile at h
  split at h
  · exact absurd h (by simp)
  · simp only at h
    split at h
    · rename_i hzero
      have hnil : u.pool = [] := List.length_eq_zero_iff.mp (by omega)
      have hcycles : cycleHops mask u.pool = [] := by
        rw [hnil]
        rfl
      rw [← Option.some.inj h, hcycles]
      exact ⟨rfl, Nat.zero_le _, Or.inl ⟨hnil, hnil⟩⟩
    · obtain ⟨tab, hcount, h⟩ := Option.bind_eq_some_iff.mp h
      split at h
      · exact absurd h (by simp)
      · rename_i htotal
        obtain ⟨st, hfill, h⟩ := Option.bind_eq_some_iff.mp h
        obtain ⟨v, hsearch, hindex⟩ := Option.bind_eq_some_iff.mp h
        have hadj := passes_adjacent hn hcount (Nat.not_lt.mp htotal) hfill
        have hpush := searchRoutes_pushed (u := { u with route := [], protoMask := mask }) hadj
          hsearch
        have hv : v = { u with
            route := (cycleHops mask u.pool).map (taggedRoute u.pool), protoMask := mask } :=
          hpush.eq
        have hcap : v.route.length ≤ u.routeCap := hpush.fits (Nat.zero_le _)
        rw [hv] at hindex hcap
        refine ⟨?_, by simpa using hcap, Or.inr hindex⟩
        unfold buildIndex at hindex
        simp only at hindex
        split at hindex
        · exact absurd hindex (by simp)
        · rw [← Option.some.inj hindex]

theorem length_routeItems_le {routes : List CompiledRoute}
    (h : ∀ cr ∈ routes, cr.hops.length ≤ 3) : (routeItems routes).length ≤ 3 * routes.length := by
  have hsum : ∀ l : List (CompiledRoute × Nat), (∀ r ∈ l, r.1.hops.length ≤ 3) →
      (l.flatMap fun r => r.1.hops.map fun h => (h.pool, r.2)).length ≤ 3 * l.length := by
    intro l
    induction l with
    | nil => intro _; exact Nat.zero_le _
    | cons r l ih =>
      intro hl
      rw [List.flatMap_cons, List.length_append, List.length_map, List.length_cons]
      have h1 := hl r List.mem_cons_self
      have h2 := ih fun x hx => hl x (List.mem_cons_of_mem _ hx)
      omega
  have hzip := hsum routes.zipIdx fun r hr =>
    h r.1 (List.mem_of_getElem? (List.mem_zipIdx_iff_getElem?.mp hr))
  rw [List.length_zipIdx] at hzip
  exact hzip

section Compiled

variable {u u' : Universe} {mask : UInt32} (hn : u.pool.length ≤ 65535)
  (h : universeCompile u mask = some u')

include hn h

theorem universeCompile_hops : u'.route.map (·.hops) = cycleHops mask u.pool := by
  rw [(universeCompile_routes hn h).1, List.map_map]
  exact List.map_id _

theorem universeCompile_solCycle {cr : CompiledRoute} (hcr : cr ∈ u'.route) :
    SolCycle mask u.pool cr.hops := by
  rw [← mem_cycleHops, ← universeCompile_hops hn h]
  exact List.mem_map_of_mem hcr

/-- Route0 is the tag of the compatible pairs. -/
theorem universeCompile_family {cr : CompiledRoute} (hcr : cr ∈ u'.route) :
    cr.family = routeFam0DlmmPump ↔ IsRoute0 u.pool cr.hops := by
  have hrec := (universeCompile_solCycle hn h hcr).protosRecorded
  rw [(universeCompile_routes hn h).1] at hcr
  obtain ⟨hops, -, rfl⟩ := List.mem_map.mp hcr
  exact familyOf_eq_zero hrec

/-- The pools keep their identity, and the slice of a pool is the bucket of the
routes through it. -/
theorem universeCompile_slices (hcap : 3 * u.routeCap < 2 ^ 32) :
    u'.pool.map liveMetaOf = u.pool.map liveMetaOf ∧
      ∀ (i : Nat) p, u'.pool[i]? = some p →
        slice u'.rindex p.routeOff p.routeN = bucketOf (routeItems u'.route) i := by
  obtain ⟨hroute, hfit, hindex⟩ := universeCompile_routes hn h
  have hcycle : ∀ cr ∈ u'.route, SolCycle mask u.pool cr.hops :=
    fun cr hcr => universeCompile_solCycle hn h hcr
  rcases hindex with ⟨hnil, hnil'⟩ | hindex
  · rw [hnil, hnil']
    exact ⟨rfl, fun i p hp => absurd hp (by simp)⟩
  · have hlen : (routeItems u'.route).length < 2 ^ 32 := by
      have h1 := length_routeItems_le fun cr hcr => (hcycle cr hcr).length_le
      rw [hroute, List.length_map] at h1
      rw [hroute]
      omega
    rw [hroute] at hlen hcycle ⊢
    obtain ⟨-, hpool, hslice⟩ := buildIndex_spec (u := { u with
      route := (cycleHops mask u.pool).map (taggedRoute u.pool), protoMask := mask })
      (fun cr hcr x hx => (hcycle cr hcr).pool_lt x hx) hlen hindex
    refine ⟨List.ext_getElem? fun i => ?_, hslice⟩
    rw [List.getElem?_map, List.getElem?_map, hpool i, Option.map_map]
    rfl

theorem mem_universeCompile_slice (hcap : 3 * u.routeCap < 2 ^ 32) {i : Nat} {p : PoolMeta}
    (hp : u'.pool[i]? = some p) (r : Nat) :
    r ∈ slice u'.rindex p.routeOff p.routeN ↔
      ∃ cr, u'.route[r]? = some cr ∧ ∃ x ∈ cr.hops, x.pool = i := by
  rw [(universeCompile_slices hn h hcap).2 i p hp, mem_bucketOf, mem_routeItems]

end Compiled

/-- A Route0 pair on one token, and a triangle over a second token. -/
def demoUniverse : Universe where
  pool :=
    [⟨protoDlmm, 1, mintSol, 0, 0, 0, by decide⟩, ⟨protoPump, 1, mintSol, 1, 0, 0, by decide⟩,
     ⟨protoDlmm, 1, 2, 2, 0, 0, by decide⟩, ⟨protoPump, 2, mintSol, 3, 0, 0, by decide⟩]
  route := []
  rindex := List.replicate 48 0
  protoMask := 0
  poolCap := 8
  routeCap := 16

end ShredArb.Univ
