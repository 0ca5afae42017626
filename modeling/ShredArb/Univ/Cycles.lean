/-
  ShredArb.Univ.Cycles — the search loops enumerate the SOL cycles.

  `SolCycle` says what a 2-hop or 3-hop cycle through SOL over the admitted
  pools is, by the mints its hops exchange.  `cycleHops` is the list the
  nested loops produce when the edge slices are what `Adjacent` says; it
  contains every cycle, and each once.

  Main results:
    * `searchRoutes_pushed` — the loops append exactly `cycleHops`,
    * `mem_cycleHops`, `cycleHops_nodup`.
-/
import ShredArb.Univ.Adjacency
import ShredArb.Lib.Run
import Mathlib.Data.List.Nodup

namespace ShredArb.Univ

open ShredArb.Probe ShredArb.Buckets ShredArb.Run

/-! ## §1. Cycles. -/

/-- The hop swaps `a` for `b` on an admitted pool, and its direction is the one
that consumes `a`. -/
def Swaps (mask : UInt32) (pools : List PoolMeta) (h : Hop) (a b : Mint) : Prop :=
  ∃ p, pools[h.pool]? = some p ∧ allowed p.protocol mask = true ∧ h.proto = p.protocol ∧
    ((h.dir = 0 ∧ p.mintX = a ∧ p.mintY = b) ∨ (h.dir = 1 ∧ p.mintY = a ∧ p.mintX = b))

/-- SOL → t → SOL. -/
def SolCycle2 (mask : UInt32) (pools : List PoolMeta) (hops : List Hop) : Prop :=
  ∃ h1 h2 t, hops = [h1, h2] ∧ t ≠ mintSol ∧ h1.pool ≠ h2.pool ∧
    Swaps mask pools h1 mintSol t ∧ Swaps mask pools h2 t mintSol

/-- SOL → t1 → t2 → SOL. -/
def SolCycle3 (mask : UInt32) (pools : List PoolMeta) (hops : List Hop) : Prop :=
  ∃ h1 h2 h3 t1 t2, hops = [h1, h2, h3] ∧ t1 ≠ mintSol ∧ t2 ≠ mintSol ∧ t2 ≠ t1 ∧
    h1.pool ≠ h2.pool ∧ h1.pool ≠ h3.pool ∧ h2.pool ≠ h3.pool ∧
    Swaps mask pools h1 mintSol t1 ∧ Swaps mask pools h2 t1 t2 ∧ Swaps mask pools h3 t2 mintSol

/-- **The 2-hop and 3-hop SOL cycles over the admitted pools.** -/
def SolCycle (mask : UInt32) (pools : List PoolMeta) (hops : List Hop) : Prop :=
  SolCycle2 mask pools hops ∨ SolCycle3 mask pools hops

/-- The pools of a cycle are pairwise distinct. -/
theorem SolCycle.pools_nodup {mask : UInt32} {pools : List PoolMeta} {hops : List Hop}
    (h : SolCycle mask pools hops) : (hops.map (·.pool)).Nodup := by
  rcases h with ⟨h1, h2, t, rfl, -, hne, -⟩ | ⟨h1, h2, h3, t1, t2, rfl, -, -, -, h12, h13, h23, -⟩
  · simp [hne]
  · simp [h12, h13, h23]

theorem Swaps.pool_lt {mask : UInt32} {pools : List PoolMeta} {h : Hop} {a b : Mint}
    (hs : Swaps mask pools h a b) : h.pool < pools.length := by
  obtain ⟨p, hp, -⟩ := hs
  exact (List.getElem?_eq_some_iff.mp hp).1

/-- Every hop of a cycle swaps on its pool. -/
theorem SolCycle.exists_swaps {mask : UInt32} {pools : List PoolMeta} {hops : List Hop}
    (h : SolCycle mask pools hops) : ∀ x ∈ hops, ∃ a b, Swaps mask pools x a b := by
  rcases h with ⟨h1, h2, t, rfl, -, -, s1, s2⟩ |
    ⟨h1, h2, h3, t1, t2, rfl, -, -, -, -, -, -, s1, s2, s3⟩
  · intro x hx
    simp only [List.mem_cons, List.not_mem_nil, or_false] at hx
    rcases hx with rfl | rfl
    · exact ⟨_, _, s1⟩
    · exact ⟨_, _, s2⟩
  · intro x hx
    simp only [List.mem_cons, List.not_mem_nil, or_false] at hx
    rcases hx with rfl | rfl | rfl
    · exact ⟨_, _, s1⟩
    · exact ⟨_, _, s2⟩
    · exact ⟨_, _, s3⟩

theorem SolCycle.pool_lt {mask : UInt32} {pools : List PoolMeta} {hops : List Hop}
    (h : SolCycle mask pools hops) : ∀ x ∈ hops, x.pool < pools.length := by
  intro x hx
  obtain ⟨a, b, hs⟩ := h.exists_swaps x hx
  exact hs.pool_lt

theorem SolCycle.length_le {mask : UInt32} {pools : List PoolMeta} {hops : List Hop}
    (h : SolCycle mask pools hops) : hops.length ≤ 3 := by
  rcases h with ⟨h1, h2, t, rfl, -⟩ | ⟨h1, h2, h3, t1, t2, rfl, -⟩
  · show 2 ≤ 3
    omega
  · exact le_refl 3

/-! ## §2. Sides and hops. -/

theorem mem_sidesOf {mask : UInt32} {pools : List PoolMeta} {m : Mint} {e : Edge} :
    e ∈ sidesOf mask pools m ↔ ∃ p, pools[e.pool]? = some p ∧ allowed p.protocol mask = true ∧
      ((e.dir = 0 ∧ p.mintX = m) ∨ (e.dir = 1 ∧ p.mintY = m)) := by
  rw [sidesOf, List.mem_map]
  constructor
  · rintro ⟨⟨k, e'⟩, hmem, rfl⟩
    rw [List.mem_filter, allSides, List.mem_flatMap] at hmem
    obtain ⟨⟨⟨p, i⟩, hpi, hside⟩, hkm⟩ := hmem
    have hk : k = m := by simpa using hkm
    rw [List.mk_mem_zipIdx_iff_getElem?] at hpi
    unfold poolSides at hside
    split at hside
    · rename_i hal
      simp only [List.mem_cons, Prod.mk.injEq, List.not_mem_nil, or_false] at hside
      rcases hside with ⟨hkx, rfl⟩ | ⟨hky, rfl⟩
      · exact ⟨p, hpi, hal, Or.inl ⟨rfl, hkx.symm.trans hk⟩⟩
      · exact ⟨p, hpi, hal, Or.inr ⟨rfl, hky.symm.trans hk⟩⟩
    · exact absurd hside List.not_mem_nil
  · rintro ⟨p, hp, hal, hdir⟩
    refine ⟨(m, e), ?_, rfl⟩
    rw [List.mem_filter, allSides, List.mem_flatMap]
    refine ⟨⟨(p, e.pool), List.mk_mem_zipIdx_iff_getElem?.mpr hp, ?_⟩, by simp⟩
    unfold poolSides
    rw [if_pos hal]
    obtain ⟨i, d⟩ := e
    rcases hdir with ⟨hd, hm⟩ | ⟨hd, hm⟩
    · simp only at hd
      subst hd hm
      exact List.mem_cons_self
    · simp only at hd
      subst hd hm
      exact List.mem_cons_of_mem _ List.mem_cons_self

theorem poolAt_of_getElem? {pools : List PoolMeta} {i : Nat} {p : PoolMeta}
    (h : pools[i]? = some p) : poolAt pools i = p := by
  rw [poolAt, List.getD_eq_getElem?_getD, h]
  rfl

/-- A side with mint `a` leading to `b` is a hop that swaps `a` for `b`. -/
theorem swaps_hopOf {mask : UInt32} {pools : List PoolMeta} {e : Edge} {a b : Mint} :
    Swaps mask pools (hopOf pools e) a b ↔ e ∈ sidesOf mask pools a ∧ edgeOut pools e = b := by
  rw [mem_sidesOf]
  constructor
  · rintro ⟨p, hp, hal, -, hdir⟩
    have hp' : pools[e.pool]? = some p := hp
    have hat := poolAt_of_getElem? hp'
    rcases hdir with ⟨hd, ha, hb⟩ | ⟨hd, ha, hb⟩
    · have hd' : e.dir = 0 := hd
      exact ⟨⟨p, hp', hal, Or.inl ⟨hd', ha⟩⟩, by rw [edgeOut, if_pos hd', hat, hb]⟩
    · have hd' : e.dir = 1 := hd
      exact ⟨⟨p, hp', hal, Or.inr ⟨hd', ha⟩⟩,
        by rw [edgeOut, if_neg (by rw [hd']; decide), hat, hb]⟩
  · rintro ⟨⟨p, hp, hal, hdir⟩, hout⟩
    have hat := poolAt_of_getElem? hp
    refine ⟨p, hp, hal, congrArg PoolMeta.protocol hat, ?_⟩
    rcases hdir with ⟨hd, ha⟩ | ⟨hd, ha⟩
    · rw [edgeOut, if_pos hd, hat] at hout
      exact Or.inl ⟨hd, ha, hout⟩
    · rw [edgeOut, if_neg (by rw [hd]; decide), hat] at hout
      exact Or.inr ⟨hd, ha, hout⟩

/-- Every hop that swaps on an admitted pool is one of a side. -/
theorem Swaps.eq_hopOf {mask : UInt32} {pools : List PoolMeta} {h : Hop} {a b : Mint}
    (hs : Swaps mask pools h a b) : h = hopOf pools ⟨h.pool, h.dir⟩ := by
  obtain ⟨p, hp, -, hproto, -⟩ := hs
  rw [hopOf, poolAt_of_getElem? hp, ← hproto]

theorem hopOf_injective (pools : List PoolMeta) : Function.Injective (hopOf pools) := by
  rintro ⟨i, d⟩ ⟨j, c⟩ h
  have h1 : i = j := congrArg Hop.pool h
  have h2 : d = c := congrArg Hop.dir h
  rw [h1, h2]

/-! ## §3. The lists the loops produce. -/

section Lists

variable (mask : UInt32) (pools : List PoolMeta)

def twoHopsLast (e1 e2 : Edge) : List (List Hop) :=
  if e2.pool = e1.pool then []
  else if edgeOut pools e2 ≠ mintSol then []
  else [[hopOf pools e1, hopOf pools e2]]

def twoHopsFrom (e1 : Edge) : List (List Hop) :=
  if edgeOut pools e1 = mintSol then []
  else (sidesOf mask pools (edgeOut pools e1)).flatMap (twoHopsLast pools e1)

def threeHopsLast (e1 e2 e3 : Edge) : List (List Hop) :=
  if e3.pool = e1.pool ∨ e3.pool = e2.pool then []
  else if edgeOut pools e3 ≠ mintSol then []
  else [[hopOf pools e1, hopOf pools e2, hopOf pools e3]]

def threeHopsMid (e1 e2 : Edge) : List (List Hop) :=
  if e2.pool = e1.pool then []
  else if edgeOut pools e2 = mintSol ∨ edgeOut pools e2 = edgeOut pools e1 then []
  else (sidesOf mask pools (edgeOut pools e2)).flatMap (threeHopsLast pools e1 e2)

def threeHopsFrom (e1 : Edge) : List (List Hop) :=
  if edgeOut pools e1 = mintSol then []
  else (sidesOf mask pools (edgeOut pools e1)).flatMap (threeHopsMid mask pools e1)

/-- All cycles, in the order they are pushed. -/
def cycleHops : List (List Hop) :=
  (sidesOf mask pools mintSol).flatMap (twoHopsFrom mask pools) ++
    (sidesOf mask pools mintSol).flatMap (threeHopsFrom mask pools)

variable {mask pools}

theorem mem_twoHopsLast {e1 e2 : Edge} {hops : List Hop} :
    hops ∈ twoHopsLast pools e1 e2 ↔ e2.pool ≠ e1.pool ∧ edgeOut pools e2 = mintSol ∧
      hops = [hopOf pools e1, hopOf pools e2] := by
  unfold twoHopsLast
  split_ifs with h1 h2
  · simp [h1]
  · simp [h2]
  · simp [h1, not_not.mp h2]

theorem mem_twoHopsFrom {e1 : Edge} {hops : List Hop} :
    hops ∈ twoHopsFrom mask pools e1 ↔ edgeOut pools e1 ≠ mintSol ∧
      ∃ e2 ∈ sidesOf mask pools (edgeOut pools e1), hops ∈ twoHopsLast pools e1 e2 := by
  unfold twoHopsFrom
  split_ifs with h
  · simp [h]
  · rw [List.mem_flatMap]
    exact ⟨fun hm => ⟨h, hm⟩, fun hm => hm.2⟩

theorem mem_threeHopsLast {e1 e2 e3 : Edge} {hops : List Hop} :
    hops ∈ threeHopsLast pools e1 e2 e3 ↔ e3.pool ≠ e1.pool ∧ e3.pool ≠ e2.pool ∧
      edgeOut pools e3 = mintSol ∧ hops = [hopOf pools e1, hopOf pools e2, hopOf pools e3] := by
  unfold threeHopsLast
  split_ifs with h1 h2
  · constructor
    · intro h
      exact absurd h List.not_mem_nil
    · rintro ⟨h3, h4, -⟩
      exact absurd h1 (not_or.mpr ⟨h3, h4⟩)
  · simp [h2]
  · simp [(not_or.mp h1).1, (not_or.mp h1).2, not_not.mp h2]

theorem mem_threeHopsMid {e1 e2 : Edge} {hops : List Hop} :
    hops ∈ threeHopsMid mask pools e1 e2 ↔ e2.pool ≠ e1.pool ∧ edgeOut pools e2 ≠ mintSol ∧
      edgeOut pools e2 ≠ edgeOut pools e1 ∧
      ∃ e3 ∈ sidesOf mask pools (edgeOut pools e2), hops ∈ threeHopsLast pools e1 e2 e3 := by
  unfold threeHopsMid
  split_ifs with h1 h2
  · simp [h1]
  · constructor
    · intro h
      exact absurd h List.not_mem_nil
    · rintro ⟨-, h3, h4, -⟩
      exact absurd h2 (not_or.mpr ⟨h3, h4⟩)
  · rw [List.mem_flatMap]
    exact ⟨fun hm => ⟨h1, (not_or.mp h2).1, (not_or.mp h2).2, hm⟩, fun hm => hm.2.2.2⟩

theorem mem_threeHopsFrom {e1 : Edge} {hops : List Hop} :
    hops ∈ threeHopsFrom mask pools e1 ↔ edgeOut pools e1 ≠ mintSol ∧
      ∃ e2 ∈ sidesOf mask pools (edgeOut pools e1), hops ∈ threeHopsMid mask pools e1 e2 := by
  unfold threeHopsFrom
  split_ifs with h
  · simp [h]
  · rw [List.mem_flatMap]
    exact ⟨fun hm => ⟨h, hm⟩, fun hm => hm.2⟩

end Lists

/-! ## §4. Every cycle is listed. -/

theorem mem_twoHops {mask : UInt32} {pools : List PoolMeta} {hops : List Hop} :
    hops ∈ (sidesOf mask pools mintSol).flatMap (twoHopsFrom mask pools) ↔
      SolCycle2 mask pools hops := by
  rw [List.mem_flatMap]
  constructor
  · rintro ⟨e1, he1, hmem⟩
    obtain ⟨ht, e2, he2, hlast⟩ := mem_twoHopsFrom.mp hmem
    obtain ⟨hne, hback, rfl⟩ := mem_twoHopsLast.mp hlast
    exact ⟨hopOf pools e1, hopOf pools e2, edgeOut pools e1, rfl, ht, Ne.symm hne,
      swaps_hopOf.mpr ⟨he1, rfl⟩, swaps_hopOf.mpr ⟨he2, hback⟩⟩
  · rintro ⟨h1, h2, t, rfl, ht, hne, hs1, hs2⟩
    have e1 := hs1.eq_hopOf
    have e2 := hs2.eq_hopOf
    rw [e1] at hs1
    rw [e2] at hs2
    obtain ⟨hm1, hout1⟩ := swaps_hopOf.mp hs1
    obtain ⟨hm2, hout2⟩ := swaps_hopOf.mp hs2
    refine ⟨⟨h1.pool, h1.dir⟩, hm1, mem_twoHopsFrom.mpr ⟨by rw [hout1]; exact ht, ?_⟩⟩
    refine ⟨⟨h2.pool, h2.dir⟩, by rw [hout1]; exact hm2, ?_⟩
    rw [mem_twoHopsLast, ← e1, ← e2]
    exact ⟨Ne.symm hne, hout2, rfl⟩

theorem mem_threeHops {mask : UInt32} {pools : List PoolMeta} {hops : List Hop} :
    hops ∈ (sidesOf mask pools mintSol).flatMap (threeHopsFrom mask pools) ↔
      SolCycle3 mask pools hops := by
  rw [List.mem_flatMap]
  constructor
  · rintro ⟨e1, he1, hmem⟩
    obtain ⟨ht1, e2, he2, hmid⟩ := mem_threeHopsFrom.mp hmem
    obtain ⟨h12, ht2, ht21, e3, he3, hlast⟩ := mem_threeHopsMid.mp hmid
    obtain ⟨h13, h23, hback, rfl⟩ := mem_threeHopsLast.mp hlast
    exact ⟨hopOf pools e1, hopOf pools e2, hopOf pools e3, edgeOut pools e1, edgeOut pools e2,
      rfl, ht1, ht2, ht21, Ne.symm h12, Ne.symm h13, Ne.symm h23,
      swaps_hopOf.mpr ⟨he1, rfl⟩, swaps_hopOf.mpr ⟨he2, rfl⟩, swaps_hopOf.mpr ⟨he3, hback⟩⟩
  · rintro ⟨h1, h2, h3, t1, t2, rfl, ht1, ht2, ht21, h12, h13, h23, hs1, hs2, hs3⟩
    have e1 := hs1.eq_hopOf
    have e2 := hs2.eq_hopOf
    have e3 := hs3.eq_hopOf
    rw [e1] at hs1
    rw [e2] at hs2
    rw [e3] at hs3
    obtain ⟨hm1, hout1⟩ := swaps_hopOf.mp hs1
    obtain ⟨hm2, hout2⟩ := swaps_hopOf.mp hs2
    obtain ⟨hm3, hout3⟩ := swaps_hopOf.mp hs3
    refine ⟨⟨h1.pool, h1.dir⟩, hm1, mem_threeHopsFrom.mpr ⟨by rw [hout1]; exact ht1, ?_⟩⟩
    refine ⟨⟨h2.pool, h2.dir⟩, by rw [hout1]; exact hm2, mem_threeHopsMid.mpr ?_⟩
    refine ⟨Ne.symm h12, by rw [hout2]; exact ht2, by rw [hout1, hout2]; exact ht21, ?_⟩
    refine ⟨⟨h3.pool, h3.dir⟩, by rw [hout2]; exact hm3, ?_⟩
    rw [mem_threeHopsLast, ← e1, ← e2, ← e3]
    exact ⟨Ne.symm h13, Ne.symm h23, hout3, rfl⟩

/-- **The list holds the cycles and nothing else.** -/
theorem mem_cycleHops {mask : UInt32} {pools : List PoolMeta} {hops : List Hop} :
    hops ∈ cycleHops mask pools ↔ SolCycle mask pools hops := by
  rw [cycleHops, List.mem_append, mem_twoHops, mem_threeHops]
  exact Iff.rfl

/-! ## §5. And each once. -/

/-- A `flatMap` has no duplicates when each element tells where it came from. -/
theorem nodup_flatMap_of_recover {α β γ : Type} {l : List α} {f : α → List β} (k : β → γ)
    (c : α → γ) (hc : ∀ a ∈ l, ∀ b ∈ l, c a = c b → a = b) (hk : ∀ a ∈ l, ∀ x ∈ f a, k x = c a)
    (hl : l.Nodup) (hf : ∀ a ∈ l, (f a).Nodup) : (l.flatMap f).Nodup := by
  rw [List.nodup_flatMap]
  refine ⟨hf, List.Pairwise.imp_of_mem ?_ hl⟩
  intro a b ha hb hab x hxa hxb
  exact hab (hc a ha b hb ((hk a ha x hxa).symm.trans (hk b hb x hxb)))

theorem edges_allSides_nodup (mask : UInt32) (pools : List PoolMeta) :
    ((allSides mask pools).map (·.2)).Nodup := by
  rw [allSides, List.map_flatMap]
  refine nodup_flatMap_of_recover Edge.pool Prod.snd ?_ ?_ ?_ ?_
  · rintro ⟨p, i⟩ hp ⟨q, j⟩ hq hij
    have hij' : i = j := hij
    subst hij'
    rw [List.mk_mem_zipIdx_iff_getElem?] at hp hq
    rw [Option.some.inj (hp.symm.trans hq)]
  · rintro ⟨p, i⟩ - x hx
    unfold poolSides at hx
    split at hx
    · simp only [List.map_cons, List.map_nil, List.mem_cons, List.not_mem_nil, or_false] at hx
      rcases hx with rfl | rfl
      · rfl
      · rfl
    · exact absurd hx (by simp)
  · refine List.Nodup.of_map Prod.snd ?_
    rw [List.zipIdx_map_snd]
    exact List.nodup_range'
  · rintro ⟨p, i⟩ -
    unfold poolSides
    split
    · simp
    · simp

theorem sidesOf_nodup (mask : UInt32) (pools : List PoolMeta) (m : Mint) :
    (sidesOf mask pools m).Nodup :=
  (edges_allSides_nodup mask pools).sublist (List.filter_sublist.map _)

theorem twoHops_nodup (mask : UInt32) (pools : List PoolMeta) :
    ((sidesOf mask pools mintSol).flatMap (twoHopsFrom mask pools)).Nodup := by
  refine nodup_flatMap_of_recover (fun hops => hops[0]?) (fun e => some (hopOf pools e))
    ?_ ?_ (sidesOf_nodup _ _ _) ?_
  · intro a _ b _ hab
    exact hopOf_injective pools (Option.some.inj hab)
  · intro e1 _ x hx
    obtain ⟨-, e2, -, hlast⟩ := mem_twoHopsFrom.mp hx
    obtain ⟨-, -, rfl⟩ := mem_twoHopsLast.mp hlast
    rfl
  · intro e1 _
    unfold twoHopsFrom
    split
    · exact List.nodup_nil
    · refine nodup_flatMap_of_recover (fun hops => hops[1]?) (fun e => some (hopOf pools e))
        ?_ ?_ (sidesOf_nodup _ _ _) ?_
      · intro a _ b _ hab
        exact hopOf_injective pools (Option.some.inj hab)
      · intro e2 _ x hx
        obtain ⟨-, -, rfl⟩ := mem_twoHopsLast.mp hx
        rfl
      · intro e2 _
        unfold twoHopsLast
        split_ifs <;> simp

theorem threeHops_nodup (mask : UInt32) (pools : List PoolMeta) :
    ((sidesOf mask pools mintSol).flatMap (threeHopsFrom mask pools)).Nodup := by
  refine nodup_flatMap_of_recover (fun hops => hops[0]?) (fun e => some (hopOf pools e))
    ?_ ?_ (sidesOf_nodup _ _ _) ?_
  · intro a _ b _ hab
    exact hopOf_injective pools (Option.some.inj hab)
  · intro e1 _ x hx
    obtain ⟨-, e2, -, hmid⟩ := mem_threeHopsFrom.mp hx
    obtain ⟨-, -, -, e3, -, hlast⟩ := mem_threeHopsMid.mp hmid
    obtain ⟨-, -, -, rfl⟩ := mem_threeHopsLast.mp hlast
    rfl
  · intro e1 _
    unfold threeHopsFrom
    split
    · exact List.nodup_nil
    · refine nodup_flatMap_of_recover (fun hops => hops[1]?) (fun e => some (hopOf pools e))
        ?_ ?_ (sidesOf_nodup _ _ _) ?_
      · intro a _ b _ hab
        exact hopOf_injective pools (Option.some.inj hab)
      · intro e2 _ x hx
        obtain ⟨-, -, -, e3, -, hlast⟩ := mem_threeHopsMid.mp hx
        obtain ⟨-, -, -, rfl⟩ := mem_threeHopsLast.mp hlast
        rfl
      · intro e2 _
        unfold threeHopsMid
        split_ifs
        · exact List.nodup_nil
        · exact List.nodup_nil
        · refine nodup_flatMap_of_recover (fun hops => hops[2]?)
            (fun e => some (hopOf pools e)) ?_ ?_ (sidesOf_nodup _ _ _) ?_
          · intro a _ b _ hab
            exact hopOf_injective pools (Option.some.inj hab)
          · intro e3 _ x hx
            obtain ⟨-, -, -, rfl⟩ := mem_threeHopsLast.mp hx
            rfl
          · intro e3 _
            unfold threeHopsLast
            split_ifs <;> simp

/-- **No cycle is listed twice.** -/
theorem cycleHops_nodup (mask : UInt32) (pools : List PoolMeta) :
    (cycleHops mask pools).Nodup := by
  rw [cycleHops, List.nodup_append]
  refine ⟨twoHops_nodup mask pools, threeHops_nodup mask pools, ?_⟩
  intro x hx y hy hxy
  obtain ⟨h1, h2, t, hxeq, -⟩ := mem_twoHops.mp hx
  obtain ⟨g1, g2, g3, t1, t2, hyeq, -⟩ := mem_threeHops.mp hy
  have hlen := congrArg List.length hxy
  rw [hxeq, hyeq] at hlen
  exact absurd hlen (by simp)

/-! ## §6. The loops. -/

def taggedRoute (pools : List PoolMeta) (hops : List Hop) : CompiledRoute :=
  ⟨familyOf pools hops, hops⟩

/-- From `u` to `u'` these routes were pushed, within the capacity. -/
structure Pushed (u u' : Universe) (hs : List (List Hop)) : Prop where
  eq : u' = { u with route := u.route ++ hs.map (taggedRoute u.pool) }
  fits : u.route.length ≤ u.routeCap → u'.route.length ≤ u.routeCap

theorem Pushed.refl (u : Universe) : Pushed u u [] := by
  refine ⟨?_, id⟩
  rw [List.map_nil, List.append_nil]

theorem Pushed.trans {u v w : Universe} {l m : List (List Hop)} (h : Pushed u v l)
    (h' : Pushed v w m) : Pushed u w (l ++ m) := by
  have hp : v.pool = u.pool := by rw [h.eq]
  have hc : v.routeCap = u.routeCap := by rw [h.eq]
  refine ⟨?_, fun hfit => ?_⟩
  · rw [h'.eq, hp, List.map_append, ← List.append_assoc, h.eq]
  · rw [← hc]
    exact h'.fits (hc ▸ h.fits hfit)

/-- The same of the loops' state, table and universe. -/
def StPushed (st st' : List MintSlot × Universe) (hs : List (List Hop)) : Prop :=
  Pushed st.2 st'.2 hs

theorem pushed_refl (st : List MintSlot × Universe) : StPushed st st [] := Pushed.refl st.2

theorem pushed_trans {s t r : List MintSlot × Universe} {l m : List (List Hop)}
    (h : StPushed s t l) (h' : StPushed t r m) : StPushed s r (l ++ m) := Pushed.trans h h'

theorem Pushed.pool_eq {u u' : Universe} {hs : List (List Hop)} (h : Pushed u u' hs) :
    u'.pool = u.pool := by
  rw [h.eq]

theorem pushRoute_pushed {u u' : Universe} {hops : List Hop}
    (h : pushRoute u hops = some u') : Pushed u u' [hops] := by
  unfold pushRoute at h
  split at h
  · exact absurd h (by simp)
  · rename_i hlt
    rw [← Option.some.inj h]
    refine ⟨rfl, fun _ => ?_⟩
    show (u.route ++ [_]).length ≤ _
    rw [List.length_append, List.length_singleton]
    omega

section Loops

variable {mask : UInt32} {pools : List PoolMeta} {edges : List Edge} {sidx : Nat}

theorem twoHopTurn_pushed {e1 e2 : Edge} {u u' : Universe} (hu : u.pool = pools)
    (h : twoHopTurn e1 u e2 = some u') : u'.pool = pools ∧ Pushed u u' (twoHopsLast pools e1 e2) := by
  unfold twoHopTurn at h
  unfold twoHopsLast
  rw [hu] at h
  split_ifs at h ⊢ with h1 h2
  · rw [← Option.some.inj h]
    exact ⟨hu, Pushed.refl u⟩
  · rw [← Option.some.inj h]
    exact ⟨hu, Pushed.refl u⟩
  · have hpush := pushRoute_pushed h
    exact ⟨hpush.pool_eq.trans hu, hpush⟩

theorem threeHopTurn_pushed {e1 e2 e3 : Edge} {u u' : Universe} (hu : u.pool = pools)
    (h : threeHopTurn e1 e2 u e3 = some u') :
    u'.pool = pools ∧ Pushed u u' (threeHopsLast pools e1 e2 e3) := by
  unfold threeHopTurn at h
  unfold threeHopsLast
  rw [hu] at h
  split_ifs at h ⊢ with h1 h2
  · rw [← Option.some.inj h]
    exact ⟨hu, Pushed.refl u⟩
  · rw [← Option.some.inj h]
    exact ⟨hu, Pushed.refl u⟩
  · have hpush := pushRoute_pushed h
    exact ⟨hpush.pool_eq.trans hu, hpush⟩

/-- What the loops keep: the adjacency, the pools, and SOL in its slot. -/
structure Searching (mask : UInt32) (pools : List PoolMeta) (edges : List Edge) (sidx : Nat)
    (st : List MintSlot × Universe) : Prop where
  adj : Adjacent mask pools edges st.1
  pool_eq : st.2.pool = pools
  sol : keyOf st.1 sidx = some mintSol

/-- A `mint_put` inside the loops. -/
theorem Searching.put {st : List MintSlot × Universe} {tab : List MintSlot} {m : Mint} {j : Nat}
    (h : Searching mask pools edges sidx st) (hput : mintPut st.1 m = some (tab, j)) :
    Searching mask pools edges sidx (tab, st.2) ∧ edgesAt tab edges j = sidesOf mask pools m := by
  obtain ⟨hadj, hsides⟩ := h.adj.put hput
  exact ⟨⟨hadj, h.pool_eq, (mintPut_keeps h.adj.ok hput h.sol).1⟩, hsides⟩

theorem twoHopFrom_pushed {e1 : Edge} {st st' : List MintSlot × Universe}
    (hs : Searching mask pools edges sidx st) (h : twoHopFrom edges st e1 = some st') :
    Searching mask pools edges sidx st' ∧ StPushed st st' (twoHopsFrom mask pools e1) := by
  unfold twoHopFrom at h
  unfold twoHopsFrom
  simp only [hs.pool_eq] at h
  split_ifs at h ⊢ with ht
  · rw [← Option.some.inj h]
    exact ⟨hs, Pushed.refl _⟩
  · cases hput : mintPut st.1 (edgeOut pools e1) with
    | none =>
      rw [hput] at h
      rw [← Option.some.inj h, hs.adj.put_none hput]
      exact ⟨hs, Pushed.refl _⟩
    | some r =>
      obtain ⟨tab, tidx⟩ := r
      rw [hput] at h
      obtain ⟨hs', hsides⟩ := hs.put hput
      simp only at h
      rw [hsides] at h
      obtain ⟨u, hu, rfl⟩ := Option.map_eq_some_iff.mp h
      obtain ⟨hpool, hpush⟩ := foldlM_collects (I := fun u : Universe => u.pool = pools)
        (f := twoHopTurn e1) (g := twoHopsLast pools e1)
        Pushed.refl Pushed.trans twoHopTurn_pushed _ hs.pool_eq hu
      exact ⟨⟨hs'.adj, hpool, hs'.sol⟩, hpush⟩

theorem threeHopMid_pushed {e1 e2 : Edge} {st st' : List MintSlot × Universe}
    (hs : Searching mask pools edges sidx st) (h : threeHopMid edges e1 st e2 = some st') :
    Searching mask pools edges sidx st' ∧ StPushed st st' (threeHopsMid mask pools e1 e2) := by
  unfold threeHopMid at h
  unfold threeHopsMid
  simp only [hs.pool_eq] at h
  split_ifs at h ⊢ with h1 h2
  · rw [← Option.some.inj h]
    exact ⟨hs, Pushed.refl _⟩
  · rw [← Option.some.inj h]
    exact ⟨hs, Pushed.refl _⟩
  · cases hput : mintPut st.1 (edgeOut pools e2) with
    | none =>
      rw [hput] at h
      rw [← Option.some.inj h, hs.adj.put_none hput]
      exact ⟨hs, Pushed.refl _⟩
    | some r =>
      obtain ⟨tab, tidx⟩ := r
      rw [hput] at h
      obtain ⟨hs', hsides⟩ := hs.put hput
      simp only at h
      rw [hsides] at h
      obtain ⟨u, hu, rfl⟩ := Option.map_eq_some_iff.mp h
      obtain ⟨hpool, hpush⟩ := foldlM_collects (I := fun u : Universe => u.pool = pools)
        (f := threeHopTurn e1 e2) (g := threeHopsLast pools e1 e2)
        Pushed.refl Pushed.trans threeHopTurn_pushed _ hs.pool_eq hu
      exact ⟨⟨hs'.adj, hpool, hs'.sol⟩, hpush⟩

theorem threeHopFrom_pushed {e1 : Edge} {st st' : List MintSlot × Universe}
    (hs : Searching mask pools edges sidx st) (h : threeHopFrom edges st e1 = some st') :
    Searching mask pools edges sidx st' ∧ StPushed st st' (threeHopsFrom mask pools e1) := by
  unfold threeHopFrom at h
  unfold threeHopsFrom
  simp only [hs.pool_eq] at h
  split_ifs at h ⊢ with ht
  · rw [← Option.some.inj h]
    exact ⟨hs, Pushed.refl _⟩
  · cases hput : mintPut st.1 (edgeOut pools e1) with
    | none =>
      rw [hput] at h
      rw [← Option.some.inj h, hs.adj.put_none hput]
      exact ⟨hs, Pushed.refl _⟩
    | some r =>
      obtain ⟨tab, tidx⟩ := r
      rw [hput] at h
      obtain ⟨hs', hsides⟩ := hs.put hput
      simp only at h
      rw [hsides] at h
      obtain ⟨hend, hpush⟩ := foldlM_collects (f := threeHopMid edges e1)
        (g := threeHopsMid mask pools e1) pushed_refl pushed_trans threeHopMid_pushed _ hs' h
      exact ⟨hend, hpush⟩

end Loops

/-- **The search pushes the cycles, in the order of `cycleHops`.** -/
theorem searchRoutes_pushed {mask : UInt32} {edges : List Edge} {tab : List MintSlot}
    {u u' : Universe} (hadj : Adjacent mask u.pool edges tab)
    (h : searchRoutes tab edges u = some u') : Pushed u u' (cycleHops mask u.pool) := by
  unfold searchRoutes at h
  cases hput : mintPut tab mintSol with
  | none =>
    rw [hput] at h
    rw [← Option.some.inj h, cycleHops, hadj.put_none hput]
    exact Pushed.refl u
  | some r =>
    obtain ⟨tab1, sidx⟩ := r
    rw [hput] at h
    simp only at h
    obtain ⟨hadj1, hsides⟩ := hadj.put hput
    have hs : Searching mask u.pool edges sidx (tab1, u) :=
      ⟨hadj1, rfl, (mintPut_spec hadj.ok hput).2.1⟩
    obtain ⟨st, htwo, hthree⟩ := Option.bind_eq_some_iff.mp h
    obtain ⟨st', hthree', rfl⟩ := Option.map_eq_some_iff.mp hthree
    rw [hsides] at htwo
    obtain ⟨hs2, hpush2⟩ := foldlM_collects (f := twoHopFrom edges)
      (g := twoHopsFrom mask u.pool) pushed_refl pushed_trans twoHopFrom_pushed _ hs htwo
    rw [hs2.adj.sides sidx mintSol hs2.sol] at hthree'
    obtain ⟨-, hpush3⟩ := foldlM_collects (f := threeHopFrom edges)
      (g := threeHopsFrom mask u.pool) pushed_refl pushed_trans threeHopFrom_pushed _ hs2 hthree'
    exact hpush2.trans hpush3

end ShredArb.Univ
