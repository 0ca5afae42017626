/-
  ShredArb.Orbit.Shreds — the shreds of a slot and the bytes around one of them
  (`fshred_find`, `fslot_store`, `frame_concat` of `arb-feed/src/paper_orbit.c`).

  Payloads are kept in the order they ARRIVE; `frame_concat` walks the indices
  down and up from one of them, and copies what it passed in index order.

  Conventions:
    • an index is a `UInt32`, and `hi + 1` wraps as the code's does,
    • `arena` is the arena up to `arena_used`; offsets and lengths into it are
      `Nat`, the caps being far below 2³²,
    • the loops take fuel and answer `none` without it, so an answer says that
      they END.

  Main results:
    * `frameConcat_isSome` — the loops end on every table,
    * `frame_concat_order_independent` — the bytes of the maximal run.
-/
import ShredArb.Lib.Bytes
import Mathlib.Algebra.BigOperators.Group.Finset.Basic
import Mathlib.Algebra.Order.BigOperators.Group.Finset

namespace ShredArb.Orbit

open ShredArb.Bytes

/-! ## §1. The table. -/

/-- `F_SHREDS`. -/
def fShreds : Nat := 2048

/-- `F_ARENA`. -/
def fArena : Nat := 2 * 1024 * 1024

/-- `fshred_t`. -/
structure FShred where
  index : UInt32
  plen : Nat
  off : Nat
  rxNs : UInt64
  deriving DecidableEq

/-- `fslot_t`. -/
structure FSlot where
  slot : UInt64
  used : Bool
  d : List FShred
  arena : List UInt8
  deriving DecidableEq

/-- A slot that was just taken. -/
def FSlot.fresh (slot : UInt64) : FSlot := ⟨slot, true, [], []⟩

/-- `fshred_find`. -/
def fshredFind (s : FSlot) (idx : UInt32) : Option FShred := s.d.find? fun r => r.index == idx

/-- `fslot_store`, with whether it answered 0. -/
def fslotStore (s : FSlot) (idx : UInt32) (p : List UInt8) (rx : UInt64) : Bool × FSlot :=
  if p.length = 0 then (false, s)
  else if (fshredFind s idx).isSome then (true, s)
  else if s.d.length ≥ fShreds ∨ s.arena.length + p.length > fArena then (false, s)
  else
    (true, { s with
      d := s.d ++ [⟨idx, p.length, s.arena.length, rx⟩]
      arena := s.arena ++ p })

/-- `while (lo > 0u && fshred_find(s, lo - 1u) != NULL)`. -/
def runLo (s : FSlot) : Nat → UInt32 → Option UInt32
  | 0, _ => none
  | fuel + 1, lo =>
    if 0 < lo ∧ (fshredFind s (lo - 1)).isSome then runLo s fuel (lo - 1) else some lo

/-- `while (fshred_find(s, hi + 1u) != NULL)`. -/
def runHi (s : FSlot) : Nat → UInt32 → Option UInt32
  | 0, _ => none
  | fuel + 1, hi => if (fshredFind s (hi + 1)).isSome then runHi s fuel (hi + 1) else some hi

/-- The copying loop; `buf` is `g_fbuf` up to `n`. -/
def copyRun (s : FSlot) (hi : UInt32) : Nat → UInt32 → List UInt8 → Option (List UInt8)
  | 0, _, _ => none
  | fuel + 1, idx, buf =>
    if idx ≤ hi then
      match fshredFind s idx with
      | none => some []
      | some r =>
        if buf.length + r.plen > fArena then some []
        else copyRun s hi fuel (idx + 1) (buf ++ field s.arena r.off r.plen)
    else some buf

/-- `frame_concat`: the bytes it leaves in `g_fbuf`. -/
def frameConcat (fuel : Nat) (s : FSlot) (around : UInt32) : Option (List UInt8) :=
  if (fshredFind s around).isNone then some []
  else
    (runLo s fuel around).bind fun lo =>
      (runHi s fuel around).bind fun hi => copyRun s hi fuel lo []

/-! ## §2. The loops end. -/

theorem fshredFind_isSome_iff {s : FSlot} {idx : UInt32} :
    (fshredFind s idx).isSome ↔ idx ∈ s.d.map FShred.index := by
  rw [fshredFind, List.find?_isSome, List.mem_map]
  constructor
  · rintro ⟨r, hr, heq⟩
    exact ⟨r, hr, eq_of_beq heq⟩
  · rintro ⟨r, hr, rfl⟩
    exact ⟨r, hr, beq_self_eq_true _⟩

/-- A table has no more indices than entries. -/
theorem le_length_of_present {s : FSlot} {n : Nat} {f : Nat → UInt32}
    (hinj : ∀ i < n, ∀ j < n, f i = f j → i = j) (h : ∀ j < n, (fshredFind s (f j)).isSome) :
    n ≤ s.d.length := by
  have hsub : (List.range n).map f ⊆ s.d.map FShred.index := by
    intro x hx
    obtain ⟨j, hj, rfl⟩ := List.mem_map.mp hx
    exact fshredFind_isSome_iff.mp (h j (List.mem_range.mp hj))
  have hnodup : ((List.range n).map f).Nodup := by
    refine List.Nodup.map_on ?_ List.nodup_range
    intro i hi j hj
    exact hinj i (List.mem_range.mp hi) j (List.mem_range.mp hj)
  have hle := (hnodup.subperm hsub).length_le
  rwa [List.length_map, List.length_range, List.length_map] at hle

theorem ofNat_inj {i j : Nat} (hi : i < 2 ^ 32) (hj : j < 2 ^ 32)
    (h : UInt32.ofNat i = UInt32.ofNat j) : i = j := by
  have hnat := congrArg UInt32.toNat h
  rwa [UInt32.toNat_ofNat_of_lt' hi, UInt32.toNat_ofNat_of_lt' hj] at hnat

theorem runLo_none {s : FSlot} : ∀ (fuel : Nat) {lo : UInt32}, runLo s fuel lo = none →
    ∀ j < fuel, (fshredFind s (lo - 1 - UInt32.ofNat j)).isSome
  | 0, _, _, j, hj => absurd hj (Nat.not_lt_zero j)
  | fuel + 1, lo, h, j, hj => by
    rw [runLo] at h
    split at h
    · rename_i hgo
      cases j with
      | zero => simpa using hgo.2
      | succ j =>
        have ih := runLo_none fuel h j (Nat.lt_of_succ_lt_succ hj)
        have hstep : lo - 1 - UInt32.ofNat (j + 1) = lo - 1 - 1 - UInt32.ofNat j := by
          rw [UInt32.ofNat_add, UInt32.sub_eq_iff_eq_add, ← UInt32.add_assoc, UInt32.sub_add_cancel]
          exact (UInt32.sub_add_cancel _ _).symm
        rwa [hstep]
    · exact absurd h (Option.some_ne_none _)

theorem runHi_none {s : FSlot} : ∀ (fuel : Nat) {hi : UInt32}, runHi s fuel hi = none →
    ∀ j < fuel, (fshredFind s (hi + 1 + UInt32.ofNat j)).isSome
  | 0, _, _, j, hj => absurd hj (Nat.not_lt_zero j)
  | fuel + 1, hi, h, j, hj => by
    rw [runHi] at h
    split at h
    · rename_i hgo
      cases j with
      | zero => simpa using hgo
      | succ j =>
        have ih := runHi_none fuel h j (Nat.lt_of_succ_lt_succ hj)
        have hstep : hi + 1 + UInt32.ofNat (j + 1) = hi + 1 + 1 + UInt32.ofNat j := by
          rw [UInt32.ofNat_add, UInt32.add_assoc (hi + 1), UInt32.add_comm 1]
          rfl
        rwa [hstep]
    · exact absurd h (Option.some_ne_none _)

theorem copyRun_none {s : FSlot} {hi : UInt32} : ∀ (fuel : Nat) {idx : UInt32} {buf : List UInt8},
    copyRun s hi fuel idx buf = none → ∀ j < fuel, (fshredFind s (idx + UInt32.ofNat j)).isSome
  | 0, _, _, _, j, hj => absurd hj (Nat.not_lt_zero j)
  | fuel + 1, idx, buf, h, j, hj => by
    rw [copyRun] at h
    split at h
    · split at h
      · exact absurd h (Option.some_ne_none _)
      · rename_i r hr
        split at h
        · exact absurd h (Option.some_ne_none _)
        · cases j with
          | zero => simp [hr]
          | succ j =>
            have ih := copyRun_none fuel h j (Nat.lt_of_succ_lt_succ hj)
            have hstep : idx + UInt32.ofNat (j + 1) = idx + 1 + UInt32.ofNat j := by
              rw [UInt32.ofNat_add, UInt32.add_assoc idx, UInt32.add_comm 1]
              rfl
            rwa [hstep]
    · exact absurd h (Option.some_ne_none _)

/-- **The loops end on every table.** -/
theorem frameConcat_isSome {s : FSlot} (hcap : s.d.length ≤ fShreds) (around : UInt32) {fuel : Nat}
    (hfuel : s.d.length < fuel) : (frameConcat fuel s around).isSome := by
  have hcap' : s.d.length + 1 ≤ 2 ^ 32 := by
    have hcaps : fShreds + 1 ≤ 2 ^ 32 := by decide
    omega
  have hoff : ∀ c : UInt32, ∀ i < s.d.length + 1, ∀ j < s.d.length + 1,
      c + UInt32.ofNat i = c + UInt32.ofNat j → i = j := by
    intro c i hi j hj h
    exact ofNat_inj (by omega) (by omega) ((UInt32.add_right_inj c).mp h)
  have hback : ∀ c : UInt32, ∀ i < s.d.length + 1, ∀ j < s.d.length + 1,
      c - UInt32.ofNat i = c - UInt32.ofNat j → i = j := by
    intro c i hi j hj h
    exact ofNat_inj (by omega) (by omega) ((UInt32.sub_right_inj c).mp h)
  rw [frameConcat]
  split
  · rfl
  · cases hlo : runLo s fuel around with
    | none =>
      have hle := le_length_of_present (hback _) fun j hj => runLo_none fuel hlo j (by omega)
      omega
    | some lo =>
      cases hhi : runHi s fuel around with
      | none =>
        have hle := le_length_of_present (hoff _) fun j hj => runHi_none fuel hhi j (by omega)
        omega
      | some hi =>
        cases hcopy : copyRun s hi fuel lo [] with
        | none =>
          have hle := le_length_of_present (hoff _) fun j hj => copyRun_none fuel hcopy j (by omega)
          omega
        | some bytes => simp [hcopy]

/-! ## §3. What a table holds. -/

/-- `s` holds the payloads of the indices `S`, and nothing else. -/
structure Holds (s : FSlot) (S : Finset UInt32) (pay : UInt32 → List UInt8) : Prop where
  present : ∀ i, (fshredFind s i).isSome ↔ i ∈ S
  bytes : ∀ i r, fshredFind s i = some r → r.plen = (pay i).length ∧
    field s.arena r.off r.plen = pay i ∧ r.off + r.plen ≤ s.arena.length
  dn : s.d.length = S.card
  arenaUsed : s.arena.length = ∑ i ∈ S, (pay i).length

theorem holds_fresh (slot : UInt64) (pay : UInt32 → List UInt8) : Holds (.fresh slot) ∅ pay where
  present i := by simp [fshredFind, FSlot.fresh]
  bytes i r h := by simp [fshredFind, FSlot.fresh] at h
  dn := rfl
  arenaUsed := rfl

theorem fshredFind_append (s : FSlot) (r : FShred) (arena : List UInt8) (i : UInt32) :
    fshredFind { s with d := s.d ++ [r], arena := arena } i
      = (fshredFind s i).or (if r.index = i then some r else none) := by
  simp only [fshredFind, List.find?_append, List.find?_singleton, beq_iff_eq]

/-- Storing keeps what is there and adds what is new. -/
theorem Holds.store {s : FSlot} {S : Finset UInt32} {pay : UInt32 → List UInt8} (h : Holds s S pay)
    (i : UInt32) (rx : UInt64) (hpay : pay i ≠ []) (hdn : (insert i S).card ≤ fShreds)
    (harena : ∑ j ∈ insert i S, (pay j).length ≤ fArena) :
    Holds (fslotStore s i (pay i) rx).2 (insert i S) pay := by
  have hlen : (pay i).length ≠ 0 := fun h0 => hpay (List.length_eq_zero_iff.mp h0)
  rw [fslotStore, if_neg hlen]
  by_cases hi : i ∈ S
  · rw [if_pos ((h.present i).mpr hi), Finset.insert_eq_of_mem hi]
    exact h
  · have habsent : fshredFind s i = none := by
      rw [← Option.not_isSome_iff_eq_none, h.present]
      exact hi
    rw [Finset.card_insert_of_notMem hi] at hdn
    rw [Finset.sum_insert hi] at harena
    have hroom : ¬(s.d.length ≥ fShreds ∨ s.arena.length + (pay i).length > fArena) := by
      rw [h.dn, h.arenaUsed]
      omega
    rw [habsent, if_neg (by simp), if_neg hroom]
    refine ⟨fun j => ?_, fun j r hr => ?_, ?_, ?_⟩
    · rw [fshredFind_append, Finset.mem_insert, ← h.present j, Option.isSome_or]
      by_cases hij : i = j
      · simp [hij]
      · simp [hij, Ne.symm hij]
    · rw [fshredFind_append] at hr
      cases hj : fshredFind s j with
      | some r' =>
        -- an old payload lies below the new one
        rw [hj] at hr
        obtain rfl := Option.some.inj hr
        obtain ⟨hplen, hfield, hin⟩ := h.bytes j r' hj
        refine ⟨hplen, ?_, ?_⟩
        · rw [← hfield, field, List.drop_append_of_le_length (by omega),
            List.take_append_of_le_length (by rw [List.length_drop]; omega)]
          rfl
        · rw [List.length_append]
          omega
      | none =>
        rw [hj, Option.none_or] at hr
        split at hr
        · rename_i hij
          obtain rfl := Option.some.inj hr
          obtain rfl : i = j := hij
          refine ⟨rfl, ?_, ?_⟩
          · show field (s.arena ++ pay i) s.arena.length (pay i).length = pay i
            rw [field, List.drop_left, List.take_length]
          · show s.arena.length + (pay i).length ≤ (s.arena ++ pay i).length
            rw [List.length_append]
        · exact absurd hr (Option.some_ne_none _).symm
    · rw [List.length_append, h.dn, Finset.card_insert_of_notMem hi]
      rfl
    · rw [List.length_append, h.arenaUsed, Finset.sum_insert hi, Nat.add_comm]

/-- The arrivals of a slot, through `fslot_store`. -/
def stored (slot : UInt64) (pay : UInt32 → List UInt8) (arrivals : List (UInt32 × UInt64)) : FSlot :=
  arrivals.foldl (fun s a => (fslotStore s a.1 (pay a.1) a.2).2) (.fresh slot)

theorem holds_stored {S : Finset UInt32} {pay : UInt32 → List UInt8} (hpay : ∀ i ∈ S, pay i ≠ [])
    (hdn : S.card ≤ fShreds) (harena : ∑ i ∈ S, (pay i).length ≤ fArena) (slot : UInt64)
    (arrivals : List (UInt32 × UInt64)) (hsub : (arrivals.map Prod.fst).toFinset ⊆ S) :
    Holds (stored slot pay arrivals) (arrivals.map Prod.fst).toFinset pay := by
  induction arrivals using List.reverseRecOn with
  | nil => exact holds_fresh slot pay
  | append_singleton arrivals a ih =>
    have hset : ((arrivals ++ [a]).map Prod.fst).toFinset
        = insert a.1 (arrivals.map Prod.fst).toFinset := by
      ext j
      simp
    rw [hset] at hsub ⊢
    rw [stored, List.foldl_append]
    have hmem : a.1 ∈ S := hsub (Finset.mem_insert_self _ _)
    exact (ih ((Finset.subset_insert _ _).trans hsub)).store a.1 a.2 (hpay _ hmem)
      ((Finset.card_le_card hsub).trans hdn) ((Finset.sum_le_sum_of_subset hsub).trans harena)

/-! ## §4. The maximal run. -/

/-- `lo .. hi` is the maximal contiguous run of `S` around an index. -/
structure MaximalRun (S : Finset UInt32) (lo around hi : UInt32) : Prop where
  lo_le : lo ≤ around
  le_hi : around ≤ hi
  present : ∀ j, lo ≤ j → j ≤ hi → j ∈ S
  below : lo = 0 ∨ lo - 1 ∉ S
  above : hi + 1 ∉ S

/-- The payloads from one index to another, in index order. -/
def runBytes (pay : UInt32 → List UInt8) (lo hi : UInt32) : List UInt8 :=
  (List.range' lo.toNat (hi.toNat + 1 - lo.toNat)).flatMap fun j => pay (UInt32.ofNat j)

theorem toNat_pred {lo : UInt32} (h : 0 < lo) : (lo - 1).toNat = lo.toNat - 1 := by
  have hone : (1 : UInt32) ≤ lo := UInt32.le_iff_toNat_le.mpr (UInt32.lt_iff_toNat_lt.mp h)
  rw [UInt32.toNat_sub_of_le lo 1 hone]
  rfl

theorem toNat_succ {hi : UInt32} (h : hi.toNat < 2 ^ 32 - 1) : (hi + 1).toNat = hi.toNat + 1 := by
  rw [UInt32.toNat_add]
  show (hi.toNat + 1) % 2 ^ 32 = _
  omega

section Run

variable {s : FSlot} {S : Finset UInt32} {pay : UInt32 → List UInt8}

theorem runLo_spec (h : Holds s S pay) : ∀ (fuel : Nat) {around lo : UInt32},
    runLo s fuel around = some lo →
    lo ≤ around ∧ (∀ j, lo ≤ j → j < around → j ∈ S) ∧ (lo = 0 ∨ lo - 1 ∉ S)
  | 0, _, _, hrun => absurd hrun (Option.some_ne_none _).symm
  | fuel + 1, around, lo, hrun => by
    rw [runLo] at hrun
    split at hrun
    · rename_i hgo
      obtain ⟨hle, hmem, hbelow⟩ := runLo_spec h fuel hrun
      have hpred := toNat_pred hgo.1
      have hpos := UInt32.lt_iff_toNat_lt.mp hgo.1
      rw [UInt32.le_iff_toNat_le] at hle
      refine ⟨UInt32.le_iff_toNat_le.mpr (by omega), fun j hj hlt => ?_, hbelow⟩
      by_cases hlast : j = around - 1
      · rw [hlast, ← h.present]
        exact hgo.2
      · refine hmem j hj (UInt32.lt_iff_toNat_lt.mpr ?_)
        have hne : j.toNat ≠ (around - 1).toNat := fun heq => hlast (UInt32.toNat_inj.mp heq)
        rw [UInt32.lt_iff_toNat_lt] at hlt
        omega
    · rename_i hstop
      obtain rfl := Option.some.inj hrun
      refine ⟨UInt32.le_refl _, fun j hj hlt => ?_, ?_⟩
      · exact absurd hlt (UInt32.not_lt.mpr hj)
      · rw [h.present] at hstop
        by_cases h0 : around = 0
        · exact .inl h0
        · exact .inr fun hmem => hstop ⟨UInt32.pos_iff_ne_zero.mpr h0, hmem⟩

theorem runHi_spec (h : Holds s S pay) (hidx : ∀ i ∈ S, i.toNat < 2 ^ 32 - 1) :
    ∀ (fuel : Nat) {around hi : UInt32}, around ∈ S → runHi s fuel around = some hi →
    around ≤ hi ∧ hi ∈ S ∧ (∀ j, around ≤ j → j ≤ hi → j ∈ S) ∧ hi + 1 ∉ S
  | 0, _, _, _, hrun => absurd hrun (Option.some_ne_none _).symm
  | fuel + 1, around, hi, hin, hrun => by
    rw [runHi] at hrun
    split at hrun
    · rename_i hgo
      rw [h.present] at hgo
      obtain ⟨hle, hhi, hmem, habove⟩ := runHi_spec h hidx fuel hgo hrun
      have hsucc := toNat_succ (hidx around hin)
      rw [UInt32.le_iff_toNat_le] at hle
      refine ⟨UInt32.le_iff_toNat_le.mpr (by omega), hhi, fun j hj hjhi => ?_, habove⟩
      by_cases hfirst : j = around
      · rwa [hfirst]
      · refine hmem j (UInt32.le_iff_toNat_le.mpr ?_) hjhi
        have hne : j.toNat ≠ around.toNat := fun heq => hfirst (UInt32.toNat_inj.mp heq)
        rw [UInt32.le_iff_toNat_le] at hj
        omega
    · rename_i hstop
      obtain rfl := Option.some.inj hrun
      rw [h.present] at hstop
      refine ⟨UInt32.le_refl _, hin, fun j hj hle => ?_, hstop⟩
      rwa [UInt32.le_antisymm hle hj]

/-- What is still to be copied fits. -/
theorem sum_split {idx : UInt32} (hin : idx ∈ S) (hmax : idx.toNat < 2 ^ 32 - 1) :
    ∑ i ∈ S.filter (idx ≤ ·), (pay i).length
      = (pay idx).length + ∑ i ∈ S.filter (idx + 1 ≤ ·), (pay i).length := by
  have hsucc := toNat_succ hmax
  have hsplit : S.filter (idx ≤ ·) = insert idx (S.filter (idx + 1 ≤ ·)) := by
    ext j
    have hj : j = idx ↔ j.toNat = idx.toNat := UInt32.toNat_inj.symm
    simp only [Finset.mem_filter, Finset.mem_insert, UInt32.le_iff_toNat_le, hsucc, hj]
    constructor
    · rintro ⟨hmem, hle⟩
      by_cases heq : j.toNat = idx.toNat
      · exact .inl heq
      · exact .inr ⟨hmem, by omega⟩
    · rintro (heq | ⟨hmem, hle⟩)
      · rw [hj.mpr heq]
        exact ⟨hin, Nat.le_refl _⟩
      · exact ⟨hmem, by omega⟩
  have hnew : idx ∉ S.filter (idx + 1 ≤ ·) := by
    simp only [Finset.mem_filter, UInt32.le_iff_toNat_le, hsucc]
    omega
  rw [hsplit, Finset.sum_insert hnew]

theorem runBytes_cons {lo hi : UInt32} (h : lo ≤ hi) (hmax : lo.toNat < 2 ^ 32 - 1) :
    runBytes pay lo hi = pay lo ++ runBytes pay (lo + 1) hi := by
  rw [UInt32.le_iff_toNat_le] at h
  have hcount : hi.toNat + 1 - lo.toNat = (hi.toNat + 1 - (lo.toNat + 1)) + 1 := by omega
  rw [runBytes, runBytes, toNat_succ hmax, hcount, List.range'_succ, List.flatMap_cons,
    UInt32.ofNat_toNat]

theorem copyRun_spec (h : Holds s S pay) (hidx : ∀ i ∈ S, i.toNat < 2 ^ 32 - 1) {hi : UInt32} :
    ∀ (fuel : Nat) {idx : UInt32} {buf out : List UInt8}, copyRun s hi fuel idx buf = some out →
    (∀ j, idx ≤ j → j ≤ hi → j ∈ S) →
    buf.length + ∑ i ∈ S.filter (idx ≤ ·), (pay i).length ≤ fArena →
    out = buf ++ runBytes pay idx hi
  | 0, _, _, _, hrun, _, _ => absurd hrun (Option.some_ne_none _).symm
  | fuel + 1, idx, buf, out, hrun, hmem, hfits => by
    rw [copyRun] at hrun
    split at hrun
    · rename_i hle
      have hin : idx ∈ S := hmem idx (UInt32.le_refl _) hle
      obtain ⟨r, hr⟩ := Option.isSome_iff_exists.mp ((h.present idx).mpr hin)
      obtain ⟨hplen, hfield, -⟩ := h.bytes idx r hr
      have hmax := hidx idx hin
      have hsucc := toNat_succ hmax
      rw [sum_split hin hmax] at hfits
      simp only [hr] at hrun
      rw [if_neg (by omega), hfield] at hrun
      have hrest := copyRun_spec h hidx fuel hrun
        (fun j hj hjhi => hmem j (UInt32.le_iff_toNat_le.mpr (by
          rw [UInt32.le_iff_toNat_le, hsucc] at hj
          omega)) hjhi)
        (by
          rw [List.length_append]
          omega)
      rw [hrest, runBytes_cons hle hmax, List.append_assoc]
    · rename_i hgt
      obtain rfl := Option.some.inj hrun
      rw [UInt32.not_le, UInt32.lt_iff_toNat_lt] at hgt
      rw [runBytes, Nat.sub_eq_zero_of_le (by omega), List.range'_zero, List.flatMap_nil,
        List.append_nil]

/-- On a table that holds `S`, the bytes are those of a maximal run. -/
theorem frameConcat_eq (h : Holds s S pay) (hidx : ∀ i ∈ S, i.toNat < 2 ^ 32 - 1)
    (hdn : S.card ≤ fShreds) (harena : ∑ i ∈ S, (pay i).length ≤ fArena) {around : UInt32}
    (hin : around ∈ S) {fuel : Nat} (hfuel : S.card < fuel) :
    ∃ lo hi, MaximalRun S lo around hi ∧ frameConcat fuel s around = some (runBytes pay lo hi) := by
  have hsome := frameConcat_isSome (s := s) (by rw [h.dn]; exact hdn) around (by rw [h.dn]; exact hfuel)
  obtain ⟨out, hout⟩ := Option.isSome_iff_exists.mp hsome
  have hpresent := (h.present around).mpr hin
  have hrun := hout
  rw [frameConcat, if_neg (by rw [Option.isNone_iff_eq_none]; exact Option.isSome_iff_ne_none.mp hpresent),
    Option.bind_eq_some_iff] at hrun
  obtain ⟨lo, hlo, hrun⟩ := hrun
  obtain ⟨hi, hhi, hrun⟩ := Option.bind_eq_some_iff.mp hrun
  obtain ⟨hlole, hbefore, hbelow⟩ := runLo_spec h fuel hlo
  obtain ⟨hlehi, -, hafter, habove⟩ := runHi_spec h hidx fuel hin hhi
  have hall : ∀ j, lo ≤ j → j ≤ hi → j ∈ S := by
    intro j hj hjhi
    by_cases hlt : j < around
    · exact hbefore j hj hlt
    · exact hafter j (UInt32.not_lt.mp hlt) hjhi
  have hcopied := copyRun_spec h hidx fuel hrun hall (by
    rw [List.length_nil, Nat.zero_add]
    exact (Finset.sum_le_sum_of_subset (Finset.filter_subset _ _)).trans harena)
  refine ⟨lo, hi, ⟨hlole, hlehi, hall, hbelow, habove⟩, ?_⟩
  rw [hout, hcopied, List.nil_append]

end Run

/-- A run ends where another does: there is only one. -/
theorem MaximalRun.unique {S : Finset UInt32} (hidx : ∀ i ∈ S, i.toNat < 2 ^ 32 - 1)
    {lo lo' around hi hi' : UInt32} (h : MaximalRun S lo around hi)
    (h' : MaximalRun S lo' around hi') : lo = lo' ∧ hi = hi' := by
  -- a run that begins later would leave out a present index, and so for the end
  have hlo : ∀ {a b c d : UInt32}, MaximalRun S a around c → MaximalRun S b around d → ¬a < b := by
    intro a b c d ha hb hlt
    have hpos : 0 < b := UInt32.lt_of_le_of_lt UInt32.zero_le hlt
    have hpred := toNat_pred hpos
    have hab := UInt32.lt_iff_toNat_lt.mp hlt
    have hbar := UInt32.le_iff_toNat_le.mp hb.lo_le
    have harc := UInt32.le_iff_toNat_le.mp ha.le_hi
    rcases hb.below with h0 | hout
    · exact absurd (h0 ▸ hpos) (UInt32.lt_irrefl 0)
    · exact hout (ha.present (b - 1) (UInt32.le_iff_toNat_le.mpr (by omega))
        (UInt32.le_iff_toNat_le.mpr (by omega)))
  have hhi : ∀ {a b c d : UInt32}, MaximalRun S a around c → MaximalRun S b around d → ¬c < d := by
    intro a b c d ha hb hlt
    have hac := UInt32.le_iff_toNat_le.mp ha.le_hi
    have hbar := UInt32.le_iff_toNat_le.mp hb.lo_le
    have hcd := UInt32.lt_iff_toNat_lt.mp hlt
    have hcS : c ∈ S := hb.present c (UInt32.le_iff_toNat_le.mpr (by omega))
      (UInt32.le_iff_toNat_le.mpr (by omega))
    have hsucc := toNat_succ (hidx c hcS)
    exact ha.above (hb.present (c + 1) (UInt32.le_iff_toNat_le.mpr (by omega))
      (UInt32.le_iff_toNat_le.mpr (by omega)))
  exact ⟨UInt32.le_antisymm (UInt32.not_lt.mp (hlo h' h)) (UInt32.not_lt.mp (hlo h h')),
    UInt32.le_antisymm (UInt32.not_lt.mp (hhi h' h)) (UInt32.not_lt.mp (hhi h h'))⟩

/-- **The order of arrival does not matter.**  Around a present index the answer is
    the payloads of the maximal run, in index order, whatever order and however
    often the shreds came; around an absent index it is nothing. -/
theorem frame_concat_order_independent (S : Finset UInt32) (pay : UInt32 → List UInt8)
    (hidx : ∀ i ∈ S, i.toNat < 2 ^ 32 - 1) (hpay : ∀ i ∈ S, pay i ≠ [])
    (hdn : S.card ≤ fShreds) (harena : ∑ i ∈ S, (pay i).length ≤ fArena) (around : UInt32) :
    (around ∈ S → ∃ lo hi, MaximalRun S lo around hi ∧
      ∀ (slot : UInt64) (arrivals : List (UInt32 × UInt64)), (arrivals.map Prod.fst).toFinset = S →
        ∀ fuel > S.card,
          frameConcat fuel (stored slot pay arrivals) around = some (runBytes pay lo hi)) ∧
    (around ∉ S → ∀ (slot : UInt64) (arrivals : List (UInt32 × UInt64)),
      (arrivals.map Prod.fst).toFinset = S →
        ∀ fuel, frameConcat fuel (stored slot pay arrivals) around = some []) := by
  have hholds : ∀ (slot : UInt64) (arrivals : List (UInt32 × UInt64)),
      (arrivals.map Prod.fst).toFinset = S → Holds (stored slot pay arrivals) S pay := by
    intro slot arrivals hset
    have h := holds_stored hpay hdn harena slot arrivals (hset ▸ Finset.Subset.refl _)
    rwa [hset] at h
  constructor
  · intro hin
    have hlisted : ((S.toList.map fun i => (i, (0 : UInt64))).map Prod.fst).toFinset = S := by
      rw [List.map_map]
      show (S.toList.map id).toFinset = S
      rw [List.map_id, Finset.toList_toFinset]
    obtain ⟨lo, hi, hrun, -⟩ := frameConcat_eq (hholds 0 _ hlisted) hidx hdn harena hin
      (Nat.lt_succ_self _)
    refine ⟨lo, hi, hrun, fun slot arrivals hset fuel hfuel => ?_⟩
    obtain ⟨lo', hi', hrun', hbytes⟩ := frameConcat_eq (hholds slot arrivals hset) hidx hdn harena hin
      hfuel
    obtain ⟨rfl, rfl⟩ := hrun.unique hidx hrun'
    exact hbytes
  · intro hout slot arrivals hset fuel
    have habsent := mt ((hholds slot arrivals hset).present around).mp hout
    rw [frameConcat, if_pos (Option.isNone_iff_eq_none.mpr (Option.not_isSome_iff_eq_none.mp habsent))]

/-- Indices 3, 4 and 9, the last first and one of them twice. -/
theorem frame_concat_order_independent_demo :
    let pay : UInt32 → List UInt8 := fun i => [UInt8.ofNat i.toNat, 0xff]
    (∃ lo hi, MaximalRun {3, 4, 9} lo 4 hi ∧
      frameConcat 4 (stored 7 pay [(9, 1), (4, 2), (3, 3), (4, 4)]) 4 = some (runBytes pay lo hi)) ∧
      frameConcat 4 (stored 7 pay [(9, 1), (4, 2), (3, 3), (4, 4)]) 4 = some [3, 0xff, 4, 0xff] ∧
      frameConcat 4 (stored 7 pay [(9, 1), (4, 2), (3, 3), (4, 4)]) 5 = some [] := by
  intro pay
  have hidx : ∀ i ∈ ({3, 4, 9} : Finset UInt32), i.toNat < 2 ^ 32 - 1 := by
    intro i hi
    simp only [Finset.mem_insert, Finset.mem_singleton] at hi
    rcases hi with rfl | rfl | rfl <;> decide
  have hpay : ∀ i ∈ ({3, 4, 9} : Finset UInt32), pay i ≠ [] := fun _ _ => List.cons_ne_nil _ _
  have hall := frame_concat_order_independent {3, 4, 9} pay hidx hpay (by decide) (by decide)
  obtain ⟨lo, hi, hrun, hbytes⟩ := (hall 4).1 (by decide)
  refine ⟨⟨lo, hi, hrun, hbytes 7 _ (by decide) 4 (by decide)⟩, by decide, ?_⟩
  exact (hall 5).2 (by decide) 7 _ (by decide) 4

end ShredArb.Orbit
