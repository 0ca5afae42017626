/-
  ShredArb.Lib.Dict — dictionaries that remember the last write.

  A dictionary is a list of entries; a write replaces the entry of its key or
  adds one.  When rows are written one after another, each under several keys,
  a key ends up with the LAST row that names it.

  Main results:
    * `get_set`, `get_setAll`, `get_erase`, `get_drop`,
    * `get_index` — the last row stands,
    * `get_indexM` — the same when a row may fail.
-/
import Mathlib.Data.List.Induction

namespace ShredArb.Dict

/-! ## §1. Entries. -/

abbrev Entries (κ ν : Type) := List (κ × ν)

variable {κ ν ρ : Type} [DecidableEq κ]

def get : Entries κ ν → κ → Option ν
  | [], _ => none
  | (k', v) :: d, k => if k' = k then some v else get d k

def set : Entries κ ν → κ → ν → Entries κ ν
  | [], k, v => [(k, v)]
  | (k', v') :: d, k, v => if k' = k then (k, v) :: d else (k', v') :: set d k v

/-- A value under each of several keys. -/
def setAll (d : Entries κ ν) (ks : List κ) (f : κ → ν) : Entries κ ν :=
  ks.foldl (fun d k => set d k (f k)) d

theorem get_set (d : Entries κ ν) (k k' : κ) (v : ν) :
    get (set d k v) k' = if k = k' then some v else get d k' := by
  induction d with
  | nil => rfl
  | cons e d ih =>
    obtain ⟨k₀, v₀⟩ := e
    unfold set
    by_cases h : k₀ = k
    · rw [if_pos h, get, get, h]
      split <;> rfl
    · rw [if_neg h, get, get, ih]
      by_cases h' : k₀ = k'
      · rw [if_pos h', if_pos h', if_neg]
        intro hk
        exact h (h'.trans hk.symm)
      · rw [if_neg h', if_neg h']

theorem get_setAll (f : κ → ν) (ks : List κ) : ∀ (d : Entries κ ν) (k : κ),
    get (setAll d ks f) k = if k ∈ ks then some (f k) else get d k := by
  induction ks with
  | nil =>
    intro d k
    rw [if_neg List.not_mem_nil]
    rfl
  | cons k₀ ks ih =>
    intro d k
    show get (setAll (set d k₀ (f k₀)) ks f) k = _
    rw [ih, get_set]
    by_cases hk : k₀ = k
    · rw [if_pos hk, hk, ite_self, if_pos List.mem_cons_self]
    · by_cases hm : k ∈ ks
      · rw [if_pos hm, if_pos (List.mem_cons_of_mem _ hm)]
      · rw [if_neg hm, if_neg hk, if_neg]
        intro hc
        rcases List.mem_cons.mp hc with h | h
        · exact hk h.symm
        · exact hm h

/-- A key is present exactly when it has an entry. -/
theorem get_isSome_iff (d : Entries κ ν) (k : κ) : (get d k).isSome = true ↔ k ∈ d.map Prod.fst := by
  induction d with
  | nil => simp [get]
  | cons e d ih =>
    obtain ⟨k₀, v₀⟩ := e
    rw [get, List.map_cons, List.mem_cons]
    by_cases h : k₀ = k
    · rw [if_pos h]
      exact ⟨fun _ => Or.inl h.symm, fun _ => rfl⟩
    · rw [if_neg h, ih]
      constructor
      · exact Or.inr
      · rintro (h' | h')
        · exact absurd h'.symm h
        · exact h'

/-- Change the values in place. -/
def adjust {μ : Type} (f : κ → ν → μ) (d : Entries κ ν) : Entries κ μ :=
  d.map fun e => (e.1, f e.1 e.2)

theorem get_adjust {μ : Type} (f : κ → ν → μ) (d : Entries κ ν) (k : κ) :
    get (adjust f d) k = (get d k).map (f k) := by
  induction d with
  | nil => rfl
  | cons e d ih =>
    obtain ⟨k₀, v₀⟩ := e
    show (if k₀ = k then some (f k₀ v₀) else get (adjust f d) k) = _
    rw [get]
    by_cases h : k₀ = k
    · rw [if_pos h, if_pos h, Option.map_some, h]
    · rw [if_neg h, if_neg h, ih]

theorem adjust_set {μ : Type} (f : κ → ν → μ) (d : Entries κ ν) (k : κ) (v : ν) :
    set (adjust f d) k (f k v) = adjust f (set d k v) := by
  induction d with
  | nil => rfl
  | cons e d ih =>
    obtain ⟨k₀, v₀⟩ := e
    show set ((k₀, f k₀ v₀) :: adjust f d) k (f k v) = _
    unfold set
    by_cases h : k₀ = k
    · rw [if_pos h, if_pos h]
      rfl
    · rw [if_neg h, if_neg h, ih]
      rfl

/-- Remove a key. -/
def erase (d : Entries κ ν) (k : κ) : Entries κ ν := d.filter fun e => decide (e.1 ≠ k)

theorem get_erase (d : Entries κ ν) (k k' : κ) :
    get (erase d k) k' = if k = k' then none else get d k' := by
  induction d with
  | nil => simp [erase, get]
  | cons e d ih =>
    obtain ⟨k₀, v₀⟩ := e
    unfold erase at ih ⊢
    by_cases h : k₀ = k
    · rw [List.filter_cons_of_neg (by simpa using h), ih, get, h]
      split <;> rfl
    · rw [List.filter_cons_of_pos (by simpa using h), get, get, ih]
      by_cases h' : k₀ = k'
      · rw [if_pos h', if_pos h', if_neg]
        intro hk
        exact h (h'.trans hk.symm)
      · rw [if_neg h', if_neg h']

/-- Each key once. -/
def NodupKeys (d : Entries κ ν) : Prop := (d.map Prod.fst).Nodup

theorem keys_set (d : Entries κ ν) (k : κ) (v : ν) :
    (set d k v).map Prod.fst = if k ∈ d.map Prod.fst then d.map Prod.fst else d.map Prod.fst ++ [k] := by
  induction d with
  | nil => rfl
  | cons e d ih =>
    obtain ⟨k₀, v₀⟩ := e
    unfold set
    by_cases h : k₀ = k
    · rw [if_pos h, List.map_cons, List.map_cons, h, if_pos List.mem_cons_self]
    · rw [if_neg h, List.map_cons, ih, List.map_cons]
      by_cases hm : k ∈ d.map Prod.fst
      · rw [if_pos hm, if_pos (List.mem_cons_of_mem _ hm)]
      · have hne : k ∉ k₀ :: d.map Prod.fst := by
          intro hc
          rcases List.mem_cons.mp hc with h' | h'
          · exact h h'.symm
          · exact hm h'
        rw [if_neg hm, if_neg hne, List.cons_append]

theorem NodupKeys.set {d : Entries κ ν} (h : NodupKeys d) (k : κ) (v : ν) :
    NodupKeys (Dict.set d k v) := by
  unfold NodupKeys at *
  rw [keys_set]
  split
  · exact h
  · rename_i hk
    rw [List.nodup_append]
    refine ⟨h, by simp, ?_⟩
    intro a ha b hb hab
    rw [List.mem_singleton.mp hb] at hab
    exact hk (hab ▸ ha)

theorem NodupKeys.erase {d : Entries κ ν} (h : NodupKeys d) (k : κ) : NodupKeys (Dict.erase d k) :=
  List.Nodup.sublist (List.filter_sublist.map Prod.fst) h

omit [DecidableEq κ] in
theorem NodupKeys.drop {d : Entries κ ν} (h : NodupKeys d) (n : Nat) : NodupKeys (List.drop n d) :=
  List.Nodup.sublist ((List.drop_sublist n d).map Prod.fst) h

/-- What is left when the oldest entries go. -/
theorem get_drop {d : Entries κ ν} (h : NodupKeys d) (n : Nat) (k : κ) :
    get (d.drop n) k = none ∨ get (d.drop n) k = get d k := by
  induction d generalizing n with
  | nil =>
    rw [List.drop_nil]
    exact Or.inr rfl
  | cons e d ih =>
    obtain ⟨k₀, v₀⟩ := e
    cases n with
    | zero => exact Or.inr rfl
    | succ n =>
      have htail : NodupKeys d := (List.nodup_cons.mp h).2
      rw [List.drop_succ_cons]
      by_cases hk : k₀ = k
      · -- the only entry of the key is gone
        subst hk
        have hout : k₀ ∉ (d.drop n).map Prod.fst := fun hc =>
          (List.nodup_cons.mp h).1 (((List.drop_sublist n d).map Prod.fst).subset hc)
        have hnone := mt (get_isSome_iff (d.drop n) k₀).mp hout
        exact Or.inl (Option.not_isSome_iff_eq_none.mp hnone)
      · rw [get, if_neg hk]
        exact ih htail n

/-! ## §2. Rows. -/

/-- The rows that name a key. -/
def rowsOf (keys : ρ → List κ) (rows : List ρ) (k : κ) : List ρ :=
  rows.filter fun r => decide (k ∈ keys r)

theorem mem_rowsOf {keys : ρ → List κ} {rows : List ρ} {k : κ} {r : ρ} :
    r ∈ rowsOf keys rows k ↔ r ∈ rows ∧ k ∈ keys r := by
  rw [rowsOf, List.mem_filter, decide_eq_true_iff]

theorem rowsOf_append (keys : ρ → List κ) (rows : List ρ) (r : ρ) (k : κ) :
    rowsOf keys (rows ++ [r]) k =
      if k ∈ keys r then rowsOf keys rows k ++ [r] else rowsOf keys rows k := by
  rw [rowsOf, List.filter_append]
  by_cases h : k ∈ keys r
  · rw [if_pos h, List.filter_cons_of_pos (by simpa using h), List.filter_nil]
    rfl
  · rw [if_neg h, List.filter_cons_of_neg (by simpa using h), List.filter_nil, List.append_nil]
    rfl

/-- Write the rows, each under its keys. -/
def index (keys : ρ → List κ) (val : ρ → κ → ν) (rows : List ρ) : Entries κ ν :=
  rows.foldl (fun d r => setAll d (keys r) (val r)) []

/-- **The last row that names a key stands.** -/
theorem get_index (keys : ρ → List κ) (val : ρ → κ → ν) (rows : List ρ) (k : κ) :
    get (index keys val rows) k = (rowsOf keys rows k).getLast?.map (val · k) := by
  induction rows using List.reverseRecOn with
  | nil => rfl
  | append_singleton rows r ih =>
    rw [index, List.foldl_append, List.foldl_cons, List.foldl_nil, get_setAll, rowsOf_append]
    by_cases h : k ∈ keys r
    · rw [if_pos h, if_pos h, List.getLast?_append]
      rfl
    · rw [if_neg h, if_neg h]
      exact ih

/-- Write the rows whose value can be made; fail at the first that cannot. -/
def indexM (keys : ρ → List κ) (val : ρ → Option ν) (rows : List ρ) : Option (Entries κ ν) :=
  rows.foldlM (fun d r => (val r).map fun v => setAll d (keys r) fun _ => v) []

theorem get_indexM {keys : ρ → List κ} {val : ρ → Option ν} {rows : List ρ} :
    ∀ {d : Entries κ ν}, indexM keys val rows = some d → (∀ r ∈ rows, (val r).isSome = true) ∧
      ∀ k, get d k = (rowsOf keys rows k).getLast?.bind val := by
  induction rows using List.reverseRecOn with
  | nil =>
    intro d h
    obtain rfl := Option.some.inj h
    exact ⟨fun r hr => absurd hr List.not_mem_nil, fun k => rfl⟩
  | append_singleton rows r ih =>
    intro d h
    rw [indexM, List.foldlM_append] at h
    obtain ⟨d₀, hd₀, h⟩ := Option.bind_eq_some_iff.mp h
    obtain ⟨hall, hget⟩ := ih hd₀
    have hlast : (val r).map (fun v => setAll d₀ (keys r) fun _ => v) = some d := by
      simpa using h
    obtain ⟨v, hv, rfl⟩ := Option.map_eq_some_iff.mp hlast
    refine ⟨?_, fun k => ?_⟩
    · intro r' hr'
      rcases List.mem_append.mp hr' with hr' | hr'
      · exact hall r' hr'
      · rw [List.mem_singleton.mp hr', hv]
        rfl
    · rw [get_setAll, rowsOf_append]
      by_cases hk : k ∈ keys r
      · rw [if_pos hk, if_pos hk, List.getLast?_append]
        exact hv.symm
      · rw [if_neg hk, if_neg hk]
        exact hget k

end ShredArb.Dict
