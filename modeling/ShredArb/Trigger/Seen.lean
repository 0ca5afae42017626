/-
  ShredArb.Trigger.Seen — the table of signatures that were decided on
  (`hot_seen_init`, `hot_seen_first` of `arb-core/src/swapix.c`).

  The table never grows and never forgets: a call looks its signature up by
  linear probing and records it where the search met a free slot.  The loop has
  no counter.  It stops on a free slot, on the signature, or back at its start.

  Conventions:
    • a slot that is not used holds no signature, and `cap` is the number of
      slots,
    • the loop takes fuel and answers `none` without it, so an answer says that
      it ENDS,
    • allocation succeeds, and the pointers of the source are never null here.

  Main results:
    * `hotSeenLoop_eq` — the loop is a search,
    * `hotSeenFirst_spec` — one call against the recorded signatures,
    * `hot_seen_dedups` — runs.
-/
import ShredArb.Orbit.Kernel

namespace ShredArb.Seen

open ShredArb.Probe
open ShredArb.Orbit (Sig)

/-! ## §1. The table. -/

/-- `SWAPIX_SEEN_CAP`. -/
def swapixSeenCap : Nat := 2 ^ 18

/-- `sig_hash`. -/
def sigHash (sig : Sig) : Nat :=
  let x := sig.toNat % 2 ^ 64
  (x ^^^ (x >>> 32)) % 2 ^ 32

/-- `hot_seen_t`. -/
structure HotSeen where
  slots : List (Option Sig)
  n : UInt32

/-- `hot_seen_init`. -/
def hotSeenInit : HotSeen := ⟨List.replicate swapixSeenCap none, 0⟩

/-- What `hot_seen_first` returns: 1, 0 and −1. -/
inductive Answer where
  | first
  | already
  | full
  deriving DecidableEq, Repr

/-- The loop of `hot_seen_first`, from slot `i`. -/
def hotSeenLoop (s : HotSeen) (sig : Sig) (mask h : Nat) : (fuel i : Nat) → Option (Answer × HotSeen)
  | 0, _ => none
  | fuel + 1, i =>
    match (s.slots[i]?).join with
    | none => some (.first, { slots := s.slots.set i (some sig), n := s.n + 1 })
    | some other =>
      if other = sig then some (.already, s)
      else
        let i := (i + 1) &&& mask
        if i = h then some (.full, s) else hotSeenLoop s sig mask h fuel i

/-- `hot_seen_first`. -/
def hotSeenFirst (s : HotSeen) (sig : Sig) : Option (Answer × HotSeen) :=
  let mask := s.slots.length - 1
  let h := sigHash sig &&& mask
  hotSeenLoop s sig mask h s.slots.length h

/-- The answers of a run of calls. -/
def hotSeenAnswers : HotSeen → List Sig → Option (List Answer)
  | _, [] => some []
  | s, sig :: sigs =>
    (hotSeenFirst s sig).bind fun r => (hotSeenAnswers r.2 sigs).map fun as => r.1 :: as

/-! ## §2. What it is for. -/

/-- Record a signature while there is room. -/
def record (cap : Nat) (R : List Sig) (sig : Sig) : List Sig :=
  if sig ∈ R ∨ cap ≤ R.length then R else R ++ [sig]

/-- The signatures that are recorded after these calls: the first `cap`
different ones. -/
def recorded (cap : Nat) (sigs : List Sig) : List Sig := sigs.foldl (record cap) []

/-- The answer to a call when `R` is recorded. -/
def answerOf (cap : Nat) (R : List Sig) (sig : Sig) : Answer :=
  if sig ∈ R then .already else if R.length < cap then .first else .full

theorem recorded_append (cap : Nat) (sigs : List Sig) (sig : Sig) :
    recorded cap (sigs ++ [sig]) = record cap (recorded cap sigs) sig := by
  rw [recorded, List.foldl_append]
  rfl

theorem record_length_le {cap : Nat} {R : List Sig} (h : R.length ≤ cap) (sig : Sig) :
    (record cap R sig).length ≤ cap := by
  unfold record
  split
  · exact h
  · rename_i hnew
    rw [List.length_append, List.length_singleton]
    omega

theorem recorded_length_le (cap : Nat) (sigs : List Sig) : (recorded cap sigs).length ≤ cap := by
  induction sigs using List.reverseRecOn with
  | nil => exact Nat.zero_le cap
  | append_singleton sigs sig ih =>
    rw [recorded_append]
    exact record_length_le ih sig

/-- While there is room, a signature is recorded exactly when it has been seen. -/
theorem mem_recorded_iff (cap : Nat) (sig : Sig) (sigs : List Sig) :
    (recorded cap sigs).length < cap → (sig ∈ recorded cap sigs ↔ sig ∈ sigs) := by
  induction sigs using List.reverseRecOn with
  | nil => exact fun _ => Iff.rfl
  | append_singleton sigs x ih =>
    intro hroom
    rw [recorded_append] at hroom ⊢
    have hprev : (recorded cap sigs).length < cap := by
      refine Nat.lt_of_le_of_lt ?_ hroom
      unfold record
      split
      · exact Nat.le_refl _
      · rw [List.length_append]
        exact Nat.le_add_right _ _
    rw [List.mem_append, List.mem_singleton, ← ih hprev]
    unfold record
    split
    · rename_i hold
      have hx := hold.resolve_right (Nat.not_le.mpr hprev)
      constructor
      · exact Or.inl
      · rintro (h | rfl)
        · exact h
        · exact hx
    · rw [List.mem_append, List.mem_singleton]

/-! ## §3. The loop. -/

/-- **The loop is a search of the table**, by probing a whole turn from its
start. -/
theorem hotSeenLoop_eq {s : HotSeen} {sig : Sig} {k h : Nat} (hlen : s.slots.length = 2 ^ k) :
    ∀ fuel i, 0 < fuel → fuel ≤ 2 ^ k → h < 2 ^ k → i = (h + (2 ^ k - fuel)) % 2 ^ k →
      hotSeenLoop s sig (2 ^ k - 1) h fuel i
        = some (match probe id s.slots sig fuel i with
          | none => (.full, s)
          | some j =>
            if keyAt id s.slots j = none then
              (.first, { slots := s.slots.set j (some sig), n := s.n + 1 })
            else (.already, s)) := by
  intro fuel
  induction fuel with
  | zero => exact fun _ h => absurd h (Nat.lt_irrefl 0)
  | succ fuel ih =>
    intro i _ hle hh hi
    rw [hotSeenLoop]
    have hkey : keyAt id s.slots i = (s.slots[i]?).join := rfl
    cases hat : (s.slots[i]?).join with
    | none =>
      rw [hat] at hkey
      rw [probe_succ_of_free hkey]
      simp only [hkey, if_true]
    | some other =>
      rw [hat] at hkey
      by_cases hsame : other = sig
      · rw [probe_succ_of_key (hsame ▸ hkey)]
        simp only [hsame, hkey, if_true, reduceCtorEq, if_false]
      · rw [probe_succ_of_other hkey hsame, hlen]
        simp only [if_neg hsame, Nat.and_two_pow_sub_one_eq_mod]
        have hpos : 0 < 2 ^ k := Nat.two_pow_pos k
        have hnext : (i + 1) % 2 ^ k = (h + (2 ^ k - fuel)) % 2 ^ k := by
          rw [hi, Nat.mod_add_mod]
          congr 1
          omega
        cases fuel with
        | zero =>
          have hback : (i + 1) % 2 ^ k = h := by
            rw [hnext, Nat.sub_zero, Nat.add_mod_right, Nat.mod_eq_of_lt hh]
          rw [if_pos hback, probe]
        | succ fuel =>
          have hout : (i + 1) % 2 ^ k ≠ h := by
            rw [hnext]
            intro hback
            rcases Nat.lt_or_ge (h + (2 ^ k - (fuel + 1))) (2 ^ k) with hlt | hge
            · rw [Nat.mod_eq_of_lt hlt] at hback
              omega
            · rw [Nat.mod_eq_sub_mod hge, Nat.mod_eq_of_lt (by omega)] at hback
              omega
          rw [if_neg hout]
          exact ih _ (Nat.succ_pos fuel) (by omega) hh hnext

/-! ## §4. One call. -/

/-- The table holds exactly the recorded signatures, each where its search finds
it. -/
structure Rep (cap : Nat) (s : HotSeen) (R : List Sig) : Prop where
  table : ∃ T : Table (id : Option Sig → Option Sig) sigHash, T.slots = s.slots ∧ T.used = R.length
  cap_eq : s.slots.length = cap
  mem : ∀ sig, sig ∈ R ↔ some sig ∈ s.slots
  count : s.n.toNat = R.length

theorem rep_init {cap : Nat} : Rep cap ⟨List.replicate cap none, 0⟩ [] where
  table := by
    refine ⟨Table.empty cap none rfl, rfl, ?_⟩
    show (List.replicate cap none).countP _ = 0
    rw [List.countP_eq_zero]
    intro x hx
    rw [List.eq_of_mem_replicate hx]
    simp
  cap_eq := List.length_replicate
  mem sig := by
    constructor
    · exact fun h => absurd h List.not_mem_nil
    · intro h
      exact absurd (List.eq_of_mem_replicate h) (by simp)
  count := rfl

/-- **One call**: it ends, with the answer of the recorded signatures, and
records its own where there is room. -/
theorem hotSeenFirst_spec {k : Nat} (hk : k ≤ 31) {s : HotSeen} {R : List Sig} (h : Rep (2 ^ k) s R)
    (sig : Sig) : ∃ s', hotSeenFirst s sig = some (answerOf (2 ^ k) R sig, s') ∧
      Rep (2 ^ k) s' (record (2 ^ k) R sig) := by
  obtain ⟨T, hT, hused⟩ := h.table
  have hpos : 0 < 2 ^ k := Nat.two_pow_pos k
  have hplace : hotSeenFirst s sig = some (match place id sigHash T.slots sig with
      | none => (.full, s)
      | some j =>
        if keyAt id T.slots j = none then
          (.first, { slots := s.slots.set j (some sig), n := s.n + 1 })
        else (.already, s)) := by
    unfold hotSeenFirst place
    simp only [hT, h.cap_eq, Nat.and_two_pow_sub_one_eq_mod]
    refine hotSeenLoop_eq h.cap_eq _ _ hpos (Nat.le_refl _) (Nat.mod_lt _ hpos) ?_
    rw [Nat.sub_self, Nat.add_zero, Nat.mod_mod]
  rw [hplace]
  -- a signature of the table is found by its search
  have hfound : sig ∈ R → ∃ j, place id sigHash T.slots sig = some j ∧
      keyAt id T.slots j = some sig := by
    intro hsig
    obtain ⟨j, hj⟩ := List.mem_iff_getElem?.mp ((h.mem sig).mp hsig)
    have hat : keyAt id T.slots j = some sig := by
      rw [keyAt, hT, hj]
      rfl
    exact ⟨j, T.found j sig hat, hat⟩
  cases hp : place id sigHash T.slots sig with
  | none =>
    have hnot : sig ∉ R := by
      intro hsig
      obtain ⟨j, hj, -⟩ := hfound hsig
      exact absurd (hp.symm.trans hj) (by simp)
    have hfull : ¬R.length < 2 ^ k := by
      intro hroom
      rw [← hused, ← h.cap_eq, ← hT] at hroom
      obtain ⟨T', hstore⟩ := T.exists_store (k := sig) (s := some sig) rfl hroom
      obtain ⟨j, hj, -⟩ := Table.store_eq_some hstore
      exact absurd (hp.symm.trans hj) (by simp)
    refine ⟨s, ?_, ?_⟩
    · rw [answerOf, if_neg hnot, if_neg hfull]
    · rw [record, if_pos (Or.inr (Nat.not_lt.mp hfull))]
      exact h
  | some j =>
    simp only
    by_cases hfree : keyAt id T.slots j = none
    · have hnot : sig ∉ R := by
        intro hsig
        obtain ⟨j', hj', hat⟩ := hfound hsig
        obtain rfl : j = j' := Option.some.inj (hp.symm.trans hj')
        exact absurd (hfree.symm.trans hat) (by simp)
      have hj := place_lt hp
      obtain ⟨T', hstore⟩ : ∃ T', T.store sig (some sig) rfl = some T' := by
        unfold Table.store
        split
        · rename_i hnone
          exact absurd (hnone.symm.trans hp) (by simp)
        · exact ⟨_, rfl⟩
      obtain ⟨j', hj', hslots⟩ := Table.store_eq_some hstore
      obtain rfl : j = j' := Option.some.inj (hp.symm.trans hj')
      have hcount := Table.used_store_of_free hstore hp hfree
      have hroom : R.length < 2 ^ k := by
        rw [← hused, ← h.cap_eq, ← hT]
        have hle : T'.used ≤ T'.slots.length := List.countP_le_length
        rw [hcount, Table.length_store hstore] at hle
        exact hle
      refine ⟨_, by rw [answerOf, if_neg hnot, if_pos hroom, if_pos hfree], ?_⟩
      rw [record, if_neg (not_or.mpr ⟨hnot, Nat.not_le.mpr hroom⟩)]
      refine ⟨⟨T', by rw [hslots, hT], ?_⟩, ?_, fun x => ?_, ?_⟩
      · rw [hcount, hused, List.length_append, List.length_singleton]
      · rw [List.length_set, h.cap_eq]
      · rw [List.mem_append, List.mem_singleton, h.mem x]
        constructor
        · rintro (hx | rfl)
          · obtain ⟨m, hm⟩ := List.mem_iff_getElem?.mp hx
            have hjm : j ≠ m := by
              rintro rfl
              rw [keyAt, hT, hm] at hfree
              exact absurd hfree (by simp)
            exact List.mem_of_getElem? ((List.getElem?_set_ne hjm).trans hm)
          · exact List.mem_set (hT ▸ hj) _
        · intro hx
          rcases List.mem_or_eq_of_mem_set hx with hx | hx
          · exact Or.inl hx
          · exact Or.inr (Option.some.inj hx)
      · show (s.n + 1).toNat = _
        have hlt : R.length + 1 < 2 ^ 32 :=
          lt_of_le_of_lt (Nat.succ_le_of_lt hroom) (Nat.pow_lt_pow_right (by decide) (by omega))
        rw [UInt32.toNat_add, h.count, List.length_append, List.length_singleton]
        exact Nat.mod_eq_of_lt hlt
    · have hat := (keyAt_of_probe hp).resolve_left hfree
      have hsig : sig ∈ R := by
        refine (h.mem sig).mpr ?_
        obtain ⟨x, hx, hkey⟩ := Option.bind_eq_some_iff.mp hat
        obtain rfl : x = some sig := hkey
        exact hT ▸ List.mem_of_getElem? hx
      exact ⟨s, by rw [answerOf, if_pos hsig, if_neg hfree], by rw [record, if_pos (Or.inl hsig)]; exact h⟩

/-! ## §5. Runs. -/

theorem hotSeenAnswers_spec {k : Nat} (hk : k ≤ 31) (sigs : List Sig) : ∀ {s : HotSeen}
    {before : List Sig}, Rep (2 ^ k) s (recorded (2 ^ k) before) →
    ∃ as, hotSeenAnswers s sigs = some as ∧ as.length = sigs.length ∧
      ∀ i, as[i]? = (sigs[i]?).map
        (answerOf (2 ^ k) (recorded (2 ^ k) (before ++ sigs.take i))) := by
  induction sigs with
  | nil => exact fun _ => ⟨[], rfl, rfl, fun _ => rfl⟩
  | cons sig sigs ih =>
    intro s before h
    obtain ⟨s', hcall, hrep⟩ := hotSeenFirst_spec hk h sig
    rw [← recorded_append] at hrep
    obtain ⟨as, has, hlen, hat⟩ := ih hrep
    refine ⟨answerOf (2 ^ k) (recorded (2 ^ k) before) sig :: as, ?_, congrArg Nat.succ hlen,
      fun i => ?_⟩
    · rw [hotSeenAnswers, hcall, Option.bind_some, has, Option.map_some]
    · cases i with
      | zero =>
        rw [List.take_zero, List.append_nil]
        rfl
      | succ i =>
        rw [List.getElem?_cons_succ, List.getElem?_cons_succ, hat i, List.take_succ_cons,
          List.append_assoc, List.singleton_append]

/-- **Signatures are de-duplicated**: in every run from an initialised table all
calls end; a call answers 1 exactly at the first occurrence of its signature while
there is room, 0 exactly when its signature is recorded, and −1 only when it is
not and the table is full. -/
theorem hot_seen_dedups (sigs : List Sig) :
    ∃ as, hotSeenAnswers hotSeenInit sigs = some as ∧ as.length = sigs.length ∧
      ∀ (i : Nat) (sig : Sig) (a : Answer), sigs[i]? = some sig → as[i]? = some a →
        (a = .first ↔ sig ∉ sigs.take i ∧
          (recorded swapixSeenCap (sigs.take i)).length < swapixSeenCap) ∧
        (a = .already ↔ sig ∈ recorded swapixSeenCap (sigs.take i)) ∧
        (a = .full → sig ∉ recorded swapixSeenCap (sigs.take i) ∧
          (recorded swapixSeenCap (sigs.take i)).length = swapixSeenCap) := by
  have hinit : Rep (2 ^ 18) hotSeenInit (recorded (2 ^ 18) []) := rep_init
  obtain ⟨as, has, hlen, hat⟩ := hotSeenAnswers_spec (by decide) sigs hinit
  refine ⟨as, has, hlen, fun i sig a hsig ha => ?_⟩
  have hanswer : a = answerOf swapixSeenCap (recorded swapixSeenCap (sigs.take i)) sig := by
    have h := hat i
    rw [hsig, ha, List.nil_append] at h
    exact Option.some.inj h
  have hle := recorded_length_le swapixSeenCap (sigs.take i)
  have hroom := mem_recorded_iff swapixSeenCap sig (sigs.take i)
  rw [hanswer]
  unfold answerOf
  by_cases hmem : sig ∈ recorded swapixSeenCap (sigs.take i)
  · rw [if_pos hmem]
    refine ⟨⟨by simp, fun h => absurd ((hroom h.2).mp hmem) h.1⟩, ⟨fun _ => hmem, fun _ => rfl⟩, by simp⟩
  · rw [if_neg hmem]
    by_cases hlt : (recorded swapixSeenCap (sigs.take i)).length < swapixSeenCap
    · rw [if_pos hlt]
      exact ⟨⟨fun _ => ⟨mt (hroom hlt).mpr hmem, hlt⟩, fun _ => rfl⟩,
        ⟨by simp, fun h => absurd h hmem⟩, by simp⟩
    · rw [if_neg hlt]
      exact ⟨⟨by simp, fun h => absurd h.2 hlt⟩, ⟨by simp, fun h => absurd h hmem⟩,
        fun _ => ⟨hmem, by omega⟩⟩

example : hotSeenAnswers ⟨List.replicate 2 none, 0⟩ [7, 7, 9, 11, 9]
    = some [.first, .already, .first, .full, .already] := by
  decide +kernel

end ShredArb.Seen
