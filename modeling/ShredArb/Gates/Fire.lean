/-
  ShredArb.Gates.Fire — the gate finds a row that `fire` does not look for.

  `plane_row` tries the pool as the journal spells it and then in base58;
  `fire` tries the journal's spelling only.

  Main results:
    * `sizeGate_some` — what a size means,
    * `fire_finds_gate_row_iff`,
    * `fire_misses_base58` — on a base58 plane the shot never happens.
-/
import ShredArb.Gates.Plane

namespace ShredArb.Gates

open ShredArb.Dict

section Gate

variable {τ : Type} {plane : Plane τ} {rec : OppRec} {readyExists : Bool} {cool : Cool}
  {size : Int × Int}

/-- What a size means: a ready row with both templates, a direction, and a
quote at the cap. -/
theorem sizeGate_some (h : sizeGate rec plane readyExists cool = some size) :
    (∃ row, planeRow plane rec.pool = some row ∧ row.planeRaceReady = true ∧
      row.tmpl0.isEmpty = false ∧ row.tmpl1.isEmpty = false) ∧
    (∃ d, rec.direction = some d ∧ (d = 0 ∨ d = 1)) ∧ rec.capOk = true ∧ rec.raceReady = 1 ∧
      rec.pool.isEmpty = false := by
  unfold sizeGate at h
  split at h
  · exact absurd h (by simp)
  · rename_i hframed
    have hframed' : framedReady rec plane readyExists = true := by simpa using hframed
    unfold framedReady at hframed'
    split at hframed'
    · exact absurd hframed' (by simp)
    · rename_i row hrow
      simp only [Bool.and_eq_true, beq_iff_eq, Bool.not_eq_true'] at hframed'
      obtain ⟨⟨⟨⟨⟨-, hrace, hflag⟩, -⟩, hpool⟩, ht0⟩, ht1⟩ := hframed'
      split at h
      · exact absurd h (by simp)
      · rename_i d hd
        split at h
        · exact absurd h (by simp)
        · rename_i hdir
          split at h
          · exact absurd h (by simp)
          · split at h
            · exact absurd h (by simp)
            · rename_i hcap
              have hdir' : d = 0 ∨ d = 1 := by
                by_contra hc
                exact hdir (not_or.mp hc)
              exact ⟨⟨row, hrow, hflag, ht0, ht1⟩, ⟨d, hd, hdir'⟩, by simpa using hcap, hrace, hpool⟩

theorem fire_row {shot : Shot τ} (h : fire plane rec = .ok shot) :
    get plane rec.pool = some shot.row := by
  unfold fire at h
  cases hget : get plane rec.pool with
  | none => rw [hget] at h; exact absurd h (by simp)
  | some row =>
    rw [hget] at h
    cases hd : rec.direction with
    | none => rw [hd] at h; exact absurd h (by simp)
    | some d =>
      rw [hd] at h
      simp only at h
      generalize (if d = 1 then row.tmpl1 else row.tmpl0) = tmpl at h
      split at h
      · exact absurd h (by simp)
      · split at h
        · exact absurd h (by simp)
        · rw [← Except.ok.inj h]

/-- A row under the journal's spelling is shot. -/
theorem fire_of_row (h : sizeGate rec plane readyExists cool = some size) {row : PlaneRow τ}
    (hrow : get plane rec.pool = some row) :
    planeRow plane rec.pool = some row ∧
      ∃ d, rec.direction = some d ∧ fire plane rec =
        .ok ⟨row, d, if d = 1 then row.tmpl1 else row.tmpl0⟩ := by
  obtain ⟨⟨row', hrow', -, ht0, ht1⟩, ⟨d, hd, hdir⟩, -, -, hpool⟩ := sizeGate_some h
  have hplane : planeRow plane rec.pool = some row := by
    rw [planeRow, if_neg (by rw [hpool]; exact Bool.false_ne_true), hrow]
  obtain rfl := Option.some.inj (hplane.symm.trans hrow')
  have hok : ¬ (d ≠ 0 ∧ d ≠ 1) := by
    rintro ⟨h0, h1⟩
    rcases hdir with h | h
    · exact h0 h
    · exact h1 h
  have htmpl : (if d = 1 then row.tmpl1 else row.tmpl0).isEmpty = false := by
    split
    · exact ht1
    · exact ht0
  refine ⟨hplane, d, hd, ?_⟩
  rw [fire, hrow, hd]
  simp only
  rw [if_neg hok, htmpl, if_neg Bool.false_ne_true]

/-- **Past the gate, `fire` finds the row the gate found if and only if the
plane spells the pool as the journal does.** -/
theorem fire_finds_gate_row_iff (h : sizeGate rec plane readyExists cool = some size) :
    (∃ shot, fire plane rec = .ok shot ∧ planeRow plane rec.pool = some shot.row) ↔
      rec.pool ∈ plane.map Prod.fst := by
  constructor
  · rintro ⟨shot, hshot, -⟩
    rw [← get_isSome_iff, fire_row hshot]
    rfl
  · intro hmem
    obtain ⟨row, hrow⟩ := Option.isSome_iff_exists.mp ((get_isSome_iff plane rec.pool).mpr hmem)
    obtain ⟨hplane, d, -, hfire⟩ := fire_of_row h hrow
    exact ⟨_, hfire, hplane⟩

end Gate

/-- On a plane that spells no key with the 64 digits of the journal, `fire`
always misses. -/
theorem fire_misses_base58 {τ : Type} {plane : Plane τ} {rec : OppRec}
    (hkeys : ∀ k ∈ plane.map Prod.fst, k.length ≠ 64) (hpool : rec.pool.length = 64) :
    fire plane rec = .error .altPlaneMiss := by
  have hnone : get plane rec.pool = none := by
    rw [← Option.not_isSome_iff_eq_none]
    intro hsome
    exact hkeys _ ((get_isSome_iff plane rec.pool).mp hsome) hpool
  rw [fire, hnone]

/-- The pool 0…01 in hex. -/
def hexPool : Text := List.replicate 63 '0' ++ ['1']

/-- The same pool in base58. -/
def b58Pool : Text := List.replicate 31 '1' ++ ['2']

def demoRow : PlaneRow UInt8 := ⟨b58Pool, ['P'], [1], [2], true, false⟩

/-- A record that clears the gate. -/
def demoRec : OppRec := ⟨hexPool, framed, 1, some 0, true, 1000000, [], none, none⟩

theorem fire_finds_gate_row_demo :
    ∃ shot, fire [(hexPool, demoRow)] demoRec = .ok shot ∧
      planeRow [(hexPool, demoRow)] demoRec.pool = some shot.row := by
  have hgate : sizeGate demoRec [(hexPool, demoRow)] true [] = some (maxIn, 1000000) := by
    decide +kernel
  exact (fire_finds_gate_row_iff hgate).mpr (by decide)

/-- A plane in base58: the gate passes and `fire` misses. -/
theorem fire_misses_gate_row :
    sizeGate demoRec [(b58Pool, demoRow)] true [] = some (maxIn, 1000000) ∧
      planeRow [(b58Pool, demoRow)] demoRec.pool = some demoRow ∧
      fire [(b58Pool, demoRow)] demoRec = .error .altPlaneMiss := by
  refine ⟨by decide +kernel, by decide +kernel, by decide +kernel⟩

end ShredArb.Gates
