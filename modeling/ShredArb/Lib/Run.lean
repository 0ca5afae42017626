/-
  ShredArb.Lib.Run — finite runs of a partial step function, and simulation.

  A step takes a state and an action to the next state and what it reports, or
  fails; a run records every state it passes and every report, and fails as
  soon as a step does.

  Main results:
    * `runTrace_sim` — a simulation of the steps is a simulation of the runs,
      position by position,
    * `foldlM_collects` — a loop whose turns each add what `g` says adds
      `flatMap g`,
    * `foldlM_preserves_of`, `foldlM_preserves` — what every step keeps, a run
      keeps.
-/
import Mathlib.Data.List.Forall2

namespace ShredArb.Run

variable {σ τ α ρ ρ' : Type*}

/-- The states a run reaches and what its steps report. -/
def runTrace (step : σ → α → Option (σ × ρ)) : σ → List α → Option (List (σ × ρ))
  | _, [] => some []
  | s, a :: as => (step s a).bind fun p => (runTrace step p.1 as).map (p :: ·)

/-- `G` holds at every state the run reaches, with the action taken there. -/
def AlongRun (step : σ → α → Option (σ × ρ)) (G : σ → α → Prop) : σ → List α → Prop
  | _, [] => True
  | s, a :: as => G s a ∧ ∀ p, step s a = some p → AlongRun step G p.1 as

theorem alongRun_of_forall {step : σ → α → Option (σ × ρ)} {G : σ → α → Prop}
    (h : ∀ s a, G s a) : ∀ (as : List α) (s : σ), AlongRun step G s as := by
  intro as
  induction as with
  | nil => intro s; exact trivial
  | cons a as ih => intro s; exact ⟨h s a, fun p _ => ih p.1⟩

theorem runTrace_cons {step : σ → α → Option (σ × ρ)} {s : σ} {a : α} {as : List α}
    {tr : List (σ × ρ)} :
    runTrace step s (a :: as) = some tr ↔
      ∃ p rest, step s a = some p ∧ runTrace step p.1 as = some rest ∧ tr = p :: rest := by
  rw [runTrace, Option.bind_eq_some_iff]
  constructor
  · rintro ⟨p, hp, htr⟩
    obtain ⟨rest, hrest, rfl⟩ := Option.map_eq_some_iff.mp htr
    exact ⟨p, rest, hp, hrest, rfl⟩
  · rintro ⟨p, rest, hp, hrest, rfl⟩
    exact ⟨p, hp, Option.map_eq_some_iff.mpr ⟨rest, hrest, rfl⟩⟩

/-- **Steps that simulate give runs that do**: `R` relates the states, `G`
guards the steps of the first system, `Q` relates what the runs record. -/
theorem runTrace_sim {f : σ → α → Option (σ × ρ)} {g : τ → α → Option (τ × ρ')}
    {G : σ → α → Prop} {R : σ → τ → Prop} {Q : σ × ρ → τ × ρ' → Prop}
    (hstep : ∀ s t a p, R s t → G s a → f s a = some p →
      ∃ q, g t a = some q ∧ R p.1 q.1 ∧ Q p q) :
    ∀ (as : List α) (s : σ) (t : τ) (tr : List (σ × ρ)), R s t → AlongRun f G s as →
      runTrace f s as = some tr →
      ∃ tr', runTrace g t as = some tr' ∧ List.Forall₂ Q tr tr' := by
  intro as
  induction as with
  | nil =>
    intro s t tr _ _ h
    rw [runTrace, Option.some.injEq] at h
    subst h
    exact ⟨[], rfl, List.Forall₂.nil⟩
  | cons a as ih =>
    intro s t tr hR hG h
    obtain ⟨p, rest, hp, hrest, rfl⟩ := runTrace_cons.mp h
    obtain ⟨q, hq, hR', hQ⟩ := hstep s t a p hR hG.1 hp
    obtain ⟨rest', hrest', hall⟩ := ih p.1 q.1 rest hR' (hG.2 p hp) hrest
    exact ⟨q :: rest', runTrace_cons.mpr ⟨q, rest', hq, hrest', rfl⟩,
      List.Forall₂.cons hQ hall⟩

/-- **A loop collects what its turns add.**  `Adds s t l` says that going from
`s` to `t` added `l`; `I` is the invariant of the loop. -/
theorem foldlM_collects {β : Type*} {I : σ → Prop} {Adds : σ → σ → List β → Prop}
    {f : σ → α → Option σ} {g : α → List β} (hrefl : ∀ s, Adds s s [])
    (htrans : ∀ {s t r l m}, Adds s t l → Adds t r m → Adds s r (l ++ m))
    (hstep : ∀ {s a t}, I s → f s a = some t → I t ∧ Adds s t (g a)) :
    ∀ (as : List α) {s t : σ}, I s → as.foldlM f s = some t →
      I t ∧ Adds s t (as.flatMap g) := by
  intro as
  induction as with
  | nil =>
    intro s t hI h
    rw [List.foldlM_nil] at h
    cases h
    exact ⟨hI, hrefl s⟩
  | cons a as ih =>
    intro s t hI h
    rw [List.foldlM_cons] at h
    obtain ⟨u, hu, h⟩ := Option.bind_eq_some_iff.mp h
    obtain ⟨hIu, hau⟩ := hstep hI hu
    obtain ⟨hIt, hut⟩ := ih hIu h
    exact ⟨hIt, htrans hau hut⟩

/-- `G` holds at every state a loop passes, with what it takes there. -/
def StepsMeet (f : σ → α → Option σ) (G : σ → α → Prop) : σ → List α → Prop
  | _, [] => True
  | s, a :: as => G s a ∧ ∀ t, f s a = some t → StepsMeet f G t as

/-- **What every step that meets `G` keeps**, a run of such steps keeps. -/
theorem foldlM_preserves_of {f : σ → α → Option σ} {G : σ → α → Prop} {I : σ → Prop}
    (hstep : ∀ s a t, I s → G s a → f s a = some t → I t) :
    ∀ (as : List α) {s t : σ}, StepsMeet f G s as → I s → as.foldlM f s = some t → I t := by
  intro as
  induction as with
  | nil =>
    intro s t _ hI h
    rw [List.foldlM_nil] at h
    cases h
    exact hI
  | cons a as ih =>
    intro s t hG hI h
    rw [List.foldlM_cons] at h
    obtain ⟨u, hu, h⟩ := Option.bind_eq_some_iff.mp h
    exact ih (hG.2 u hu) (hstep s a u hI hG.1 hu) h

theorem stepsMeet_of_forall {f : σ → α → Option σ} {G : σ → α → Prop} (h : ∀ s a, G s a) :
    ∀ (as : List α) (s : σ), StepsMeet f G s as := by
  intro as
  induction as with
  | nil => exact fun _ => trivial
  | cons a as ih => exact fun s => ⟨h s a, fun t _ => ih t⟩

/-- **What every step keeps, a run keeps.** -/
theorem foldlM_preserves {f : σ → α → Option σ} {I : σ → Prop}
    (hstep : ∀ s a t, I s → f s a = some t → I t) (as : List α) {s t : σ} (hI : I s)
    (h : as.foldlM f s = some t) : I t :=
  foldlM_preserves_of (G := fun _ _ => True) (fun s a t hI _ => hstep s a t hI) as
    (stepsMeet_of_forall (fun _ _ => trivial) as s) hI h

end ShredArb.Run
