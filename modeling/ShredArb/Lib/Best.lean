/-
  ShredArb.Lib.Best — one best-so-far over a list of candidates.

  `beats c b` says that `c` replaces `b`.  A scan keeps one candidate; what it
  ends with is one of them, has the largest gain whenever `beats` compares
  gains first, and is told by its POSITION: everything before it is beaten by
  it, nothing after it beats it.

  Main results:
    * `bestOf_eq_none`, `bestOf_mem`, `gain_le_bestOf`,
    * `bestOf_eq_some` — the winner by position.
-/
import Mathlib.Data.List.Induction

namespace ShredArb.Best

variable {α : Type*} (beats : α → α → Bool)

/-- Keep the candidate if there is none yet or it beats the one kept. -/
def keepBest : Option α → α → Option α
  | none, c => some c
  | some b, c => if beats c b then some c else some b

/-- What is kept after all the candidates. -/
def bestOf (b : Option α) (cs : List α) : Option α := cs.foldl (keepBest beats) b

variable {beats}

theorem keepBest_ne_none (b : Option α) (c : α) : keepBest beats b c ≠ none := by
  cases b with
  | none => exact Option.some_ne_none c
  | some b =>
    show (if beats c b then some c else some b) ≠ none
    split <;> exact Option.some_ne_none _

theorem bestOf_cons (b : Option α) (c : α) (cs : List α) :
    bestOf beats b (c :: cs) = bestOf beats (keepBest beats b c) cs := rfl

theorem bestOf_append (b : Option α) (cs ds : List α) :
    bestOf beats b (cs ++ ds) = bestOf beats (bestOf beats b cs) ds :=
  List.foldl_append

/-- The scan ends empty only if there was nothing to keep. -/
theorem bestOf_eq_none {b : Option α} {cs : List α} :
    bestOf beats b cs = none ↔ b = none ∧ cs = [] := by
  induction cs generalizing b with
  | nil => exact ⟨fun h => ⟨h, rfl⟩, fun h => h.1⟩
  | cons c cs ih =>
    rw [bestOf_cons, ih]
    constructor
    · rintro ⟨h, -⟩
      exact absurd h (keepBest_ne_none b c)
    · rintro ⟨-, h⟩
      exact absurd h (by simp)

theorem bestOf_mem {b : Option α} {cs : List α} {w : α} (h : bestOf beats b cs = some w) :
    b = some w ∨ w ∈ cs := by
  induction cs generalizing b with
  | nil => exact Or.inl h
  | cons c cs ih =>
    rw [bestOf_cons] at h
    rcases ih h with hk | hm
    · cases b with
      | none =>
        rw [keepBest, Option.some.injEq] at hk
        exact Or.inr (hk ▸ List.mem_cons_self)
      | some b =>
        rw [keepBest] at hk
        split at hk
        · rw [Option.some.injEq] at hk
          exact Or.inr (hk ▸ List.mem_cons_self)
        · exact Or.inl hk
    · exact Or.inr (List.mem_cons_of_mem _ hm)

/-- **The winner has the largest gain**, when `beats` never prefers less. -/
theorem gain_le_bestOf (gain : α → Nat) (hyes : ∀ {c b}, beats c b = true → gain b ≤ gain c)
    (hno : ∀ {c b}, beats c b = false → gain c ≤ gain b) {b : Option α} {cs : List α} {w : α}
    (h : bestOf beats b cs = some w) :
    (∀ x, b = some x → gain x ≤ gain w) ∧ ∀ c ∈ cs, gain c ≤ gain w := by
  induction cs generalizing b with
  | nil =>
    refine ⟨fun x hx => ?_, fun c hc => absurd hc List.not_mem_nil⟩
    have hw : b = some w := h
    exact Nat.le_of_eq (congrArg gain (Option.some.inj (hx.symm.trans hw)))
  | cons c cs ih =>
    rw [bestOf_cons] at h
    obtain ⟨hkept, hrest⟩ := ih h
    -- what is kept after the head gains at least what was kept before, and the head
    have hhead : (∀ x, b = some x → gain x ≤ gain w) ∧ gain c ≤ gain w := by
      cases b with
      | none => exact ⟨fun x hx => absurd hx (by simp), hkept c rfl⟩
      | some b =>
        cases hb : beats c b with
        | true =>
          have hc := hkept c (by rw [keepBest, hb]; rfl)
          refine ⟨fun x hx => ?_, hc⟩
          rw [← Option.some.inj hx]
          exact Nat.le_trans (hyes hb) hc
        | false =>
          have hx := hkept b (by rw [keepBest, hb]; rfl)
          refine ⟨fun x hxb => ?_, Nat.le_trans (hno hb) hx⟩
          rw [← Option.some.inj hxb]
          exact hx
    refine ⟨hhead.1, fun d hd => ?_⟩
    rcases List.mem_cons.mp hd with rfl | hd
    · exact hhead.2
    · exact hrest d hd

/-- `w` stands in the list so that it wins: it beats all before it, and none
after it beats it. -/
def WinsAt (beats : α → α → Bool) (pre : List α) (w : α) (post : List α) : Prop :=
  (∀ x ∈ pre, beats w x = true) ∧ ∀ x ∈ post, beats x w = false

theorem bestOf_of_none_beats {w : α} {cs : List α} (h : ∀ x ∈ cs, beats x w = false) :
    bestOf beats (some w) cs = some w := by
  induction cs with
  | nil => rfl
  | cons c cs ih =>
    rw [bestOf_cons, keepBest, h c List.mem_cons_self]
    exact ih fun x hx => h x (List.mem_cons_of_mem _ hx)

section Ranking

variable (htrans : ∀ {a b c}, beats a b = true → beats b c = true → beats a c = true)
  (hneg : ∀ {a b c}, beats a b = true → beats c b = false → beats a c = true)

include htrans hneg in
/-- **The winner, by position.** -/
theorem bestOf_eq_some {cs : List α} {w : α} :
    bestOf beats none cs = some w ↔ ∃ pre post, cs = pre ++ w :: post ∧ WinsAt beats pre w post := by
  constructor
  · induction cs using List.reverseRecOn generalizing w with
    | nil => exact fun h => absurd h (by simp [bestOf])
    | append_singleton cs c ih =>
      intro h
      rw [bestOf_append] at h
      cases hcs : bestOf beats none cs with
      | none =>
        rw [hcs] at h
        have hc : c = w := Option.some.inj h
        obtain ⟨-, hnil⟩ := bestOf_eq_none.mp hcs
        subst hc hnil
        exact ⟨[], [], rfl, fun x hx => absurd hx List.not_mem_nil,
          fun x hx => absurd hx List.not_mem_nil⟩
      | some x =>
        rw [hcs] at h
        have hkeep : (if beats c x then some c else some x) = some w := h
        cases hb : beats c x with
        | true =>
          rw [hb, if_pos rfl, Option.some.injEq] at hkeep
          subst hkeep
          -- the last one won: what the former winner beat, and what did not beat it
          obtain ⟨pre, post, hsplit, hpre, hpost⟩ := ih hcs
          refine ⟨cs, [], rfl, ?_, fun y hy => absurd hy List.not_mem_nil⟩
          intro y hy
          rw [hsplit, List.mem_append, List.mem_cons] at hy
          rcases hy with hy | rfl | hy
          · exact htrans hb (hpre y hy)
          · exact hb
          · exact hneg hb (hpost y hy)
        | false =>
          rw [hb, if_neg (by simp), Option.some.injEq] at hkeep
          subst hkeep
          obtain ⟨pre, post, hsplit, hpre, hpost⟩ := ih hcs
          refine ⟨pre, post ++ [c], by rw [hsplit, List.append_assoc]; rfl, hpre, ?_⟩
          intro y hy
          rcases List.mem_append.mp hy with hy | hy
          · exact hpost y hy
          · rw [List.mem_singleton.mp hy]
            exact hb
  · rintro ⟨pre, post, rfl, hpre, hpost⟩
    rw [bestOf_append, bestOf_cons]
    have hw : keepBest beats (bestOf beats none pre) w = some w := by
      cases hp : bestOf beats none pre with
      | none => rfl
      | some x =>
        rcases bestOf_mem hp with hx | hx
        · exact absurd hx (by simp)
        · rw [keepBest, hpre x hx]
          rfl
    rw [hw]
    exact bestOf_of_none_beats hpost

end Ranking

/-- Turns that keep a property and never lose gain do so over a whole list. -/
theorem foldl_improves {β τ : Type*} {f : β → τ → β} {P : β → Prop} (gain : β → Nat)
    (hturn : ∀ b a, P b → P (f b a) ∧ gain b ≤ gain (f b a)) (as : List τ) :
    ∀ {b : β}, P b → P (as.foldl f b) ∧ gain b ≤ gain (as.foldl f b) := by
  induction as with
  | nil => exact fun h => ⟨h, Nat.le_refl _⟩
  | cons a as ih =>
    intro b h
    obtain ⟨h1, hle1⟩ := hturn b a h
    obtain ⟨h2, hle2⟩ := ih h1
    exact ⟨h2, Nat.le_trans hle1 hle2⟩

end ShredArb.Best
