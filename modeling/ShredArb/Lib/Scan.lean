/-
  ShredArb.Lib.Scan — scans of a byte string that is still arriving.

  A scan starts at an offset of what has arrived and answers: a value and the
  offset after it, NEED more bytes, or BAD.  A scan is `Stable` when the first
  and the last answer stay as they are whatever arrives later; the primitives
  are, and composition keeps it, so a format that is scanned part by part is
  stable without a look at its parts.

  Main results:
    * `Stable.andThen`, `Stable.times` — composition,
    * `Stable.need_of_cut` — an accepted string cut short needs more,
    * `mem_of_firstOk`, `firstOk_of_mem` — the first of several tries,
    * `Same.andThen`, `Same.times` — a scan reads what a parser of the whole reads,
    * `Shifts.andThen` — what is accepted is accepted in a window of the bytes,
    * `Scans.andThen`, `scans_times` — bytes laid down part by part are read back.
-/
import ShredArb.Lib.Parse

namespace ShredArb.Scan

open ShredArb.Bytes

/-! ## §1. Scans. -/

/-- The answer of a scan. -/
inductive Res (α : Type) where
  | ok (x : α) (off : Nat)
  | need
  | bad
  deriving DecidableEq, Repr

/-- From the bytes received and an offset. -/
abbrev Scanner (α : Type) := List UInt8 → Nat → Res α

variable {α β γ : Type}

/-- Read nothing. -/
def ret (x : α) : Scanner α := fun _ off => .ok x off

/-- A contradiction. -/
def bad : Scanner α := fun _ _ => .bad

/-- The offset. -/
def pos : Scanner Nat := fun _ off => .ok off off

/-- One scan after another. -/
def andThen (s : Scanner α) (f : α → Scanner β) : Scanner β := fun p off =>
  match s p off with
  | .ok x o => f x p o
  | .need => .need
  | .bad => .bad

/-- One byte. -/
def byte : Scanner UInt8 := fun p off =>
  match p[off]? with
  | none => .need
  | some b => .ok b (off + 1)

/-- A fixed number of bytes. -/
def take (n : Nat) : Scanner (List UInt8) := fun p off =>
  if off + n > p.length then .need else .ok (field p off n) (off + n)

/-- That many bytes are there; they are not consumed. -/
def avail (n : Nat) : Scanner Unit := fun p off =>
  if off + n > p.length then .need else .ok () off

/-- A fixed number of items. -/
def times (s : Scanner α) : Nat → Scanner (List α)
  | 0 => ret []
  | n + 1 => andThen s fun x => andThen (times s n) fun xs => ret (x :: xs)

/-- One item for each element of a list. -/
def each (f : γ → Scanner α) : List γ → Scanner (List α)
  | [] => ret []
  | c :: cs => andThen (f c) fun x => andThen (each f cs) fun xs => ret (x :: xs)

theorem andThen_eq_ok {s : Scanner α} {f : α → Scanner β} {p : List UInt8} {off o : Nat} {y : β} :
    andThen s f p off = .ok y o ↔ ∃ x o', s p off = .ok x o' ∧ f x p o' = .ok y o := by
  unfold andThen
  cases s p off with
  | ok x o' =>
    constructor
    · intro h
      exact ⟨x, o', rfl, h⟩
    · rintro ⟨x', o'', h, hf⟩
      obtain ⟨rfl, rfl⟩ := Res.ok.inj h
      exact hf
  | need => simp
  | bad => simp

theorem take_eq_ok {n : Nat} {p : List UInt8} {off o : Nat} {bs : List UInt8} :
    take n p off = .ok bs o ↔ off + n ≤ p.length ∧ bs = field p off n ∧ o = off + n := by
  unfold take
  split
  · rename_i hgt
    exact ⟨fun h => absurd h (by simp), fun h => absurd h.1 (by omega)⟩
  · rename_i hle
    constructor
    · intro h
      obtain ⟨rfl, rfl⟩ := Res.ok.inj h
      exact ⟨by omega, rfl, rfl⟩
    · rintro ⟨-, rfl, rfl⟩
      rfl

theorem avail_eq_ok {n : Nat} {p : List UInt8} {off o : Nat} {u : Unit} :
    avail n p off = .ok u o ↔ off + n ≤ p.length ∧ o = off := by
  unfold avail
  split
  · rename_i hgt
    exact ⟨fun h => absurd h (by simp), fun h => absurd h.1 (by omega)⟩
  · rename_i hle
    constructor
    · intro h
      exact ⟨by omega, (Res.ok.inj h).2.symm⟩
    · rintro ⟨-, rfl⟩
      rfl

theorem byte_eq_ok {p : List UInt8} {off o : Nat} {b : UInt8} :
    byte p off = .ok b o ↔ p[off]? = some b ∧ o = off + 1 := by
  unfold byte
  cases p[off]? with
  | none => simp
  | some c =>
    simp only [Res.ok.injEq, Option.some.injEq]
    exact and_congr_right fun _ => eq_comm

/-! ## §2. Stability. -/

/-- What is accepted or refused is so whatever follows, and an accepted value
ends within what has arrived. -/
structure Stable (s : Scanner α) : Prop where
  le : ∀ {p off x o}, s p off = .ok x o → off ≤ o
  within : ∀ {p off x o}, off ≤ p.length → s p off = .ok x o → o ≤ p.length
  ok_append : ∀ {p off x o} (q : List UInt8), off ≤ p.length → s p off = .ok x o →
    s (p ++ q) off = .ok x o
  bad_append : ∀ {p off} (q : List UInt8), off ≤ p.length → s p off = .bad → s (p ++ q) off = .bad

theorem stable_ret (x : α) : Stable (ret x) where
  le h := by
    obtain ⟨-, rfl⟩ := Res.ok.inj h
    exact Nat.le_refl _
  within hoff h := by
    obtain ⟨-, rfl⟩ := Res.ok.inj h
    exact hoff
  ok_append _ _ h := h
  bad_append _ _ h := h

theorem stable_bad : Stable (bad : Scanner α) where
  le h := absurd h (by simp [bad])
  within _ h := absurd h (by simp [bad])
  ok_append _ _ h := h
  bad_append _ _ h := h

theorem stable_pos : Stable pos where
  le h := by
    obtain ⟨-, rfl⟩ := Res.ok.inj h
    exact Nat.le_refl _
  within hoff h := by
    obtain ⟨-, rfl⟩ := Res.ok.inj h
    exact hoff
  ok_append _ _ h := h
  bad_append _ _ h := h

theorem stable_byte : Stable byte where
  le h := by
    have := (byte_eq_ok.mp h).2
    omega
  within _ h := by
    obtain ⟨hb, rfl⟩ := byte_eq_ok.mp h
    exact (List.getElem?_eq_some_iff.mp hb).1
  ok_append {p off x o} q _ h := by
    obtain ⟨hb, rfl⟩ := byte_eq_ok.mp h
    refine byte_eq_ok.mpr ⟨?_, rfl⟩
    rw [List.getElem?_append_left (List.getElem?_eq_some_iff.mp hb).1]
    exact hb
  bad_append {p off} q _ h := by
    unfold byte at h
    cases hp : p[off]? <;> rw [hp] at h <;> exact absurd h (by simp)

theorem stable_take (n : Nat) : Stable (take n) where
  le h := by
    have := (take_eq_ok.mp h).2.2
    omega
  within _ h := by
    obtain ⟨hle, -, rfl⟩ := take_eq_ok.mp h
    exact hle
  ok_append {p off x o} q _ h := by
    obtain ⟨hle, rfl, rfl⟩ := take_eq_ok.mp h
    refine take_eq_ok.mpr ⟨?_, (field_append_left hle).symm, rfl⟩
    rw [List.length_append]
    omega
  bad_append q _ h := by
    unfold take at h
    split at h <;> exact absurd h (by simp)

theorem stable_avail (n : Nat) : Stable (avail n) where
  le h := by
    obtain ⟨-, rfl⟩ := avail_eq_ok.mp h
    exact Nat.le_refl _
  within hoff h := by
    obtain ⟨-, rfl⟩ := avail_eq_ok.mp h
    exact hoff
  ok_append {p off x o} q _ h := by
    obtain ⟨hle, rfl⟩ := avail_eq_ok.mp h
    refine avail_eq_ok.mpr ⟨?_, rfl⟩
    rw [List.length_append]
    omega
  bad_append q _ h := by
    unfold avail at h
    split at h <;> exact absurd h (by simp)

/-- **Composition keeps stability.** -/
theorem Stable.andThen {s : Scanner α} {f : α → Scanner β} (hs : Stable s) (hf : ∀ x, Stable (f x)) :
    Stable (Scan.andThen s f) where
  le h := by
    obtain ⟨x, o', hx, hy⟩ := andThen_eq_ok.mp h
    exact Nat.le_trans (hs.le hx) ((hf x).le hy)
  within hoff h := by
    obtain ⟨x, o', hx, hy⟩ := andThen_eq_ok.mp h
    exact (hf x).within (hs.within hoff hx) hy
  ok_append q hoff h := by
    obtain ⟨x, o', hx, hy⟩ := andThen_eq_ok.mp h
    exact andThen_eq_ok.mpr ⟨x, o', hs.ok_append q hoff hx, (hf x).ok_append q (hs.within hoff hx) hy⟩
  bad_append {p off} q hoff h := by
    unfold Scan.andThen at h ⊢
    cases hx : s p off with
    | ok x o' =>
      rw [hx] at h
      rw [hs.ok_append q hoff hx]
      exact (hf x).bad_append q (hs.within hoff hx) h
    | need =>
      rw [hx] at h
      exact absurd h (by simp)
    | bad => rw [hs.bad_append q hoff hx]

/-- What comes after is not looked at while the first part is missing. -/
theorem andThen_need {s : Scanner α} {f : α → Scanner β} {p : List UInt8} {off : Nat}
    (h : s p off = .need) : andThen s f p off = .need := by
  rw [andThen, h]

theorem Stable.ite {c : Prop} [Decidable c] {s t : Scanner α} (hs : Stable s) (ht : Stable t) :
    Stable (if c then s else t) := by
  split
  · exact hs
  · exact ht

theorem Stable.times {s : Scanner α} (hs : Stable s) : ∀ n, Stable (Scan.times s n) := by
  intro n
  induction n with
  | zero => exact stable_ret []
  | succ n ih => exact hs.andThen fun x => ih.andThen fun xs => stable_ret (x :: xs)

theorem Stable.each {f : γ → Scanner α} (hf : ∀ c, Stable (f c)) : ∀ cs, Stable (Scan.each f cs) := by
  intro cs
  induction cs with
  | nil => exact stable_ret []
  | cons c cs ih => exact (hf c).andThen fun x => ih.andThen fun xs => stable_ret (x :: xs)

/-- Something is read. -/
def Consumes (s : Scanner α) : Prop := ∀ {p off x o}, s p off = .ok x o → off < o

theorem consumes_byte : Consumes byte := by
  intro p off x o h
  have := (byte_eq_ok.mp h).2
  omega

theorem Consumes.andThen {s : Scanner α} {f : α → Scanner β} (hs : Consumes s)
    (hf : ∀ x, Stable (f x)) : Consumes (Scan.andThen s f) := by
  intro p off y o h
  obtain ⟨x, o', hx, hy⟩ := andThen_eq_ok.mp h
  exact Nat.lt_of_lt_of_le (hs hx) ((hf x).le hy)

/-- **An accepted string cut before its end needs more.** -/
theorem Stable.need_of_cut {s : Scanner α} (hs : Stable s) {p : List UInt8} {off o k : Nat} {x : α}
    (h : s p off = .ok x o) (hoff : off ≤ k) (hk : k < o) (hlen : k ≤ p.length) :
    s (p.take k) off = .need := by
  have hle : off ≤ (p.take k).length := by
    rw [List.length_take]
    omega
  cases hcut : s (p.take k) off with
  | need => rfl
  | ok y o' =>
    have hwhole := hs.ok_append (p.drop k) hle hcut
    rw [List.take_append_drop, h] at hwhole
    obtain ⟨-, rfl⟩ := Res.ok.inj hwhole
    have hin := hs.within hle hcut
    rw [List.length_take] at hin
    omega
  | bad =>
    have hwhole := hs.bad_append (p.drop k) hle hcut
    rw [List.take_append_drop, h] at hwhole
    exact absurd hwhole (by simp)

/-! ## §3. Several tries. -/

/-- The first accepted of several tries; without one, NEED before BAD. -/
def firstOk : List (Res α) → Res α
  | [] => .bad
  | .ok x o :: _ => .ok x o
  | .need :: rs => match firstOk rs with
    | .ok x o => .ok x o
    | _ => .need
  | .bad :: rs => firstOk rs

theorem mem_of_firstOk {x : α} {o : Nat} : ∀ {rs : List (Res α)}, firstOk rs = .ok x o →
    Res.ok x o ∈ rs := by
  intro rs
  induction rs with
  | nil => intro h; exact absurd h (by simp [firstOk])
  | cons r rs ih =>
    intro h
    cases r with
    | ok y o' =>
      rw [firstOk] at h
      rw [h]
      exact List.mem_cons_self
    | need =>
      rw [firstOk] at h
      split at h
      · rename_i y o' hrest
        rw [h] at hrest
        exact List.mem_cons_of_mem _ (ih hrest)
      · exact absurd h (by simp)
    | bad =>
      rw [firstOk] at h
      exact List.mem_cons_of_mem _ (ih h)

theorem firstOk_of_mem {x : α} {o : Nat} : ∀ {rs : List (Res α)}, Res.ok x o ∈ rs →
    ∃ y o', firstOk rs = .ok y o' := by
  intro rs
  induction rs with
  | nil => intro h; exact absurd h List.not_mem_nil
  | cons r rs ih =>
    intro h
    cases r with
    | ok y o' => exact ⟨y, o', rfl⟩
    | need =>
      obtain ⟨y, o', hrest⟩ := ih ((List.mem_cons.mp h).resolve_left (by simp))
      exact ⟨y, o', by rw [firstOk, hrest]⟩
    | bad =>
      obtain ⟨y, o', hrest⟩ := ih ((List.mem_cons.mp h).resolve_left (by simp))
      exact ⟨y, o', by rw [firstOk, hrest]⟩

/-! ## §4. Scans and parsers. -/

/-- What a scan accepted, as a parser reports it. -/
def Res.parsed (p : List UInt8) : Res α → Option (α × List UInt8)
  | .ok x o => some (x, p.drop o)
  | .need => none
  | .bad => none

/-- The scan at an offset is the parser on what follows the offset. -/
def Same (s : Scanner α) (q : Parse.Parser α) : Prop :=
  ∀ p off, off ≤ p.length → q (p.drop off) = (s p off).parsed p

theorem same_ret (x : α) : Same (ret x) (Parse.done x) := fun _ _ _ => rfl

theorem same_bad : Same (bad : Scanner α) Parse.fail := fun _ _ _ => rfl

theorem same_byte : Same byte Parse.byte := by
  intro p off _
  unfold byte
  cases hp : p[off]? with
  | none =>
    rw [List.drop_eq_nil_of_le (List.getElem?_eq_none_iff.mp hp)]
    rfl
  | some b =>
    obtain ⟨hlt, rfl⟩ := List.getElem?_eq_some_iff.mp hp
    rw [List.drop_eq_getElem_cons hlt]
    rfl

theorem same_take (n : Nat) : Same (take n) (Parse.exactly n) := by
  intro p off hoff
  unfold take Parse.exactly
  rw [List.length_drop]
  by_cases h : off + n > p.length
  · rw [if_pos h, if_pos (by omega)]
    rfl
  · rw [if_neg h, if_neg (by omega), List.drop_drop]
    rfl

/-- **A scan of parts is the parser of the parts.** -/
theorem Same.andThen {s : Scanner α} {q : Parse.Parser α} {f : α → Scanner β} {g : α → Parse.Parser β}
    (hstable : Stable s) (hs : Same s q) (hf : ∀ x, Same (f x) (g x)) :
    Same (Scan.andThen s f) (Parse.andThen q g) := by
  intro p off hoff
  unfold Scan.andThen Parse.andThen
  rw [hs p off hoff]
  cases hx : s p off with
  | ok x o => exact hf x p o (hstable.within hoff hx)
  | need => rfl
  | bad => rfl

theorem Same.ite {c : Prop} [Decidable c] {s t : Scanner α} {q r : Parse.Parser α} (hs : Same s q)
    (ht : Same t r) : Same (if c then s else t) (if c then q else r) := by
  split
  · exact hs
  · exact ht

/-- What the scan accepts, the parser reads; a scan may refuse more. -/
def Refines (s : Scanner α) (q : Parse.Parser α) : Prop :=
  ∀ p off x o, off ≤ p.length → s p off = .ok x o → q (p.drop off) = some (x, p.drop o)

theorem Same.refines {s : Scanner α} {q : Parse.Parser α} (h : Same s q) : Refines s q := by
  intro p off x o hoff hs
  rw [h p off hoff, hs]
  rfl

theorem Refines.andThen {s : Scanner α} {q : Parse.Parser α} {f : α → Scanner β}
    {g : α → Parse.Parser β} (hs : Refines s q) (hstable : Stable s)
    (hf : ∀ x, Refines (f x) (g x)) : Refines (Scan.andThen s f) (Parse.andThen q g) := by
  intro p off y o hoff h
  obtain ⟨x, o', hx, hy⟩ := andThen_eq_ok.mp h
  exact Parse.andThen_eq_some.mpr
    ⟨x, p.drop o', hs p off x o' hoff hx, hf x p o' y o (hstable.within hoff hx) hy⟩

theorem Refines.times {s : Scanner α} {q : Parse.Parser α} (hs : Refines s q) (hstable : Stable s) :
    ∀ n, Refines (Scan.times s n) (Parse.times q n) := by
  intro n
  induction n with
  | zero => exact (same_ret []).refines
  | succ n ih =>
    exact hs.andThen hstable fun x => ih.andThen (hstable.times n) fun xs =>
      (same_ret (x :: xs)).refines

/-- A check that refuses. -/
theorem Refines.guard {c : Prop} [Decidable c] {s : Scanner α} {q : Parse.Parser α}
    (hs : Refines s q) : Refines (if c then bad else s) q := by
  intro p off x o hoff h
  split at h
  · exact absurd h (by simp [bad])
  · exact hs p off x o hoff h

/-! ## §5. Windows. -/

/-- In a window that holds what was read, the second scan reads what the first
reads in the buffer, at offsets counted from the window's start. -/
structure Shifts (d : Nat) (s t : Scanner α) : Prop where
  le : ∀ {p off x o}, d ≤ off → s p off = .ok x o → off ≤ o
  shift : ∀ {p off x o len}, d ≤ off → d + len ≤ p.length → s p off = .ok x o → o ≤ d + len →
    t (field p d len) (off - d) = .ok x (o - d)

variable {d : Nat}

theorem shifts_ret (x : α) : Shifts d (ret x) (ret x) where
  le _ h := Nat.le_of_eq (Res.ok.inj h).2
  shift hd hlen h ho := by
    obtain ⟨rfl, rfl⟩ := Res.ok.inj h
    rfl

theorem shifts_bad (t : Scanner α) : Shifts d bad t where
  le _ h := absurd h (by simp [bad])
  shift hd hlen h ho := absurd h (by simp [bad])

theorem shifts_byte : Shifts d byte byte where
  le _ h := stable_byte.le h
  shift {p off b o len} hd hlen h ho := by
    obtain ⟨hb, rfl⟩ := byte_eq_ok.mp h
    refine byte_eq_ok.mpr ⟨?_, by omega⟩
    rw [getElem?_field (by omega), show d + (off - d) = off by omega]
    exact hb

theorem shifts_take (n : Nat) : Shifts d (take n) (take n) where
  le _ h := (stable_take n).le h
  shift {p off bs o len} hd hlen h ho := by
    obtain ⟨hle, rfl, rfl⟩ := take_eq_ok.mp h
    refine take_eq_ok.mpr ⟨?_, ?_, by omega⟩
    · rw [length_field hlen]
      omega
    · rw [field_field (by omega), show d + (off - d) = off by omega]

/-- **Composition keeps the shift.** -/
theorem Shifts.andThen {s s' : Scanner α} {f f' : α → Scanner β} (hs : Shifts d s s')
    (hf : ∀ x, Shifts d (f x) (f' x)) : Shifts d (Scan.andThen s f) (Scan.andThen s' f') where
  le hd h := by
    obtain ⟨x, o', hx, hy⟩ := andThen_eq_ok.mp h
    have hmid := hs.le hd hx
    exact Nat.le_trans hmid ((hf x).le (Nat.le_trans hd hmid) hy)
  shift hd hlen h ho := by
    obtain ⟨x, o', hx, hy⟩ := andThen_eq_ok.mp h
    have hmid := hs.le hd hx
    have hend := (hf x).le (Nat.le_trans hd hmid) hy
    exact andThen_eq_ok.mpr ⟨x, o' - d, hs.shift hd hlen hx (by omega),
      (hf x).shift (by omega) hlen hy ho⟩

theorem Shifts.ite {c : Prop} [Decidable c] {s t s' t' : Scanner α} (hs : Shifts d s s')
    (ht : Shifts d t t') : Shifts d (if c then s else t) (if c then s' else t') := by
  split
  · exact hs
  · exact ht

theorem Shifts.times {s s' : Scanner α} (hs : Shifts d s s') :
    ∀ n, Shifts d (Scan.times s n) (Scan.times s' n) := by
  intro n
  induction n with
  | zero => exact shifts_ret []
  | succ n ih => exact hs.andThen fun x => ih.andThen fun xs => shifts_ret (x :: xs)

theorem Shifts.each {f f' : γ → Scanner α} (hf : ∀ c, Shifts d (f c) (f' c)) :
    ∀ cs, Shifts d (Scan.each f cs) (Scan.each f' cs) := by
  intro cs
  induction cs with
  | nil => exact shifts_ret []
  | cons c cs ih => exact (hf c).andThen fun x => ih.andThen fun xs => shifts_ret (x :: xs)

/-- Where the offset itself is used, the second scan's is counted from the
window's start. -/
theorem shifts_pos {f f' : Nat → Scanner β} (hf : ∀ off, d ≤ off → Shifts d (f off) (f' (off - d))) :
    Shifts d (Scan.andThen pos f) (Scan.andThen pos f') where
  le hd h := (hf _ hd).le hd h
  shift {_ off _ _ _} hd hlen h ho := (hf off hd).shift hd hlen h ho

/-- Bytes that must be there are in the window, where they are read afterwards. -/
theorem shifts_avail {n : Nat} {s s' : Scanner β} (hs : Shifts d s s')
    (hn : ∀ {p off y o}, s p off = .ok y o → off + n ≤ o) :
    Shifts d (Scan.andThen (avail n) fun _ => s) (Scan.andThen (avail n) fun _ => s') where
  le _ h := by
    obtain ⟨u, o', hu, hy⟩ := andThen_eq_ok.mp h
    obtain ⟨-, rfl⟩ := avail_eq_ok.mp hu
    exact Nat.le_trans (Nat.le_add_right _ n) (hn hy)
  shift {p off y o len} hd hlen h ho := by
    obtain ⟨u, o', hu, hy⟩ := andThen_eq_ok.mp h
    obtain ⟨-, rfl⟩ := avail_eq_ok.mp hu
    have hfit := hn hy
    refine andThen_eq_ok.mpr ⟨(), o' - d, avail_eq_ok.mpr ⟨?_, rfl⟩, hs.shift hd hlen hy ho⟩
    rw [length_field hlen]
    omega

/-! ## §6. What is laid down. -/

/-- The bytes are read as `x`, wherever they stand. -/
def Scans (s : Scanner α) (bs : List UInt8) (x : α) : Prop :=
  ∀ pre post, s (pre ++ (bs ++ post)) pre.length = .ok x (pre.length + bs.length)

theorem scans_ret (x : α) : Scans (ret x) [] x := fun _ _ => rfl

theorem scans_byte (b : UInt8) : Scans byte [b] b := by
  intro pre post
  refine byte_eq_ok.mpr ⟨?_, rfl⟩
  rw [List.getElem?_append_right (Nat.le_refl _), Nat.sub_self]
  rfl

theorem scans_take {n : Nat} {bs : List UInt8} (h : bs.length = n) : Scans (take n) bs bs := by
  intro pre post
  refine take_eq_ok.mpr ⟨?_, ?_, by rw [h]⟩
  · rw [List.length_append, List.length_append]
    omega
  · rw [field_append_right (Nat.le_refl _), Nat.sub_self, field_append_left (by omega), field,
      List.drop_zero, ← h, List.take_length]

/-- **One part after another.** -/
theorem Scans.andThen {s : Scanner α} {f : α → Scanner β} {bs cs : List UInt8} {x : α} {y : β}
    (hs : Scans s bs x) (hf : Scans (f x) cs y) : Scans (Scan.andThen s f) (bs ++ cs) y := by
  intro pre post
  have hfirst := hs pre (cs ++ post)
  have hrest := hf (pre ++ bs) post
  rw [List.length_append, List.append_assoc] at hrest
  rw [List.append_assoc, List.length_append, ← Nat.add_assoc]
  exact andThen_eq_ok.mpr ⟨x, _, hfirst, hrest⟩

/-- A value made of the last part. -/
theorem Scans.map {s : Scanner α} {g : α → β} {bs : List UInt8} {x : α} (hs : Scans s bs x) :
    Scans (Scan.andThen s fun x => ret (g x)) bs (g x) := by
  have h := hs.andThen (f := fun x => ret (g x)) (scans_ret (g x))
  rwa [List.append_nil] at h

theorem scans_times {s : Scanner α} {enc : α → List UInt8} (xs : List α)
    (h : ∀ x ∈ xs, Scans s (enc x) x) : Scans (Scan.times s xs.length) (xs.flatMap enc) xs := by
  induction xs with
  | nil => exact scans_ret []
  | cons x xs ih =>
    rw [List.flatMap_cons, List.length_cons]
    exact (h x List.mem_cons_self).andThen (ih fun y hy => h y (List.mem_cons_of_mem x hy)).map

/-- A byte string laid down is scanned to its end. -/
theorem Scans.whole {s : Scanner α} {bs : List UInt8} {x : α} (h : Scans s bs x) :
    s bs 0 = .ok x bs.length := by
  have hall := h [] []
  rwa [List.append_nil, List.nil_append, List.length_nil, Nat.zero_add] at hall

end ShredArb.Scan
