/-
  ShredArb.Lib.Py — the values of a parsed JSON document, as Python computes
  with them.

  A field may be missing or of an odd type; what a builtin does with it then
  is part of the program: `x or d` tests truth, `==` compares numbers across
  their types, `int` and `str` convert or RAISE.

  Conventions:
    • a string is its list of characters, a float its exact dyadic value,
    • `x.get(k)` gives `None` for a missing key and raises on what is no dict,
    • what depends on the interpreter's tables is a field of `Runtime`.

  Main results:
    * `bind_ok_iff` — a sequence succeeds when each step does,
    * `foldlM_invariant` — what every step of a loop keeps.
-/
import ShredArb.Lib.Dict
import Mathlib.Tactic

namespace ShredArb.Py

open ShredArb.Dict

/-! ## §1. Values. -/

/-- A builtin raises. -/
inductive Err where
  | attributeError
  | typeError
  | valueError
  | overflowError
  deriving DecidableEq, Repr

abbrev Str := List Char

/-- A float: `± mant · 2 ^ exp`, or none of the numbers. -/
inductive Flt where
  | fin (neg : Bool) (mant : Nat) (exp : Int)
  | inf (neg : Bool)
  | nan
  deriving DecidableEq, Repr

inductive Val where
  | none
  | bool (b : Bool)
  | int (n : Int)
  | float (f : Flt)
  | str (s : Str)
  | list (xs : List Val)
  | dict (es : List (Str × Val))

/-- The entries of a dict. -/
abbrev Obj := Entries Str Val

/-- What the interpreter brings along. -/
structure Runtime where
  /-- `sys.get_int_max_str_digits`; 0 is no limit -/
  maxDigits : Nat
  /-- white space beyond ASCII -/
  space : Char → Bool
  /-- the value of a decimal digit beyond ASCII -/
  decimal : Char → Option Nat
  /-- `repr` of a float -/
  floatText : Flt → Str
  /-- `repr` of a string -/
  quote : Str → Str

/-- `bool(x)`. -/
def Val.truthy : Val → Bool
  | .none => false
  | .bool b => b
  | .int n => n != 0
  | .float (.fin _ mant _) => mant != 0
  | .float _ => true
  | .str s => !s.isEmpty
  | .list xs => !xs.isEmpty
  | .dict es => !es.isEmpty

/-- `x or d`. -/
def Val.orElse (x d : Val) : Val := if x.truthy then x else d

/-- `x is None`. -/
def Val.isNone : Val → Bool
  | .none => true
  | _ => false

/-- `x is True`. -/
def Val.isTrue : Val → Bool
  | .bool b => b
  | _ => false

/-- `o.get(k)` of a dict. -/
def field (o : Obj) (k : String) : Val := (get o k.toList).getD .none

/-- `x.get(k)`. -/
def Val.getItem : Val → Str → Except Err Val
  | .dict o, k => .ok ((get o k).getD .none)
  | _, _ => .error .attributeError

/-- `x.get(k)`, the key spelled out. -/
def Val.field (x : Val) (k : String) : Except Err Val := x.getItem k.toList

/-- `x.items()`. -/
def Val.items : Val → Except Err Obj
  | .dict o => .ok o
  | _ => .error .attributeError

/-- `for y in x`: a dict yields its keys, a string its characters. -/
def Val.iter : Val → Except Err (List Val)
  | .list xs => .ok xs
  | .dict o => .ok (o.map fun e => .str e.1)
  | .str s => .ok (s.map fun c => .str [c])
  | _ => .error .typeError

/-! ## §2. Numbers. -/

/-- The value of a finite float. -/
def dyadic (neg : Bool) (mant : Nat) (exp : Int) : Rat :=
  let num : Int := mant * 2 ^ exp.toNat
  mkRat (if neg then -num else num) (2 ^ (-exp).toNat)

/-- The value of a finite number. -/
def Val.rat : Val → Option Rat
  | .bool b => some (if b then 1 else 0)
  | .int n => some n
  | .float (.fin neg mant exp) => some (dyadic neg mant exp)
  | _ => Option.none

/-- `x == n`. -/
def Val.eqInt (x : Val) (n : Int) : Bool := x.rat == some (n : Rat)

/-- `x == s`. -/
def Val.eqStr (x : Val) (s : String) : Bool :=
  match x with
  | .str t => t == s.toList
  | _ => false

/-- White space around the digits of `int(s)`. -/
def intSpace (rt : Runtime) (c : Char) : Bool :=
  if c.toNat < 127 then c.toNat == 32 || (9 ≤ c.toNat && c.toNat ≤ 13) else rt.space c

/-- A decimal digit of `int(s)`. -/
def intDigit (rt : Runtime) (c : Char) : Option Nat :=
  if c.toNat < 127 then
    if '0' ≤ c ∧ c ≤ '9' then some (c.toNat - '0'.toNat) else Option.none
  else rt.decimal c

/-- The digits of `int(s)`, one underscore allowed between two. -/
def digits (rt : Runtime) : Str → Option (List Nat)
  | [] => Option.none
  | [c] => (intDigit rt c).map fun d => [d]
  | c :: '_' :: cs => (intDigit rt c).bind fun d => (digits rt cs).map (d :: ·)
  | c :: c' :: cs => (intDigit rt c).bind fun d => (digits rt (c' :: cs)).map (d :: ·)

/-- `int(s)`. -/
def parseInt (rt : Runtime) (s : Str) : Except Err Int :=
  let body := ((s.dropWhile (intSpace rt)).reverse.dropWhile (intSpace rt)).reverse
  let unsigned := match body with
    | '-' :: cs => (true, cs)
    | '+' :: cs => (false, cs)
    | cs => (false, cs)
  match digits rt unsigned.2 with
  | Option.none => .error .valueError
  | some ds =>
    if rt.maxDigits ≠ 0 ∧ rt.maxDigits < ds.length then .error .valueError
    else
      let n : Nat := ds.foldl (fun n d => 10 * n + d) 0
      .ok (if unsigned.1 then -(n : Int) else n)

/-- `int(x)`. -/
def toInt (rt : Runtime) : Val → Except Err Int
  | .bool b => .ok (if b then 1 else 0)
  | .int n => .ok n
  | .float (.fin neg mant exp) =>
    let q := dyadic neg mant exp
    .ok (q.num.tdiv q.den)
  | .float (.inf _) => .error .overflowError
  | .float .nan => .error .valueError
  | .str s => parseInt rt s
  | _ => .error .typeError

/-! ## §3. Texts. -/

/-- `str(n)`. -/
def intText (rt : Runtime) (n : Int) : Except Err Str :=
  let ds := (toString n.natAbs).toList
  if rt.maxDigits ≠ 0 ∧ rt.maxDigits < ds.length then .error .valueError
  else .ok (if n < 0 then '-' :: ds else ds)

/-- `", ".join(ts)`. -/
def commas (ts : List Str) : Str := List.intercalate [',', ' '] ts

mutual

/-- `repr(x)`. -/
def repr (rt : Runtime) : Val → Except Err Str
  | .none => .ok "None".toList
  | .bool b => .ok (if b then "True".toList else "False".toList)
  | .int n => intText rt n
  | .float f => .ok (rt.floatText f)
  | .str s => .ok (rt.quote s)
  | .list xs => (reprItems rt xs).map fun ts => '[' :: commas ts ++ [']']
  | .dict es => (reprEntries rt es).map fun ts => Char.ofNat 0x7b :: commas ts ++ [Char.ofNat 0x7d]

def reprItems (rt : Runtime) : List Val → Except Err (List Str)
  | [] => .ok []
  | x :: xs => do
    let t ← repr rt x
    let ts ← reprItems rt xs
    .ok (t :: ts)

def reprEntries (rt : Runtime) : List (Str × Val) → Except Err (List Str)
  | [] => .ok []
  | (k, x) :: es => do
    let t ← repr rt x
    let ts ← reprEntries rt es
    .ok ((rt.quote k ++ ':' :: ' ' :: t) :: ts)

end

/-- `str(x)`. -/
def text (rt : Runtime) : Val → Except Err Str
  | .str s => .ok s
  | x => repr rt x

/-! ## §4. Equality. -/

mutual

/-- `x == y` inside a container, where an object equals itself: the parser
makes one object of every `NaN`. -/
def same : Val → Val → Bool
  | .none, .none => true
  | .str s, .str t => s == t
  | .list xs, .list ys => sameItems xs ys
  | .dict es, .dict fs => es.length == fs.length && sameEntries es fs
  | .float .nan, .float .nan => true
  | .float (.inf a), .float (.inf b) => a == b
  | x, y => x.rat.isSome && x.rat == y.rat

def sameItems : List Val → List Val → Bool
  | [], [] => true
  | x :: xs, y :: ys => same x y && sameItems xs ys
  | _, _ => false

def sameEntries : List (Str × Val) → List (Str × Val) → Bool
  | [], _ => true
  | (k, x) :: es, fs =>
    (match get fs k with
      | Option.none => false
      | some y => same x y) && sameEntries es fs

end

/-! ## §5. Sequences. -/

section Sequence

variable {ε α β : Type}

/-- A sequence succeeds when each of its steps does. -/
theorem bind_ok_iff {x : Except ε α} {f : α → Except ε β} {b : β} :
    (x >>= f) = .ok b ↔ ∃ a, x = .ok a ∧ f a = .ok b := by
  cases x with
  | error e =>
    constructor
    · intro h
      cases h
    · rintro ⟨a, h, -⟩
      cases h
  | ok a =>
    constructor
    · intro h
      exact ⟨a, rfl, h⟩
    · rintro ⟨a', ha, h⟩
      rw [Except.ok.inj ha]
      exact h

theorem ok_bind {x : Except ε α} {a : α} (h : x = .ok a) (f : α → Except ε β) :
    (x >>= f) = f a := by
  rw [h]
  rfl

/-- An early return that is not the answer was not taken. -/
theorem of_unless {c : Prop} [Decidable c] {a b : α} {x : Except ε α}
    (h : (if c then pure a else x) = .ok b) (hne : a ≠ b) : ¬ c ∧ x = .ok b := by
  by_cases hc : c
  · rw [if_pos hc] at h
    exact absurd (Except.ok.inj h) hne
  · rw [if_neg hc] at h
    exact ⟨hc, h⟩

/-- **What every step of a loop keeps, the loop keeps.** -/
theorem foldlM_invariant {P : β → Prop} {f : β → α → Except ε β} (as : List α)
    (hstep : ∀ a ∈ as, ∀ s s', P s → f s a = .ok s' → P s') :
    ∀ {s s' : β}, P s → as.foldlM f s = .ok s' → P s' := by
  induction as with
  | nil =>
    intro s s' hs h
    rw [List.foldlM_nil] at h
    rw [← Except.ok.inj h]
    exact hs
  | cons a as ih =>
    intro s s' hs h
    rw [List.foldlM_cons] at h
    obtain ⟨s₁, h₁, h⟩ := bind_ok_iff.mp h
    have hs₁ : P s₁ := hstep a List.mem_cons_self s s₁ hs h₁
    exact ih (fun b hb => hstep b (List.mem_cons_of_mem a hb)) hs₁ h

/-- A loop that never raises follows the loop without errors. -/
theorem foldlM_ok {α' β' : Type} {f : β' → α' → Except ε β'} {g : β → α → β} (i : β → β')
    (j : α → α') (hstep : ∀ s a, f (i s) (j a) = .ok (i (g s a))) (as : List α) :
    ∀ s, (as.map j).foldlM f (i s) = .ok (i (as.foldl g s)) := by
  induction as with
  | nil =>
    intro s
    rfl
  | cons a as ih =>
    intro s
    rw [List.map_cons, List.foldlM_cons, List.foldl_cons, ok_bind (hstep s a)]
    exact ih (g s a)

end Sequence

end ShredArb.Py
