/-
  ShredArb.Lib.Hex — hexadecimal text of byte strings, as `bytes.hex` writes it and
  `bytes.fromhex` reads it.

  Reading takes either case and skips ASCII white space BETWEEN bytes.
-/
import Mathlib.Init

namespace ShredArb.Hex

/-- A digit, in lower case. -/
def hexDigit (n : Nat) : Char := if n < 10 then Char.ofNat (48 + n) else Char.ofNat (87 + n)

/-- `bytes.hex`. -/
def hex (bs : List UInt8) : String :=
  String.ofList (bs.flatMap fun b => [hexDigit (b.toNat / 16), hexDigit (b.toNat % 16)])

/-- The value of a digit. -/
def digitVal (c : Char) : Option Nat :=
  if '0' ≤ c ∧ c ≤ '9' then some (c.toNat - 48)
  else if 'a' ≤ c ∧ c ≤ 'f' then some (c.toNat - 87)
  else if 'A' ≤ c ∧ c ≤ 'F' then some (c.toNat - 55)
  else none

/-- ASCII white space. -/
def isSpace (c : Char) : Bool :=
  c == ' ' || c == '\t' || c == '\n' || c == '\r' || c.toNat == 11 || c.toNat == 12

/-- `bytes.fromhex`; `none` is its `ValueError`. -/
def fromHex : List Char → Option (List UInt8)
  | [] => some []
  | c :: cs =>
    if isSpace c then fromHex cs
    else
      match cs with
      | [] => none
      | d :: cs => do
        let hi ← digitVal c
        let lo ← digitVal d
        let rest ← fromHex cs
        some (UInt8.ofNat (16 * hi + lo) :: rest)

end ShredArb.Hex
