/-!
# Hexadecimal numerals

Printing a number with a least count of digits, and reading single
digits of either case back.
-/

namespace Microcode.Hex

/-- The lower-case digits of `n`, with zeros in front up to `width`
digits. A number that needs more digits gets them. -/
def digits (width n : Nat) : List Char :=
  (Nat.toDigits 16 n).leftpad width '0'

def text (width n : Nat) : String := String.ofList (digits width n)

/-- As `text`, in upper case. -/
def upperText (width n : Nat) : String :=
  String.ofList ((digits width n).map Char.toUpper)

def digit? (c : Char) : Option Nat :=
  if '0' ≤ c ∧ c ≤ '9' then some (c.toNat - '0'.toNat)
  else if 'a' ≤ c ∧ c ≤ 'f' then some (c.toNat - 'a'.toNat + 10)
  else if 'A' ≤ c ∧ c ≤ 'F' then some (c.toNat - 'A'.toNat + 10)
  else none

/-- The number that a list of digits spells, most significant first;
`none` if a character is no digit. -/
def value? (cs : List Char) : Option Nat :=
  cs.foldlM (fun n c => (digit? c).map (16 * n + ·)) 0

end Microcode.Hex
