import Microcode.Pattern.Basic

/-!
# Pattern texts

A pattern is written with nineteen characters: four groups of four,
highest bit first, with single spaces between the groups. A `0` or `1`
is a fixed bit, an `X` an ignored one, and any other upper-case letter
belongs to the operand field of that letter, whose bits must be
adjacent.

`Pattern.ofText` reads a text from the lowest bit upwards, so a field is
known by its lowest bit and grows by one bit at a time. `Pattern.toText`
writes the text of a pattern.
-/

namespace Microcode

/-- Why a text is no pattern for an encoding. -/
inductive PatternFault where
  /-- The text has `count` characters, or some that are not ASCII. -/
  | length (count : Nat)
  | separator (position : Nat)
  | character (c : Char) (bit : Nat)
  /-- The field of `letter` ended at `last` and is taken up again at
  `bit`. -/
  | reappears (letter : Char) (bit last : Nat)
  /-- The field of `letter` has more values than its name table has
  names. -/
  | tooWide (letter : Char) (width names : Nat)
deriving DecidableEq, Repr

namespace Pattern

def textLength : Nat := 19

/-- The positions of the spaces in a pattern text. -/
def separators : List Nat := [4, 9, 14]

/-- The position of the character for `bit`: the higher bits stand
before it, and one space for each full group of them. -/
def position (bit : Nat) : Nat := (15 - bit) + (15 - bit) / 4

/-- The characters of the sixteen bits, lowest bit first. -/
def bitChars (text : List Char) : List Char :=
  (List.range 16).filterMap fun bit => text[position bit]?

/-! ## Reading -/

def widen (p : Pattern) (letter : Char) : Pattern :=
  { p with
    fields := p.fields.map fun f =>
      if f.letter = letter then { f with width := f.width + 1 } else f }

/-- Takes in the character for `bit`, all lower bits being known. -/
def readBit (p : Pattern) (bit : Nat) (c : Char) : Except PatternFault Pattern :=
  let here := BitVec.twoPow 16 bit
  if c = '0' then
    .ok { p with constMask := p.constMask ||| here }
  else if c = '1' then
    .ok { p with constMask := p.constMask ||| here, constBits := p.constBits ||| here }
  else if c = 'X' then
    .ok { p with dontCareMask := p.dontCareMask ||| here }
  else if 'A' ≤ c ∧ c ≤ 'Z' then
    match p.field? c with
    | none => .ok { p with fields := p.fields ++ [⟨c, bit, 1⟩] }
    | some f =>
        if f.offset + f.width = bit then .ok (p.widen c)
        else .error (.reappears c bit (f.offset + f.width - 1))
  else
    .error (.character c bit)

/-- Takes in the characters from `bit` upwards. -/
def readBits (p : Pattern) (bit : Nat) : List Char → Except PatternFault Pattern
  | [] => .ok p
  | c :: cs =>
      match p.readBit bit c with
      | .ok q => q.readBits (bit + 1) cs
      | .error fault => .error fault

def ofText (text : String) : Except PatternFault Pattern :=
  let cs := text.toList
  if cs.length = textLength ∧ cs.all (·.toNat < 128) then
    match separators.find? (cs[·]? ≠ some ' ') with
    | some position => .error (.separator position)
    | none => readBits {} 0 (bitChars cs)
  else
    .error (.length cs.length)

/-! ## Writing -/

/-- The character that stands for `bit`. A bit of no kind is shown as a
question mark; patterns read from a text have none. -/
def charAt (p : Pattern) (bit : Nat) : Char :=
  if p.constMask.getLsbD bit then
    if p.constBits.getLsbD bit then '1' else '0'
  else if p.dontCareMask.getLsbD bit then 'X'
  else ((p.fields.find? (·.mask.getLsbD bit)).map Field.letter).getD '?'

def textAt (p : Pattern) (position : Nat) : Char :=
  if position ∈ separators then ' ' else p.charAt (15 - (position - position / 5))

def toText (p : Pattern) : String :=
  String.ofList ((List.range textLength).map p.textAt)

end Pattern

end Microcode
