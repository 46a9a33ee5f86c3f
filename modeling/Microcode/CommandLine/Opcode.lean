import Microcode.Text.Hex
import Microcode.Word

/-!
# Opcodes on the command line

An opcode is given as a hexadecimal number below 65536, with any number
of leading zeros, digits of either case, an optional plus sign, and an
optional marker `0x` or `0X` before all of that.
-/

namespace Microcode.CommandLine

inductive OpcodeFault where
  | empty
  | invalidDigit
  | tooLarge
deriving DecidableEq, Repr

def OpcodeFault.message : OpcodeFault → String
  | .empty => "cannot parse integer from empty string"
  | .invalidDigit => "invalid digit found in string"
  | .tooLarge => "number too large to fit in target type"

def dropMarker : List Char → List Char
  | '0' :: 'x' :: cs => cs
  | '0' :: 'X' :: cs => cs
  | cs => cs

/-- The characters without a sign in front; a sign alone stays. -/
def dropSign : List Char → List Char
  | '+' :: c :: cs => c :: cs
  | cs => cs

/-- Reads digits after a number whose digits have the value `n`. Of two
faults the one further to the left is reported. -/
def readDigits (n : Nat) : List Char → Except OpcodeFault Nat
  | [] => .ok n
  | c :: cs =>
      match Hex.digit? c with
      | none => .error .invalidDigit
      | some d =>
          if 16 * n + d < opcodeCount then readDigits (16 * n + d) cs
          else .error .tooLarge

def readOpcode (text : String) : Except OpcodeFault Word :=
  match dropSign (dropMarker text.toList) with
  | [] => .error .empty
  | cs => (readDigits 0 cs).map (BitVec.ofNat 16)

end Microcode.CommandLine
