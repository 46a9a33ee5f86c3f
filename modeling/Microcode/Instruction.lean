import Microcode.Encoding.Basic
import Microcode.Json

/-!
# Disassembled instructions
-/

namespace Microcode

structure Instruction where
  mnemonic : String
  /-- The operands as text, lowest field first. -/
  operands : List String := []
deriving DecidableEq, Repr

namespace Instruction

/-- What an opcode without an owner stands for. -/
def unknown : Instruction := { mnemonic := Mnemonic.unknown }

def IsUnknown (i : Instruction) : Prop := i.mnemonic = Mnemonic.unknown

instance : DecidablePred IsUnknown :=
  fun i => inferInstanceAs (Decidable (i.mnemonic = Mnemonic.unknown))

/-- The mnemonic, and after a blank the operands if there are any. -/
def text (i : Instruction) : String :=
  if i.operands = [] then i.mnemonic
  else i.mnemonic ++ " " ++ ", ".intercalate i.operands

def toJson (i : Instruction) : Json :=
  .obj [("mnemonic", .str i.mnemonic), ("fields", .arr (i.operands.map .str))]

end Instruction

def Encoding.instruction (e : Encoding) (w : Word) : Instruction :=
  { mnemonic := e.mnemonic, operands := e.operands w }

end Microcode
