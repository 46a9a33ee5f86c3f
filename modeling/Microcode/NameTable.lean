import Microcode.Mnemonic
import Microcode.Word

/-!
# Names of operand values

The letter of an operand field chooses the table that names its values.
Two letters depend on the instruction: `C` is an operation, a condition
or a source, and `F` one of two sets of flags or nothing named. Letters
without a table are shown as numbers.
-/

namespace Microcode

inductive NameTable where
  | baseRegister
  | performOperation
  | branchCondition
  | sourceSelect
  /-- The flags that can be converted to a boolean. -/
  | convertFlag
  /-- The flags that can be returned to the instruction unit. -/
  | returnFlag
  /-- The functions of two truth values, numbered by their truth table. -/
  | logicalFunction
  | register
  | operandType
  /-- The operand sizes in bits, and two symbolic ones. -/
  | operandSize
  | direction
deriving DecidableEq, Repr

namespace NameTable

/-- The names of a table, in the order of the values they name. -/
def names : NameTable → List String
  | .baseRegister =>
      ["entry-access-list", "context", "processor", "operand-stack",
       "data-seg-cache-0", "data-seg-cache-1", "data-seg-cache-2",
       "data-seg-cache-3", "process", "inst-seg", "public-access-list",
       "private-access-list", "global-constants", "seg-table-dir",
       "dispatching-port", "carrier"]
  | .performOperation =>
      ["mul-ordinal", "mul-integer", "div-ordinal", "div-integer",
       "rem-ordinal", "rem-integer", "mul-real", "div-real", "add-real",
       "sub-real", "compare-real", "convert-real", "sqrt-real", "shift-left",
       "shift-right", "normalize"]
  | .branchCondition =>
      ["zero", "negative", "carry", "overflow"]
  | .sourceSelect =>
      ["deq-a", "deq-b"]
  | .convertFlag =>
      ["equal", "not-equal", "less", "less-equal", "greater",
       "greater-equal", "carry", "no-carry", "zero", "not-zero", "negative",
       "not-negative", "overflow", "no-overflow", "sign-a", "sign-b"]
  | .returnFlag =>
      ["false", "true", "zero", "not-zero", "negative", "positive", "carry",
       "no-carry", "overflow", "no-overflow", "underflow", "inexact",
       "invalid", "divide-by-zero", "unordered", "ordered"]
  | .logicalFunction =>
      ["zero", "a-and-b", "a-and-not-b", "a", "not-a-and-b", "b", "a-xor-b",
       "a-or-b", "a-nor-b", "a-xnor-b", "not-b", "a-or-not-b", "not-a",
       "not-a-or-b", "a-nand-b", "ones"]
  | .register =>
      ["seg-sel-stack", "disp-stack", "ip-stack", "exponent-stack",
       "bit-pointer-stack", "extractor-shift-count", "deq-a", "deq-b", "sa",
       "fault-code", "process-timer", "lookahead", "tbip", "bip", "xbuf",
       "inst-seg-sel"]
  | .operandType =>
      ["char", "shortordinal", "shortinteger", "ordinal", "integer",
       "shortreal", "real", "tempreal"]
  | .operandSize =>
      ["8", "16", "32", "48", "64", "80", "inst", "segsel"]
  | .direction =>
      ["read", "write"]

def size (t : NameTable) : Nat := t.names.length

/-- The name of a value; a value beyond the table has none. -/
def name? (t : NameTable) (value : Word) : Option String := t.names[value.toNat]?

/-- The table for the values of the field `letter` in an instruction. -/
def select? (mnemonic : String) (letter : Char) : Option NameTable :=
  match letter with
  | 'B' => some .baseRegister
  | 'C' =>
      if mnemonic = Mnemonic.performOperation then some .performOperation
      else if mnemonic = Mnemonic.moveConditionToBranchFlag then some .branchCondition
      else some .sourceSelect
  | 'F' =>
      if mnemonic = Mnemonic.convertFlagToBoolean then some .convertFlag
      else if mnemonic = Mnemonic.returnFlag then some .returnFlag
      else none
  | 'L' => some .logicalFunction
  | 'R' => some .register
  | 'T' => some .operandType
  | 'V' => some .operandSize
  | 'W' => some .direction
  | _ => none

end NameTable

end Microcode
