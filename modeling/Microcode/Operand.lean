import Microcode.NameTable
import Microcode.Pattern.Basic
import Microcode.Text.Hex

/-!
# Operands as text

An operand is shown as the letter of its field and its value: by name if
a table names the values of the field, and otherwise as a hexadecimal
number with a digit for every four bits of the field, or part of four.
-/

namespace Microcode.Field

/-- The text of the operand `value`. A value that ought to have a name
but lies beyond its table has no text. -/
def operand? (f : Field) (mnemonic : String) (value : Word) : Option String :=
  let label := String.singleton f.letter ++ "="
  match NameTable.select? mnemonic f.letter with
  | some table => (table.name? value).map (label ++ ·)
  | none => some (label ++ "0x" ++ Hex.text ((f.width + 3) / 4) value.toNat)

/-- If a table names the values of the field, it names all of them. -/
def Named (f : Field) (mnemonic : String) : Prop :=
  ∀ table ∈ NameTable.select? mnemonic f.letter, f.valueCount ≤ table.size

instance (f : Field) (mnemonic : String) : Decidable (f.Named mnemonic) :=
  inferInstanceAs
    (Decidable (∀ table ∈ NameTable.select? mnemonic f.letter, f.valueCount ≤ table.size))

/-- Whatever the opcode, an operand taken from a named field has a
text. -/
theorem isSome_operand?_extract {f : Field} {mnemonic : String} (h : f.Named mnemonic)
    (w : Word) : (f.operand? mnemonic (f.extract w)).isSome := by
  unfold operand?
  cases hsel : NameTable.select? mnemonic f.letter with
  | none => simp
  | some table =>
      have hlt : (f.extract w).toNat < table.names.length :=
        Nat.lt_of_lt_of_le (f.extract_lt w) (h table hsel)
      simp [NameTable.name?, hlt]

end Microcode.Field
