import Microcode.Diagnostic
import Microcode.Operand

/-!
# Encodings and tables of them

A row of an encoding table is text: a pattern, a cycle count and a
mnemonic. An encoding is a row whose pattern has been read and whose
named operand fields have a name for each of their values, so an
instruction that is encoded this way can always be shown in full.
-/

namespace Microcode

/-- Reads the pattern text of an entry of a table. A fault is reported with
the entry and its text. -/
def Pattern.ofEntry (entry : Nat) (text : String) : Except Diagnostic Pattern :=
  (Pattern.ofText text).mapError (.pattern entry text)

/-- A row of an encoding table, as written. -/
structure Row where
  pattern : String
  /-- The cycles the instruction takes; for display only. -/
  cycles : String
  mnemonic : String
deriving DecidableEq, Repr

structure Encoding where
  row : Row
  pattern : Pattern
  /-- No operand of a named field goes without a name. -/
  named : ∀ f ∈ pattern.fields, f.Named row.mnemonic
deriving DecidableEq, Repr

namespace Encoding

def mnemonic (e : Encoding) : String := e.row.mnemonic

/-- The fault of a field that has more values than its table has
names. -/
def fieldFault? (mnemonic : String) (f : Field) : Option PatternFault :=
  match NameTable.select? mnemonic f.letter with
  | some table =>
      if table.size < f.valueCount then some (.tooWide f.letter f.width table.size)
      else none
  | none => none

theorem named_of_fieldFault?_eq_none {mnemonic : String} {f : Field}
    (h : fieldFault? mnemonic f = none) : f.Named mnemonic := by
  intro table hsel
  rw [fieldFault?, Option.mem_def.mp hsel] at h
  simp only [ite_eq_right_iff, reduceCtorEq, imp_false, Nat.not_lt] at h
  exact h

/-- Reads a row. The lowest field that is too wide is reported. -/
def ofRow (row : Row) : Except PatternFault Encoding :=
  match Pattern.ofText row.pattern with
  | .error fault => .error fault
  | .ok pattern =>
      match h : pattern.fields.findSome? (fieldFault? row.mnemonic) with
      | some fault => .error fault
      | none =>
          .ok ⟨row, pattern, fun f hf =>
            named_of_fieldFault?_eq_none (List.findSome?_eq_none_iff.mp h f hf)⟩

/-- The operands of the instruction `w`, lowest field first. -/
def operands (e : Encoding) (w : Word) : List String :=
  e.pattern.fields.attach.map fun f =>
    (f.1.operand? e.mnemonic (f.1.extract w)).get
      (Field.isSome_operand?_extract (e.named f.1 f.2) w)

/-- The operands are the texts of the values that `w` carries. -/
theorem map_some_operands (e : Encoding) (w : Word) :
    (e.operands w).map some =
      e.pattern.fields.map fun f => f.operand? e.mnemonic (f.extract w) := by
  refine Eq.trans ?_ List.attach_map_val
  rw [operands, List.map_map]
  exact List.map_congr_left fun f _ => Option.some_get _

end Encoding

/-- A table of encodings. Their positions are the indexes by which
owners and faults are named. -/
structure EncodingTable where
  encodings : Array Encoding
deriving DecidableEq, Repr

namespace EncodingTable

def size (t : EncodingTable) : Nat := t.encodings.size

def get? (t : EncodingTable) (index : Nat) : Option Encoding := t.encodings[index]?

/-- Reads the rows in order and stops at the first that is at fault. -/
def ofRows (rows : List Row) : Except Diagnostic EncodingTable :=
  let read : Row × Nat → Except Diagnostic Encoding := fun (row, index) =>
    (Encoding.ofRow row).mapError (.pattern index row.pattern)
  (rows.zipIdx.mapM read).map fun encodings => ⟨encodings.toArray⟩

end EncodingTable

end Microcode
