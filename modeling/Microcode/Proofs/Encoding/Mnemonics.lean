import Mathlib.Data.List.Nodup
import Microcode.Encoding.Standard

/-!
# Mnemonics that tell rows apart

Where the text of an instruction is to tell its row, the mnemonics of the
rows have to differ from each other and from what is shown for an opcode
without a row, and they have to end where the text says they do
(`Row.NamedApart`). Where the text is to stay on one line, they have no
line feed. The standard tables have such mnemonics. Their rows but one are
the same, so this is checked for one list that holds the rows of both.
-/

namespace Microcode.Row

/-- The mnemonics tell the rows from each other and from opcodes without
a row, also where operands follow them. -/
def NamedApart (rows : List Row) : Prop :=
  (rows.map Row.mnemonic).Nodup ∧
    ∀ row ∈ rows, '=' ∉ row.mnemonic.toList ∧ row.mnemonic ≠ Mnemonic.unknown

instance : DecidablePred NamedApart :=
  fun rows => inferInstanceAs (Decidable ((rows.map Row.mnemonic).Nodup ∧
    ∀ row ∈ rows, '=' ∉ row.mnemonic.toList ∧ row.mnemonic ≠ Mnemonic.unknown))

namespace NamedApart

variable {rows rows' : List Row} (h : NamedApart rows)

include h

theorem sublist (hsub : rows'.Sublist rows) : NamedApart rows' :=
  ⟨h.1.sublist (hsub.map _), fun row hrow => h.2 row (hsub.subset hrow)⟩

theorem eq_of_mnemonic_eq {row row' : Row} (hrow : row ∈ rows) (hrow' : row' ∈ rows)
    (heq : row.mnemonic = row'.mnemonic) : row = row' :=
  List.inj_on_of_nodup_map h.1 hrow hrow' heq

end NamedApart

/-! ## The standard tables -/

/-- The rows of both standard tables. -/
def standardAll : List Row :=
  standardHead ++ Resolution.setTraceFault.row :: Resolution.accessDestination.row :: standardTail

theorem standard_sublist (resolution : Resolution) :
    (standard resolution).Sublist standardAll := by
  cases resolution with
  | setTraceFault => exact ((List.sublist_cons_self _ _).cons_cons _).append_left _
  | accessDestination => exact (List.sublist_cons_self _ _).append_left _

/-- A string need not be decoded in order to look for a character that
one of its bytes gives away. -/
theorem not_mem_of_bytes {s : String} {c : Char} {b : UInt8} (hc : b ∈ String.utf8EncodeChar c)
    (h : b ∉ s.toByteArray.data.toList) : c ∉ s.toList := by
  intro hmem
  rw [← String.ofList_toList (s := s), String.toByteArray_ofList, List.utf8Encode,
    List.toList_data_toByteArray] at h
  exact h (List.mem_flatMap.mpr ⟨c, hmem, hc⟩)

/-- No mnemonic has an equals sign or a line feed. -/
theorem separators_not_mem_standardAll :
    ∀ row ∈ standardAll, '=' ∉ row.mnemonic.toList ∧ '\n' ∉ row.mnemonic.toList := by
  have hbytes : ∀ row ∈ standardAll, 0x3D ∉ row.mnemonic.toByteArray.data.toList ∧
      0x0A ∉ row.mnemonic.toByteArray.data.toList := by decide +kernel
  exact fun row hrow => ⟨not_mem_of_bytes (by decide) (hbytes row hrow).1,
    not_mem_of_bytes (by decide) (hbytes row hrow).2⟩

theorem namedApart_standardAll : NamedApart standardAll := by
  have hnodup : (standardAll.map Row.mnemonic).Nodup := by decide +kernel
  have hknown : ∀ row ∈ standardAll, row.mnemonic ≠ Mnemonic.unknown := by decide +kernel
  exact ⟨hnodup, fun row hrow => ⟨(separators_not_mem_standardAll row hrow).1, hknown row hrow⟩⟩

theorem namedApart_standard (resolution : Resolution) : NamedApart (standard resolution) :=
  namedApart_standardAll.sublist (standard_sublist resolution)

theorem newline_not_mem_standard (resolution : Resolution) :
    ∀ row ∈ standard resolution, '\n' ∉ row.mnemonic.toList :=
  fun row hrow => (separators_not_mem_standardAll row ((standard_sublist resolution).subset hrow)).2

end Microcode.Row
