import Microcode.Proofs.Disassembler.RowOrder
import Microcode.Proofs.OpcodeMap.Population

/-!
# Opcodes without a meaning

An opcode that no row claims is shown under the name for the unknown. The
converse holds as long as no row bears that name: whether an instruction is
unknown is told by its name alone (`Instruction.IsUnknown`), and a row may
bear any name, so the opcodes of a row that is named like the unknown are
taken for unclaimed (`Concealed`). Every row that is accepted claims some
opcode (`Built.exists_claims`), so one row of that name is enough for the
known opcodes to be fewer than those with an owner
(`Built.knownCount_eq_populated_iff`).
-/

namespace Microcode.Disassembler

/-- A row claims the opcode under the name for the unknown. -/
def Concealed (rows : List Row) (w : Word) : Prop :=
  ∃ row ∈ rows, row.Claims w ∧ row.mnemonic = Mnemonic.unknown

instance (rows : List Row) : DecidablePred (Concealed rows) :=
  fun w => inferInstanceAs
    (Decidable (∃ row ∈ rows, row.Claims w ∧ row.mnemonic = Mnemonic.unknown))

/-- The number of opcodes that are shown under a name of their own. -/
def knownCount (d : Disassembler) : Nat :=
  Word.all.countP fun w => ¬ (d.disassemble w).IsUnknown

theorem isUnknown_disassemble_iff {d : Disassembler} {w : Word} :
    (d.disassemble w).IsUnknown ↔ ∀ row, d.row? w = some row → row.mnemonic = Mnemonic.unknown := by
  unfold disassemble row?
  cases d.encoding? w with
  | none => simp [Instruction.IsUnknown, Instruction.unknown]
  | some e =>
      show e.mnemonic = Mnemonic.unknown ↔ _
      simp [Encoding.mnemonic]

namespace Built

variable {rows : List Row} {d : Disassembler} {w : Word} (h : Built rows d)

include h

theorem owner?_eq_none_iff_claims :
    d.opcodes.owner? w = none ↔ ∀ row ∈ rows, ¬ row.Claims w := by
  rw [← h.owner?_eq_none_iff, ← OpcodeMap.map_val_owner?, Option.map_eq_none_iff]

/-- A row that is accepted gives no value for a bit that it does not fix,
so it claims its own fixed bits. -/
theorem exists_claims {row : Row} (hrow : row ∈ rows) : ∃ w, row.Claims w := by
  obtain ⟨e, hread, rfl⟩ := h.exists_ofRow hrow
  obtain ⟨htext, -⟩ := Encoding.ofRow_eq_ok_iff.mp hread
  have hcons : e.pattern.Consistent := (Pattern.reads_of_ofText htext).consistent
  exact ⟨e.pattern.constBits, (Pattern.claims_iff_of_ofText htext).mp hcons.claims_constBits⟩

theorem isUnknown_iff_concealed :
    (d.disassemble w).IsUnknown ↔ d.opcodes.owner? w = none ∨ Concealed rows w := by
  rw [isUnknown_disassemble_iff, h.owner?_eq_none_iff_claims]
  simp only [h.row?_eq_some_iff]
  constructor
  · intro hname
    by_cases hclaimed : ∃ row ∈ rows, row.Claims w
    · obtain ⟨row, hrow, hclaim⟩ := hclaimed
      exact .inr ⟨row, hrow, hclaim, hname row ⟨hrow, hclaim⟩⟩
    · exact .inl fun row hrow hclaim => hclaimed ⟨row, hrow, hclaim⟩
  · intro hcause row' hrow'
    obtain ⟨hrow', hclaim'⟩ := hrow'
    rcases hcause with hfree | ⟨row, hrow, hclaim, hname⟩
    · exact absurd hclaim' (hfree row' hrow')
    · have hw : d.row? w = some row := h.row?_eq_some_iff.mpr ⟨hrow, hclaim⟩
      have hw' : d.row? w = some row' := h.row?_eq_some_iff.mpr ⟨hrow', hclaim'⟩
      obtain rfl := Option.some.inj (hw.symm.trans hw')
      exact hname

theorem not_concealed_of_owner?_eq_none (hnone : d.opcodes.owner? w = none) :
    ¬ Concealed rows w := by
  rintro ⟨row, hrow, hclaim, -⟩
  exact h.owner?_eq_none_iff_claims.mp hnone row hrow hclaim

/-- What has an owner is shown under a name of its own or concealed. -/
theorem knownCount_add_countP :
    d.knownCount + Word.all.countP (Concealed rows ·) = d.opcodes.populated := by
  have hapart : ∀ w ∈ Word.all, ¬ (d.disassemble w).IsUnknown → ¬ Concealed rows w :=
    fun w _ hknown hconcealed => hknown (h.isUnknown_iff_concealed.mpr (.inr hconcealed))
  rw [knownCount, ← countP_or hapart, OpcodeMap.populated]
  refine List.countP_congr fun w _ => ?_
  rw [decide_eq_true_eq, h.isUnknown_iff_concealed, not_or, Option.isSome_iff_ne_none]
  constructor
  · intro hshown
    rcases hshown with ⟨howner, -⟩ | hconcealed
    · exact howner
    · exact fun hnone => h.not_concealed_of_owner?_eq_none hnone hconcealed
  · intro howner
    by_cases hconcealed : Concealed rows w
    · exact .inr hconcealed
    · exact .inl ⟨howner, hconcealed⟩

theorem forall_not_concealed_iff :
    (∀ w, ¬ Concealed rows w) ↔ ∀ row ∈ rows, row.mnemonic ≠ Mnemonic.unknown := by
  constructor
  · intro hnone row hrow hname
    obtain ⟨w, hclaim⟩ := h.exists_claims hrow
    exact hnone w ⟨row, hrow, hclaim, hname⟩
  · intro hnames w hconcealed
    obtain ⟨row, hrow, -, hname⟩ := hconcealed
    exact hnames row hrow hname

theorem isUnknown_iff_owner?_eq_none_iff :
    (∀ w, (d.disassemble w).IsUnknown ↔ d.opcodes.owner? w = none) ↔
      ∀ row ∈ rows, row.mnemonic ≠ Mnemonic.unknown := by
  rw [← h.forall_not_concealed_iff]
  refine forall_congr' fun w => ?_
  rw [h.isUnknown_iff_concealed, or_iff_left_iff_imp]
  constructor
  · intro howner hconcealed
    exact h.not_concealed_of_owner?_eq_none (howner hconcealed) hconcealed
  · exact fun hnot hconcealed => absurd hconcealed hnot

theorem knownCount_eq_populated_iff :
    d.knownCount = d.opcodes.populated ↔ ∀ row ∈ rows, row.mnemonic ≠ Mnemonic.unknown := by
  rw [← h.forall_not_concealed_iff, ← h.knownCount_add_countP, Nat.left_eq_add,
    List.countP_eq_zero]
  simp [Word.mem_all]

end Built

/-- Under rows that are accepted an opcode is unknown exactly if it has no
owner or its row bears the name for the unknown. The known opcodes and those
concealed in that way are together as many as have an owner. To be unknown
is the same as to have no owner, and the known opcodes are as many as have
one, exactly if no row bears the name. -/
theorem isUnknown_iff_of_ofRows {rows : List Row} {d : Disassembler} (h : ofRows rows = .ok d) :
    (∀ w, (d.disassemble w).IsUnknown ↔ d.opcodes.owner? w = none ∨ Concealed rows w) ∧
      d.knownCount + Word.all.countP (Concealed rows ·) = d.opcodes.populated ∧
      ((∀ w, (d.disassemble w).IsUnknown ↔ d.opcodes.owner? w = none) ↔
        ∀ row ∈ rows, row.mnemonic ≠ Mnemonic.unknown) ∧
      (d.knownCount = d.opcodes.populated ↔
        ∀ row ∈ rows, row.mnemonic ≠ Mnemonic.unknown) := by
  have hbuilt := built_of_ofRows h
  exact ⟨fun w => hbuilt.isUnknown_iff_concealed, hbuilt.knownCount_add_countP,
    hbuilt.isUnknown_iff_owner?_eq_none_iff, hbuilt.knownCount_eq_populated_iff⟩

theorem isUnknown_iff_of_ofRows_branch :
    let rows : List Row := [⟨"1100 AAAA AAAA AAAA", "1", "Branch"⟩,
      ⟨"1111 0JJ0 1011 WVVV", "1", "Access Destination"⟩]
    ∃ d, ofRows rows = .ok d ∧
      (∀ w, (d.disassemble w).IsUnknown ↔ d.opcodes.owner? w = none) ∧
      d.knownCount = d.opcodes.populated := by
  intro rows
  have hrows : ∃ t, EncodingTable.ofRows rows = .ok t ∧ t.Exclusive := ⟨_, rfl, by decide⟩
  obtain ⟨d, hd⟩ := exists_ofRows_iff_exclusive.mpr hrows
  have hnames : ∀ row ∈ rows, row.mnemonic ≠ Mnemonic.unknown := by decide
  obtain ⟨-, -, hopcodes, hcount⟩ := isUnknown_iff_of_ofRows hd
  exact ⟨d, hd, hopcodes.mpr hnames, hcount.mpr hnames⟩

/-- The opcode belongs to the row and is shown with its operand, and is
unknown. No opcode is known then, though 4096 have an owner. -/
theorem isUnknown_of_row_named_unknown :
    let rows : List Row := [⟨"1100 AAAA AAAA AAAA", "1", "unknown"⟩]
    ∃ d, ofRows rows = .ok d ∧
      (d.opcodes.owner? 0xC042).map Fin.val = some 0 ∧
      (d.disassemble 0xC042).operands = ["A=0x042"] ∧
      (d.disassemble 0xC042).IsUnknown ∧
      d.opcodes.populated = 4096 ∧ d.knownCount = 0 := by
  intro rows
  have hrows : ∃ t, EncodingTable.ofRows rows = .ok t ∧ t.Exclusive := ⟨_, rfl, by decide⟩
  obtain ⟨d, hd⟩ := exists_ofRows_iff_exclusive.mpr hrows
  have hbuilt := built_of_ofRows hd
  have hclaim : Row.Claims ⟨"1100 AAAA AAAA AAAA", "1", "unknown"⟩ 0xC042 := by decide
  have howner : d.opcodes.slots.owner? 0xC042 = some 0 :=
    hbuilt.owner?_eq_some_iff.mpr ⟨_, rfl, hclaim⟩
  obtain ⟨hmnemonic, hoperands⟩ := hbuilt.disassemble_of_ofText rfl List.mem_cons_self hclaim
  have hunknown : ∀ w, (d.disassemble w).IsUnknown := by
    intro w
    refine isUnknown_disassemble_iff.mpr fun row hrow => ?_
    obtain ⟨hmem, -⟩ := hbuilt.row?_eq_some_iff.mp hrow
    rw [List.mem_singleton.mp hmem]
    rfl
  have hpopulated : d.opcodes.populated = 4096 := by
    obtain ⟨htable, hmap⟩ := ofRows_eq_ok_iff.mp hd
    rw [OpcodeMap.populated_ofTable (EncodingTable.consistent_of_ofRows htable) hmap]
    obtain ⟨table, opcodes⟩ := d
    cases htable
    rfl
  refine ⟨d, hd, by rw [OpcodeMap.map_val_owner?, howner], ?_, hmnemonic, hpopulated, ?_⟩
  · exact List.map_injective_iff.mpr (Option.some_injective _) (hoperands.trans rfl)
  · exact List.countP_eq_zero.mpr fun w _ => by simp [hunknown w]

end Microcode.Disassembler
