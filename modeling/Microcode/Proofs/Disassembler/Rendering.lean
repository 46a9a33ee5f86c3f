import Microcode.Proofs.Disassembler.RowOrder
import Microcode.Proofs.Pattern.Encode

/-!
# Every operand has a text

An operand of a named field has no text if its value lies beyond the name
table (`Field.isSome_operand?_iff`). Rows are accepted only if no field is
wider than its table. That this is enough is plain, as a field extracts
nothing beyond its width. It is also no more than needed: the rest of the
pattern keeps no value of a field out, so where a field is too wide some
opcode of the pattern carries a value without a name
(`Pattern.WellFormed.named_iff`).

`Row.instruction?` decodes by the text of a row alone and has no result
where an operand has no text. For the row that claims the opcode it always
has one, and it is what the disassembler shows.
-/

namespace Microcode

namespace Field

theorem isSome_operand?_iff {f : Field} {mnemonic : String} {table : NameTable}
    (hsel : NameTable.select? mnemonic f.letter = some table) {v : Word} :
    (f.operand? mnemonic v).isSome ↔ v.toNat < table.size := by
  rw [operand?, hsel]
  simp only [Option.isSome_map, NameTable.name?, isSome_getElem?, NameTable.size]

end Field

/-- A named field has names for all its values exactly if none of the
opcodes that the pattern claims carries a value without one. -/
theorem Pattern.WellFormed.named_iff {p : Pattern} (h : p.WellFormed) {f : Field}
    (hf : f ∈ p.fields) {mnemonic : String} :
    f.Named mnemonic ↔ ∀ w, p.Claims w → (f.operand? mnemonic (f.extract w)).isSome := by
  refine ⟨fun hnamed w _ => Field.isSome_operand?_extract hnamed w, fun hall table hsel => ?_⟩
  by_contra hwide
  -- the first value beyond the table
  have hlt : table.size < f.valueCount := Nat.lt_of_not_le hwide
  have hend := (h.fields_wellFormed f hf).end_le
  have hcount : f.valueCount ≤ 2 ^ 16 := by
    rw [Field.valueCount, Nat.one_shiftLeft]
    exact Nat.pow_le_pow_right (by decide) (by omega)
  have hvalue : (BitVec.ofNat 16 table.size).toNat = table.size :=
    Nat.mod_eq_of_lt (Nat.lt_of_lt_of_le hlt hcount)
  obtain ⟨w, hclaim, hextract⟩ := h.exists_claims_extract_eq hf (hvalue.symm ▸ hlt)
  have hsome := (Field.isSome_operand?_iff hsel).mp (hall w hclaim)
  rw [hextract, hvalue] at hsome
  exact Nat.lt_irrefl _ hsome

theorem EncodingTable.exists_ofRows_singleton_iff {row : Row} :
    (∃ t, ofRows [row] = .ok t) ↔ ∃ e, Encoding.ofRow row = .ok e := by
  rw [exists_ofRows_iff, List.forall_mem_singleton]

namespace Row

/-- What the row makes of `w`, with nothing taken for granted: there is no
result if the text is no pattern or an operand has no text. -/
def instruction? (row : Row) (w : Word) : Option Instruction :=
  match Pattern.ofText row.pattern with
  | .ok p =>
      (p.fields.mapM fun f : Field => f.operand? row.mnemonic (f.extract w)).map fun operands =>
        { mnemonic := row.mnemonic, operands }
  | .error _ => none

theorem instruction?_of_ofRow {row : Row} {e : Encoding} (h : Encoding.ofRow row = .ok e)
    (w : Word) : row.instruction? w = some (e.instruction w) := by
  obtain ⟨htext, rfl⟩ := Encoding.ofRow_eq_ok_iff.mp h
  have hoperands := mapM_eq_some_iff.mpr (e.map_some_operands w).symm
  rw [instruction?, htext]
  exact congrArg (Option.map _) hoperands

end Row

namespace Disassembler

/-- A row is accepted exactly if every opcode that its pattern claims can
be shown. So in a disassembler built from rows, the standard ones or
others, every opcode is decoded to the end: the row that claims it has a
text for each of its operands. -/
theorem instruction?_of_ofRows :
    (∀ (row : Row) (p : Pattern), Pattern.ofText row.pattern = .ok p →
      ((∃ t, EncodingTable.ofRows [row] = .ok t) ↔
        ∀ w, p.Claims w → ∀ f ∈ p.fields, (f.operand? row.mnemonic (f.extract w)).isSome)) ∧
      ∀ (rows : List Row) (d : Disassembler),
        (ofRows rows = .ok d ∨
          ∃ options, standard options = .ok d ∧ rows = Row.standard options.resolution) →
        ∀ w, (∀ row ∈ rows, row.Claims w → row.instruction? w = some (d.disassemble w)) ∧
          ((∀ row ∈ rows, ¬ row.Claims w) → d.disassemble w = .unknown) := by
  constructor
  · intro row p htext
    have hwf := Pattern.wellFormed_of_ofText htext
    rw [EncodingTable.exists_ofRows_singleton_iff, Encoding.exists_ofRow_iff]
    constructor
    · rintro ⟨-, hnamed⟩ w hclaim f hf
      exact (hwf.named_iff hf).mp (hnamed p htext f hf) w hclaim
    · intro hall
      refine ⟨⟨p, htext⟩, fun q hq f hf => ?_⟩
      obtain rfl := Except.ok.inj (htext.symm.trans hq)
      exact (hwf.named_iff hf).mpr fun w hclaim => hall w hclaim f hf
  · intro rows d hd w
    have hbuilt : Built rows d := by
      rcases hd with hd | ⟨options, hd, rfl⟩
      · exact built_of_ofRows hd
      · exact built_of_ofRows hd
    refine ⟨fun row hrow hclaim => ?_, hbuilt.disassemble_of_not_claims⟩
    obtain ⟨e, hread, rfl⟩ := hbuilt.exists_ofRow hrow
    rw [Row.instruction?_of_ofRow hread, hbuilt.disassemble_of_claims hrow hclaim hread]

theorem instruction?_wideDirection :
    let wide : Row := ⟨"0000 0000 0000 00WW", "1", "Wide Direction"⟩
    let rows : List Row := [⟨"1100 AAAA AAAA AAAA", "1", "Branch"⟩,
      ⟨"1111 0JJ0 1011 WVVV", "1", "Access Destination"⟩]
    (¬ ∃ t, EncodingTable.ofRows [wide] = .ok t) ∧
      ∃ d, ofRows rows = .ok d ∧
        d.disassemble 0xF0BA = ⟨"Access Destination", ["V=32", "W=write", "J=0x0"]⟩ ∧
        d.disassemble 0xE000 = .unknown := by
  intro wide rows
  have hwide : Pattern.ofText "0000 0000 0000 00WW" = .ok
      { constMask := 0xFFFC, fields := [⟨'W', 0, 2⟩] } := rfl
  have hrows : ∃ t, EncodingTable.ofRows rows = .ok t ∧ t.Exclusive := ⟨_, rfl, by decide⟩
  obtain ⟨d, hd⟩ := exists_ofRows_iff_exclusive.mpr hrows
  refine ⟨fun haccepted => ?_, d, hd, ?_, ?_⟩
  · -- there are two directions, so the value 2 has no name
    have hall := (instruction?_of_ofRows.1 wide _ hwide).mp haccepted
    exact absurd (hall 2 (by decide) ⟨'W', 0, 2⟩ List.mem_cons_self) (by decide)
  · obtain ⟨hclaimed, -⟩ := instruction?_of_ofRows.2 rows d (.inl hd) 0xF0BA
    exact Option.some.inj ((hclaimed _ (List.mem_cons_of_mem _ List.mem_cons_self)
      (by decide)).symm.trans rfl)
  · exact (instruction?_of_ofRows.2 rows d (.inl hd) 0xE000).2 (by decide)

end Disassembler

end Microcode
