import Microcode.Proofs.Disassembler.RowOrder
import Microcode.Proofs.Operand
import Microcode.Proofs.Pattern.Partition

/-!
# Operands without a name

An operand of a field without a name table is shown as a number, with a
digit for every four bits of the field, or part of four. Zeros in front
make up for missing digits only: a number that needs more digits than that
would get them. None does, since a field extracts nothing beyond its own
bits (`Field.extract_lt_pow`), so the number of digits depends on the field
and not on the opcode. The value is read back off them, zeros included.
-/

namespace Microcode

namespace Field

variable {f : Field} {mnemonic : String}

/-- The digits that show what an opcode carries in the field. -/
def numeral (f : Field) (w : Word) : List Char :=
  Hex.digits ((f.width + 3) / 4) (f.extract w).toNat

theorem extract_lt_pow (f : Field) (w : Word) :
    (f.extract w).toNat < 16 ^ ((f.width + 3) / 4) := by
  have hbits : f.width ≤ 4 * ((f.width + 3) / 4) := by omega
  calc (f.extract w).toNat < f.valueCount := f.extract_lt w
    _ = 2 ^ f.width := by rw [valueCount, Nat.one_shiftLeft]
    _ ≤ 2 ^ (4 * ((f.width + 3) / 4)) := Nat.pow_le_pow_right (by decide) hbits
    _ = 16 ^ ((f.width + 3) / 4) := Nat.pow_mul 2 4 _

theorem length_numeral (h : 1 ≤ f.width) (w : Word) :
    (f.numeral w).length = (f.width + 3) / 4 :=
  Hex.length_digits (f.extract_lt_pow w) (by omega)

theorem exists_operand?_of_unnamed (hsel : NameTable.select? mnemonic f.letter = none) (w : Word) :
    ∃ s, f.operand? mnemonic (f.extract w) = some s ∧
      s.toList = f.letter :: '=' :: '0' :: 'x' :: f.numeral w := by
  rw [operand?_of_unnamed hsel]
  refine ⟨_, rfl, ?_⟩
  simp [Hex.text, numeral]

end Field

/-- The operands stand in the order of the fields. -/
theorem Encoding.getElem?_operands {e : Encoding} {k : Nat} {f : Field}
    (hf : e.pattern.fields[k]? = some f) (w : Word) :
    (e.operands w)[k]? = f.operand? e.mnemonic (f.extract w) := by
  have hmap := congrArg (·[k]?) (e.map_some_operands w)
  simp only [List.getElem?_map, hf, Option.map_some] at hmap
  cases hs : (e.operands w)[k]? with
  | none =>
      rw [hs] at hmap
      cases hmap
  | some s =>
      rw [hs, Option.map_some] at hmap
      exact Option.some.inj hmap

namespace Disassembler

variable {rows : List Row} {d : Disassembler}

theorem Built.exists_operand_of_unnamed (h : Built rows d) {e : Encoding} {k : Nat} {f : Field}
    (hf : e.pattern.fields[k]? = some f) (hsel : NameTable.select? e.mnemonic f.letter = none)
    {w : Word} (hw : d.encoding? w = some e) :
    ∃ s, (d.disassemble w).operands[k]? = some s ∧
      s.toList = f.letter :: '=' :: '0' :: 'x' :: f.numeral w ∧
      (f.numeral w).length = (f.width + 3) / 4 := by
  obtain ⟨-, -, hread⟩ := h.encoding?_eq_some_iff.mp hw
  have hwf := Pattern.wellFormed_of_ofText (Encoding.ofRow_eq_ok_iff.mp hread).1
  have hwidth := (hwf.fields_wellFormed f (List.mem_of_getElem? hf)).width_pos
  obtain ⟨s, hs, htext⟩ := Field.exists_operand?_of_unnamed hsel w
  refine ⟨s, ?_, htext, Field.length_numeral hwidth w⟩
  rw [disassemble, hw, ← hs]
  exact Encoding.getElem?_operands hf w

/-- In an instruction that rows describe, the operand of a field without a
name table is the letter, the sign for a hexadecimal number, and exactly as
many digits as the bits of the field take, all in lower case, which spell
what the opcode carries in the field. So under one row the operand has the
same length for all opcodes. -/
theorem operands_of_unnamed (h : ofRows rows = .ok d) {e : Encoding} {k : Nat} {f : Field}
    (hf : e.pattern.fields[k]? = some f) (hsel : NameTable.select? e.mnemonic f.letter = none) :
    (∀ w, d.encoding? w = some e → ∃ s digits, (d.disassemble w).operands[k]? = some s ∧
      s.toList = f.letter :: '=' :: '0' :: 'x' :: digits ∧
      digits.length = (f.width + 3) / 4 ∧
      (∀ c ∈ digits, Hex.IsLowerDigit c) ∧
      Hex.value? digits = some (f.extract w).toNat) ∧
    ∀ w w' s s', d.encoding? w = some e → d.encoding? w' = some e →
      (d.disassemble w).operands[k]? = some s → (d.disassemble w').operands[k]? = some s' →
        s.length = s'.length := by
  have hbuilt := built_of_ofRows h
  constructor
  · intro w hw
    obtain ⟨s, hs, htext, hlen⟩ := hbuilt.exists_operand_of_unnamed hf hsel hw
    exact ⟨s, f.numeral w, hs, htext, hlen, fun c hc => Hex.isLowerDigit_of_mem_digits hc,
      Hex.value?_digits _ _⟩
  · have hlength : ∀ w s, d.encoding? w = some e → (d.disassemble w).operands[k]? = some s →
        s.length = (f.width + 3) / 4 + 4 := by
      intro w s hw hs
      obtain ⟨s', hs', htext, hlen⟩ := hbuilt.exists_operand_of_unnamed hf hsel hw
      obtain rfl := Option.some.inj (hs.symm.trans hs')
      rw [← String.length_toList, htext, ← hlen]
      rfl
    intro w w' s s' hw hw' hs hs'
    rw [hlength w s hw hs, hlength w' s' hw' hs']

/-- Twelve bits take three digits, though the value has two. -/
theorem operands_of_unnamed_branch :
    let rows : List Row := [⟨"1100 AAAA AAAA AAAA", "1", "Branch"⟩]
    ∃ d e, ofRows rows = .ok d ∧ d.encoding? 0xC042 = some e ∧
      e.pattern.fields[0]? = some ⟨'A', 0, 12⟩ ∧ NameTable.select? e.mnemonic 'A' = none ∧
      ∃ s digits, (d.disassemble 0xC042).operands[0]? = some s ∧
        s.toList = 'A' :: '=' :: '0' :: 'x' :: digits ∧ digits.length = 3 ∧
        (∀ c ∈ digits, Hex.IsLowerDigit c) ∧ Hex.value? digits = some 0x42 := by
  intro rows
  have hrows : ∃ t, EncodingTable.ofRows rows = .ok t ∧ t.Exclusive := ⟨_, rfl, by decide⟩
  obtain ⟨d, hd⟩ := exists_ofRows_iff_exclusive.mpr hrows
  have hbuilt := built_of_ofRows hd
  obtain ⟨e, hread, hrow⟩ := hbuilt.exists_ofRow List.mem_cons_self
  have hpattern : ∃ p, Pattern.ofText "1100 AAAA AAAA AAAA" = .ok p ∧
      p.fields[0]? = some ⟨'A', 0, 12⟩ := ⟨_, rfl, rfl⟩
  obtain ⟨p, htext, hf⟩ := hpattern
  obtain rfl := Except.ok.inj (htext.symm.trans (Encoding.ofRow_eq_ok_iff.mp hread).1)
  have hsel : NameTable.select? e.mnemonic 'A' = none := rfl
  have hw : d.encoding? 0xC042 = some e := by
    refine hbuilt.encoding?_eq_some_iff.mpr ⟨?_, ?_, ?_⟩ <;> rw [hrow]
    · exact List.mem_cons_self
    · decide
    · exact hread
  obtain ⟨hopcodes, -⟩ := operands_of_unnamed hd hf hsel
  exact ⟨d, e, hd, hw, hf, hsel, hopcodes 0xC042 hw⟩

end Disassembler

end Microcode
