import Microcode.Proofs.Disassembler.Building

/-!
# Decoding against the pattern texts

What a built disassembler makes of an opcode, said in terms of the texts
of its rows alone. A row claims an opcode if the opcode has the values of
the text's zeros and ones (`Row.Claims`), and the value of an operand is
the number that the opcode's bits spell at the places of the operand's
letter (`Pattern.spelled`). Between the two stand the masks of the
pattern (`Reads.claims_iff`), the slots of the opcode map
(`Built.owner?_eq_some_iff`) and the extraction of fields
(`ofNat_spelled`).
-/

namespace Microcode

/-- The opcode `w` has the value of every zero and one in the text of
the row. -/
def Row.Claims (row : Row) (w : Word) : Prop :=
  ∀ b < 16,
    ((Pattern.canonical row.pattern)[15 - b]? = some '0' → w.getLsbD b = false) ∧
      ((Pattern.canonical row.pattern)[15 - b]? = some '1' → w.getLsbD b = true)

instance (row : Row) (w : Word) : Decidable (row.Claims w) :=
  inferInstanceAs (Decidable (∀ b < 16,
    ((Pattern.canonical row.pattern)[15 - b]? = some '0' → w.getLsbD b = false) ∧
      ((Pattern.canonical row.pattern)[15 - b]? = some '1' → w.getLsbD b = true)))

namespace Pattern

/-! ## Spelling -/

/-- The bits whose character is `letter`, lowest first. -/
def bitsOf (cs : List Char) (letter : Char) : List Nat :=
  (List.range cs.length).filter (cs[·]? = some letter)

/-- The number that `w` spells at the places `bits`, the last of which is
the highest. -/
def spelled (w : Word) (bits : List Nat) : Nat :=
  bits.foldr (fun b n => 2 * n + (w.getLsbD b).toNat) 0

theorem testBit_spelled_range' (w : Word) (offset width i : Nat) :
    (spelled w (List.range' offset width)).testBit i =
      (decide (i < width) && w.getLsbD (offset + i)) := by
  induction width generalizing offset i with
  | zero => simp [spelled]
  | succ k ih =>
      rw [List.range'_succ, spelled, List.foldr_cons, ← spelled]
      cases i with
      | zero => cases w.getLsbD offset <;> simp [Nat.testBit_zero]
      | succ i =>
          have hhalf : (2 * spelled w (List.range' (offset + 1) k)
              + (w.getLsbD offset).toNat) / 2 = spelled w (List.range' (offset + 1) k) := by
            have := Bool.toNat_le (w.getLsbD offset)
            omega
          rw [Nat.testBit_succ, hhalf, ih, Nat.add_right_comm offset 1 i, Nat.add_assoc]
          simp

theorem bitsOf_eq_range' {cs : List Char} {f : Field} (h : Adjacent cs)
    (hf : f ∈ fieldsOf cs) : bitsOf cs f.letter = List.range' f.offset f.width := by
  rw [bitsOf, filter_range_eq (Nat.le_add_right _ f.width) (end_le_length h hf)
    fun b _ hb => (h f hf b).mp (of_decide_eq_true hb), Nat.add_sub_cancel_left]
  refine List.filter_eq_self.mpr fun b hb => ?_
  rw [List.mem_range'_1] at hb
  exact decide_eq_true ((h f hf b).mpr hb)

/-- What the bits of a letter spell is what its field extracts. -/
theorem ofNat_spelled {cs : List Char} {f : Field} (h : Adjacent cs) (hf : f ∈ fieldsOf cs)
    (w : Word) : BitVec.ofNat 16 (spelled w (bitsOf cs f.letter)) = f.extract w := by
  refine BitVec.eq_of_getLsbD_eq fun b hb => ?_
  rw [BitVec.getLsbD_ofNat, bitsOf_eq_range' h hf, testBit_spelled_range',
    Field.getLsbD_extract]
  simp [hb, Bool.and_comm]

theorem Reads.claims_iff {p : Pattern} {cs : List Char} (h : Reads p cs) {w : Word} :
    p.Claims w ↔ ∀ b < 16, (cs[b]? = some '0' → w.getLsbD b = false) ∧
      (cs[b]? = some '1' → w.getLsbD b = true) := by
  rw [claims_iff_getLsbD]
  refine forall_congr' fun b => forall_congr' fun _ => ?_
  have hmask : p.constMask.getLsbD b ↔ cs[b]? = some '0' ∨ cs[b]? = some '1' := by
    rw [h.constMask b]
    simp only [IsFixed, and_or_left, exists_or, exists_eq_right]
  have hbits : p.constBits.getLsbD b ↔ cs[b]? = some '1' := by
    rw [h.constBits b]
    simp only [exists_eq_right]
  by_cases hzero : cs[b]? = some '0'
  · have hbit : p.constBits.getLsbD b = false :=
      Bool.eq_false_iff.mpr fun hb => by simp [hbits.mp hb] at hzero
    simp [hmask.mpr (.inl hzero), hbit, hzero]
  by_cases hone : cs[b]? = some '1'
  · simp [hmask.mpr (.inr hone), hbits.mpr hone, hone]
  · have hfree : p.constMask.getLsbD b = false :=
      Bool.eq_false_iff.mpr fun hb => (hmask.mp hb).elim hzero hone
    have hbit : p.constBits.getLsbD b = false :=
      Bool.eq_false_iff.mpr fun hb => hone (hbits.mp hb)
    simp [hfree, hbit, hzero, hone]

theorem claims_iff_of_ofText {row : Row} {p : Pattern} (h : ofText row.pattern = .ok p)
    {w : Word} : p.Claims w ↔ row.Claims w := by
  rw [(reads_of_ofText h).claims_iff, Row.Claims]
  refine forall_congr' fun b => forall_congr' fun hb => ?_
  have hlen := length_canonical h
  rw [List.getElem?_reverse (by omega), hlen]

end Pattern

namespace Disassembler

theorem encoding?_eq_bind (d : Disassembler) (w : Word) :
    d.encoding? w = (d.opcodes.slots.owner? w).bind d.table.get? := by
  rw [encoding?, ← OpcodeMap.map_val_owner?, Option.bind_map]
  rfl

namespace Built

variable {rows : List Row} {d : Disassembler} (h : Built rows d)

include h

theorem get?_of_row {i : Nat} {row : Row} (hi : rows[i]? = some row) :
    ∃ e, d.table.get? i = some e ∧ e.row = row ∧ Pattern.ofText row.pattern = .ok e.pattern := by
  obtain ⟨e, he, hread⟩ := getElem?_of_forall₂ h.rows_read hi
  obtain ⟨htext, hrow⟩ := Encoding.ofRow_eq_ok_iff.mp hread
  exact ⟨e, by rwa [Array.getElem?_toList] at he, hrow, htext⟩

theorem row_of_get? {i : Nat} {e : Encoding} (hi : d.table.get? i = some e) :
    rows[i]? = some e.row ∧ Pattern.ofText e.row.pattern = .ok e.pattern := by
  rw [EncodingTable.get?, ← Array.getElem?_toList] at hi
  obtain ⟨row, hrow, hread⟩ := getElem?_of_forall₂ h.rows_read.flip hi
  obtain ⟨htext, rfl⟩ := Encoding.ofRow_eq_ok_iff.mp hread
  exact ⟨hrow, htext⟩

theorem owner?_eq_some_iff {w : Word} {i : Nat} :
    d.opcodes.slots.owner? w = some i ↔ ∃ row, rows[i]? = some row ∧ row.Claims w := by
  rw [h.holds.owner_iff]
  simp only [EncodingTable.calls, List.getElem?_map, Option.map_eq_some_iff]
  constructor
  · rintro ⟨_, ⟨e, he, rfl⟩, hclaim⟩
    rw [Array.getElem?_toList] at he
    obtain ⟨hrow, htext⟩ := h.row_of_get? he
    exact ⟨e.row, hrow, (Pattern.claims_iff_of_ofText htext).mp hclaim⟩
  · rintro ⟨row, hrow, hclaim⟩
    obtain ⟨e, he, -, htext⟩ := h.get?_of_row hrow
    refine ⟨e.call, ⟨e, by rwa [Array.getElem?_toList], rfl⟩, ?_⟩
    exact (Pattern.claims_iff_of_ofText htext).mpr hclaim

theorem owner?_eq_none_iff {w : Word} :
    d.opcodes.slots.owner? w = none ↔ ∀ row ∈ rows, ¬ row.Claims w := by
  rw [Option.eq_none_iff_forall_ne_some]
  simp only [ne_eq, h.owner?_eq_some_iff, not_exists, not_and]
  constructor
  · intro hnone row hrow
    obtain ⟨i, hi⟩ := List.mem_iff_getElem?.mp hrow
    exact hnone i row hi
  · exact fun hfree i row hi => hfree row (List.mem_of_getElem? hi)

end Built

/-- Of the rows of a built disassembler at most one claims an opcode. The
opcode then belongs to that row, and is shown with its mnemonic and one
operand for each letter of its text, lowest bit first, the value of which
is what the opcode spells at the places of the letter. An opcode that no
row claims has no owner and is unknown. -/
theorem disassemble_of_ofRows {rows : List Row} {d : Disassembler}
    (h : ofRows rows = .ok d) (w : Word) :
    (∀ (i j : Nat) (row row' : Row), rows[i]? = some row → rows[j]? = some row' →
        row.Claims w → row'.Claims w → i = j) ∧
      (∀ (i : Nat) (row : Row), rows[i]? = some row → row.Claims w →
        let cs := (Pattern.canonical row.pattern).reverse
        let letters := Pattern.letters cs
        (d.opcodes.owner? w).map Fin.val = some i ∧
          (d.disassemble w).mnemonic = row.mnemonic ∧
          (∀ c, c ∈ letters ↔ Pattern.IsFieldLetter c ∧ c ∈ cs) ∧
          letters.Pairwise (fun c c' => cs.idxOf c < cs.idxOf c') ∧
          (d.disassemble w).operands.map some = letters.map fun c =>
            (Pattern.fieldOf cs c).operand? row.mnemonic
              (BitVec.ofNat 16 (Pattern.spelled w (Pattern.bitsOf cs c)))) ∧
      ((∀ row ∈ rows, ¬ row.Claims w) →
        d.opcodes.owner? w = none ∧ d.disassemble w = .unknown) := by
  have hbuilt := built_of_ofRows h
  refine ⟨?_, ?_, ?_⟩
  · intro i j row row' hi hj hclaim hclaim'
    have hiw := hbuilt.owner?_eq_some_iff.mpr ⟨row, hi, hclaim⟩
    have hjw := hbuilt.owner?_eq_some_iff.mpr ⟨row', hj, hclaim'⟩
    exact Option.some.inj (hiw.symm.trans hjw)
  · intro i row hi hclaim cs letters
    have howner := hbuilt.owner?_eq_some_iff.mpr ⟨row, hi, hclaim⟩
    obtain ⟨e, he, rfl, htext⟩ := hbuilt.get?_of_row hi
    have hdis : d.disassemble w = e.instruction w := by
      rw [disassemble, encoding?_eq_bind, howner, Option.bind_some, he]
    have hreads := Pattern.reads_of_ofText htext
    refine ⟨by rw [OpcodeMap.map_val_owner?, howner], by rw [hdis]; rfl,
      fun c => Pattern.mem_letters, Pattern.pairwise_idxOf_letters cs, ?_⟩
    calc (d.disassemble w).operands.map some
        = e.pattern.fields.map fun f => f.operand? e.mnemonic (f.extract w) := by
          rw [hdis]
          exact e.map_some_operands w
      _ = letters.map fun c => (Pattern.fieldOf cs c).operand? e.mnemonic
            ((Pattern.fieldOf cs c).extract w) := by
          rw [hreads.fields_eq, Pattern.fieldsOf_eq_map_letters, List.map_map]
          rfl
      _ = _ := by
          refine List.map_congr_left fun c hc => ?_
          obtain ⟨hletter, hmem⟩ := Pattern.mem_letters.mp hc
          have hf := Pattern.fieldOf_mem_fieldsOf hletter hmem
          rw [← Pattern.ofNat_spelled hreads.adjacent hf]
          rfl
  · intro hfree
    have hnone := hbuilt.owner?_eq_none_iff.mpr hfree
    have hnone' : d.opcodes.owner? w = none := by
      rwa [← OpcodeMap.map_val_owner?, Option.map_eq_none_iff] at hnone
    refine ⟨hnone', ?_⟩
    rw [disassemble, encoding?_eq_bind, hnone, Option.bind_none]

theorem disassemble_accessDestination :
    let rows : List Row := [⟨"1100 AAAA AAAA AAAA", "1", "Branch"⟩,
      ⟨"1111 0JJ0 1011 WVVV", "1", "Access Destination"⟩]
    ∃ d, ofRows rows = .ok d ∧
      (d.opcodes.owner? 0xF0BA).map Fin.val = some 1 ∧
      (d.disassemble 0xF0BA).mnemonic = "Access Destination" ∧
      (d.disassemble 0xF0BA).operands = ["V=32", "W=write", "J=0x0"] ∧
      d.disassemble 0xE000 = .unknown := by
  intro rows
  have hrows : ∃ t, EncodingTable.ofRows rows = .ok t ∧ t.Exclusive := ⟨_, rfl, by decide⟩
  obtain ⟨d, hd⟩ := exists_ofRows_iff_exclusive.mpr hrows
  obtain ⟨-, hclaimed, -⟩ := disassemble_of_ofRows hd 0xF0BA
  obtain ⟨-, -, hfree⟩ := disassemble_of_ofRows hd 0xE000
  obtain ⟨howner, hmnemonic, -, -, hoperands⟩ := hclaimed 1 _ rfl (by decide)
  refine ⟨d, hd, howner, hmnemonic, ?_, (hfree (by decide)).2⟩
  exact List.map_injective_iff.mpr (Option.some_injective _) (hoperands.trans rfl)

end Disassembler

end Microcode
