import Microcode.Proofs.Disassembler.RowOrder
import Microcode.Proofs.Encoding.Mnemonics
import Microcode.Proofs.Operand
import Microcode.Proofs.Pattern.Partition

/-!
# Opcodes told apart by their text

What is lost when an opcode is shown as text are the bits that its row
ignores, and nothing else. Under one row this is a chain of equivalences:
equal texts are equal instructions (`Instruction.text_inj`), equal
instructions have equal operands, equal operands have equal values, and
equal values are equal bits under the masks of the fields
(`Encoding.instruction_eq_iff`).

Under different rows the text tells the row as well, if the mnemonics
tell the rows apart and none of them has an equals sign
(`Row.NamedApart`): the first equals sign of a text then stands behind
the letter of the first operand, and what stands before that letter is
the mnemonic (`Instruction.mnemonic_eq_of_text_eq`). One mnemonic may
still begin with another.
-/

namespace Microcode

/-! ## The text of an instruction -/

namespace Instruction

variable {i j : Instruction}

theorem text_of_nil (h : i.operands = []) : i.text = i.mnemonic := by
  rw [text, if_pos h]

theorem toList_text_of_ne_nil (h : i.operands ≠ []) :
    i.text.toList =
      i.mnemonic.toList ++ ' ' :: [',', ' '].intercalate (i.operands.map String.toList) := by
  rw [text, if_neg h]
  simp

/-- Instructions of one mnemonic and equally many operands share no
text. -/
theorem text_inj (hi : ∀ s ∈ i.operands, IsOperandText s)
    (hj : ∀ s ∈ j.operands, IsOperandText s) (hmnemonic : i.mnemonic = j.mnemonic)
    (hlen : i.operands.length = j.operands.length) : i.text = j.text ↔ i = j := by
  refine ⟨fun h => ?_, fun h => congrArg text h⟩
  have hoperands : i.operands = j.operands := by
    by_cases hnil : i.operands = []
    · rw [hnil, List.length_nil] at hlen
      rw [hnil, List.length_eq_zero_iff.mp hlen.symm]
    · have hnil' : j.operands ≠ [] := by
        intro hj
        rw [hj, List.length_nil, List.length_eq_zero_iff] at hlen
        exact hnil hlen
      have hlists := congrArg String.toList h
      rw [toList_text_of_ne_nil hnil, toList_text_of_ne_nil hnil', hmnemonic] at hlists
      have hjoined := (List.cons.inj (List.append_cancel_left hlists)).2
      refine List.map_injective_iff.mpr (fun s t => String.toList_inj.mp) ?_
      refine intercalate_inj (by simpa using hlen) ?_ ?_ hjoined
      · exact List.forall_mem_map.mpr fun s hs => (hi s hs).comma_not_mem
      · exact List.forall_mem_map.mpr fun s hs => (hj s hs).comma_not_mem
  cases i
  cases j
  simp_all

/-- The text up to the first equals sign, if there are operands: the
mnemonic, a blank, and the letter of the first operand. -/
theorem exists_toList_text (hi : ∀ s ∈ i.operands, IsOperandText s) (h : i.operands ≠ []) :
    ∃ c rest, i.text.toList = (i.mnemonic.toList ++ [' ', c]) ++ '=' :: rest ∧ c ≠ '=' := by
  obtain ⟨s, ss, hcons⟩ := List.exists_cons_of_ne_nil h
  obtain ⟨c, value, hs, hletter, -⟩ := hi s (hcons ▸ List.mem_cons_self)
  have hne : c ≠ '=' := by
    rintro rfl
    exact absurd hletter (by decide)
  rw [toList_text_of_ne_nil h, hcons, List.map_cons, hs]
  cases ss with
  | nil => exact ⟨c, value, by simp, hne⟩
  | cons s' ss =>
      refine ⟨c, value ++ [',', ' '] ++ [',', ' '].intercalate ((s' :: ss).map String.toList), ?_,
        hne⟩
      simp

theorem mnemonic_eq_of_text_eq (hi : ∀ s ∈ i.operands, IsOperandText s)
    (hj : ∀ s ∈ j.operands, IsOperandText s) (hmi : '=' ∉ i.mnemonic.toList)
    (hmj : '=' ∉ j.mnemonic.toList) (h : i.text = j.text) : i.mnemonic = j.mnemonic := by
  have hlists := congrArg String.toList h
  by_cases hnil : i.operands = [] <;> by_cases hnil' : j.operands = []
  · rwa [text_of_nil hnil, text_of_nil hnil'] at h
  · obtain ⟨c, rest, htext, -⟩ := exists_toList_text hj hnil'
    rw [text_of_nil hnil, htext] at hlists
    exact absurd (hlists ▸ List.mem_append_right _ List.mem_cons_self) hmi
  · obtain ⟨c, rest, htext, -⟩ := exists_toList_text hi hnil
    rw [text_of_nil hnil', htext] at hlists
    exact absurd (hlists ▸ List.mem_append_right _ List.mem_cons_self) hmj
  · obtain ⟨c, rest, htext, hc⟩ := exists_toList_text hi hnil
    obtain ⟨c', rest', htext', hc'⟩ := exists_toList_text hj hnil'
    rw [htext, htext', append_cons_eq_iff (by simp [hmi, hc.symm]) (by simp [hmj, hc'.symm])]
      at hlists
    exact String.toList_inj.mp (List.append_inj_left' hlists.1 rfl)

end Instruction

/-! ## Opcodes of one row -/

theorem Pattern.and_fieldMask_eq_iff {p : Pattern} {a b : Word} :
    a &&& p.fieldMask = b &&& p.fieldMask ↔ ∀ f ∈ p.fields, a &&& f.mask = b &&& f.mask := by
  have hfold : p.fieldMask = (p.fields.map Field.mask).foldl (· ||| ·) 0 := by
    rw [fieldMask, List.foldl_map]
  simp only [hfold, Word.and_eq_and_iff, Word.getLsbD_foldl_or, List.mem_map,
    exists_exists_and_eq_and, BitVec.ofNat_eq_ofNat, BitVec.getLsbD_zero]
  grind

namespace Encoding

theorem mem_operands {e : Encoding} {w : Word} {s : String} (hs : s ∈ e.operands w) :
    ∃ f ∈ e.pattern.fields, f.operand? e.mnemonic (f.extract w) = some s := by
  have hmem := List.mem_map_of_mem (f := some) hs
  rw [e.map_some_operands] at hmem
  exact List.mem_map.mp hmem

theorem length_operands (e : Encoding) (w : Word) :
    (e.operands w).length = e.pattern.fields.length := by
  rw [operands, List.length_map, List.length_attach]

/-- Opcodes of one encoding stand for the same instruction exactly if
they agree on the operand fields. -/
theorem instruction_eq_iff {e : Encoding} {a b : Word} :
    e.instruction a = e.instruction b ↔
      a &&& e.pattern.fieldMask = b &&& e.pattern.fieldMask := by
  have hoperand : ∀ f ∈ e.pattern.fields,
      (f.operand? e.mnemonic (f.extract a) = f.operand? e.mnemonic (f.extract b) ↔
        a &&& f.mask = b &&& f.mask) := by
    intro f hf
    rw [← Field.extract_eq_iff]
    refine ⟨fun heq => ?_, fun heq => by rw [heq]⟩
    obtain ⟨s, hs⟩ := Option.isSome_iff_exists.mp
      (Field.isSome_operand?_extract (e.named f hf) a)
    exact Field.operand?_inj hs (heq ▸ hs)
  calc e.instruction a = e.instruction b
      ↔ e.operands a = e.operands b := by simp [instruction]
    _ ↔ (e.operands a).map some = (e.operands b).map some :=
        (List.map_injective_iff.mpr (Option.some_injective _)).eq_iff.symm
    _ ↔ ∀ f ∈ e.pattern.fields, a &&& f.mask = b &&& f.mask := by
        rw [e.map_some_operands, e.map_some_operands, List.map_inj_left]
        exact forall₂_congr hoperand
    _ ↔ _ := Pattern.and_fieldMask_eq_iff.symm

end Encoding

/-! ## Opcodes of all rows -/

namespace Disassembler

namespace Built

variable {rows : List Row} {d : Disassembler} (h : Built rows d) {a b w : Word}

include h

theorem isOperandText_of_encoding? {e : Encoding} (he : d.encoding? w = some e) :
    ∀ s ∈ (e.instruction w).operands, IsOperandText s := by
  intro s hs
  obtain ⟨-, -, hread⟩ := h.encoding?_eq_some_iff.mp he
  have hwf := Pattern.wellFormed_of_ofText (Encoding.ofRow_eq_ok_iff.mp hread).1
  obtain ⟨f, hf, hoperand⟩ := Encoding.mem_operands hs
  exact Field.isOperandText (hwf.fields_wellFormed f hf).letter hoperand

theorem isOperandText : ∀ s ∈ (d.disassemble w).operands, IsOperandText s := by
  rw [disassemble]
  cases he : d.encoding? w with
  | some e => exact h.isOperandText_of_encoding? he
  | none => exact fun s hs => absurd hs List.not_mem_nil

theorem text_eq_iff {e : Encoding} (ha : d.encoding? a = some e) (hb : d.encoding? b = some e) :
    (d.disassemble a).text = (d.disassemble b).text ↔
      a &&& e.pattern.fieldMask = b &&& e.pattern.fieldMask := by
  rw [← Encoding.instruction_eq_iff, disassemble, ha, disassemble, hb]
  refine Instruction.text_inj (h.isOperandText_of_encoding? ha)
    (h.isOperandText_of_encoding? hb) rfl ?_
  exact (e.length_operands a).trans (e.length_operands b).symm

theorem equals_not_mem_mnemonic (hnames : Row.NamedApart rows) :
    '=' ∉ (d.disassemble w).mnemonic.toList := by
  rw [disassemble]
  cases he : d.encoding? w with
  | some e => exact (hnames.2 e.row (h.encoding?_eq_some_iff.mp he).1).1
  | none =>
      show '=' ∉ Mnemonic.unknown.toList
      decide

theorem encoding?_eq_of_text_eq (hnames : Row.NamedApart rows)
    (htext : (d.disassemble a).text = (d.disassemble b).text) :
    d.encoding? a = d.encoding? b := by
  have hmnemonic := Instruction.mnemonic_eq_of_text_eq h.isOperandText h.isOperandText
    (h.equals_not_mem_mnemonic hnames) (h.equals_not_mem_mnemonic hnames) htext
  rw [disassemble, disassemble] at hmnemonic
  cases ha : d.encoding? a with
  | none =>
      cases hb : d.encoding? b with
      | none => rfl
      | some e =>
          rw [ha, hb] at hmnemonic
          exact absurd hmnemonic.symm (hnames.2 e.row (h.encoding?_eq_some_iff.mp hb).1).2
  | some e =>
      obtain ⟨hrow, -, hread⟩ := h.encoding?_eq_some_iff.mp ha
      cases hb : d.encoding? b with
      | none =>
          rw [ha, hb] at hmnemonic
          exact absurd hmnemonic (hnames.2 e.row hrow).2
      | some e' =>
          rw [ha, hb] at hmnemonic
          obtain ⟨hrow', -, hread'⟩ := h.encoding?_eq_some_iff.mp hb
          rw [hnames.eq_of_mnemonic_eq hrow hrow' hmnemonic] at hread
          rw [Except.ok.inj (hread.symm.trans hread')]

/-- Opcodes with one encoding are opcodes of one row, as no two rows claim
the same opcode. -/
theorem owner?_eq_of_encoding?_eq (heq : d.encoding? a = d.encoding? b) :
    d.opcodes.slots.owner? a = d.opcodes.slots.owner? b := by
  refine Option.ext fun i => ?_
  rw [h.owner?_eq_some_iff, h.owner?_eq_some_iff]
  refine exists_congr fun row => and_congr_right fun hi => ?_
  have hrow := List.mem_of_getElem? hi
  calc row.Claims a
      ↔ d.row? a = some row := by rw [h.row?_eq_some_iff, and_iff_right hrow]
    _ ↔ d.row? b = some row := by rw [row?, heq, row?]
    _ ↔ row.Claims b := by rw [h.row?_eq_some_iff, and_iff_right hrow]

end Built

theorem encoding?_of_owner? {d : Disassembler} {w : Word} {i : Nat} {e : Encoding}
    (howner : d.opcodes.slots.owner? w = some i) (he : d.table.get? i = some e) :
    d.encoding? w = some e := by
  rw [encoding?_eq_bind, howner, Option.bind_some, he]

/-- Two opcodes of one row have the same text exactly if they agree on its
operand fields. Where the mnemonics tell the rows apart, as those of the
standard tables do, opcodes of the same text are of one row or of none. -/
theorem text_eq_iff_of_ofRows :
    (∀ (rows : List Row) (d : Disassembler), ofRows rows = .ok d →
      (∀ (i : Nat) (e : Encoding) (a b : Word), d.table.get? i = some e →
        (d.opcodes.owner? a).map Fin.val = some i → (d.opcodes.owner? b).map Fin.val = some i →
          ((d.disassemble a).text = (d.disassemble b).text ↔
            a &&& e.pattern.fieldMask = b &&& e.pattern.fieldMask)) ∧
      (Row.NamedApart rows → ∀ a b : Word,
        (d.disassemble a).text = (d.disassemble b).text →
          (d.opcodes.owner? a = none ∧ d.opcodes.owner? b = none) ∨
            ∃ i e, d.table.get? i = some e ∧ (d.opcodes.owner? a).map Fin.val = some i ∧
              (d.opcodes.owner? b).map Fin.val = some i ∧
                a &&& e.pattern.fieldMask = b &&& e.pattern.fieldMask)) ∧
      ∀ resolution, Row.NamedApart (Row.standard resolution) := by
  refine ⟨fun rows d hd => ?_, Row.namedApart_standard⟩
  have hbuilt := built_of_ofRows hd
  simp only [← Option.map_eq_none_iff (f := Fin.val), OpcodeMap.map_val_owner?]
  constructor
  · intro i e a b he ha hb
    exact hbuilt.text_eq_iff (encoding?_of_owner? ha he) (encoding?_of_owner? hb he)
  · intro hnames a b htext
    have heq := hbuilt.owner?_eq_of_encoding?_eq (hbuilt.encoding?_eq_of_text_eq hnames htext)
    cases ha : d.opcodes.slots.owner? a with
    | none => exact .inl ⟨rfl, heq.symm.trans ha⟩
    | some i =>
        have hb := heq.symm.trans ha
        obtain ⟨row, hrow, -⟩ := hbuilt.owner?_eq_some_iff.mp ha
        obtain ⟨e, he, -⟩ := hbuilt.get?_of_row hrow
        refine .inr ⟨i, e, he, rfl, hb, ?_⟩
        exact (hbuilt.text_eq_iff (encoding?_of_owner? ha he) (encoding?_of_owner? hb he)).mp htext

theorem text_eq_iff_noOperation :
    let rows : List Row := [⟨"1100 AAAA AAAA AAAA", "1", "Branch"⟩,
      ⟨"1010 0SS0 1100 XXXX", "1", "No Operation"⟩]
    ∃ d e, ofRows rows = .ok d ∧ d.table.get? 1 = some e ∧ e.pattern.fieldMask = 0x0600 ∧
      (d.disassemble 0xA2C3).text = (d.disassemble 0xA2CF).text ∧
      (d.disassemble 0xA2C3).text ≠ (d.disassemble 0xA4C3).text ∧
      (d.opcodes.owner? 0xA2C3).map Fin.val = some 1 ∧
      (d.opcodes.owner? 0xA2CF).map Fin.val = some 1 := by
  intro rows
  have hrows : ∃ t, EncodingTable.ofRows rows = .ok t ∧ t.Exclusive := ⟨_, rfl, by decide⟩
  obtain ⟨d, hd⟩ := exists_ofRows_iff_exclusive.mpr hrows
  have hbuilt := built_of_ofRows hd
  obtain ⟨hsame, hall⟩ := text_eq_iff_of_ofRows.1 rows d hd
  have hrow : rows[1]? = some ⟨"1010 0SS0 1100 XXXX", "1", "No Operation"⟩ := rfl
  obtain ⟨e, he, -, htext⟩ := hbuilt.get?_of_row hrow
  have hpattern : e.pattern = { constMask := 0xF9F0, constBits := 0xA0C0, dontCareMask := 0x000F
                                fields := [⟨'S', 9, 2⟩] } :=
    Except.ok.inj (htext.symm.trans rfl)
  have howner : ∀ w : Word, w &&& 0xF9F0 = 0xA0C0 →
      (d.opcodes.owner? w).map Fin.val = some 1 := by
    intro w hw
    have hclaim : e.pattern.Claims w := by rwa [hpattern]
    rw [OpcodeMap.map_val_owner?, hbuilt.owner?_eq_some_iff]
    exact ⟨_, hrow, (Pattern.claims_iff_of_ofText htext).mp hclaim⟩
  have h₁ := howner 0xA2C3 (by decide)
  have h₂ := howner 0xA2CF (by decide)
  have h₃ := howner 0xA4C3 (by decide)
  have hequal := (hsame 1 e _ _ he h₁ h₂).mpr (by rw [hpattern]; decide)
  have hdiffer := (hsame 1 e _ _ he h₁ h₃).not.mpr (by rw [hpattern]; decide)
  rcases hall (by decide) _ _ hequal with ⟨hnone, -⟩ | ⟨i, -, -, ha, hb, -⟩
  · rw [hnone] at h₁
    cases h₁
  · obtain rfl := Option.some.inj (h₁.symm.trans ha)
    exact ⟨d, e, hd, he, by rw [hpattern]; decide, hequal, hdiffer, ha, hb⟩

end Disassembler

end Microcode
