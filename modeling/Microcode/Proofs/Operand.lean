import Microcode.Operand
import Microcode.Proofs.Pattern.Reading
import Microcode.Proofs.Text.Hex
import Microcode.Proofs.Word

/-!
# Operands told apart by their text

The text of an operand tells its value (`Field.operand?_inj`): no table
has a name twice, and no two numbers share a numeral. It also has a form
by which operands in a row can be told from each other and from what
stands before them (`IsOperandText`): a letter, an equals sign, and no
comma after it. Names and numerals are made of letters, digits and hyphens
(`Field.exists_toList_of_operand?`), so they have no other separator
either.
-/

namespace Microcode

namespace NameTable

theorem nodup_names (t : NameTable) : t.names.Nodup := by
  cases t <;> decide +kernel

theorem isAlphanum_or_hyphen_of_mem_names (t : NameTable) :
    ∀ name ∈ t.names, ∀ c ∈ name.toList, c.isAlphanum ∨ c = '-' := by
  have hall : t.names.all fun name => name.toList.all fun c => c.isAlphanum || c == '-' := by
    cases t <;> decide +kernel
  simpa only [List.all_eq_true, Bool.or_eq_true, beq_iff_eq] using hall

theorem name?_inj {t : NameTable} {v v' : Word} {name : String} (h : t.name? v = some name)
    (h' : t.name? v' = some name) : v = v' := by
  have hlt := (List.getElem?_eq_some_iff.mp h).1
  exact BitVec.eq_of_toNat_eq ((List.getElem?_inj hlt t.nodup_names).mp (h.trans h'.symm))

end NameTable

/-- A letter of a field, an equals sign, and a value without a comma. -/
def IsOperandText (s : String) : Prop :=
  ∃ c value, s.toList = c :: '=' :: value ∧ Pattern.IsFieldLetter c ∧ ',' ∉ value

theorem IsOperandText.comma_not_mem {s : String} (h : IsOperandText s) : ',' ∉ s.toList := by
  obtain ⟨c, value, hs, hletter, hvalue⟩ := h
  rw [hs]
  simp only [List.mem_cons, hvalue, or_false, not_or]
  refine ⟨?_, by decide⟩
  rintro rfl
  exact absurd hletter (by decide)

namespace Field

variable {f : Field} {mnemonic : String}

/-- The bits of the field decide what is extracted from it, and the other
way round. -/
theorem extract_eq_iff {w w' : Word} :
    f.extract w = f.extract w' ↔ w &&& f.mask = w' &&& f.mask := by
  constructor
  · intro h
    refine Word.and_eq_and_iff.mpr fun b hb => ?_
    rw [getLsbD_mask] at hb
    simp only [Bool.and_eq_true, decide_eq_true_eq] at hb
    have hbit := congrArg (BitVec.getLsbD · (b - f.offset)) h
    simp only [getLsbD_extract] at hbit
    have hplace : f.offset + (b - f.offset) = b := by omega
    have hwidth : b - f.offset < f.width := by omega
    rwa [hplace, decide_eq_true hwidth, Bool.and_true, Bool.and_true] at hbit
  · intro h
    rw [extract, h, extract]

theorem operand?_of_named {table : NameTable}
    (hsel : NameTable.select? mnemonic f.letter = some table) (v : Word) :
    f.operand? mnemonic v = (table.name? v).map (String.singleton f.letter ++ "=" ++ ·) := by
  rw [operand?, hsel]

theorem operand?_of_unnamed (hsel : NameTable.select? mnemonic f.letter = none) (v : Word) :
    f.operand? mnemonic v =
      some (String.singleton f.letter ++ "=" ++ "0x" ++ Hex.text ((f.width + 3) / 4) v.toNat) := by
  rw [operand?, hsel]

theorem operand?_inj {v v' : Word} {s : String} (h : f.operand? mnemonic v = some s)
    (h' : f.operand? mnemonic v' = some s) : v = v' := by
  cases hsel : NameTable.select? mnemonic f.letter with
  | some table =>
      rw [operand?_of_named hsel, Option.map_eq_some_iff] at h h'
      obtain ⟨name, hname, rfl⟩ := h
      obtain ⟨name', hname', heq⟩ := h'
      obtain rfl := (String.append_right_inj _).mp heq
      exact NameTable.name?_inj hname hname'
  | none =>
      rw [operand?_of_unnamed hsel] at h h'
      have heq := Option.some.inj (h.trans h'.symm)
      exact BitVec.eq_of_toNat_eq (Hex.text_inj.mp ((String.append_right_inj _).mp heq))

/-- Behind the equals sign stands a name or a numeral. -/
theorem exists_toList_of_operand? {v : Word} {s : String} (h : f.operand? mnemonic v = some s) :
    ∃ value, s.toList = f.letter :: '=' :: value ∧ ∀ c ∈ value, c.isAlphanum ∨ c = '-' := by
  cases hsel : NameTable.select? mnemonic f.letter with
  | some table =>
      rw [operand?_of_named hsel, Option.map_eq_some_iff] at h
      obtain ⟨name, hname, rfl⟩ := h
      refine ⟨name.toList, by simp, ?_⟩
      exact table.isAlphanum_or_hyphen_of_mem_names name (List.mem_of_getElem? hname)
  | none =>
      rw [operand?_of_unnamed hsel] at h
      obtain rfl := Option.some.inj h
      refine ⟨'0' :: 'x' :: (Hex.text ((f.width + 3) / 4) v.toNat).toList, by simp, ?_⟩
      simp only [List.forall_mem_cons]
      refine ⟨by decide, by decide, fun c hc => .inl ?_⟩
      exact Hex.isAlphanum_of_isSome_digit? (Hex.isSome_digit?_of_mem_text c hc)

theorem isOperandText {v : Word} {s : String} (hletter : Pattern.IsFieldLetter f.letter)
    (h : f.operand? mnemonic v = some s) : IsOperandText s := by
  obtain ⟨value, hs, hvalue⟩ := exists_toList_of_operand? h
  exact ⟨f.letter, value, hs, hletter, fun hmem => absurd (hvalue ',' hmem) (by decide)⟩

theorem newline_not_mem_operand? {v : Word} {s : String}
    (hletter : Pattern.IsFieldLetter f.letter) (h : f.operand? mnemonic v = some s) :
    '\n' ∉ s.toList := by
  obtain ⟨value, hs, hvalue⟩ := exists_toList_of_operand? h
  rw [hs]
  simp only [List.mem_cons, Char.reduceEq, false_or, not_or]
  refine ⟨fun heq => ?_, fun hmem => absurd (hvalue '\n' hmem) (by decide)⟩
  rw [← heq] at hletter
  exact absurd hletter (by decide)

end Field

end Microcode
