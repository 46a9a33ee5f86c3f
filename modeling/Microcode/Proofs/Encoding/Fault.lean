import Microcode.Proofs.Disassembler.Building
import Microcode.Proofs.Pattern.Fault

/-!
# The fault of a table

A table of encodings is refused for its first row at fault, and a row for
its text before any of its fields, of which the lowest too wide one is
named (`Row.Fault`). Rows and fields are gone through in the order of their
numbers, so what is met first is what has the least number
(`findSome?_eq_some_iff_of_pairwise`).

A fault reaches its reader as a text. What the text of each kind has to say
is `PatternFault.Wording`; where a table is refused, the number and the text
of the row stand in front of it (`Diagnostic.message_pattern`).
-/

namespace Microcode

/-- The field has more values than `table`, which names them, has names. -/
def Field.TooWide (f : Field) (mnemonic : String) (table : NameTable) : Prop :=
  NameTable.select? mnemonic f.letter = some table ∧ table.names.length < 2 ^ f.width

/-- The text of the row is no pattern, or one of its fields is too wide. -/
def Row.Fails (row : Row) : Prop :=
  ¬ Pattern.Grammatical row.pattern ∨
    ∃ p f table, Pattern.ofText row.pattern = .ok p ∧ f ∈ p.fields ∧
      f.TooWide row.mnemonic table

/-- What is wrong with a row that fails. -/
inductive Row.Fault (row : Row) : PatternFault → Prop where
  | text {fault : PatternFault} (htext : Pattern.TextFault row.pattern fault) : row.Fault fault
  | tooWide {p : Pattern} {f : Field} {table : NameTable}
      (htext : Pattern.ofText row.pattern = .ok p) (hf : f ∈ p.fields)
      (hwide : f.TooWide row.mnemonic table)
      (hlowest : ∀ g ∈ p.fields, ∀ table', g.TooWide row.mnemonic table' → f.offset ≤ g.offset) :
      row.Fault (.tooWide f.letter f.width table.names.length)

/-! ## Wording -/

namespace PatternFault

/-- What is said of a fault of each kind. All numbers are in decimal. -/
inductive Wording : PatternFault → String → Prop where
  | length (count : Nat) :
      Wording (.length count) ("expected 19 ASCII characters, got " ++ count.repr)
  | separator (position : Nat) :
      Wording (.separator position) ("expected a space at index " ++ position.repr)
  | character (c : Char) (bit : Nat) :
      Wording (.character c bit)
        ("invalid character '" ++ .singleton c ++ "' for bit " ++ bit.repr)
  | reappears (letter : Char) (bit last : Nat) :
      Wording (.reappears letter bit last)
        ("field '" ++ .singleton letter ++ "' reappears at bit " ++ bit.repr ++
          " after ending at bit " ++ last.repr)
  | tooWide (letter : Char) (width names : Nat) :
      Wording (.tooWide letter width names)
        ("field '" ++ .singleton letter ++ "' is " ++ width.repr ++
          " bits wide but its name table has " ++ names.repr ++ " entries")

theorem wording_message (fault : PatternFault) : fault.Wording fault.message := by
  cases fault with
  | length count => exact .length count
  | separator position => exact .separator position
  | character c bit => exact .character c bit
  | reappears letter bit last => exact .reappears letter bit last
  | tooWide letter width names => exact .tooWide letter width names

end PatternFault

theorem Diagnostic.message_pattern (entry : Nat) (text : String) (fault : PatternFault) :
    (Diagnostic.pattern entry text fault).message =
      "Pattern spec error in entry " ++ entry.repr ++ " ('" ++ text ++ "'): " ++
        fault.message := rfl

/-! ## Rows -/

namespace Encoding

variable {row : Row} {fault : PatternFault}

theorem fieldFault?_eq_some_iff {mnemonic : String} {f : Field} :
    fieldFault? mnemonic f = some fault ↔
      ∃ table, f.TooWide mnemonic table ∧
        PatternFault.tooWide f.letter f.width table.names.length = fault := by
  unfold fieldFault? Field.TooWide
  cases NameTable.select? mnemonic f.letter with
  | none => simp
  | some table =>
      simp only [Option.ite_none_right_eq_some, Option.some.injEq, and_assoc, exists_eq_left',
        Field.valueCount, Nat.one_shiftLeft, NameTable.size]

theorem isSome_fieldFault?_iff {mnemonic : String} {f : Field} :
    (fieldFault? mnemonic f).isSome ↔ ∃ table, f.TooWide mnemonic table := by
  simp [Option.isSome_iff_exists, fieldFault?_eq_some_iff]

theorem ofRow_eq_error_iff_of_ofText {p : Pattern} (h : Pattern.ofText row.pattern = .ok p) :
    ofRow row = .error fault ↔ p.fields.findSome? (fieldFault? row.mnemonic) = some fault := by
  rw [ofRow, h]
  simp only
  split
  next fault' hfind => rw [hfind, Except.error.injEq, Option.some.injEq]
  next hfind => simp [hfind]

theorem ofRow_eq_error_iff : ofRow row = .error fault ↔ row.Fault fault := by
  cases htext : Pattern.ofText row.pattern with
  | error fault' =>
      have hfault := Pattern.ofText_eq_error_iff.mp htext
      rw [ofRow, htext, Except.error.injEq]
      constructor
      · rintro rfl
        exact .text hfault
      · intro h
        cases h with
        | text hfault' =>
            exact Except.error.inj (htext.symm.trans (Pattern.ofText_eq_error_iff.mpr hfault'))
        | tooWide htext' => cases htext.symm.trans htext'
  | ok p =>
      have hsorted : p.fields.Pairwise fun f g => f.offset < g.offset := by
        rw [(Pattern.reads_of_ofText htext).fields_eq]
        exact Pattern.pairwise_offset_fieldsOf _
      rw [ofRow_eq_error_iff_of_ofText htext, findSome?_eq_some_iff_of_pairwise hsorted]
      simp only [fieldFault?_eq_some_iff, isSome_fieldFault?_iff]
      constructor
      · rintro ⟨f, hf, ⟨table, hwide, rfl⟩, hlowest⟩
        exact .tooWide htext hf hwide fun g hg table' hwide' => hlowest g hg ⟨table', hwide'⟩
      · intro h
        cases h with
        | text hfault => cases htext.symm.trans (Pattern.ofText_eq_error_iff.mpr hfault)
        | tooWide htext' hf hwide hlowest =>
            obtain rfl := Except.ok.inj (htext.symm.trans htext')
            refine ⟨_, hf, ⟨_, hwide, rfl⟩, fun g hg hwide' => ?_⟩
            obtain ⟨table', hwide'⟩ := hwide'
            exact hlowest g hg table' hwide'

theorem exists_ofRow_eq_error_iff : (∃ fault, ofRow row = .error fault) ↔ row.Fails := by
  have hnot : (∃ fault, ofRow row = .error fault) ↔ ¬ ∃ e, ofRow row = .ok e := by
    cases ofRow row <;> simp
  rw [hnot, exists_ofRow_iff, Row.Fails, ← Pattern.exists_ofText_iff, not_and_or]
  refine or_congr_right ?_
  simp only [Field.named_iff, Field.TooWide, not_forall, Nat.not_le, exists_prop]
  constructor
  · rintro ⟨p, htext, f, hf, table, hsel, hwide⟩
    exact ⟨p, f, table, htext, hf, hsel, hwide⟩
  · rintro ⟨p, f, table, htext, hf, hsel, hwide⟩
    exact ⟨p, htext, f, hf, table, hsel, hwide⟩

end Encoding

/-! ## Tables -/

namespace EncodingTable

theorem error?_readAt_eq_some_iff {x : Row × Nat} {diagnostic : Diagnostic} :
    error? (readAt x) = some diagnostic ↔
      ∃ fault, x.1.Fault fault ∧ .pattern x.2 x.1.pattern fault = diagnostic := by
  rw [readAt, error?_mapError, Option.map_eq_some_iff]
  simp only [error?_eq_some_iff, Encoding.ofRow_eq_error_iff]

theorem isSome_error?_readAt_iff {x : Row × Nat} : (error? (readAt x)).isSome ↔ x.1.Fails := by
  rw [readAt, error?_mapError, Option.isSome_map, Option.isSome_iff_exists,
    ← Encoding.exists_ofRow_eq_error_iff]
  simp only [error?_eq_some_iff]

theorem ofRows_eq_error_iff_mapM {rows : List Row} {diagnostic : Diagnostic} :
    ofRows rows = .error diagnostic ↔ rows.zipIdx.mapM readAt = .error diagnostic := by
  rw [ofRows_eq_map_mapM]
  cases rows.zipIdx.mapM readAt <;> simp [Except.map]

/-- Where a table is refused, the least number of a row that fails is
reported, with the text of that row and what is wrong with it, in the words
that there are for a fault of this kind. -/
theorem ofRows_eq_error_iff_isLeast (rows : List Row) (diagnostic : Diagnostic) :
    ofRows rows = .error diagnostic ↔
      ∃ i row fault, IsLeast {i | ∃ row, rows[i]? = some row ∧ row.Fails} i ∧
        rows[i]? = some row ∧ row.Fault fault ∧ diagnostic = .pattern i row.pattern fault ∧
        fault.Wording fault.message ∧
        diagnostic.message = "Pattern spec error in entry " ++ i.repr ++
          " ('" ++ row.pattern ++ "'): " ++ fault.message := by
  rw [ofRows_eq_error_iff_mapM, mapM_eq_error_iff,
    findSome?_eq_some_iff_of_pairwise (pairwise_snd_zipIdx rows)]
  simp only [error?_readAt_eq_some_iff, isSome_error?_readAt_iff]
  constructor
  · rintro ⟨⟨row, i⟩, hmem, ⟨fault, hfault, rfl⟩, hleast⟩
    have hrow := List.mem_zipIdx_iff_getElem?.mp hmem
    have hfails : row.Fails :=
      Encoding.exists_ofRow_eq_error_iff.mp ⟨fault, Encoding.ofRow_eq_error_iff.mpr hfault⟩
    refine ⟨i, row, fault, ⟨⟨row, hrow, hfails⟩, fun j hj => ?_⟩, hrow, hfault, rfl,
      fault.wording_message, Diagnostic.message_pattern i row.pattern fault⟩
    obtain ⟨row', hrow', hfails'⟩ := hj
    exact hleast (row', j) (List.mem_zipIdx_iff_getElem?.mpr hrow') hfails'
  · rintro ⟨i, row, fault, hleast, hrow, hfault, rfl, -, -⟩
    refine ⟨(row, i), List.mem_zipIdx_iff_getElem?.mpr hrow, ⟨fault, hfault, rfl⟩, ?_⟩
    exact fun x hx hfails => hleast.2 ⟨x.1, List.mem_zipIdx_iff_getElem?.mp hx, hfails⟩

/-- The text of the second row has two faults, of which that of bit 6 is
reported, and the third row has one of its own. -/
example : ofRows [⟨"0000 0000 0000 00WA", "1", "mov"⟩, ⟨"?000 0000 0A00 AA00", "1", "mov"⟩,
    ⟨"", "1", "mov"⟩] = .error (.pattern 1 "?000 0000 0A00 AA00" (.reappears 'A' 6 3)) := rfl

end EncodingTable

end Microcode
