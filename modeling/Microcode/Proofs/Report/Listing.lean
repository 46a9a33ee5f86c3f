import Microcode.Proofs.Analysis.References
import Microcode.Proofs.ControlStore.Loading
import Microcode.Proofs.Disassembler.Distinction
import Microcode.Report.Listing

/-!
# Listings read back

A listing is known by its pieces between line feeds. If no instruction has
a line feed in its text, these are the lines of the entries, in order, each
followed by an empty piece if a block ends there and separators are asked
for (`splitOn_listing`). No line is empty, so the lines are found again by
dropping the empty pieces.

In a line of an entry of the store, what stands before the text of the
instruction has a fixed width: the flags, if they are asked for, three
digits of address and four of the word. So the words can be read off at
fixed columns, and one to a line they are a text of the store.
-/

namespace Microcode

/-! ## Instructions on one line -/

theorem Instruction.newline_not_mem_text {i : Instruction} (hmnemonic : '\n' ∉ i.mnemonic.toList)
    (hoperands : ∀ s ∈ i.operands, '\n' ∉ s.toList) : '\n' ∉ i.text.toList := by
  by_cases hnil : i.operands = []
  · rwa [text_of_nil hnil]
  · have hjoined : '\n' ∉ [',', ' '].intercalate (i.operands.map String.toList) :=
      not_mem_intercalate (by decide) (List.forall_mem_map.mpr hoperands)
    rw [toList_text_of_ne_nil hnil]
    simp [hmnemonic, hjoined]

/-- Operands have no line feed, so it is for the mnemonics to have none. -/
theorem Disassembler.Built.newline_not_mem_text {rows : List Row} {d : Disassembler}
    (h : Built rows d) (hrows : ∀ row ∈ rows, '\n' ∉ row.mnemonic.toList) (w : Word) :
    '\n' ∉ (d.disassemble w).text.toList := by
  rw [disassemble]
  cases he : d.encoding? w with
  | none =>
      show '\n' ∉ Instruction.unknown.text.toList
      decide
  | some e =>
      obtain ⟨hrow, -, hread⟩ := h.encoding?_eq_some_iff.mp he
      have hwf := Pattern.wellFormed_of_ofText (Encoding.ofRow_eq_ok_iff.mp hread).1
      refine Instruction.newline_not_mem_text (hrows e.row hrow) fun s hs => ?_
      obtain ⟨f, hf, hoperand⟩ := Encoding.mem_operands hs
      exact Field.newline_not_mem_operand? (hwf.fields_wellFormed f hf).letter hoperand

namespace Report

variable {options : ListingOptions} {e : ListedWord} {es : List ListedWord}

/-! ## Lines of entries -/

/-- There are no more than three kinds of reference. -/
theorem length_rightpad_text (f : RefFlags) : (f.text.toList.rightpad 3 ' ').length = 3 := by
  obtain ⟨subroutine, branch, conditional⟩ := f
  cases subroutine <;> cases branch <;> cases conditional <;> decide

theorem newline_not_mem_flagColumn (options : ListingOptions) (f : RefFlags) :
    '\n' ∉ (flagColumn options f).toList := by
  obtain ⟨subroutine, branch, conditional⟩ := f
  unfold flagColumn
  split
  · cases subroutine <;> cases branch <;> cases conditional <;> decide
  · decide

theorem toList_entryLine (options : ListingOptions) (e : ListedWord) :
    (entryLine options e).toList =
      (flagColumn options e.flags).toList ++ (Hex.digits 3 e.address.toNat ++ ([':', ' '] ++
        (Hex.digits 4 e.word.toNat ++ ([' ', ' '] ++ e.instruction.text.toList)))) := by
  simp [entryLine, Hex.text]

theorem entryLine_ne_nil (options : ListingOptions) (e : ListedWord) :
    (entryLine options e).toList ≠ [] := by
  rw [toList_entryLine]
  simp

theorem newline_not_mem_entryLine (h : '\n' ∉ e.instruction.text.toList) :
    '\n' ∉ (entryLine options e).toList := by
  have hflags := newline_not_mem_flagColumn options e.flags
  have hdigits : ∀ width n, '\n' ∉ Hex.digits width n := Hex.not_mem_digits (by decide)
  rw [toList_entryLine]
  simp [hflags, hdigits, h]

/-! ## Pieces of a listing -/

/-- The pieces that an entry brings about. -/
def entryPieces (options : ListingOptions) (e : ListedWord) : List (List Char) :=
  (entryLine options e).toList :: if options.separators ∧ e.boundary then [[]] else []

theorem toList_entryBlock (options : ListingOptions) (e : ListedWord) :
    (entryBlock options e).toList = (entryPieces options e).flatMap (· ++ ['\n']) := by
  unfold entryBlock entryText entryPieces separator?
  cases e.boundary <;> cases options.separators <;> simp

/-- What stands between the line feeds of a listing. The last piece is
empty, as the last line is ended. -/
theorem splitOn_listing {a : Analysis} (h : ∀ e ∈ a.entries, '\n' ∉ e.instruction.text.toList) :
    (listing options a).toList.splitOn '\n' = a.entries.flatMap (entryPieces options) ++ [[]] := by
  have hlisting : (listing options a).toList =
      (a.entries.flatMap (entryPieces options)).flatMap (· ++ ['\n']) := by
    rw [listing, String.toList_join, List.flatMap_map, List.flatMap_assoc]
    simp only [toList_entryBlock]
  rw [hlisting]
  refine splitOn_flatMap_concat fun p hp => ?_
  obtain ⟨e, he, hmem⟩ := List.mem_flatMap.mp hp
  rcases List.mem_cons.mp hmem with rfl | hmem
  · exact newline_not_mem_entryLine (h e he)
  · split at hmem
    next =>
      rw [List.mem_singleton.mp hmem]
      exact List.not_mem_nil
    next => exact absurd hmem List.not_mem_nil

theorem filter_entryPieces (options : ListingOptions) (e : ListedWord) :
    (entryPieces options e).filter (· ≠ []) = [(entryLine options e).toList] := by
  have hline : decide ((entryLine options e).toList ≠ []) = true :=
    decide_eq_true (entryLine_ne_nil options e)
  unfold entryPieces
  split
  · exact List.filter_cons_of_pos hline
  · exact List.filter_cons_of_pos hline

theorem filter_flatMap_entryPieces (options : ListingOptions) (es : List ListedWord) :
    (es.flatMap (entryPieces options)).filter (· ≠ []) =
      es.map fun e => (entryLine options e).toList := by
  rw [List.filter_flatMap]
  simp only [filter_entryPieces]
  exact List.map_eq_flatMap.symm

/-- Without the empty pieces there is one line for each entry. -/
theorem filter_splitOn_listing {a : Analysis}
    (h : ∀ e ∈ a.entries, '\n' ∉ e.instruction.text.toList) :
    ((listing options a).toList.splitOn '\n').filter (· ≠ []) =
      a.entries.map fun e => (entryLine options e).toList := by
  rw [splitOn_listing h, List.filter_append, filter_flatMap_entryPieces]
  exact List.append_nil _

/-- The line of an entry stands behind the lines of the entries before it,
and what comes next is empty only if it is there to end a block. -/
theorem exists_getElem?_flatMap_entryPieces (options : ListingOptions) {k : Nat}
    (hk : es[k]? = some e) :
    ∃ i, (es.flatMap (entryPieces options))[i]? = some (entryLine options e).toList ∧
      ((es.flatMap (entryPieces options)).take i).countP (· ≠ []) = k ∧
      ((es.flatMap (entryPieces options))[i + 1]? = some [] ↔
        options.separators ∧ e.boundary) := by
  have hlt := (List.getElem?_eq_some_iff.mp hk).1
  have hes : es = es.take k ++ e :: es.drop (k + 1) := (take_append_cons_drop hk).symm
  have hpieces : es.flatMap (entryPieces options) =
      (es.take k).flatMap (entryPieces options) ++
        (entryPieces options e ++ (es.drop (k + 1)).flatMap (entryPieces options)) := by
    conv_lhs => rw [hes, List.flatMap_append, List.flatMap_cons]
  refine ⟨((es.take k).flatMap (entryPieces options)).length, ?_, ?_, ?_⟩
  · rw [hpieces, List.getElem?_append_right (Nat.le_refl _), Nat.sub_self]
    rfl
  · rw [hpieces, List.take_left, List.countP_eq_length_filter, filter_flatMap_entryPieces,
      List.length_map, List.length_take]
    omega
  · rw [hpieces, List.getElem?_append_right (Nat.le_add_right _ 1), Nat.add_sub_cancel_left]
    unfold entryPieces
    split
    next hend => simp [hend]
    next hend =>
      simp only [hend, iff_false, List.cons_append, List.nil_append, List.getElem?_cons_succ]
      -- the next piece, if there is one, is the line of the next entry
      cases es.drop (k + 1) with
      | nil => simp
      | cons e' rest => simpa using entryLine_ne_nil options e'

/-! ## Columns -/

/-- Where the address begins: behind the flags and a blank. -/
def addressStart (options : ListingOptions) : Nat := if options.flags then 4 else 0

def addressColumn (options : ListingOptions) (line : List Char) : List Char :=
  (line.drop (addressStart options)).take 3

/-- What stands behind the address, a colon and a blank. -/
def wordColumn (options : ListingOptions) (line : List Char) : List Char :=
  (line.drop (addressStart options + 5)).take 4

theorem length_flagColumn (options : ListingOptions) (f : RefFlags) :
    (flagColumn options f).toList.length = addressStart options := by
  unfold flagColumn addressStart
  split
  · rw [String.toList_append, String.toList_ofList, List.length_append, length_rightpad_text]
    rfl
  · rfl

theorem take_entryLine (h : options.flags = true) :
    (entryLine options e).toList.take 3 = e.flags.text.toList.rightpad 3 ' ' := by
  rw [toList_entryLine, flagColumn, if_pos h, String.toList_append, String.toList_ofList,
    List.append_assoc, List.take_left' (length_rightpad_text e.flags)]

section

variable (haddress : e.address.toNat < storeSize)

include haddress

theorem length_digits_address : (Hex.digits 3 e.address.toNat).length = 3 :=
  Hex.length_digits haddress (by decide)

theorem addressColumn_entryLine :
    addressColumn options (entryLine options e).toList = Hex.digits 3 e.address.toNat := by
  rw [addressColumn, toList_entryLine, List.drop_left' (length_flagColumn options e.flags),
    List.take_left' (length_digits_address haddress)]

theorem colon_entryLine :
    ((entryLine options e).toList.drop (addressStart options + 3)).take 2 = [':', ' '] := by
  rw [toList_entryLine, ← List.drop_drop, List.drop_left' (length_flagColumn options e.flags),
    List.drop_left' (length_digits_address haddress)]
  rfl

theorem wordColumn_entryLine :
    wordColumn options (entryLine options e).toList = Hex.digits 4 e.word.toNat := by
  have hlen : (Hex.digits 3 e.address.toNat ++ [':', ' ']).length = 5 := by
    rw [List.length_append, length_digits_address haddress]
    rfl
  rw [wordColumn, toList_entryLine, ← List.drop_drop,
    List.drop_left' (length_flagColumn options e.flags), ← List.append_assoc,
    List.drop_left' hlen, List.take_left' (Hex.length_digits e.word.isLt (by decide))]

end

end Report

/-! ## The listing of a store -/

namespace Report

/-- The words of a store can be read off its listing: drop the empty
pieces, keep four characters of each line, and load what is left, one word
to a line. The line of an address has its number in three digits, shows
the flags of the entry in front if they are asked for, and has an empty
piece behind it, the one after the last line apart, exactly if separators
are asked for and a block ends there. All this holds wherever no mnemonic
has a line feed, as under the standard tables. -/
theorem ofText_wordColumn_listing :
    (∀ resolution, ∀ row ∈ Row.standard resolution, '\n' ∉ row.mnemonic.toList) ∧
      ∀ (rows : List Row) (d : Disassembler), Disassembler.ofRows rows = .ok d →
        (∀ row ∈ rows, '\n' ∉ row.mnemonic.toList) →
        ∀ (s : ControlStore) (options : ListingOptions),
          let a := Analysis.ofStore d s
          let pieces := (listing options a).toList.splitOn '\n'
          let lines := pieces.filter (· ≠ [])
          lines.length = storeSize ∧
            ControlStore.ofText
              (String.ofList (['\n'].intercalate (lines.map (wordColumn options)))) = .ok s ∧
            ∀ k < storeSize, ∃ e line i, a.entries[k]? = some e ∧ lines[k]? = some line ∧
              pieces[i]? = some line ∧ (pieces.take i).countP (· ≠ []) = k ∧
              addressColumn options line =
                [(k / 256).digitChar, (k / 16 % 16).digitChar, (k % 16).digitChar] ∧
              (line.drop (addressStart options + 3)).take 2 = [':', ' '] ∧
              (options.flags → line.take 3 = e.flags.text.toList.rightpad 3 ' ') ∧
              (pieces.dropLast[i + 1]? = some [] ↔ options.separators ∧ e.boundary) := by
  refine ⟨Row.newline_not_mem_standard, fun rows d hd hrows s options => ?_⟩
  intro a pieces lines
  have hnewline : ∀ e ∈ a.entries, '\n' ∉ e.instruction.text.toList := by
    intro e he
    rw [(Analysis.word?_of_mem_entries he).2]
    exact (Disassembler.built_of_ofRows hd).newline_not_mem_text hrows e.word
  have haddress : ∀ e ∈ a.entries, e.address.toNat < storeSize :=
    fun e he => ControlStore.lt_of_word? (Analysis.word?_of_mem_entries he).1
  have hpieces : pieces = a.entries.flatMap (entryPieces options) ++ [[]] := splitOn_listing hnewline
  have hlines : lines = a.entries.map fun e => (entryLine options e).toList :=
    filter_splitOn_listing hnewline
  have hwords : lines.map (wordColumn options) =
      s.words.toList.map fun w => Hex.digits 4 w.toNat := by
    rw [hlines, ← Analysis.map_word_entries_ofStore d s, List.map_map, List.map_map]
    exact List.map_congr_left fun e he => wordColumn_entryLine (haddress e he)
  have hlength : a.entries.length = storeSize := Analysis.length_entries_ofStore d s
  refine ⟨?_, ?_, fun k hk => ?_⟩
  · rw [hlines, List.length_map, hlength]
  · rw [hwords, ControlStore.ofText_eq_ok_iff, String.toList_ofList]
    exact ControlStore.textOf_iff.mp (ControlStore.textOf_intercalate s.words.toList)
  · obtain ⟨e, he, hnumber⟩ := Analysis.exists_getElem?_entries d s hk
    have hlt := haddress e (List.mem_of_getElem? he)
    obtain ⟨i, hline, hcount, hnext⟩ := exists_getElem?_flatMap_entryPieces options he
    have hi : i < (a.entries.flatMap (entryPieces options)).length :=
      (List.getElem?_eq_some_iff.mp hline).1
    refine ⟨e, (entryLine options e).toList, i, he, ?_, ?_, ?_, ?_, colon_entryLine hlt,
      fun h => take_entryLine h, ?_⟩
    · rw [hlines, List.getElem?_map, he, Option.map_some]
    · rw [hpieces, List.getElem?_append_left hi, hline]
    · rw [hpieces, List.take_append_of_le_length (Nat.le_of_lt hi), hcount]
    · have hdigits := congrArg String.toList (Hex.text_three hk)
      rw [addressColumn_entryLine hlt, hnumber]
      rwa [Hex.text, String.toList_ofList, String.toList_ofList] at hdigits
    · rw [hpieces, List.dropLast_concat, hnext]

theorem ofText_wordColumn_branches :
    let rows : List Row := [⟨"1100 AAAA AAAA AAAA", "1", "Branch"⟩]
    let s : ControlStore := ⟨Vector.replicate storeSize 0xC001⟩
    ∃ d, Disassembler.ofRows rows = .ok d ∧
      let pieces := (listing {} (Analysis.ofStore d s)).toList.splitOn '\n'
      let lines := pieces.filter (· ≠ [])
      ControlStore.ofText (String.ofList (['\n'].intercalate (lines.map (wordColumn {})))) = .ok s ∧
        ∃ e line i, (Analysis.ofStore d s).entries[0x2A]? = some e ∧ lines[0x2A]? = some line ∧
          pieces[i]? = some line ∧ addressColumn {} line = ['0', '2', 'a'] ∧
          line.take 3 = e.flags.text.toList.rightpad 3 ' ' ∧
          (pieces.dropLast[i + 1]? = some [] ↔ e.boundary) := by
  intro rows s
  have haccepted : ∃ t, EncodingTable.ofRows rows = .ok t ∧ t.Exclusive := ⟨_, rfl, by decide⟩
  obtain ⟨d, hd⟩ := Disassembler.exists_ofRows_iff_exclusive.mpr haccepted
  obtain ⟨-, hread, hall⟩ := ofText_wordColumn_listing.2 rows d hd (by decide) s {}
  obtain ⟨e, line, i, he, hline, hpiece, -, hdigits, -, hflags, hnext⟩ := hall 0x2A (by decide)
  refine ⟨d, hd, hread, e, line, i, he, hline, hpiece, hdigits.trans rfl, hflags rfl, ?_⟩
  rw [hnext]
  exact and_iff_right rfl

end Report

end Microcode
