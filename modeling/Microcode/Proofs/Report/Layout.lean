import Microcode.Proofs.Report.Listing

/-!
# Where the lines of a listing stand

The pieces of a listing are laid out by the entries alone. Each entry has
its line and, if a block ends there and separators are asked for, an empty
piece behind it (`entryPieces`). So the line of an entry stands as far down
as there are entries and block ends before it (`getElem?_linePlace`), and
nothing else is found (`eq_nil_or_exists_linePlace`), whatever the entries
are: they need not come from a store, and block ends may follow each other
or stand at the end. The one thing asked is that no instruction brings a
line feed of its own.
-/

namespace Microcode.Report

variable {options : ListingOptions} {e : ListedWord} {es : List ListedWord}

/-- The number of blank lines among the lines of the entries. -/
def blankLines (options : ListingOptions) (es : List ListedWord) : Nat :=
  if options.separators then es.countP (·.boundary) else 0

/-- Where the line of entry number `j` stands. -/
def linePlace (options : ListingOptions) (es : List ListedWord) (j : Nat) : Nat :=
  j + blankLines options (es.take j)

theorem length_entryPieces (options : ListingOptions) (e : ListedWord) :
    (entryPieces options e).length = 1 + blankLines options [e] := by
  unfold entryPieces blankLines
  cases options.separators <;> cases hend : e.boundary <;> simp [hend]

theorem blankLines_cons (options : ListingOptions) (e : ListedWord) (es : List ListedWord) :
    blankLines options (e :: es) = blankLines options [e] + blankLines options es := by
  unfold blankLines
  split
  · rw [List.countP_cons, Nat.add_comm, List.countP_singleton]
  · rfl

theorem length_flatMap_entryPieces (options : ListingOptions) (es : List ListedWord) :
    (es.flatMap (entryPieces options)).length = es.length + blankLines options es := by
  induction es with
  | nil => simp [blankLines]
  | cons e es ih =>
      rw [List.flatMap_cons, List.length_append, length_entryPieces, ih, List.length_cons,
        blankLines_cons options e es]
      omega

theorem length_flatMap_take (options : ListingOptions) {j : Nat} (hj : es[j]? = some e) :
    ((es.take j).flatMap (entryPieces options)).length = linePlace options es j := by
  have hlt := (List.getElem?_eq_some_iff.mp hj).1
  rw [length_flatMap_entryPieces, List.length_take_of_le (Nat.le_of_lt hlt), linePlace]

theorem getElem?_linePlace (options : ListingOptions) {j : Nat} (hj : es[j]? = some e) :
    (es.flatMap (entryPieces options))[linePlace options es j]? =
      some (entryLine options e).toList := by
  refine getElem?_flatMap_eq_some_iff.mpr ⟨j, e, 0, hj, rfl, ?_⟩
  exact (length_flatMap_take options hj).symm

/-- A piece that is at the place of no entry is the second one of an entry. -/
theorem eq_nil_or_exists_linePlace {i : Nat} {p : List Char}
    (hp : (es.flatMap (entryPieces options))[i]? = some p) :
    p = [] ∨ ∃ j < es.length, i = linePlace options es j := by
  obtain ⟨j, e, k, hj, hk, rfl⟩ := getElem?_flatMap_eq_some_iff.mp hp
  rw [length_flatMap_take options hj]
  cases k with
  | zero => exact .inr ⟨j, (List.getElem?_eq_some_iff.mp hj).1, rfl⟩
  | succ k =>
      left
      rw [entryPieces, List.getElem?_cons_succ] at hk
      split at hk
      next => exact List.mem_singleton.mp (List.mem_of_getElem? hk)
      next => cases hk

/-- Without separators nothing stands between the lines. -/
theorem flatMap_entryPieces_of_not_separators (hoff : options.separators = false)
    (es : List ListedWord) :
    es.flatMap (entryPieces options) = es.map fun e => (entryLine options e).toList := by
  unfold entryPieces
  rw [hoff]
  simp [List.map_eq_flatMap]

/-- A listing of any entries, none of which has a line feed in the text of
its instruction, taken apart at its line feeds. There is a piece for each
entry, one for each block end if separators are asked for, and one after
the last line feed. The line of an entry stands behind the entries before
it and the block ends among them, and all other pieces are empty. Without
its empty pieces it is the listing that has no separators. -/
theorem splitOn_listing_layout (a : Analysis) (options : ListingOptions)
    (h : ∀ e ∈ a.entries, '\n' ∉ e.instruction.text.toList) :
    let pieces := (listing options a).toList.splitOn '\n'
    pieces.length = a.entries.length + blankLines options a.entries + 1 ∧
      (∀ j e, a.entries[j]? = some e → ∃ line,
        pieces[linePlace options a.entries j]? = some line ∧ line ≠ [] ∧
          (entryText options e).toList = line ++ ['\n']) ∧
      (∀ i p, pieces[i]? = some p →
        (∀ j < a.entries.length, i ≠ linePlace options a.entries j) → p = []) ∧
      (listing { options with separators := false } a).toList.splitOn '\n' =
        pieces.filter (· ≠ []) ++ [[]] := by
  intro pieces
  have hpieces : pieces = a.entries.flatMap (entryPieces options) ++ [[]] := splitOn_listing h
  refine ⟨?_, fun j e hj => ?_, fun i p hp hplace => ?_, ?_⟩
  · rw [hpieces, List.length_append, length_flatMap_entryPieces, List.length_singleton]
  · have hline := getElem?_linePlace options hj
    refine ⟨(entryLine options e).toList, ?_, entryLine_ne_nil options e, String.toList_append⟩
    rw [hpieces, List.getElem?_append_left (List.getElem?_eq_some_iff.mp hline).1]
    exact hline
  · rw [hpieces, getElem?_concat_eq_some_iff] at hp
    rcases hp with hp | ⟨-, rfl⟩
    · rcases eq_nil_or_exists_linePlace hp with hnil | ⟨j, hj, rfl⟩
      · exact hnil
      · exact absurd rfl (hplace j hj)
    · rfl
  · rw [splitOn_listing h, filter_splitOn_listing h, flatMap_entryPieces_of_not_separators rfl]
    rfl

/-- Two entries that each end a block. -/
theorem splitOn_listing_layout_adjacent :
    let first : ListedWord :=
      { address := 0x00A, word := 0xC042, instruction := ⟨"Branch", ["A=0x042"]⟩,
        boundary := true }
    let second : ListedWord :=
      { address := 0xFFFF, word := 0xF850, flags := ⟨true, true, true⟩,
        instruction := .unknown, boundary := true }
    let a : Analysis := { entries := [first, second] }
    let pieces := (listing {} a).toList.splitOn '\n'
    (∀ e ∈ a.entries, '\n' ∉ e.instruction.text.toList) ∧ pieces.length = 5 ∧
      (∃ line, pieces[2]? = some line ∧ line ≠ [] ∧
        (entryText {} second).toList = line ++ ['\n']) ∧
      (∀ p, pieces[3]? = some p → p = []) ∧
      (listing { separators := false } a).toList.splitOn '\n' = pieces.filter (· ≠ []) ++ [[]] := by
  intro first second a pieces
  have hfeed : ∀ e ∈ a.entries, '\n' ∉ e.instruction.text.toList := by decide
  obtain ⟨hlength, hlines, hothers, hplain⟩ := splitOn_listing_layout a {} hfeed
  refine ⟨hfeed, hlength, hlines 1 second rfl, fun p hp => ?_, hplain⟩
  exact hothers 3 p hp (by decide)

end Microcode.Report
