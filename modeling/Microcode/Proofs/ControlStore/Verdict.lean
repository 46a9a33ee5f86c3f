import Microcode.Proofs.ControlStore.Loading
import Microcode.Proofs.List

/-!
# What is said of a text

Every text is either loaded or refused, and which of them is told by its
lines without the blanks around them (`Verdict`): the first line that is
neither empty nor four digits is reported, with its number among all lines;
if there is none, the words are counted; if their number is right, they are
the words of the store. That a line comes first matters more than that the
count is wrong, wherever the line stands.

The loader gives the one verdict that there is on a text
(`ofText_eq_iff_verdict`). One half is that a verdict says what the loader
does (`Verdict.ofText_eq`), by the three rules; the other that there is one
on every text (`exists_verdict`), by a case split on the lines alone.
-/

namespace Microcode.ControlStore

/-- Four hexadecimal digits. -/
def FourDigits (content : List Char) : Prop :=
  content.length = 4 ∧ ∀ c ∈ content, Hex.IsDigit c

/-- The lines that are not empty. -/
def filled (contents : List (List Char)) : List (List Char) := contents.filter (· ≠ [])

/-- What is said of a text whose lines, without the blanks around them, are
`contents`. -/
inductive Verdict (text : List Char) : Except Diagnostic ControlStore → Prop where
  | badLine {before after : List (List Char)} {content : List Char}
      (hlines : Text.TrimmedLines text (before ++ content :: after))
      (hbefore : ∀ line ∈ before, line = [] ∨ FourDigits line)
      (hfilled : content ≠ []) (hbad : ¬ FourDigits content) :
      Verdict text (.error (.wordLine (before.length + 1) (String.ofList content)))
  | wrongCount {contents : List (List Char)} (hlines : Text.TrimmedLines text contents)
      (hgood : ∀ line ∈ contents, line = [] ∨ FourDigits line)
      (hcount : (filled contents).length ≠ storeSize) :
      Verdict text (.error (.storeSize storeSize (filled contents).length))
  | loaded {contents : List (List Char)} {s : ControlStore}
      (hlines : Text.TrimmedLines text contents)
      (hgood : ∀ line ∈ contents, line = [] ∨ FourDigits line)
      (hcount : (filled contents).length = storeSize)
      (hwords : ∀ address w, s.word? address = some w ↔
        ∃ digits, (filled contents)[address]? = some digits ∧ DigitsOf digits w) :
      Verdict text (.ok s)

/-! ## Lines -/

theorem exists_wordOfHex?_iff {content : List Char} :
    (∃ w, wordOfHex? content = some w) ↔ FourDigits content := by
  unfold wordOfHex? FourDigits
  split
  next hlen =>
    rw [and_iff_right hlen, ← Hex.isSome_value?_iff, Option.isSome_iff_exists]
    simp
  next hlen => simp [hlen]

theorem isBadLine_iff {content : List Char} :
    IsBadLine content ↔ content ≠ [] ∧ ¬ FourDigits content := by
  rw [IsBadLine, ← exists_wordOfHex?_iff, ← Option.ne_none_iff_exists', not_not]

theorem not_isBadLine_iff {content : List Char} :
    ¬ IsBadLine content ↔ content = [] ∨ FourDigits content := by
  rw [isBadLine_iff, not_and_not_right, or_iff_not_imp_left]

theorem forall_not_isBadLine_iff {contents : List (List Char)} :
    (∀ line ∈ contents, ¬ IsBadLine line) ↔ ∀ line ∈ contents, line = [] ∨ FourDigits line :=
  forall₂_congr fun _ _ => not_isBadLine_iff

/-- Where no line is bad, the words are read off the filled lines. -/
theorem forall₂_filled {contents : List (List Char)}
    (hgood : ∀ line ∈ contents, line = [] ∨ FourDigits line) :
    List.Forall₂ DigitsOf (filled contents) (contents.filterMap wordOfHex?) := by
  induction contents with
  | nil => exact .nil
  | cons line contents ih =>
      rw [List.forall_mem_cons] at hgood
      rcases hgood.1 with rfl | hdigits
      · exact ih hgood.2
      · obtain ⟨w, hw⟩ := exists_wordOfHex?_iff.mpr hdigits
        have hne : line ≠ [] := List.ne_nil_of_length_eq_add_one hdigits.1
        rw [filled, List.filter_cons_of_pos (by simpa using hne), List.filterMap_cons_some hw]
        exact .cons (digitsOf_iff.mpr hw) (ih hgood.2)

/-! ## The loader -/

theorem ofText_of_badLine {text : String} {before after : List (List Char)} {content : List Char}
    (hlines : Text.TrimmedLines text.toList (before ++ content :: after))
    (hbefore : ∀ line ∈ before, ¬ IsBadLine line) (hbad : IsBadLine content) :
    ofText text = .error (.wordLine (before.length + 1) (String.ofList content)) := by
  have hfind := find?_zipIdx_append_cons hbefore hbad after 1
  rw [← Text.trimmedLines_iff.mp hlines, Nat.add_comm] at hfind
  simp only [ofText]
  split
  next line number hfound =>
    obtain ⟨rfl, rfl⟩ := Prod.mk.inj (Option.some.inj (hfound.symm.trans hfind))
    rfl
  next hnone => cases hnone.symm.trans hfind

theorem ofText_of_goodLines {text : String} {contents : List (List Char)}
    (hlines : Text.TrimmedLines text.toList contents)
    (hgood : ∀ line ∈ contents, ¬ IsBadLine line) :
    ofText text = ofWords (contents.filterMap wordOfHex?) := by
  have hfind := find?_zipIdx_eq_none hgood 1
  rw [← Text.trimmedLines_iff.mp hlines] at hfind ⊢
  simp only [ofText]
  split
  next line number hfound => cases hfound.symm.trans hfind
  next => rfl

theorem ofWords_of_length_ne {ws : List Word} (h : ws.length ≠ storeSize) :
    ofWords ws = .error (.storeSize storeSize ws.length) := dif_neg h

theorem exists_ofWords {ws : List Word} (h : ws.length = storeSize) :
    ∃ s, ofWords ws = .ok s := ⟨_, dif_pos h⟩

theorem words_eq_iff {s : ControlStore} {ws : List Word} {lines : List (List Char)}
    (hspell : List.Forall₂ DigitsOf lines ws) :
    ws = s.words.toList ↔ ∀ address w, s.word? address = some w ↔
      ∃ digits, lines[address]? = some digits ∧ DigitsOf digits w := by
  have hread : ∀ (address : Nat) (w : Word), ws[address]? = some w ↔
      ∃ digits, lines[address]? = some digits ∧ DigitsOf digits w := by
    intro address w
    constructor
    · intro hw
      exact getElem?_of_forall₂ hspell.flip hw
    · rintro ⟨digits, hdigits, hspells⟩
      obtain ⟨w', hw', hspells'⟩ := getElem?_of_forall₂ hspell hdigits
      rw [digitsOf_iff] at hspells hspells'
      obtain rfl := Option.some.inj (hspells.symm.trans hspells')
      exact hw'
  constructor
  · rintro rfl address w
    rw [← hread, word?, Vector.getElem?_toList]
  · intro h
    refine List.ext_getElem? fun address => Option.ext fun w => ?_
    rw [hread, ← h, word?, Vector.getElem?_toList]

theorem Verdict.ofText_eq {text : String} {r : Except Diagnostic ControlStore}
    (h : Verdict text.toList r) : ofText text = r := by
  cases h with
  | badLine hlines hbefore hfilled hbad =>
      exact ofText_of_badLine hlines (forall_not_isBadLine_iff.mpr hbefore)
        (isBadLine_iff.mpr ⟨hfilled, hbad⟩)
  | wrongCount hlines hgood hcount =>
      have hlen := (forall₂_filled hgood).length_eq
      rw [hlen] at hcount ⊢
      rw [ofText_of_goodLines hlines (forall_not_isBadLine_iff.mpr hgood),
        ofWords_of_length_ne hcount]
  | loaded hlines hgood hcount hwords =>
      rw [ofText_of_goodLines hlines (forall_not_isBadLine_iff.mpr hgood), ofWords_eq_ok_iff]
      exact (words_eq_iff (forall₂_filled hgood)).mpr hwords

theorem exists_verdict (text : List Char) : ∃ r, Verdict text r := by
  have hlines : ∃ contents, Text.TrimmedLines text contents :=
    ⟨_, Text.trimmedLines_iff.mpr rfl⟩
  obtain ⟨contents, hlines⟩ := hlines
  rcases forall_not_or_exists_first IsBadLine contents with
    hgood | ⟨before, content, after, rfl, hbad, hbefore⟩
  · rw [forall_not_isBadLine_iff] at hgood
    by_cases hcount : (filled contents).length = storeSize
    · have hspell := forall₂_filled hgood
      obtain ⟨s, hs⟩ := exists_ofWords (hspell.length_eq.symm.trans hcount)
      have hwords := (words_eq_iff hspell).mp (ofWords_eq_ok_iff.mp hs)
      exact ⟨_, .loaded hlines hgood hcount hwords⟩
    · exact ⟨_, .wrongCount hlines hgood hcount⟩
  · rw [forall_not_isBadLine_iff] at hbefore
    obtain ⟨hfilled, hdigits⟩ := isBadLine_iff.mp hbad
    exact ⟨_, .badLine hlines hbefore hfilled hdigits⟩

/-- Every text has one verdict, which is what the loader says of it. -/
theorem ofText_eq_iff_verdict (text : String) (r : Except Diagnostic ControlStore) :
    ofText text = r ↔ Verdict text.toList r := by
  constructor
  · rintro rfl
    obtain ⟨r, hr⟩ := exists_verdict text.toList
    rw [hr.ofText_eq]
    exact hr
  · exact Verdict.ofText_eq

example : ofText "\n 0000 \n12g4\nABCDE" = .error (.wordLine 3 "12g4") := rfl

end Microcode.ControlStore
