import Mathlib.Order.Interval.Set.OrdConnected
import Microcode.Encoding.Basic
import Microcode.Proofs.Pattern.Reading

/-!
# The grammar of pattern texts

Which texts are patterns, said of the text as a whole: nineteen ASCII
characters with spaces at their places, zeros, ones and upper-case letters
at all others, and each letter but `X` on an interval of bits
(`Grammatical`).

The reader never looks at a set of bits. It asks of each character whether
it may follow those read so far (`MayFollow`): a letter that stands among
them has to be the last of them. A character is taken exactly if it may
follow (`Reads.exists_readBit_iff`), so all are taken exactly if each may
follow those below it (`Reads.exists_readBits_iff`), which comes to the
intervals (`mayFollow_take_of_intervals`, `Adjacent.ordConnected`).
-/

namespace Microcode.Pattern

/-! ## One character -/

/-- A zero, a one or an upper-case letter. -/
def IsPatternChar (c : Char) : Prop := c = '0' ∨ c = '1' ∨ 'A' ≤ c ∧ c ≤ 'Z'

instance : DecidablePred IsPatternChar :=
  fun c => inferInstanceAs (Decidable (c = '0' ∨ c = '1' ∨ 'A' ≤ c ∧ c ≤ 'Z'))

theorem isPatternChar_iff {c : Char} :
    IsPatternChar c ↔ IsFixed c ∨ c = 'X' ∨ IsFieldLetter c := by
  rw [IsPatternChar, ← or_assoc, IsFixed]
  refine or_congr_right ?_
  by_cases hX : c = 'X'
  · obtain rfl := hX
    decide
  · simp [IsFieldLetter, hX]

/-- The character `c` can be read after `cs`. The bits of a letter other
than `X` may not be taken up again once others came between. -/
def MayFollow (cs : List Char) (c : Char) : Prop :=
  IsPatternChar c ∧ (IsFieldLetter c → c ∈ cs → cs.getLast? = some c)

theorem mayFollow_of_not_letter {cs : List Char} {c : Char} (hc : IsPatternChar c)
    (hletter : ¬ IsFieldLetter c) : MayFollow cs c :=
  ⟨hc, fun h => absurd h hletter⟩

namespace Reads

variable {p : Pattern} {cs : List Char}

theorem exists_readBit_iff (h : Reads p cs) {c : Char} :
    (∃ q, p.readBit cs.length c = .ok q) ↔ MayFollow cs c := by
  unfold Pattern.readBit
  split
  next hc =>
    obtain rfl := hc
    exact iff_of_true ⟨_, rfl⟩ (mayFollow_of_not_letter (by decide) (by decide))
  split
  next hc =>
    obtain rfl := hc
    exact iff_of_true ⟨_, rfl⟩ (mayFollow_of_not_letter (by decide) (by decide))
  split
  next hc =>
    obtain rfl := hc
    exact iff_of_true ⟨_, rfl⟩ (mayFollow_of_not_letter (by decide) (by decide))
  split
  next hX hrange =>
    have hletter : IsFieldLetter c := ⟨hrange.1, hrange.2, hX⟩
    cases hfind : p.field? c with
    | none =>
        have hnew := h.field?_eq_none hletter hfind
        exact iff_of_true ⟨_, rfl⟩ ⟨.inr (.inr hrange), fun _ hmem => absurd hmem hnew⟩
    | some f =>
        obtain ⟨hf, rfl⟩ := h.field?_eq_some hfind
        have hmem := letter_mem_of_mem_fieldsOf hf
        have hend := end_eq_length_iff h.adjacent hf
        simp only
        split
        next heq =>
          exact iff_of_true ⟨_, rfl⟩ ⟨.inr (.inr hrange), fun _ _ => hend.mp heq⟩
        next hne =>
          exact iff_of_false (by simp) fun hfollow => hne (hend.mpr (hfollow.2 hletter hmem))
  next h0 h1 hX hrange =>
    refine iff_of_false (by simp) fun hfollow => ?_
    rcases hfollow.1 with hc | hc | hc
    · exact h0 hc
    · exact h1 hc
    · exact hrange hc

/-! ## All characters -/

/-- Each step of the reader leaves a pattern of what it has read, so what
the next step asks is always a question about the characters below. -/
theorem exists_readBits_iff (h : Reads p cs) {rest : List Char}
    (hlen : cs.length + rest.length ≤ 16) :
    (∃ q, p.readBits cs.length rest = .ok q) ↔
      ∀ k c, rest[k]? = some c → MayFollow (cs ++ rest.take k) c := by
  induction rest generalizing p cs with
  | nil => exact iff_of_true ⟨p, rfl⟩ (by simp)
  | cons c rest ih =>
      rw [List.length_cons] at hlen
      rw [Pattern.readBits]
      cases hstep : p.readBit cs.length c with
      | error fault =>
          have hnot : ¬ MayFollow cs c := by
            rw [← h.exists_readBit_iff, hstep]
            simp
          refine iff_of_false (by simp) fun hall => hnot ?_
          have hfirst := hall 0 c rfl
          rwa [List.take_zero, List.append_nil] at hfirst
      | ok q =>
          -- the rest is read from the pattern of `cs ++ [c]`, so its question
          -- number `k` is the question number `k + 1` from here
          have hfollow : MayFollow cs c := h.exists_readBit_iff.mp ⟨q, hstep⟩
          have hnext := h.readBit (by omega) hstep
          have hlen' : (cs ++ [c]).length = cs.length + 1 := by simp
          have hrest := ih hnext (by omega)
          rw [hlen'] at hrest
          simp only [hrest, List.append_assoc, List.singleton_append]
          constructor
          · intro hall k d hd
            cases k with
            | zero =>
                obtain rfl := Option.some.inj hd
                rwa [List.take_zero, List.append_nil]
            | succ k => exact hall k d hd
          · exact fun hall k d hd => hall (k + 1) d hd

end Reads

/-! ## Intervals -/

/-- The bits whose character is `c`, that of the lowest bit standing
first. -/
def bitSet (cs : List Char) (c : Char) : Set Nat := {b : Nat | cs[b]? = some c}

theorem Adjacent.ordConnected {cs : List Char} (h : Adjacent cs) {c : Char}
    (hc : IsFieldLetter c) : (bitSet cs c).OrdConnected := by
  by_cases hmem : c ∈ cs
  · have hinterval : bitSet cs c =
        Set.Ico (fieldOf cs c).offset ((fieldOf cs c).offset + (fieldOf cs c).width) :=
      Set.ext fun b => h (fieldOf cs c) (fieldOf_mem_fieldsOf hc hmem) b
    rw [hinterval]
    exact Set.ordConnected_Ico
  · have hempty : bitSet cs c = ∅ :=
      Set.eq_empty_of_forall_notMem fun b hb => hmem (List.mem_of_getElem? hb)
    rw [hempty]
    exact Set.ordConnected_empty

/-- On an interval the bit between two bits of a letter carries it too, and
so does the bit just below the upper one. -/
theorem mayFollow_take_of_intervals {cs : List Char} (hchars : ∀ c ∈ cs, IsPatternChar c)
    (hint : ∀ c, IsFieldLetter c → (bitSet cs c).OrdConnected) {b : Nat} {c : Char}
    (hb : cs[b]? = some c) : MayFollow (cs.take b) c := by
  refine ⟨hchars c (List.mem_of_getElem? hb), fun hletter hmem => ?_⟩
  obtain ⟨i, hi⟩ := List.mem_iff_getElem?.mp hmem
  rw [List.getElem?_take, Option.ite_none_right_eq_some] at hi
  obtain ⟨hib, hi⟩ := hi
  have hlt := (List.getElem?_eq_some_iff.mp hb).1
  have hbelow : cs[b - 1]? = some c := (hint c hletter).out hi hb ⟨by omega, by omega⟩
  rw [List.getLast?_eq_getElem?, List.length_take_of_le (Nat.le_of_lt hlt),
    List.getElem?_take_of_lt (by omega), hbelow]

/-! ## Texts -/

theorem mem_canonical {text : String} {c : Char} :
    c ∈ canonical text ↔ ∃ i, i ∉ separators ∧ text.toList[i]? = some c := by
  simp only [canonical, List.mem_map, List.mem_filter, List.mem_zipIdx_iff_getElem?,
    decide_eq_true_eq]
  constructor
  · rintro ⟨⟨_, i⟩, ⟨hi, hsep⟩, rfl⟩
    exact ⟨i, hsep, hi⟩
  · rintro ⟨i, hsep, hi⟩
    exact ⟨(c, i), ⟨hi, hsep⟩, rfl⟩

theorem find?_separators_eq_none_iff {cs : List Char} :
    separators.find? (cs[·]? ≠ some ' ') = none ↔ ∀ i ∈ separators, cs[i]? = some ' ' := by
  rw [List.find?_eq_none]
  simp only [ne_eq, decide_not, Bool.not_eq_true', decide_eq_false_iff_not, not_not]

/-- The text is a pattern, as the form of it tells. -/
structure Grammatical (text : String) : Prop where
  length_eq : text.toList.length = 19
  ascii : ∀ c ∈ text.toList, c.toNat < 128
  spaces : ∀ i ∈ [4, 9, 14], text.toList[i]? = some ' '
  chars : ∀ i c, i ∉ [4, 9, 14] → text.toList[i]? = some c → IsPatternChar c
  /-- The bits of a letter other than `X`, spaces left out. -/
  intervals : ∀ c, IsFieldLetter c → (bitSet (canonical text).reverse c).OrdConnected

theorem ofText_eq_ok_iff {text : String} {p : Pattern} :
    ofText text = .ok p ↔
      (text.toList.length = textLength ∧ ∀ c ∈ text.toList, c.toNat < 128) ∧
        (∀ i ∈ separators, text.toList[i]? = some ' ') ∧
          readBits {} 0 (canonical text).reverse = .ok p := by
  simp only [ofText, List.all_eq_true, decide_eq_true_eq]
  split
  next hform =>
    rw [and_iff_right hform, ← (bitChars_eq_reverse hform.1).1]
    split
    next position hfind =>
      have hspaces : ¬ ∀ i ∈ separators, text.toList[i]? = some ' ' := by
        rw [← find?_separators_eq_none_iff, hfind]
        simp
      exact iff_of_false (by simp) fun h => hspaces h.1
    next hfind => rw [and_iff_right (find?_separators_eq_none_iff.mp hfind)]
  next hform => simp [hform]

theorem exists_readBits_canonical_iff {text : String}
    (hlen : text.toList.length = textLength) :
    (∃ p, readBits {} 0 (canonical text).reverse = .ok p) ↔
      (∀ c ∈ canonical text, IsPatternChar c) ∧
        ∀ c, IsFieldLetter c → (bitSet (canonical text).reverse c).OrdConnected := by
  have hcount : ([] : List Char).length + (canonical text).reverse.length ≤ 16 := by
    simp [(bitChars_eq_reverse hlen).2]
  constructor
  · rintro ⟨p, hp⟩
    have hreads := reads_nil.readBits hcount hp
    rw [List.nil_append] at hreads
    refine ⟨fun c hc => ?_, fun c hc => hreads.adjacent.ordConnected hc⟩
    exact isPatternChar_iff.mpr (hreads.known c (List.mem_reverse.mpr hc))
  · rintro ⟨hchars, hint⟩
    refine (reads_nil.exists_readBits_iff hcount).mpr fun b c hb => ?_
    rw [List.nil_append]
    exact mayFollow_take_of_intervals (fun d hd => hchars d (List.mem_reverse.mp hd)) hint hb

theorem exists_ofText_iff {text : String} :
    (∃ p, ofText text = .ok p) ↔ Grammatical text := by
  simp only [ofText_eq_ok_iff, exists_and_left]
  constructor
  · rintro ⟨⟨hlen, hascii⟩, hspaces, hread⟩
    obtain ⟨hchars, hint⟩ := (exists_readBits_canonical_iff hlen).mp hread
    exact ⟨hlen, hascii, hspaces,
      fun i c hsep hi => hchars c (mem_canonical.mpr ⟨i, hsep, hi⟩), hint⟩
  · intro h
    refine ⟨⟨h.length_eq, h.ascii⟩, h.spaces, ?_⟩
    refine (exists_readBits_canonical_iff h.length_eq).mpr ⟨fun c hc => ?_, h.intervals⟩
    obtain ⟨i, hsep, hi⟩ := mem_canonical.mp hc
    exact h.chars i c hsep hi

/-- The text of an entry is read exactly if it is of the grammar, and
otherwise is reported as it stands, with the entry. -/
theorem ofEntry_eq_ok_iff_grammatical (entry : Nat) (text : String) :
    ((∃ p, ofEntry entry text = .ok p) ↔ Grammatical text) ∧
      ((∃ fault, ofEntry entry text = .error (.pattern entry text fault)) ↔
        ¬ Grammatical text) := by
  rw [← exists_ofText_iff, ofEntry]
  cases ofText text with
  | ok p => simp [Except.mapError]
  | error fault => simp [Except.mapError]

end Microcode.Pattern
