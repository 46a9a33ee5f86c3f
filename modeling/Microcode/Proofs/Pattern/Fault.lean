import Mathlib.Order.Bounds.Basic
import Microcode.Proofs.List
import Microcode.Proofs.Pattern.Grammar

/-!
# The fault of a text

Which fault is reported for a text that is no pattern, said of the text as
a whole (`TextFault`): its size comes first, then the lowest place without
its space, then the lowest bit at which something is wrong with a
character.

For the reader a field that is taken up again ended where it stopped
growing, which is a number kept beside the characters. `LowestRun` says of
the characters where that is. The reader and the relation `BitFault` agree
on one character (`Reads.readBit_eq_error_iff`), and so on all of them
(`Reads.readBits_eq_error_iff`), as the reader stops at the first one.
-/

namespace Microcode.Pattern

/-! ## Runs -/

/-- The bits `first` to `last` are of `c`, no lower one is, and nor is the
one above them. -/
structure LowestRun (cs : List Char) (c : Char) (first last : Nat) : Prop where
  first_le : first ≤ last
  run : ∀ i, first ≤ i → i ≤ last → cs[i]? = some c
  lowest : ∀ i < first, cs[i]? ≠ some c
  ends : cs[last + 1]? ≠ some c

namespace LowestRun

variable {cs : List Char} {c : Char} {first first' last last' : Nat}

theorem first_le_first (h : LowestRun cs c first last) (h' : LowestRun cs c first' last') :
    first ≤ first' :=
  Nat.le_of_not_lt fun hlt => h.lowest first' hlt (h'.run first' (Nat.le_refl _) h'.first_le)

theorem last_le_last (h : LowestRun cs c first last) (h' : LowestRun cs c first' last') :
    last ≤ last' := by
  refine Nat.le_of_not_lt fun hlt => h'.ends (h.run (last' + 1) ?_ hlt)
  have hfirst := h.first_le_first h'
  have hle := h'.first_le
  omega

theorem last_eq (h : LowestRun cs c first last) (h' : LowestRun cs c first' last') :
    last = last' := Nat.le_antisymm (h.last_le_last h') (h'.last_le_last h)

end LowestRun

/-- Where another character stands between a field and the end of what has
been read, the field is the lowest run of its letter, whatever comes
after. -/
theorem Adjacent.lowestRun {cs : List Char} {f : Field} (h : Adjacent cs)
    (hf : f ∈ fieldsOf cs) (hend : f.offset + f.width < cs.length) (rest : List Char) :
    LowestRun (cs ++ rest) f.letter f.offset (f.offset + f.width - 1) := by
  have hstart : f.offset < f.offset + f.width := ((h f hf f.offset).mp (mem_fieldsOf.mp hf).1).2
  have hbits : ∀ i < cs.length, (cs ++ rest)[i]? = some f.letter ↔
      f.offset ≤ i ∧ i < f.offset + f.width := by
    intro i hi
    rw [List.getElem?_append_left hi]
    exact h f hf i
  refine ⟨by omega, fun i hfirst hlast => ?_, fun i hi => ?_, ?_⟩
  · exact (hbits i (by omega)).mpr ⟨hfirst, by omega⟩
  · rw [ne_eq, hbits i (by omega)]
    omega
  · rw [ne_eq, hbits _ (by omega)]
    omega

/-! ## One bit -/

/-- The character of the bit is none that a pattern can have, or a letter
that stands below but not at the next lower bit. -/
def Offends (cs : List Char) (bit : Nat) : Prop :=
  ∃ c, cs[bit]? = some c ∧
    (¬ IsPatternChar c ∨
      IsFieldLetter c ∧ (∃ i < bit, cs[i]? = some c) ∧ cs[bit - 1]? ≠ some c)

/-- What is wrong with the character of a bit that offends. -/
inductive BitFault (cs : List Char) (bit : Nat) : PatternFault → Prop where
  | character {c : Char} (hc : cs[bit]? = some c) (hbad : ¬ IsPatternChar c) :
      BitFault cs bit (.character c bit)
  | reappears {c : Char} {first last : Nat} (hc : cs[bit]? = some c) (hletter : IsFieldLetter c)
      (hbelow : ∃ i < bit, cs[i]? = some c) (hgap : cs[bit - 1]? ≠ some c)
      (hrun : LowestRun cs c first last) :
      BitFault cs bit (.reappears c bit last)

namespace BitFault

variable {cs : List Char} {bit : Nat} {fault fault' : PatternFault}

theorem offends (h : BitFault cs bit fault) : Offends cs bit := by
  cases h with
  | character hc hbad => exact ⟨_, hc, .inl hbad⟩
  | reappears hc hletter hbelow hgap _ => exact ⟨_, hc, .inr ⟨hletter, hbelow, hgap⟩⟩

theorem unique (h : BitFault cs bit fault) (h' : BitFault cs bit fault') : fault = fault' := by
  cases h with
  | character hc hbad =>
      cases h' with
      | character hc' _ =>
          obtain rfl := Option.some.inj (hc.symm.trans hc')
          rfl
      | reappears hc' hletter _ _ _ =>
          obtain rfl := Option.some.inj (hc.symm.trans hc')
          exact absurd (isPatternChar_iff.mpr (.inr (.inr hletter))) hbad
  | reappears hc hletter _ _ hrun =>
      cases h' with
      | character hc' hbad =>
          obtain rfl := Option.some.inj (hc.symm.trans hc')
          exact absurd (isPatternChar_iff.mpr (.inr (.inr hletter))) hbad
      | reappears hc' _ _ _ hrun' =>
          obtain rfl := Option.some.inj (hc.symm.trans hc')
          rw [hrun.last_eq hrun']

end BitFault

/-- What the reader asks of the next character, asked of the whole list. -/
theorem offends_append_cons_iff {cs : List Char} {c : Char} {rest : List Char} :
    Offends (cs ++ c :: rest) cs.length ↔ ¬ MayFollow cs c := by
  have hlast : c ∈ cs → (cs ++ c :: rest)[cs.length - 1]? = cs.getLast? := by
    intro hmem
    have hpos := List.length_pos_of_mem hmem
    rw [List.getLast?_eq_getElem?, List.getElem?_append_left (by omega)]
  have hhere : (cs ++ c :: rest)[cs.length]? = some c := by simp
  simp only [Offends, hhere, Option.some.injEq, exists_eq_left', exists_lt_getElem?_append_iff,
    MayFollow]
  constructor
  · rintro (hbad | ⟨hletter, hmem, hgap⟩) ⟨hchar, hfollow⟩
    · exact hbad hchar
    · exact hgap ((hlast hmem).trans (hfollow hletter hmem))
  · intro hnot
    by_cases hchar : IsPatternChar c
    · simp only [hchar, true_and, Classical.not_imp] at hnot
      obtain ⟨hletter, hmem, hgap⟩ := hnot
      exact .inr ⟨hletter, hmem, by rwa [hlast hmem]⟩
    · exact .inl hchar

namespace Reads

variable {p : Pattern} {cs : List Char} {c : Char} {fault : PatternFault}

theorem bitFault_of_readBit (h : Reads p cs) (hread : p.readBit cs.length c = .error fault)
    (rest : List Char) : BitFault (cs ++ c :: rest) cs.length fault := by
  have hhere : (cs ++ c :: rest)[cs.length]? = some c := by simp
  -- of the reasons that a character offends, its branch of the reader tells which one it is
  have hoffends : Offends (cs ++ c :: rest) cs.length := by
    rw [offends_append_cons_iff, ← h.exists_readBit_iff, hread]
    simp
  obtain ⟨d, hd, hwhy⟩ := hoffends
  obtain rfl := Option.some.inj (hhere.symm.trans hd)
  unfold Pattern.readBit at hread
  split at hread
  next => cases hread
  split at hread
  next => cases hread
  split at hread
  next => cases hread
  split at hread
  next hX hrange =>
    have hletter : IsFieldLetter c := ⟨hrange.1, hrange.2, hX⟩
    rcases hwhy with hbad | ⟨-, hbelow, hgap⟩
    · exact absurd (.inr (.inr hrange)) hbad
    cases hfind : p.field? c with
    | none => simp [hfind] at hread
    | some f =>
        obtain ⟨hf, rfl⟩ := h.field?_eq_some hfind
        simp only [hfind] at hread
        split at hread
        next => cases hread
        next hne =>
          cases hread
          have hend : f.offset + f.width < cs.length :=
            Nat.lt_of_le_of_ne (end_le_length h.adjacent hf) hne
          exact .reappears hhere hletter hbelow hgap (h.adjacent.lowestRun hf hend _)
  next h0 h1 hX hrange =>
    cases hread
    exact .character hhere (by simp [IsPatternChar, h0, h1, hrange])

theorem readBit_eq_error_iff (h : Reads p cs) (rest : List Char) :
    p.readBit cs.length c = .error fault ↔ BitFault (cs ++ c :: rest) cs.length fault := by
  refine ⟨fun hread => h.bitFault_of_readBit hread rest, fun hfault => ?_⟩
  cases hread : p.readBit cs.length c with
  | ok q =>
      have hfollow := h.exists_readBit_iff.mp ⟨q, hread⟩
      exact absurd hfollow (offends_append_cons_iff.mp hfault.offends)
  | error fault' => rw [(h.bitFault_of_readBit hread rest).unique hfault]

/-! ## All bits -/

/-- The fault is that of the first bit that offends among those still to
be read. -/
theorem readBits_eq_error_iff (h : Reads p cs) {rest : List Char}
    (hlen : cs.length + rest.length ≤ 16) :
    p.readBits cs.length rest = .error fault ↔
      ∃ bit, cs.length ≤ bit ∧ (∀ i, cs.length ≤ i → i < bit → ¬ Offends (cs ++ rest) i) ∧
        BitFault (cs ++ rest) bit fault := by
  induction rest generalizing p cs with
  | nil =>
      simp only [Pattern.readBits, reduceCtorEq, false_iff, List.append_nil]
      rintro ⟨bit, hle, -, hfault⟩
      obtain ⟨c, hc, -⟩ := hfault.offends
      have hlt := (List.getElem?_eq_some_iff.mp hc).1
      omega
  | cons c rest ih =>
      rw [List.length_cons] at hlen
      rw [Pattern.readBits]
      cases hstep : p.readBit cs.length c with
      | error fault' =>
          have hhere := (h.bitFault_of_readBit hstep rest).offends
          -- the reader stops here, with what it says of this character
          show Except.error fault' = .error fault ↔ _
          rw [← hstep, h.readBit_eq_error_iff rest]
          constructor
          · intro hfault
            exact ⟨cs.length, Nat.le_refl _, fun i hle hlt => absurd hle (Nat.not_le.mpr hlt),
              hfault⟩
          · rintro ⟨bit, hle, hbefore, hfault⟩
            rcases Nat.eq_or_lt_of_le hle with rfl | hlt
            · exact hfault
            · exact absurd hhere (hbefore _ (Nat.le_refl _) hlt)
      | ok q =>
          have hfollow : MayFollow cs c := h.exists_readBit_iff.mp ⟨q, hstep⟩
          have hhere : ¬ Offends (cs ++ c :: rest) cs.length :=
            fun hoffends => offends_append_cons_iff.mp hoffends hfollow
          have hnext := h.readBit (by omega) hstep
          have hlen' : (cs ++ [c]).length = cs.length + 1 := by simp
          have hrest := ih hnext (by omega)
          rw [hlen', List.append_assoc, List.singleton_append] at hrest
          simp only [hrest]
          -- the bit just read does not offend, so it may be counted among those to be read
          constructor
          · rintro ⟨bit, hle, hbefore, hfault⟩
            refine ⟨bit, by omega, fun i hi hlt => ?_, hfault⟩
            rcases Nat.eq_or_lt_of_le hi with rfl | hgt
            · exact hhere
            · exact hbefore i hgt hlt
          · rintro ⟨bit, hle, hbefore, hfault⟩
            rcases Nat.eq_or_lt_of_le hle with rfl | hgt
            · exact absurd hfault.offends hhere
            · exact ⟨bit, hgt, fun i hi hlt => hbefore i (by omega) hlt, hfault⟩

end Reads

theorem readBits_eq_error_iff {cs : List Char} {fault : PatternFault} (hlen : cs.length ≤ 16) :
    readBits {} 0 cs = .error fault ↔
      ∃ bit, IsLeast {bit | Offends cs bit} bit ∧ BitFault cs bit fault := by
  have hread : readBits {} 0 cs = .error fault ↔ _ :=
    reads_nil.readBits_eq_error_iff (by simpa using hlen)
  rw [hread]
  simp only [List.length_nil, Nat.zero_le, true_and, forall_const, List.nil_append]
  refine exists_congr fun bit => and_congr_left fun hfault => ?_
  constructor
  · intro hbefore
    exact ⟨hfault.offends, fun i hi => Nat.le_of_not_lt fun hlt => hbefore i hlt hi⟩
  · exact fun hleast i hlt hi => Nat.not_lt.mpr (hleast.2 hi) hlt

/-! ## Texts -/

/-- As long as a pattern text, and of ASCII characters only. -/
def Sized (text : String) : Prop :=
  text.toList.length = 19 ∧ ∀ c ∈ text.toList, c.toNat < 128

/-- What is wrong with a text that is no pattern. -/
inductive TextFault (text : String) : PatternFault → Prop where
  | length (hsize : ¬ Sized text) : TextFault text (.length text.toList.length)
  | separator {position : Nat} (hsize : Sized text)
      (hleast : IsLeast {i | i ∈ [4, 9, 14] ∧ text.toList[i]? ≠ some ' '} position) :
      TextFault text (.separator position)
  | bit {bit : Nat} {fault : PatternFault} (hsize : Sized text)
      (hspaces : ∀ i ∈ [4, 9, 14], text.toList[i]? = some ' ')
      (hleast : IsLeast {bit | Offends (canonical text).reverse bit} bit)
      (hfault : BitFault (canonical text).reverse bit fault) :
      TextFault text fault

theorem find?_separators_eq_some_iff {cs : List Char} {position : Nat} :
    separators.find? (cs[·]? ≠ some ' ') = some position ↔
      IsLeast {i | i ∈ separators ∧ cs[i]? ≠ some ' '} position := by
  rw [find?_eq_some_iff_of_pairwise (P := fun i => cs[i]? ≠ some ' ') (by decide)]
  constructor
  · rintro ⟨hmem, hne, hleast⟩
    exact ⟨⟨hmem, hne⟩, fun i hi => hleast i hi.1 hi.2⟩
  · intro h
    exact ⟨h.1.1, h.1.2, fun i hmem hne => h.2 ⟨hmem, hne⟩⟩

theorem sized_iff {text : String} :
    Sized text ↔ text.toList.length = textLength ∧ text.toList.all (·.toNat < 128) := by
  simp [Sized, textLength]

theorem ofText_of_not_sized {text : String} (h : ¬ Sized text) :
    ofText text = .error (.length text.toList.length) := if_neg (mt sized_iff.mpr h)

theorem ofText_of_isLeast {text : String} {position : Nat} (h : Sized text)
    (hleast : IsLeast {i | i ∈ [4, 9, 14] ∧ text.toList[i]? ≠ some ' '} position) :
    ofText text = .error (.separator position) := by
  have hfind := find?_separators_eq_some_iff.mpr hleast
  simp only [ofText, if_pos (sized_iff.mp h), hfind]

theorem ofText_of_spaces {text : String} (h : Sized text)
    (hspaces : ∀ i ∈ [4, 9, 14], text.toList[i]? = some ' ') :
    ofText text = readBits {} 0 (canonical text).reverse := by
  have hfind := find?_separators_eq_none_iff.mpr hspaces
  simp only [ofText, if_pos (sized_iff.mp h), hfind, (bitChars_eq_reverse h.1).1]

/-- Every text that is no pattern has one fault, which is what the reader
says of it. -/
theorem ofText_eq_error_iff {text : String} {fault : PatternFault} :
    ofText text = .error fault ↔ TextFault text fault := by
  by_cases hsize : Sized text
  · cases hfind : separators.find? (text.toList[·]? ≠ some ' ') with
    | some position =>
        have hleast := find?_separators_eq_some_iff.mp hfind
        rw [ofText_of_isLeast hsize hleast]
        constructor
        · rintro ⟨⟩
          exact .separator hsize hleast
        · intro h
          cases h with
          | length hnot => exact absurd hsize hnot
          | separator _ hleast' => rw [hleast.unique hleast']
          | bit _ hspaces => exact absurd (hspaces position hleast.1.1) hleast.1.2
    | none =>
        have hspaces := find?_separators_eq_none_iff.mp hfind
        have hlen : (canonical text).reverse.length ≤ 16 := by
          rw [List.length_reverse, (bitChars_eq_reverse hsize.1).2]
        rw [ofText_of_spaces hsize hspaces, readBits_eq_error_iff hlen]
        constructor
        · rintro ⟨bit, hleast, hfault⟩
          exact .bit hsize hspaces hleast hfault
        · intro h
          cases h with
          | length hnot => exact absurd hsize hnot
          | separator _ hleast => exact absurd (hspaces _ hleast.1.1) hleast.1.2
          | bit _ _ hleast hfault => exact ⟨_, hleast, hfault⟩
  · rw [ofText_of_not_sized hsize]
    constructor
    · rintro ⟨⟩
      exact .length hsize
    · intro h
      cases h with
      | length => rfl
      | separator hsize' | bit hsize' => exact absurd hsize' hsize

end Microcode.Pattern
