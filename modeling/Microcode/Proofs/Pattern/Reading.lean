import Microcode.Pattern.Text
import Microcode.Proofs.Pattern.Claims

/-!
# What a pattern text says

`Pattern.ofText` takes the characters of the sixteen bits in one by one
and finds the field of a letter by search. This module says what comes
of that without following the loop.

The characters read so far, lowest bit first, determine the fields by
themselves (`fieldsOf`): one for each letter, at its lowest bit and as
wide as the letter is frequent. `Reads p cs` says that `p` is the pattern
of the characters `cs`: every bit is of the kind that its character
names, the fields are those of `cs`, and the bits of each field are
adjacent. One more character keeps this (`Reads.readBit`), so a pattern
read from a text has it for all sixteen (`reads_of_ofText`).
-/

namespace Microcode.Pattern

/-! ## Fields named by characters -/

/-- An upper-case letter other than `X`. -/
def IsFieldLetter (c : Char) : Prop := 'A' ≤ c ∧ c ≤ 'Z' ∧ c ≠ 'X'

instance : DecidablePred IsFieldLetter :=
  fun c => inferInstanceAs (Decidable ('A' ≤ c ∧ c ≤ 'Z' ∧ c ≠ 'X'))

/-- The field that the character `c` starts at `bit`: as wide as the
letter is frequent, unless the letter already stands below. -/
def fieldFrom (cs : List Char) (c : Char) (bit : Nat) : Option Field :=
  if IsFieldLetter c ∧ c ∉ cs.take bit then some ⟨c, bit, cs.count c⟩ else none

/-- The fields that the characters name, lowest bit first: one for each
letter. -/
def fieldsOf (cs : List Char) : List Field :=
  cs.zipIdx.filterMap fun x => fieldFrom cs x.1 x.2

/-- The field of a letter: it starts at the lowest bit of the letter. -/
def fieldOf (cs : List Char) (c : Char) : Field := ⟨c, cs.idxOf c, cs.count c⟩

/-- The bits of each field are those from its offset up to its width. -/
def Adjacent (cs : List Char) : Prop :=
  ∀ f ∈ fieldsOf cs, ∀ b, cs[b]? = some f.letter ↔ f.offset ≤ b ∧ b < f.offset + f.width

theorem mem_fieldsOf {cs : List Char} {f : Field} :
    f ∈ fieldsOf cs ↔
      cs[f.offset]? = some f.letter ∧ IsFieldLetter f.letter ∧
        f.letter ∉ cs.take f.offset ∧ f.width = cs.count f.letter := by
  rw [fieldsOf, List.mem_filterMap]
  constructor
  · rintro ⟨⟨c, bit⟩, hc, hf⟩
    rw [List.mem_zipIdx_iff_getElem?] at hc
    rw [fieldFrom, Option.ite_none_right_eq_some] at hf
    obtain ⟨⟨hletter, hnew⟩, ⟨⟩⟩ := hf
    exact ⟨hc, hletter, hnew, rfl⟩
  · rintro ⟨hc, hletter, hnew, hwidth⟩
    refine ⟨(f.letter, f.offset), List.mem_zipIdx_iff_getElem?.mpr hc, ?_⟩
    rw [fieldFrom, if_pos ⟨hletter, hnew⟩, ← hwidth]

theorem fieldOf_mem_fieldsOf {cs : List Char} {c : Char} (hletter : IsFieldLetter c)
    (hc : c ∈ cs) : fieldOf cs c ∈ fieldsOf cs := by
  refine mem_fieldsOf.mpr ⟨List.getElem?_idxOf hc, hletter, ?_, rfl⟩
  rw [List.mem_take_iff_idxOf_lt (by exact hc)]
  exact Nat.lt_irrefl _

theorem letter_mem_of_mem_fieldsOf {cs : List Char} {f : Field} (hf : f ∈ fieldsOf cs) :
    f.letter ∈ cs := List.mem_of_getElem? (mem_fieldsOf.mp hf).1

theorem pairwise_offset_fieldsOf (cs : List Char) :
    (fieldsOf cs).Pairwise fun f g => f.offset < g.offset := by
  rw [fieldsOf, List.pairwise_filterMap]
  refine (pairwise_snd_zipIdx cs).imp fun {x y} hlt f hf g hg => ?_
  rw [fieldFrom, Option.ite_none_right_eq_some] at hf hg
  obtain ⟨-, ⟨⟩⟩ := hf
  obtain ⟨-, ⟨⟩⟩ := hg
  exact hlt

/-- A new character widens the field of its letter, or starts one where
the letter is new. -/
theorem fieldsOf_concat (cs : List Char) (c : Char) :
    fieldsOf (cs ++ [c]) =
      ((fieldsOf cs).map fun f =>
        if f.letter = c then { f with width := f.width + 1 } else f)
      ++ if IsFieldLetter c ∧ c ∉ cs then [⟨c, cs.length, 1⟩] else [] := by
  rw [fieldsOf, List.zipIdx_append, List.filterMap_append, fieldsOf, List.map_filterMap]
  congr 1
  · refine List.filterMap_congr fun x hx => ?_
    have hbit : x.2 < cs.length :=
      (List.getElem?_eq_some_iff.mp (List.mem_zipIdx_iff_getElem?.mp hx)).1
    rw [fieldFrom, fieldFrom, List.take_append_of_le_length (Nat.le_of_lt hbit)]
    split
    · rcases eq_or_ne x.1 c with h | h
      · simp [h]
      · simp [h, h.symm]
    · rfl
  · by_cases h : IsFieldLetter c ∧ c ∉ cs
    · have hcount : cs.count c = 0 := List.count_eq_zero.mpr h.2
      simp [fieldFrom, h, hcount]
    · simp [fieldFrom, h]

theorem offset_le_of_mem_fieldsOf {cs : List Char} {f : Field} (hf : f ∈ fieldsOf cs)
    {b : Nat} (hb : cs[b]? = some f.letter) : f.offset ≤ b := by
  refine Nat.le_of_not_lt fun hlt => (mem_fieldsOf.mp hf).2.2.1 ?_
  rw [← List.getElem?_take_of_lt hlt] at hb
  exact List.mem_of_getElem? hb

theorem eq_of_letter_eq {cs : List Char} {f g : Field} (hf : f ∈ fieldsOf cs)
    (hg : g ∈ fieldsOf cs) (h : f.letter = g.letter) : f = g := by
  obtain ⟨hfc, -, -, hfw⟩ := mem_fieldsOf.mp hf
  obtain ⟨hgc, -, -, hgw⟩ := mem_fieldsOf.mp hg
  have hoffset : f.offset = g.offset :=
    Nat.le_antisymm (offset_le_of_mem_fieldsOf hf (h ▸ hgc))
      (offset_le_of_mem_fieldsOf hg (h ▸ hfc))
  have hwidth : f.width = g.width := by rw [hfw, hgw, h]
  cases f
  cases g
  simp_all

theorem eq_fieldOf {cs : List Char} {f : Field} (hf : f ∈ fieldsOf cs) :
    f = fieldOf cs f.letter :=
  eq_of_letter_eq hf
    (fieldOf_mem_fieldsOf (mem_fieldsOf.mp hf).2.1 (letter_mem_of_mem_fieldsOf hf)) rfl

/-- The letters of the text, each once, in the order of their lowest
bits. -/
def letters (cs : List Char) : List Char := (fieldsOf cs).map Field.letter

theorem mem_letters {cs : List Char} {c : Char} : c ∈ letters cs ↔ IsFieldLetter c ∧ c ∈ cs := by
  rw [letters, List.mem_map]
  constructor
  · rintro ⟨f, hf, rfl⟩
    exact ⟨(mem_fieldsOf.mp hf).2.1, letter_mem_of_mem_fieldsOf hf⟩
  · rintro ⟨hletter, hc⟩
    exact ⟨fieldOf cs c, fieldOf_mem_fieldsOf hletter hc, rfl⟩

theorem pairwise_idxOf_letters (cs : List Char) :
    (letters cs).Pairwise fun c c' => cs.idxOf c < cs.idxOf c' := by
  rw [letters, List.pairwise_map]
  refine (pairwise_offset_fieldsOf cs).imp_of_mem fun {f g} hf hg hlt => ?_
  rw [eq_fieldOf hf, eq_fieldOf hg] at hlt
  exact hlt

theorem fieldsOf_eq_map_letters (cs : List Char) :
    fieldsOf cs = (letters cs).map (fieldOf cs) := by
  rw [letters, List.map_map]
  exact (List.map_id _).symm.trans (List.map_congr_left fun f hf => eq_fieldOf hf)

theorem fieldsOf_concat_of_not_letter {cs : List Char} {c : Char} (hc : ¬ IsFieldLetter c) :
    fieldsOf (cs ++ [c]) = fieldsOf cs := by
  have hne : ∀ f ∈ fieldsOf cs, f.letter ≠ c := by
    rintro f hf rfl
    exact hc (mem_fieldsOf.mp hf).2.1
  rw [fieldsOf_concat, if_neg fun h => hc h.1, List.append_nil]
  exact (List.map_congr_left fun f hf => if_neg (hne f hf)).trans (List.map_id _)

theorem fieldsOf_concat_of_new {cs : List Char} {c : Char} (hc : IsFieldLetter c)
    (hnew : c ∉ cs) : fieldsOf (cs ++ [c]) = fieldsOf cs ++ [⟨c, cs.length, 1⟩] := by
  have hne : ∀ f ∈ fieldsOf cs, f.letter ≠ c := by
    rintro f hf rfl
    exact hnew (letter_mem_of_mem_fieldsOf hf)
  rw [fieldsOf_concat, if_pos ⟨hc, hnew⟩]
  exact congrArg (· ++ _)
    ((List.map_congr_left fun f hf => if_neg (hne f hf)).trans (List.map_id _))

theorem fieldsOf_concat_of_mem {cs : List Char} {c : Char} (hmem : c ∈ cs) :
    fieldsOf (cs ++ [c]) = (fieldsOf cs).map fun f =>
      if f.letter = c then { f with width := f.width + 1 } else f := by
  rw [fieldsOf_concat, if_neg fun h => h.2 hmem, List.append_nil]

/-! ## Adjacent bits -/

theorem adjacent_concat_of_not_letter {cs : List Char} {c : Char} (h : Adjacent cs)
    (hc : ¬ IsFieldLetter c) : Adjacent (cs ++ [c]) := by
  intro f hf b
  rw [fieldsOf_concat_of_not_letter hc] at hf
  have hne : c ≠ f.letter := by
    rintro rfl
    exact hc (mem_fieldsOf.mp hf).2.1
  rw [getElem?_concat_eq_some_iff, h f hf]
  simp [hne]

theorem adjacent_concat_of_new {cs : List Char} {c : Char} (h : Adjacent cs)
    (hc : IsFieldLetter c) (hnew : c ∉ cs) : Adjacent (cs ++ [c]) := by
  intro f hf b
  rw [fieldsOf_concat_of_new hc hnew, List.mem_append, List.mem_singleton] at hf
  rw [getElem?_concat_eq_some_iff]
  rcases hf with hf | rfl
  · have hne : c ≠ f.letter := by
      rintro rfl
      exact hnew (letter_mem_of_mem_fieldsOf hf)
    rw [h f hf]
    simp [hne]
  · have hnone : cs[b]? ≠ some c := fun hb => hnew (List.mem_of_getElem? hb)
    simp only [hnone, false_or, and_true]
    omega

/-- The new character goes on with its field where the field ends at the
bit below. -/
theorem adjacent_concat_of_end {cs : List Char} {f : Field} (h : Adjacent cs)
    (hf : f ∈ fieldsOf cs) (hend : f.offset + f.width = cs.length) :
    Adjacent (cs ++ [f.letter]) := by
  intro g hg b
  rw [fieldsOf_concat_of_mem (letter_mem_of_mem_fieldsOf hf)] at hg
  obtain ⟨e, he, rfl⟩ := List.mem_map.mp hg
  rw [getElem?_concat_eq_some_iff]
  split
  next heq =>
    obtain rfl := eq_of_letter_eq he hf heq
    change cs[b]? = some e.letter ∨ _ ↔ _
    rw [h e he]
    simp only [and_true]
    omega
  next hne =>
    rw [h e he]
    simp [Ne.symm hne]

/-- A field ends within the characters, so that the next one goes on with
it only if the last one belongs to it. -/
theorem end_le_length {cs : List Char} {f : Field} (h : Adjacent cs) (hf : f ∈ fieldsOf cs) :
    f.offset + f.width ≤ cs.length := by
  have hstart := (List.getElem?_eq_some_iff.mp (mem_fieldsOf.mp hf).1).1
  refine Nat.le_of_not_lt fun hlt => ?_
  have hlast := (h f hf cs.length).mpr ⟨Nat.le_of_lt hstart, hlt⟩
  simp at hlast

theorem end_eq_length_iff {cs : List Char} {f : Field} (h : Adjacent cs)
    (hf : f ∈ fieldsOf cs) :
    f.offset + f.width = cs.length ↔ cs.getLast? = some f.letter := by
  have hstart := (List.getElem?_eq_some_iff.mp (mem_fieldsOf.mp hf).1).1
  have hend := end_le_length h hf
  rw [List.getLast?_eq_getElem?, h f hf]
  omega

/-! ## Masks named by characters -/

/-- The bits of `m` are those whose character has the property `P`. -/
def Marks (m : Word) (cs : List Char) (P : Char → Prop) : Prop :=
  ∀ b, m.getLsbD b ↔ ∃ c, cs[b]? = some c ∧ P c

theorem marks_zero (P : Char → Prop) : Marks 0 [] P := by
  intro b
  simp

namespace Marks

variable {m : Word} {cs : List Char} {P : Char → Prop} {c : Char}

theorem concat_of_pos (h : Marks m cs P) (hlen : cs.length < 16) (hc : P c) :
    Marks (m ||| BitVec.twoPow 16 cs.length) (cs ++ [c]) P := by
  intro b
  rw [BitVec.getLsbD_or, BitVec.getLsbD_twoPow, Bool.or_eq_true, h b]
  simp only [getElem?_concat_eq_some_iff, hlen, decide_true, Bool.true_and, decide_eq_true_eq]
  constructor
  · intro h
    rcases h with ⟨d, hd, hP⟩ | hb
    · exact ⟨d, .inl hd, hP⟩
    · exact ⟨c, .inr ⟨hb.symm, rfl⟩, hc⟩
  · intro h
    obtain ⟨d, hchar, hP⟩ := h
    rcases hchar with hd | ⟨hb, -⟩
    · exact .inl ⟨d, hd, hP⟩
    · exact .inr hb.symm

theorem concat_of_neg (h : Marks m cs P) (hc : ¬ P c) : Marks m (cs ++ [c]) P := by
  intro b
  rw [h b]
  simp only [getElem?_concat_eq_some_iff]
  constructor
  · rintro ⟨d, hd, hP⟩
    exact ⟨d, .inl hd, hP⟩
  · intro h
    obtain ⟨d, hchar, hP⟩ := h
    rcases hchar with hd | ⟨-, rfl⟩
    · exact ⟨d, hd, hP⟩
    · exact absurd hP hc

end Marks

/-! ## Patterns of characters -/

def IsFixed (c : Char) : Prop := c = '0' ∨ c = '1'

/-- The pattern `p` is what the characters `cs`, lowest bit first, say. -/
structure Reads (p : Pattern) (cs : List Char) : Prop where
  constMask : Marks p.constMask cs IsFixed
  constBits : Marks p.constBits cs (· = '1')
  dontCareMask : Marks p.dontCareMask cs (· = 'X')
  fields_eq : p.fields = fieldsOf cs
  adjacent : Adjacent cs
  known : ∀ c ∈ cs, IsFixed c ∨ c = 'X' ∨ IsFieldLetter c

theorem reads_nil : Reads {} [] where
  constMask := marks_zero _
  constBits := marks_zero _
  dontCareMask := marks_zero _
  fields_eq := rfl
  adjacent _ hf := absurd hf List.not_mem_nil
  known _ hc := absurd hc List.not_mem_nil

theorem IsFieldLetter.not_isFixed {c : Char} (h : IsFieldLetter c) : ¬ IsFixed c := by
  rintro (rfl | rfl) <;> revert h <;> decide

namespace Reads

variable {p q : Pattern} {cs : List Char} {c : Char}

theorem known_concat (h : Reads p cs) (hc : IsFixed c ∨ c = 'X' ∨ IsFieldLetter c) :
    ∀ d ∈ cs ++ [c], IsFixed d ∨ d = 'X' ∨ IsFieldLetter d := by
  intro d hd
  rcases List.mem_append.mp hd with hd | hd
  · exact h.known d hd
  · rwa [List.mem_singleton.mp hd]

theorem concat_zero (h : Reads p cs) (hlen : cs.length < 16) :
    Reads { p with constMask := p.constMask ||| BitVec.twoPow 16 cs.length } (cs ++ ['0']) where
  constMask := h.constMask.concat_of_pos hlen (.inl rfl)
  constBits := h.constBits.concat_of_neg (by decide)
  dontCareMask := h.dontCareMask.concat_of_neg (by decide)
  fields_eq := h.fields_eq.trans (fieldsOf_concat_of_not_letter (by decide)).symm
  adjacent := adjacent_concat_of_not_letter h.adjacent (by decide)
  known := h.known_concat (.inl (.inl rfl))

theorem concat_one (h : Reads p cs) (hlen : cs.length < 16) :
    Reads { p with
        constMask := p.constMask ||| BitVec.twoPow 16 cs.length
        constBits := p.constBits ||| BitVec.twoPow 16 cs.length } (cs ++ ['1']) where
  constMask := h.constMask.concat_of_pos hlen (.inr rfl)
  constBits := h.constBits.concat_of_pos hlen rfl
  dontCareMask := h.dontCareMask.concat_of_neg (by decide)
  fields_eq := h.fields_eq.trans (fieldsOf_concat_of_not_letter (by decide)).symm
  adjacent := adjacent_concat_of_not_letter h.adjacent (by decide)
  known := h.known_concat (.inl (.inr rfl))

theorem concat_dontCare (h : Reads p cs) (hlen : cs.length < 16) :
    Reads { p with dontCareMask := p.dontCareMask ||| BitVec.twoPow 16 cs.length }
      (cs ++ ['X']) where
  constMask := h.constMask.concat_of_neg (by rintro (h | h) <;> cases h)
  constBits := h.constBits.concat_of_neg (by decide)
  dontCareMask := h.dontCareMask.concat_of_pos hlen rfl
  fields_eq := h.fields_eq.trans (fieldsOf_concat_of_not_letter (by decide)).symm
  adjacent := adjacent_concat_of_not_letter h.adjacent (by decide)
  known := h.known_concat (.inr (.inl rfl))

/-- A letter leaves the masks alone; the fields are to be those of the
longer text. -/
theorem concat_letter (h : Reads p cs) (hc : IsFieldLetter c) {fields : List Field}
    (hfields : fields = fieldsOf (cs ++ [c])) (hadj : Adjacent (cs ++ [c])) :
    Reads { p with fields := fields } (cs ++ [c]) where
  constMask := h.constMask.concat_of_neg hc.not_isFixed
  constBits := h.constBits.concat_of_neg fun h => hc.not_isFixed (.inr h)
  dontCareMask := h.dontCareMask.concat_of_neg hc.2.2
  fields_eq := hfields
  adjacent := hadj
  known := h.known_concat (.inr (.inr hc))

/-- The field that is found for a letter is the one named by the
characters read so far, and none is found for a new letter. -/
theorem field?_eq_none (h : Reads p cs) (hc : IsFieldLetter c) (hnone : p.field? c = none) :
    c ∉ cs := by
  intro hmem
  rw [field?, h.fields_eq, List.find?_eq_none] at hnone
  exact hnone (fieldOf cs c) (fieldOf_mem_fieldsOf hc hmem) (decide_eq_true rfl)

theorem field?_eq_some (h : Reads p cs) {f : Field} (hsome : p.field? c = some f) :
    f ∈ fieldsOf cs ∧ f.letter = c := by
  rw [field?, h.fields_eq] at hsome
  exact ⟨List.mem_of_find?_eq_some hsome, of_decide_eq_true (List.find?_some hsome :)⟩

/-- One more character, of five kinds: a fixed bit of either value, an
ignored one, the first of a letter, or the next of the letter below. -/
theorem readBit (h : Reads p cs) (hlen : cs.length < 16)
    (hq : p.readBit cs.length c = .ok q) : Reads q (cs ++ [c]) := by
  unfold Pattern.readBit at hq
  split at hq
  next hc =>
    obtain rfl := hc
    cases hq
    exact h.concat_zero hlen
  split at hq
  next hc =>
    obtain rfl := hc
    cases hq
    exact h.concat_one hlen
  split at hq
  next hc =>
    obtain rfl := hc
    cases hq
    exact h.concat_dontCare hlen
  split at hq
  next hX hrange =>
    have hc : IsFieldLetter c := ⟨hrange.1, hrange.2, hX⟩
    cases hfind : p.field? c with
    | none =>
        rw [hfind] at hq
        cases hq
        have hnew := h.field?_eq_none hc hfind
        refine h.concat_letter hc ?_ (adjacent_concat_of_new h.adjacent hc hnew)
        rw [h.fields_eq, fieldsOf_concat_of_new hc hnew]
    | some f =>
        obtain ⟨hf, rfl⟩ := h.field?_eq_some hfind
        simp only [hfind] at hq
        split at hq
        next hend =>
          cases hq
          refine h.concat_letter hc ?_ (adjacent_concat_of_end h.adjacent hf hend)
          rw [h.fields_eq, fieldsOf_concat_of_mem (letter_mem_of_mem_fieldsOf hf)]
        next => cases hq
  next => cases hq

theorem readBits {rest : List Char} (h : Reads p cs) (hlen : cs.length + rest.length ≤ 16)
    (hq : p.readBits cs.length rest = .ok q) : Reads q (cs ++ rest) := by
  induction rest generalizing p cs with
  | nil =>
      cases hq
      rwa [List.append_nil]
  | cons c rest ih =>
      rw [List.length_cons] at hlen
      rw [Pattern.readBits] at hq
      cases hstep : p.readBit cs.length c with
      | error fault => simp [hstep] at hq
      | ok p' =>
          simp only [hstep] at hq
          have h' := h.readBit (by omega) hstep
          have hlen' : (cs ++ [c]).length = cs.length + 1 := by simp
          rw [← hlen'] at hq
          have := ih h' (by omega) hq
          rwa [List.append_assoc, List.singleton_append] at this

theorem consistent (h : Reads p cs) : p.Consistent := by
  refine consistent_iff_getLsbD.mpr fun b _ hb => ?_
  obtain ⟨c, hc, rfl⟩ := (h.constBits b).mp hb
  exact (h.constMask b).mpr ⟨'1', hc, .inr rfl⟩

end Reads

/-! ## Texts -/

/-- The characters of a text that stand for bits, the one for bit 15
first: all but those at the positions of the spaces. -/
def canonical (text : String) : List Char :=
  (text.toList.zipIdx.filter (·.2 ∉ separators)).map Prod.fst

theorem bitChars_eq_reverse {text : String} (h : text.toList.length = textLength) :
    bitChars text.toList = (canonical text).reverse ∧ (canonical text).length = 16 := by
  rw [canonical]
  match text.toList, h with
  | [_, _, _, _, _, _, _, _, _, _, _, _, _, _, _, _, _, _, _], _ => exact ⟨rfl, rfl⟩

theorem ofText_eq_ok {text : String} {p : Pattern} (h : ofText text = .ok p) :
    text.toList.length = textLength ∧ readBits {} 0 (bitChars text.toList) = .ok p := by
  simp only [ofText] at h
  split at h
  next hlen =>
    split at h
    next => cases h
    next => exact ⟨hlen.1, h⟩
  next => cases h

theorem length_canonical {text : String} {p : Pattern} (h : ofText text = .ok p) :
    (canonical text).length = 16 := (bitChars_eq_reverse (ofText_eq_ok h).1).2

/-- A pattern read from a text is what the sixteen characters say. -/
theorem reads_of_ofText {text : String} {p : Pattern} (h : ofText text = .ok p) :
    Reads p (canonical text).reverse := by
  obtain ⟨hlen, hread⟩ := ofText_eq_ok h
  obtain ⟨hrev, hcount⟩ := bitChars_eq_reverse hlen
  rw [hrev] at hread
  exact reads_nil.readBits (by simp [hcount]) hread

end Microcode.Pattern
