import Mathlib.Data.List.Sort
import Microcode.Proofs.Pattern.Grammar
import Microcode.Proofs.Pattern.Partition

/-!
# Writing a pattern and reading it back

Every well-formed pattern has one text: the one that is written for it is
read as that pattern, and no other text is
(`ofText_eq_ok_iff_toText_eq`).

Neither direction compares the reader with the writer. The reader takes
in characters one by one, the writer asks for each bit of which kind it
is, and what they have in common is `Reads`: what the reader makes of
sixteen characters is the only pattern that reads them
(`readBits_eq_ok_iff_reads`), and what the writer puts down for a pattern
are the only characters that it reads (`reads_iff_eq_chars`). The second
needs the pattern to be well formed, as its fields have to be found again
in the characters, each of them whole and in the old order
(`WellFormed.fields_eq_fieldsOf_chars`).
-/

namespace Microcode.Pattern

/-! ## One pattern for the characters -/

theorem Marks.unique {m m' : Word} {cs : List Char} {P : Char → Prop} (h : Marks m cs P)
    (h' : Marks m' cs P) : m = m' := by
  refine BitVec.eq_of_getLsbD_eq fun b _ => ?_
  rw [Bool.eq_iff_iff, h b, h' b]

theorem Reads.unique {p q : Pattern} {cs : List Char} (h : Reads p cs) (h' : Reads q cs) :
    p = q := by
  have hconst := h.constMask.unique h'.constMask
  have hbits := h.constBits.unique h'.constBits
  have hdontCare := h.dontCareMask.unique h'.dontCareMask
  have hfields := h.fields_eq.trans h'.fields_eq.symm
  cases p
  cases q
  simp_all

theorem readBits_eq_ok_iff_reads {p : Pattern} {cs : List Char} (hlen : cs.length = 16) :
    readBits {} 0 cs = .ok p ↔ Reads p cs := by
  have hcount : ([] : List Char).length + cs.length ≤ 16 := by simp [hlen]
  constructor
  · exact fun hread => reads_nil.readBits hcount hread
  · intro h
    have hread : ∃ q, readBits {} 0 cs = .ok q := by
      refine (reads_nil.exists_readBits_iff hcount).mpr fun b c hb => ?_
      exact mayFollow_take_of_intervals (fun d hd => isPatternChar_iff.mpr (h.known d hd))
        (fun d hd => h.adjacent.ordConnected hd) hb
    obtain ⟨q, hq⟩ := hread
    obtain rfl := h.unique (reads_nil.readBits hcount hq)
    exact hq

/-! ## One string of characters for the pattern -/

/-- The characters that are written for the bits, lowest bit first. -/
def chars (p : Pattern) : List Char := (List.range 16).map p.charAt

theorem length_chars (p : Pattern) : p.chars.length = 16 := by
  rw [chars, List.length_map, List.length_range]

theorem getElem?_chars_eq_some_iff {p : Pattern} {b : Nat} {c : Char} :
    p.chars[b]? = some c ↔ b < 16 ∧ p.charAt b = c := by
  rw [chars, List.getElem?_map, Option.map_eq_some_iff]
  simp only [List.getElem?_eq_some_iff, List.length_range, List.getElem_range, exists_prop]
  constructor
  · rintro ⟨_, ⟨hb, rfl⟩, hc⟩
    exact ⟨hb, hc⟩
  · rintro ⟨hb, hc⟩
    exact ⟨b, ⟨hb, rfl⟩, hc⟩

theorem marks_chars {p : Pattern} {m : Word} {P : Char → Prop}
    (h : ∀ b < 16, m.getLsbD b ↔ P (p.charAt b)) : Marks m p.chars P := by
  intro b
  simp only [getElem?_chars_eq_some_iff]
  constructor
  · intro hm
    have hb := BitVec.lt_of_getLsbD hm
    exact ⟨_, ⟨hb, rfl⟩, (h b hb).mp hm⟩
  · rintro ⟨_, ⟨hb, rfl⟩, hP⟩
    exact (h b hb).mpr hP

theorem charAt_of_const {p : Pattern} {b : Nat} (hb : p.constMask.getLsbD b) :
    p.charAt b = if p.constBits.getLsbD b then '1' else '0' := if_pos hb

namespace WellFormed

variable {p : Pattern} (h : p.WellFormed) {f : Field} {b : Nat}

include h

theorem charAt_of_dontCare (hb : p.dontCareMask.getLsbD b) : p.charAt b = 'X' := by
  have hconst : ¬ p.constMask.getLsbD b := fun hc => h.not_dontCare_of_const hc hb
  rw [charAt, if_neg hconst, if_pos hb]

/-- The field that is found for a bit is the only one that has it. -/
theorem charAt_of_mask (hf : f ∈ p.fields) (hb : f.mask.getLsbD b) :
    p.charAt b = f.letter := by
  have hconst : ¬ p.constMask.getLsbD b := fun hc => h.not_mask_of_const hf hc hb
  have hdontCare : ¬ p.dontCareMask.getLsbD b := fun hX => h.not_mask_of_dontCare hf hX hb
  have hfind : p.fields.find? (·.mask.getLsbD b) = some f := by
    cases hfind : p.fields.find? (·.mask.getLsbD b) with
    | none => exact absurd hb (List.find?_eq_none.mp hfind f hf)
    | some g =>
        have hg := List.mem_of_find?_eq_some hfind
        rw [h.eq_of_mask hg hf (List.find?_some hfind :) hb]
  rw [charAt, if_neg hconst, if_neg hdontCare, hfind]
  rfl

/-- Of the three kinds of character each stands for the bits of its kind. -/
theorem charAt_cases (hb : b < 16) :
    (p.constMask.getLsbD b ∧ IsFixed (p.charAt b)) ∨
      (p.dontCareMask.getLsbD b ∧ p.charAt b = 'X') ∨
        ∃ f ∈ p.fields, f.mask.getLsbD b ∧ p.charAt b = f.letter := by
  rcases h.exists_mask hb with hconst | hdontCare | ⟨f, hf, hmask⟩
  · refine .inl ⟨hconst, ?_⟩
    rw [charAt_of_const hconst]
    split
    · exact .inr rfl
    · exact .inl rfl
  · exact .inr (.inl ⟨hdontCare, h.charAt_of_dontCare hdontCare⟩)
  · exact .inr (.inr ⟨f, hf, hmask, h.charAt_of_mask hf hmask⟩)

theorem isFixed_charAt_iff (hb : b < 16) : p.constMask.getLsbD b ↔ IsFixed (p.charAt b) := by
  rcases h.charAt_cases hb with ⟨hconst, hc⟩ | ⟨hdontCare, hc⟩ | ⟨f, hf, hmask, hc⟩
  · exact iff_of_true hconst hc
  · refine iff_of_false (fun hconst => h.not_dontCare_of_const hconst hdontCare) ?_
    rw [hc]
    rintro (h | h) <;> cases h
  · refine iff_of_false (fun hconst => h.not_mask_of_const hf hconst hmask) ?_
    rw [hc]
    exact (h.fields_wellFormed f hf).letter.not_isFixed

theorem charAt_eq_one_iff (hb : b < 16) : p.constBits.getLsbD b ↔ p.charAt b = '1' := by
  have hconst : p.constBits.getLsbD b → p.constMask.getLsbD b :=
    consistent_iff_getLsbD.mp h.consistent b hb
  constructor
  · intro hbit
    rw [charAt_of_const (hconst hbit), if_pos hbit]
  · intro hone
    have hmask : p.constMask.getLsbD b := (h.isFixed_charAt_iff hb).mpr (.inr hone)
    rw [charAt_of_const hmask] at hone
    by_contra hbit
    rw [if_neg hbit] at hone
    cases hone

theorem charAt_eq_X_iff (hb : b < 16) : p.dontCareMask.getLsbD b ↔ p.charAt b = 'X' := by
  refine ⟨h.charAt_of_dontCare, fun hX => ?_⟩
  rcases h.charAt_cases hb with ⟨-, hc⟩ | ⟨hdontCare, -⟩ | ⟨f, hf, -, hc⟩
  · rw [hX] at hc
    rcases hc with hc | hc <;> cases hc
  · exact hdontCare
  · rw [hX] at hc
    exact absurd hc.symm (h.fields_wellFormed f hf).letter.2.2

theorem exists_field_of_charAt (hb : b < 16) (hletter : IsFieldLetter (p.charAt b)) :
    ∃ f ∈ p.fields, f.mask.getLsbD b ∧ p.charAt b = f.letter := by
  rcases h.charAt_cases hb with ⟨-, hc⟩ | ⟨-, hc⟩ | hfield
  · exact absurd hc hletter.not_isFixed
  · exact absurd hc hletter.2.2
  · exact hfield

/-- Letters are not shared, so the bits of a letter are those of its
field. -/
theorem charAt_eq_letter_iff (hf : f ∈ p.fields) (hb : b < 16) :
    p.charAt b = f.letter ↔ f.offset ≤ b ∧ b < f.offset + f.width := by
  rw [← h.getLsbD_mask hf]
  refine ⟨fun hc => ?_, h.charAt_of_mask hf⟩
  have hletter : IsFieldLetter (p.charAt b) := hc ▸ (h.fields_wellFormed f hf).letter
  obtain ⟨g, hg, hmask, hc'⟩ := h.exists_field_of_charAt hb hletter
  obtain rfl := List.inj_on_of_nodup_map h.letters_nodup hg hf (hc'.symm.trans hc)
  exact hmask

theorem getElem?_chars_eq_letter_iff (hf : f ∈ p.fields) :
    p.chars[b]? = some f.letter ↔ f.offset ≤ b ∧ b < f.offset + f.width := by
  rw [getElem?_chars_eq_some_iff]
  have hend := (h.fields_wellFormed f hf).end_le
  constructor
  · rintro ⟨hb, hc⟩
    exact (h.charAt_eq_letter_iff hf hb).mp hc
  · intro hbits
    have hb : b < 16 := by omega
    exact ⟨hb, (h.charAt_eq_letter_iff hf hb).mpr hbits⟩

theorem count_chars (hf : f ∈ p.fields) : p.chars.count f.letter = f.width := by
  have hend := (h.fields_wellFormed f hf).end_le
  rw [chars, List.count, List.countP_map, List.countP_eq_length_filter,
    filter_range_eq (Nat.le_add_right _ f.width) hend, Nat.add_sub_cancel_left]
  · rw [List.filter_eq_self.mpr, List.length_range']
    intro b hb
    rw [List.mem_range'_1] at hb
    exact beq_iff_eq.mpr ((h.charAt_eq_letter_iff hf (by omega)).mpr hb)
  · exact fun b hb hc => (h.charAt_eq_letter_iff hf hb).mp (beq_iff_eq.mp hc)

theorem mem_fieldsOf_chars (hf : f ∈ p.fields) : f ∈ fieldsOf p.chars := by
  have hfield := h.fields_wellFormed f hf
  have hwidth := hfield.width_pos
  refine mem_fieldsOf.mpr ⟨?_, hfield.letter, fun hbelow => ?_, (h.count_chars hf).symm⟩
  · exact (h.getElem?_chars_eq_letter_iff hf).mpr ⟨Nat.le_refl _, by omega⟩
  · obtain ⟨b, hb⟩ := List.mem_iff_getElem?.mp hbelow
    rw [List.getElem?_take, Option.ite_none_right_eq_some,
      h.getElem?_chars_eq_letter_iff hf] at hb
    omega

/-- The fields are found again, and in the old order, which is that of
their lowest bits. -/
theorem fields_eq_fieldsOf_chars : p.fields = fieldsOf p.chars := by
  have : Std.Irrefl fun f g : Field => f.offset < g.offset := ⟨fun f => Nat.lt_irrefl _⟩
  have : Std.Antisymm fun f g : Field => f.offset < g.offset :=
    ⟨fun f g hfg hgf => absurd hfg (Nat.lt_asymm hgf)⟩
  refine h.offsets_ascending.eq_of_mem_iff (pairwise_offset_fieldsOf _) fun f => ?_
  refine ⟨h.mem_fieldsOf_chars, fun hf => ?_⟩
  obtain ⟨hc, hletter, -⟩ := mem_fieldsOf.mp hf
  obtain ⟨hb, hc⟩ := getElem?_chars_eq_some_iff.mp hc
  obtain ⟨g, hg, -, hc'⟩ := h.exists_field_of_charAt hb (hc ▸ hletter)
  rw [eq_of_letter_eq hf (h.mem_fieldsOf_chars hg) (hc.symm.trans hc')]
  exact hg

theorem reads_chars : Reads p p.chars where
  constMask := marks_chars fun _ hb => h.isFixed_charAt_iff hb
  constBits := marks_chars fun _ hb => h.charAt_eq_one_iff hb
  dontCareMask := marks_chars fun _ hb => h.charAt_eq_X_iff hb
  fields_eq := h.fields_eq_fieldsOf_chars
  adjacent := by
    intro f hf b
    rw [← h.fields_eq_fieldsOf_chars] at hf
    exact h.getElem?_chars_eq_letter_iff hf
  known := by
    intro c hc
    obtain ⟨b, hchar⟩ := List.mem_iff_getElem?.mp hc
    obtain ⟨hb, rfl⟩ := getElem?_chars_eq_some_iff.mp hchar
    rcases h.charAt_cases hb with ⟨-, hc⟩ | ⟨-, hc⟩ | ⟨f, hf, -, hc⟩
    · exact .inl hc
    · exact .inr (.inl hc)
    · exact .inr (.inr (hc ▸ (h.fields_wellFormed f hf).letter))

end WellFormed

theorem Reads.charAt_eq {p : Pattern} {cs : List Char} (h : Reads p cs) (hlen : cs.length = 16)
    {b : Nat} {c : Char} (hb : cs[b]? = some c) : p.charAt b = c := by
  have hwf := h.wellFormed hlen
  rcases h.known c (List.mem_of_getElem? hb) with hfixed | rfl | hletter
  · have hconst := (h.constMask b).mpr ⟨c, hb, hfixed⟩
    have hone : p.constBits.getLsbD b ↔ c = '1' := by
      rw [h.constBits b, hb]
      simp
    rw [charAt_of_const hconst]
    rcases hfixed with rfl | rfl
    · rw [if_neg (by simp [hone])]
    · rw [if_pos (hone.mpr rfl)]
  · exact hwf.charAt_of_dontCare ((h.dontCareMask b).mpr ⟨_, hb, rfl⟩)
  · have hf := fieldOf_mem_fieldsOf hletter (List.mem_of_getElem? hb)
    rw [← h.fields_eq] at hf
    exact hwf.charAt_of_mask hf ((h.marks_field hlen hf b).mpr ⟨c, hb, rfl⟩)

theorem reads_iff_eq_chars {p : Pattern} {cs : List Char} (hlen : cs.length = 16) :
    Reads p cs ↔ p.WellFormed ∧ cs = p.chars := by
  constructor
  · intro h
    refine ⟨h.wellFormed hlen, List.ext_getElem (hlen.trans p.length_chars.symm) ?_⟩
    intro b hb hb'
    have hc := h.charAt_eq hlen (List.getElem?_eq_getElem hb)
    simp [chars, hc]
  · rintro ⟨h, rfl⟩
    exact h.reads_chars

/-! ## The text around the characters -/

theorem position_lt (b : Nat) : position b < textLength := by
  unfold position textLength
  omega

theorem getElem?_canonical_reverse {text : String} (hlen : text.toList.length = textLength)
    {b : Nat} (hb : b < 16) :
    (canonical text).reverse[b]? = text.toList[position b]? := by
  have hchar : ∀ b, text.toList[position b]? = some (text.toList[position b]?.getD ' ') := by
    intro b
    rw [List.getElem?_eq_getElem (hlen ▸ position_lt b)]
    rfl
  have hmap : bitChars text.toList =
      (List.range 16).map fun b => text.toList[position b]?.getD ' ' := by
    rw [bitChars, ← List.filterMap_eq_map]
    exact List.filterMap_congr fun b _ => hchar b
  rw [← (bitChars_eq_reverse hlen).1, hmap, List.getElem?_map, List.getElem?_range hb, hchar b]
  rfl

theorem canonical_reverse_eq_chars_iff {text : String} {p : Pattern}
    (hlen : text.toList.length = textLength) :
    (canonical text).reverse = p.chars ↔
      ∀ b < 16, text.toList[position b]? = some (p.charAt b) := by
  have hcount := length_canonical_reverse hlen
  constructor
  · intro heq b hb
    rw [← getElem?_canonical_reverse hlen hb, heq]
    exact getElem?_chars_eq_some_iff.mpr ⟨hb, rfl⟩
  · intro h
    refine List.ext_getElem (hcount.trans p.length_chars.symm) fun b hb hb' => ?_
    have hbit := h b (hcount ▸ hb)
    rw [← getElem?_canonical_reverse hlen (hcount ▸ hb)] at hbit
    rw [List.getElem?_eq_getElem hb] at hbit
    simpa [chars] using hbit

/-- Every place of a text is that of a space or that of a bit. -/
theorem mem_separators_or_position {i : Nat} (hi : i < textLength) :
    i ∈ separators ∨ ∃ b < 16, i = position b := by
  revert i
  decide

theorem textAt_position {p : Pattern} {b : Nat} (hb : b < 16) :
    p.textAt (position b) = p.charAt b := by
  have hplace : position b ∉ separators ∧ 15 - (position b - position b / 5) = b := by
    revert b
    decide
  rw [textAt, if_neg hplace.1, hplace.2]

theorem getElem?_toText {p : Pattern} {i : Nat} (hi : i < textLength) :
    p.toText.toList[i]? = some (p.textAt i) := by
  rw [toText, String.toList_ofList, List.getElem?_map, List.getElem?_range hi]
  rfl

theorem length_toText (p : Pattern) : p.toText.toList.length = textLength := by
  rw [toText, String.toList_ofList, List.length_map, List.length_range]

theorem eq_toText_iff {text : String} {p : Pattern}
    (hlen : text.toList.length = textLength) :
    text = p.toText ↔
      (∀ i ∈ separators, text.toList[i]? = some ' ') ∧ (canonical text).reverse = p.chars := by
  rw [canonical_reverse_eq_chars_iff hlen]
  constructor
  · rintro rfl
    refine ⟨fun i hi => ?_, fun b hb => ?_⟩
    · have hlt : ∀ i ∈ separators, i < textLength := by decide
      rw [getElem?_toText (hlt i hi), textAt, if_pos hi]
    · rw [getElem?_toText (position_lt b), textAt_position hb]
  · rintro ⟨hspaces, hbits⟩
    refine String.toList_inj.mp (List.ext_getElem? fun i => ?_)
    rcases Nat.lt_or_ge i textLength with hi | hi
    · rw [getElem?_toText hi]
      rcases mem_separators_or_position hi with hsep | ⟨b, hb, rfl⟩
      · rw [hspaces i hsep, textAt, if_pos hsep]
      · rw [hbits b hb, textAt_position hb]
    · rw [List.getElem?_eq_none (hlen ▸ hi), List.getElem?_eq_none (p.length_toText ▸ hi)]

theorem WellFormed.charAt_lt {p : Pattern} (h : p.WellFormed) {b : Nat} (hb : b < 16) :
    (p.charAt b).toNat < 128 := by
  rcases h.charAt_cases hb with ⟨-, hc | hc⟩ | ⟨-, hc⟩ | ⟨f, hf, -, hc⟩
  · rw [hc]
    decide
  · rw [hc]
    decide
  · rw [hc]
    decide
  · have hZ : f.letter.toNat ≤ 'Z'.toNat := (h.fields_wellFormed f hf).letter.2.1
    rw [hc]
    exact Nat.lt_of_le_of_lt hZ (by decide)

theorem WellFormed.ascii_toText {p : Pattern} (h : p.WellFormed) :
    ∀ c ∈ p.toText.toList, c.toNat < 128 := by
  intro c hc
  obtain ⟨i, hi⟩ := List.mem_iff_getElem?.mp hc
  have hlt : i < textLength := p.length_toText ▸ (List.getElem?_eq_some_iff.mp hi).1
  rw [getElem?_toText hlt] at hi
  obtain rfl := Option.some.inj hi
  unfold textAt
  split
  · decide
  · exact h.charAt_lt (by omega)

/-- The text that is written for a pattern is read as that pattern. -/
theorem WellFormed.ofText_toText {p : Pattern} (h : p.WellFormed) : ofText p.toText = .ok p := by
  obtain ⟨hspaces, hchars⟩ := (eq_toText_iff p.length_toText).mp rfl
  rw [ofText_eq_ok_iff, hchars]
  exact ⟨⟨p.length_toText, h.ascii_toText⟩, hspaces,
    (readBits_eq_ok_iff_reads p.length_chars).mpr h.reads_chars⟩

/-- The texts that are read as `p` are the one that is written for it, if
`p` is well formed, and none otherwise. -/
theorem ofText_eq_ok_iff_toText_eq (p : Pattern) :
    (∀ text, ofText text = .ok p ↔ p.WellFormed ∧ p.toText = text) ∧
      ((∃! text, ofText text = .ok p) ↔ p.WellFormed) := by
  have hiff : ∀ text, ofText text = .ok p ↔ p.WellFormed ∧ p.toText = text := by
    intro text
    constructor
    · intro htext
      obtain ⟨⟨hlen, -⟩, hspaces, hread⟩ := ofText_eq_ok_iff.mp htext
      have hcount := length_canonical_reverse hlen
      obtain ⟨hwf, hchars⟩ :=
        (reads_iff_eq_chars hcount).mp ((readBits_eq_ok_iff_reads hcount).mp hread)
      exact ⟨hwf, ((eq_toText_iff hlen).mpr ⟨hspaces, hchars⟩).symm⟩
    · rintro ⟨hwf, rfl⟩
      exact hwf.ofText_toText
  refine ⟨hiff, ?_⟩
  simp only [hiff]
  constructor
  · rintro ⟨_, ⟨hwf, -⟩, -⟩
    exact hwf
  · exact fun hwf => ⟨p.toText, ⟨hwf, rfl⟩, fun _ h => h.2.symm⟩

end Microcode.Pattern
