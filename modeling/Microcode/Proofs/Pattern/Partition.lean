import Mathlib.Data.List.Pairwise
import Microcode.Proofs.Pattern.Reading
import Microcode.Proofs.Word

/-!
# Patterns that divide the word

A pattern is well formed (`WellFormed`) if each of the sixteen bits is
fixed, ignored or part of an operand field, and no bit is two of these,
nor part of two fields; the fields lie within the word, lowest first, and
have letters of their own.

Patterns read from a text are. That the masks do not meet and leave
nothing out is one argument for all of them: each marks the bits whose
character has a certain property (`Reads.marks_field`, and the fields of
`Reads` for the rest), and of these properties every character has exactly
one.

The last section says what a well-formed pattern knows of each bit. The
proofs that start from a pattern rather than from a text use that and do
not look at masks.
-/

namespace Microcode

namespace Field

/-- The field has bits, all of them within the word, and a letter. -/
structure WellFormed (f : Field) : Prop where
  width_pos : 1 ≤ f.width
  end_le : f.offset + f.width ≤ 16
  letter : Pattern.IsFieldLetter f.letter

theorem WellFormed.getLsbD_mask {f : Field} (h : f.WellFormed) {b : Nat} :
    f.mask.getLsbD b ↔ f.offset ≤ b ∧ b < f.offset + f.width := by
  have hend := h.end_le
  rw [Field.getLsbD_mask]
  simp only [Bool.and_eq_true, decide_eq_true_eq]
  omega

end Field

namespace Pattern

/-- The masks of the kinds of bits: the fixed ones, the ignored ones, and
those of each field. -/
def masks (p : Pattern) : List Word :=
  p.constMask :: p.dontCareMask :: p.fields.map Field.mask

structure WellFormed (p : Pattern) : Prop where
  masks_disjoint : p.masks.Pairwise fun m m' => m &&& m' = 0
  masks_union : p.masks.foldl (· ||| ·) 0 = 0xFFFF
  consistent : p.Consistent
  fields_wellFormed : ∀ f ∈ p.fields, f.WellFormed
  letters_nodup : (p.fields.map Field.letter).Nodup
  offsets_ascending : p.fields.Pairwise fun f g => f.offset < g.offset

theorem pairwise_masks_iff {p : Pattern} {R : Word → Word → Prop} :
    p.masks.Pairwise R ↔
      (R p.constMask p.dontCareMask ∧ ∀ f ∈ p.fields, R p.constMask f.mask) ∧
        (∀ f ∈ p.fields, R p.dontCareMask f.mask) ∧
          p.fields.Pairwise fun f g => R f.mask g.mask := by
  simp only [masks, List.pairwise_cons, List.forall_mem_cons, List.forall_mem_map,
    List.pairwise_map]

/-! ## Patterns of characters -/

theorem Marks.and_eq_zero {m m' : Word} {cs : List Char} {P Q : Char → Prop}
    (h : Marks m cs P) (h' : Marks m' cs Q) (hPQ : ∀ c, P c → ¬ Q c) : m &&& m' = 0 := by
  refine Word.and_eq_zero_iff.mpr fun b hm hm' => ?_
  obtain ⟨c, hc, hP⟩ := (h b).mp hm
  obtain ⟨d, hd, hQ⟩ := (h' b).mp hm'
  obtain rfl := Option.some.inj (hc.symm.trans hd)
  exact hPQ c hP hQ

namespace Reads

variable {p : Pattern} {cs : List Char} (h : Reads p cs)

include h

theorem fieldWellFormed (hlen : cs.length = 16) {f : Field} (hf : f ∈ p.fields) :
    f.WellFormed := by
  rw [h.fields_eq] at hf
  obtain ⟨-, hletter, -, hwidth⟩ := mem_fieldsOf.mp hf
  refine ⟨?_, hlen ▸ end_le_length h.adjacent hf, hletter⟩
  rw [hwidth]
  exact List.count_pos_iff.mpr (letter_mem_of_mem_fieldsOf hf)

theorem marks_field (hlen : cs.length = 16) {f : Field} (hf : f ∈ p.fields) :
    Marks f.mask cs (· = f.letter) := by
  intro b
  rw [(h.fieldWellFormed hlen hf).getLsbD_mask, ← h.adjacent f (h.fields_eq ▸ hf) b]
  simp only [exists_eq_right]

theorem pairwise_fields :
    p.fields.Pairwise fun f g => f.letter ≠ g.letter ∧ f.offset + f.width ≤ g.offset := by
  rw [h.fields_eq]
  refine (pairwise_offset_fieldsOf cs).imp_of_mem fun {f g} hf hg hlt => ?_
  have hne : f.letter ≠ g.letter := by
    intro heq
    obtain rfl := eq_of_letter_eq hf hg heq
    exact Nat.lt_irrefl _ hlt
  refine ⟨hne, Nat.le_of_not_lt fun hmeet => hne ?_⟩
  -- the lowest bit of `g` would carry both letters
  have hchar := (h.adjacent f hf g.offset).mpr ⟨Nat.le_of_lt hlt, hmeet⟩
  exact Option.some.inj (hchar.symm.trans (mem_fieldsOf.mp hg).1)

theorem masks_disjoint (hlen : cs.length = 16) :
    p.masks.Pairwise fun m m' => m &&& m' = 0 := by
  have hletter : ∀ f ∈ p.fields, IsFieldLetter f.letter :=
    fun f hf => (h.fieldWellFormed hlen hf).letter
  refine pairwise_masks_iff.mpr ⟨⟨?_, fun f hf => ?_⟩, fun f hf => ?_, ?_⟩
  · refine h.constMask.and_eq_zero h.dontCareMask ?_
    rintro c (rfl | rfl) <;> decide
  · refine h.constMask.and_eq_zero (h.marks_field hlen hf) ?_
    rintro c hc rfl
    exact (hletter f hf).not_isFixed hc
  · refine h.dontCareMask.and_eq_zero (h.marks_field hlen hf) ?_
    rintro c rfl hc
    exact (hletter f hf).2.2 hc.symm
  · refine h.pairwise_fields.imp_of_mem fun hf hg hne => ?_
    refine (h.marks_field hlen hf).and_eq_zero (h.marks_field hlen hg) ?_
    rintro c rfl hc
    exact hne.1 hc

theorem masks_union (hlen : cs.length = 16) : p.masks.foldl (· ||| ·) 0 = 0xFFFF := by
  refine BitVec.eq_of_getLsbD_eq fun b hb => ?_
  rw [Word.getLsbD_all, decide_eq_true hb, Word.getLsbD_foldl_or]
  have hchar := List.getElem?_eq_getElem (hlen ▸ hb)
  rcases h.known _ (List.getElem_mem (hlen ▸ hb)) with hfixed | hX | hletter
  · refine .inr ⟨p.constMask, List.mem_cons_self, (h.constMask b).mpr ⟨_, hchar, hfixed⟩⟩
  · refine .inr ⟨p.dontCareMask, by simp [masks], (h.dontCareMask b).mpr ⟨_, hchar, hX⟩⟩
  · have hf := fieldOf_mem_fieldsOf hletter (List.getElem_mem (hlen ▸ hb))
    rw [← h.fields_eq] at hf
    refine .inr ⟨_, ?_, (h.marks_field hlen hf b).mpr ⟨_, hchar, rfl⟩⟩
    exact List.mem_cons_of_mem _ (List.mem_cons_of_mem _ (List.mem_map_of_mem hf))

theorem wellFormed (hlen : cs.length = 16) : p.WellFormed where
  masks_disjoint := h.masks_disjoint hlen
  masks_union := h.masks_union hlen
  consistent := h.consistent
  fields_wellFormed := fun _ => h.fieldWellFormed hlen
  letters_nodup := List.pairwise_map.mpr (h.pairwise_fields.imp And.left)
  offsets_ascending := h.fields_eq ▸ pairwise_offset_fieldsOf cs

end Reads

theorem length_canonical_reverse {text : String} (h : text.toList.length = textLength) :
    (canonical text).reverse.length = 16 := by
  rw [List.length_reverse, (bitChars_eq_reverse h).2]

theorem wellFormed_of_ofText {text : String} {p : Pattern} (h : ofText text = .ok p) :
    p.WellFormed :=
  (reads_of_ofText h).wellFormed (length_canonical_reverse (ofText_eq_ok h).1)

/-- A pattern read from a text divides the sixteen bits among its masks,
and its fields stand one after the other, none reaching into the next. -/
theorem masks_partition_of_ofText {text : String} {p : Pattern} (h : ofText text = .ok p) :
    p.WellFormed ∧ p.fields.Pairwise fun f g => f.offset + f.width ≤ g.offset :=
  ⟨wellFormed_of_ofText h, (reads_of_ofText h).pairwise_fields.imp And.right⟩

theorem masks_partition_absoluteValue :
    let p : Pattern :=
      { constMask := 0xF801, constBits := 0x5000, dontCareMask := 0x000E
        fields := [⟨'T', 4, 3⟩, ⟨'D', 7, 2⟩, ⟨'S', 9, 2⟩] }
    ofText "0101 0SSD DTTT XXX0" = .ok p ∧
      p.WellFormed ∧ p.fields.Pairwise fun f g => f.offset + f.width ≤ g.offset := by
  intro p
  have htext : ofText "0101 0SSD DTTT XXX0" = .ok p := rfl
  exact ⟨htext, masks_partition_of_ofText htext⟩

/-! ## The kind of a bit -/

namespace WellFormed

variable {p : Pattern} (h : p.WellFormed) {f g : Field} {b : Nat}

include h

theorem getLsbD_mask (hf : f ∈ p.fields) :
    f.mask.getLsbD b ↔ f.offset ≤ b ∧ b < f.offset + f.width :=
  (h.fields_wellFormed f hf).getLsbD_mask

theorem not_dontCare_of_const (hb : p.constMask.getLsbD b) : ¬ p.dontCareMask.getLsbD b :=
  Word.and_eq_zero_iff.mp (pairwise_masks_iff.mp h.masks_disjoint).1.1 b hb

theorem not_mask_of_const (hf : f ∈ p.fields) (hb : p.constMask.getLsbD b) :
    ¬ f.mask.getLsbD b :=
  Word.and_eq_zero_iff.mp ((pairwise_masks_iff.mp h.masks_disjoint).1.2 f hf) b hb

theorem not_mask_of_dontCare (hf : f ∈ p.fields) (hb : p.dontCareMask.getLsbD b) :
    ¬ f.mask.getLsbD b :=
  Word.and_eq_zero_iff.mp ((pairwise_masks_iff.mp h.masks_disjoint).2.1 f hf) b hb

theorem eq_of_mask (hf : f ∈ p.fields) (hg : g ∈ p.fields) (hfb : f.mask.getLsbD b)
    (hgb : g.mask.getLsbD b) : f = g := by
  have : Std.Symm fun f g : Field => f.mask &&& g.mask = 0 :=
    ⟨fun f g hfg => (BitVec.and_comm _ _).trans hfg⟩
  by_contra hne
  have hzero := (pairwise_masks_iff.mp h.masks_disjoint).2.2.forall hf hg hne
  exact Word.and_eq_zero_iff.mp hzero b hfb hgb

theorem exists_mask (hb : b < 16) :
    p.constMask.getLsbD b ∨ p.dontCareMask.getLsbD b ∨ ∃ f ∈ p.fields, f.mask.getLsbD b := by
  have hall : (p.masks.foldl (· ||| ·) 0).getLsbD b := by
    rw [h.masks_union, Word.getLsbD_all]
    exact decide_eq_true hb
  rw [Word.getLsbD_foldl_or] at hall
  simpa [masks] using hall

end WellFormed

end Pattern

end Microcode
