import Microcode.Proofs.Pattern.Partition

/-!
# Opcodes from operand values

A well-formed pattern leaves its operands and ignored bits free: whatever
values are chosen for the fields, within their widths, and whatever the
ignored bits, `Pattern.encode` makes an opcode that the pattern claims and
that carries them. In particular every value of a field occurs
(`exists_claims_extract_eq`).

The other way round, a claimed opcode is made of what it carries
(`WellFormed.encode_extract`). Both directions look at one bit at a time,
and each bit is decided by its kind alone (`Fits.encode_of_const`,
`Fits.encode_of_dontCare`, `Fits.encode_of_mask`).
-/

namespace Microcode

namespace Field

variable {f : Field} {v : Word} {b : Nat}

theorem getLsbD_place :
    (f.place v).getLsbD b ↔ b < 16 ∧ f.offset ≤ b ∧ v.getLsbD (b - f.offset) := by
  rw [place, BitVec.getLsbD_shiftLeft]
  simp only [Bool.and_eq_true, decide_eq_true_eq, Bool.not_eq_true', decide_eq_false_iff_not,
    Nat.not_lt, and_assoc]

theorem lt_width_of_getLsbD (hv : v.toNat < f.valueCount) (hb : v.getLsbD b) :
    b < f.width := by
  rw [valueCount, Nat.one_shiftLeft] at hv
  refine Nat.lt_of_not_le fun hle => ?_
  have hzero : v.toNat.testBit b = false :=
    Nat.testBit_lt_two_pow (Nat.lt_of_lt_of_le hv (Nat.pow_le_pow_right (by decide) hle))
  rw [BitVec.testBit_toNat, hb] at hzero
  cases hzero

end Field

namespace Pattern

/-- The values `v` fit their fields, and `d` is made of ignored bits. -/
structure Fits (p : Pattern) (v : Field → Word) (d : Word) : Prop where
  values_lt : ∀ f ∈ p.fields, (v f).toNat < f.valueCount
  ignored : d &&& ~~~p.dontCareMask = 0

theorem getLsbD_encode {p : Pattern} {v : Field → Word} {d : Word} {b : Nat} :
    (p.encode v d).getLsbD b ↔
      p.constBits.getLsbD b ∨ d.getLsbD b ∨ ∃ f ∈ p.fields, (f.place (v f)).getLsbD b := by
  have hfold : p.encode v d =
      (p.fields.map fun f => f.place (v f)).foldl (· ||| ·) (p.constBits ||| d) := by
    rw [encode, List.foldl_map]
  rw [hfold, Word.getLsbD_foldl_or, BitVec.getLsbD_or, Bool.or_eq_true, or_assoc]
  simp only [List.mem_map, exists_exists_and_eq_and]

namespace Fits

variable {p : Pattern} {v : Field → Word} {d : Word} (h : p.Fits v d) (hwf : p.WellFormed)
  {f : Field} {b : Nat}

include h hwf

theorem mask_of_place (hf : f ∈ p.fields) (hb : (f.place (v f)).getLsbD b) :
    f.mask.getLsbD b := by
  obtain ⟨-, hle, hbit⟩ := Field.getLsbD_place.mp hb
  have hlt := Field.lt_width_of_getLsbD (h.values_lt f hf) hbit
  exact (hwf.getLsbD_mask hf).mpr ⟨hle, by omega⟩

/-- On the fixed bits only the pattern itself has a say. -/
theorem encode_of_const (hb : p.constMask.getLsbD b) :
    (p.encode v d).getLsbD b ↔ p.constBits.getLsbD b := by
  rw [getLsbD_encode]
  refine ⟨?_, .inl⟩
  rintro (hbit | hbit | ⟨f, hf, hbit⟩)
  · exact hbit
  · have hdontCare := Word.and_not_eq_zero_iff.mp h.ignored b hbit
    exact absurd hdontCare (hwf.not_dontCare_of_const hb)
  · exact absurd (h.mask_of_place hwf hf hbit) (hwf.not_mask_of_const hf hb)

theorem encode_of_dontCare (hb : p.dontCareMask.getLsbD b) :
    (p.encode v d).getLsbD b ↔ d.getLsbD b := by
  rw [getLsbD_encode]
  refine ⟨?_, fun hbit => .inr (.inl hbit)⟩
  rintro (hbit | hbit | ⟨f, hf, hbit⟩)
  · have hconst := Word.and_not_eq_zero_iff.mp hwf.consistent b hbit
    exact absurd hb (hwf.not_dontCare_of_const hconst)
  · exact hbit
  · exact absurd (h.mask_of_place hwf hf hbit) (hwf.not_mask_of_dontCare hf hb)

/-- On the bits of a field only the value of that field has. -/
theorem encode_of_mask (hf : f ∈ p.fields) (hb : f.mask.getLsbD b) :
    (p.encode v d).getLsbD b ↔ (f.place (v f)).getLsbD b := by
  rw [getLsbD_encode]
  refine ⟨?_, fun hbit => .inr (.inr ⟨f, hf, hbit⟩)⟩
  rintro (hbit | hbit | ⟨g, hg, hbit⟩)
  · have hconst := Word.and_not_eq_zero_iff.mp hwf.consistent b hbit
    exact absurd hb (hwf.not_mask_of_const hf hconst)
  · have hdontCare := Word.and_not_eq_zero_iff.mp h.ignored b hbit
    exact absurd hb (hwf.not_mask_of_dontCare hf hdontCare)
  · obtain rfl := hwf.eq_of_mask hg hf (h.mask_of_place hwf hg hbit) hb
    exact hbit

theorem claims_encode : p.Claims (p.encode v d) := by
  refine claims_iff_getLsbD.mpr fun b _ => ?_
  cases hb : p.constMask.getLsbD b with
  | true => rw [Bool.and_true, Bool.eq_iff_iff, h.encode_of_const hwf hb]
  | false =>
      rw [Bool.and_false, eq_comm, Bool.eq_false_iff]
      intro hbit
      have hconst := Word.and_not_eq_zero_iff.mp hwf.consistent b hbit
      rw [hb] at hconst
      cases hconst

theorem extract_encode (hf : f ∈ p.fields) : f.extract (p.encode v d) = v f := by
  refine BitVec.eq_of_getLsbD_eq fun i _ => ?_
  rw [Field.getLsbD_extract, Bool.eq_iff_iff, Bool.and_eq_true, decide_eq_true_eq]
  have hend := (hwf.fields_wellFormed f hf).end_le
  constructor
  · rintro ⟨hbit, hi⟩
    have hmask := (hwf.getLsbD_mask hf).mpr ⟨Nat.le_add_right f.offset i, by omega⟩
    obtain ⟨-, -, hvalue⟩ := Field.getLsbD_place.mp ((h.encode_of_mask hwf hf hmask).mp hbit)
    rwa [Nat.add_sub_cancel_left] at hvalue
  · intro hvalue
    have hi := Field.lt_width_of_getLsbD (h.values_lt f hf) hvalue
    have hmask := (hwf.getLsbD_mask hf).mpr ⟨Nat.le_add_right f.offset i, by omega⟩
    refine ⟨(h.encode_of_mask hwf hf hmask).mpr (Field.getLsbD_place.mpr ?_), hi⟩
    rw [Nat.add_sub_cancel_left]
    exact ⟨by omega, Nat.le_add_right _ _, hvalue⟩

theorem encode_and_dontCareMask : p.encode v d &&& p.dontCareMask = d := by
  refine BitVec.eq_of_getLsbD_eq fun b _ => ?_
  rw [BitVec.getLsbD_and, Bool.eq_iff_iff, Bool.and_eq_true]
  constructor
  · intro hbit
    exact (h.encode_of_dontCare hwf hbit.2).mp hbit.1
  · intro hbit
    have hdontCare := Word.and_not_eq_zero_iff.mp h.ignored b hbit
    exact ⟨(h.encode_of_dontCare hwf hdontCare).mpr hbit, hdontCare⟩

end Fits

/-- No value of a field is kept out by the rest of the pattern. -/
theorem WellFormed.exists_claims_extract_eq {p : Pattern} (h : p.WellFormed) {f : Field}
    (hf : f ∈ p.fields) {v : Word} (hv : v.toNat < f.valueCount) :
    ∃ w, p.Claims w ∧ f.extract w = v := by
  have hfits : p.Fits (fun g => if g = f then v else 0) 0 := by
    refine ⟨fun g _ => ?_, BitVec.zero_and⟩
    split
    next heq => rwa [heq]
    next =>
      rw [Field.valueCount, Nat.one_shiftLeft]
      exact Nat.two_pow_pos _
  exact ⟨_, hfits.claims_encode h, (hfits.extract_encode h hf).trans (if_pos rfl)⟩

/-! ## Claimed opcodes -/

/-- Values of other letters do not matter. -/
theorem encode_congr {p : Pattern} {v v' : Field → Word} (h : ∀ f ∈ p.fields, v f = v' f)
    (d : Word) : p.encode v d = p.encode v' d := by
  unfold encode
  exact List.foldl_ext _ _ _ fun w f hf => by rw [h f hf]

theorem fits_extract (p : Pattern) (w : Word) :
    p.Fits (fun f => f.extract w) (w &&& p.dontCareMask) where
  values_lt f _ := f.extract_lt w
  ignored := by
    rw [BitVec.and_assoc, BitVec.and_not_self]
    exact BitVec.and_zero

/-- An opcode that the pattern claims is made of what it carries. -/
theorem WellFormed.encode_extract {p : Pattern} (h : p.WellFormed) {w : Word}
    (hclaim : p.Claims w) :
    p.encode (fun f => f.extract w) (w &&& p.dontCareMask) = w := by
  have hfits := p.fits_extract w
  refine BitVec.eq_of_getLsbD_eq fun b hb => ?_
  rw [Bool.eq_iff_iff]
  rcases h.exists_mask hb with hconst | hdontCare | ⟨f, hf, hmask⟩
  · rw [hfits.encode_of_const h hconst, ← claims_iff_getLsbD.mp hclaim b hb, hconst,
      Bool.and_true]
  · rw [hfits.encode_of_dontCare h hdontCare, BitVec.getLsbD_and, hdontCare, Bool.and_true]
  · obtain ⟨hle, hlt⟩ := (h.getLsbD_mask hf).mp hmask
    have hwidth : b - f.offset < f.width := by omega
    rw [hfits.encode_of_mask h hf hmask, Field.getLsbD_place, Field.getLsbD_extract,
      Nat.add_sub_cancel' hle, decide_eq_true hwidth, Bool.and_true]
    exact ⟨fun hbit => hbit.2.2, fun hbit => ⟨hb, hle, hbit⟩⟩

/-- Under a pattern read from a text, opcodes and what they carry
correspond one to one. Values that fit the fields and a choice of ignored
bits are put together to an opcode that the pattern claims and that gives
them back; a claimed opcode is put together from values that fit; and no
two claimed opcodes carry the same. -/
theorem claims_encode_of_ofText {text : String} {p : Pattern} (h : ofText text = .ok p) :
    (∀ (v : Field → Word) (d : Word), (∀ f ∈ p.fields, (v f).toNat < 2 ^ f.width) →
      d &&& ~~~p.dontCareMask = 0 →
        p.Claims (p.encode v d) ∧ (∀ f ∈ p.fields, f.extract (p.encode v d) = v f) ∧
          p.encode v d &&& p.dontCareMask = d) ∧
      (∀ w, p.Claims w →
        w = p.encode (fun f => f.extract w) (w &&& p.dontCareMask) ∧
          ∀ f ∈ p.fields, (f.extract w).toNat < 2 ^ f.width) ∧
      ∀ (v : Field → Word) (d : Word), (∀ f ∈ p.fields, (v f).toNat < 2 ^ f.width) →
        d &&& ~~~p.dontCareMask = 0 →
          ∃! w, p.Claims w ∧ (∀ f ∈ p.fields, f.extract w = v f) ∧ w &&& p.dontCareMask = d := by
  have hwf := wellFormed_of_ofText h
  have hcount : ∀ f : Field, 2 ^ f.width = f.valueCount := fun f => (Nat.one_shiftLeft _).symm
  simp only [hcount]
  have hencode : ∀ v d, p.Fits v d → p.Claims (p.encode v d) ∧
      (∀ f ∈ p.fields, f.extract (p.encode v d) = v f) ∧ p.encode v d &&& p.dontCareMask = d :=
    fun v d hfits => ⟨hfits.claims_encode hwf, fun f => hfits.extract_encode hwf,
      hfits.encode_and_dontCareMask hwf⟩
  refine ⟨fun v d hv hd => hencode v d ⟨hv, hd⟩, fun w hclaim => ?_, fun v d hv hd => ?_⟩
  · exact ⟨(hwf.encode_extract hclaim).symm, (p.fits_extract w).values_lt⟩
  · refine ⟨p.encode v d, hencode v d ⟨hv, hd⟩, ?_⟩
    rintro w ⟨hclaim, hvalues, rfl⟩
    rw [← encode_congr hvalues]
    exact (hwf.encode_extract hclaim).symm

theorem claims_encode_absoluteValue :
    let p : Pattern :=
      { constMask := 0xF801, constBits := 0x5000, dontCareMask := 0x000E
        fields := [⟨'T', 4, 3⟩, ⟨'D', 7, 2⟩, ⟨'S', 9, 2⟩] }
    let v : Field → Word := fun f => if f.letter = 'T' then 5 else if f.letter = 'D' then 3 else 2
    ofText "0101 0SSD DTTT XXX0" = .ok p ∧ p.encode v 0xA = 0x55DA ∧ p.Claims 0x55DA ∧
      (∀ f ∈ p.fields, f.extract 0x55DA = v f) ∧
      (0x55DA : Word) = p.encode (fun f => f.extract 0x55DA) (0x55DA &&& p.dontCareMask) ∧
      ∃! w, p.Claims w ∧ (∀ f ∈ p.fields, f.extract w = v f) ∧ w &&& p.dontCareMask = 0xA := by
  intro p v
  have htext : ofText "0101 0SSD DTTT XXX0" = .ok p := rfl
  obtain ⟨hencode, hclaimed, hunique⟩ := claims_encode_of_ofText htext
  have hv : ∀ f ∈ p.fields, (v f).toNat < 2 ^ f.width := by decide
  have hd : (0xA : Word) &&& ~~~p.dontCareMask = 0 := by decide
  obtain ⟨hclaim, hvalues, -⟩ := hencode v 0xA hv hd
  have hw : p.encode v 0xA = 0x55DA := by decide
  rw [hw] at hclaim hvalues
  exact ⟨htext, hw, hclaim, hvalues, (hclaimed _ hclaim).1, hunique v 0xA hv hd⟩

end Pattern

end Microcode
