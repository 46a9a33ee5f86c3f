import Mathlib.Algebra.Group.Nat.Defs
import Microcode.Pattern.Basic

/-!
# The value of a field

A value is taken out of an opcode by cutting off all bits but those of the
field and moving these to the right. It can as well be moved first and cut
off then (`Field.extract_eq_and_lowMask`), which makes it a remainder
(`Field.toNat_extract`); moved back to its place it is what the field leaves
of the opcode (`Field.place_extract`).

None of this asks that the field lies within the word. Of a field that
reaches beyond the last bit, the bits outside are missing from the mask
(`Field.getLsbD_mask_iff`), and from a word that is moved to the right zeros
stand in their place.
-/

namespace Microcode.Field

variable (f : Field) (w : Word)

/-- As many ones as the field has bits, at the right end of the word. A
field of sixteen bits or more is told apart, since a one moved so far to the
left is outside the word. -/
def lowMask : Word := if 16 ≤ f.width then BitVec.allOnes 16 else (1#16 <<< f.width) - 1#16

theorem toNat_lowMask : f.lowMask.toNat = 2 ^ min f.width 16 - 1 := by
  unfold lowMask
  split
  next hwide => rw [BitVec.toNat_allOnes, Nat.min_eq_right hwide]
  next hnarrow =>
    have hpow : 2 ^ f.width < 2 ^ 16 := Nat.pow_lt_pow_right (by decide) (Nat.lt_of_not_le hnarrow)
    have hmoved : (1#16 <<< f.width).toNat = 2 ^ f.width := by
      rw [BitVec.toNat_shiftLeft, BitVec.toNat_one (by decide), Nat.one_shiftLeft,
        Nat.mod_eq_of_lt hpow]
    have hle : 1#16 ≤ 1#16 <<< f.width := by
      rw [BitVec.le_def, hmoved]
      exact Nat.one_le_two_pow
    rw [BitVec.toNat_sub_of_le hle, hmoved, BitVec.toNat_one (by decide),
      Nat.min_eq_left (Nat.le_of_not_le hnarrow)]

theorem getLsbD_lowMask (i : Nat) : f.lowMask.getLsbD i = decide (i < min f.width 16) := by
  rw [← BitVec.testBit_toNat, toNat_lowMask, Nat.testBit_two_pow_sub_one]

theorem mask_eq_lowMask : f.mask = f.lowMask <<< f.offset := by
  refine BitVec.eq_of_getLsbD_eq fun b hb => ?_
  rw [getLsbD_mask, BitVec.getLsbD_shiftLeft, getLsbD_lowMask, Bool.eq_iff_iff]
  simp only [Bool.and_eq_true, decide_eq_true_eq, Bool.not_eq_true', decide_eq_false_iff_not]
  omega

theorem getLsbD_mask_iff {b : Nat} :
    f.mask.getLsbD b ↔ f.offset ≤ b ∧ b < min (f.offset + f.width) 16 := by
  rw [getLsbD_mask]
  simp only [Bool.and_eq_true, decide_eq_true_eq]
  omega

theorem extract_eq_and_lowMask : f.extract w = (w >>> f.offset) &&& f.lowMask := by
  refine BitVec.eq_of_getLsbD_eq fun i hi => ?_
  rw [getLsbD_extract, BitVec.getLsbD_and, BitVec.getLsbD_ushiftRight, getLsbD_lowMask]
  have hlow : i < f.width ↔ i < min f.width 16 := by omega
  rw [decide_eq_decide.mpr hlow]

theorem toNat_extract : (f.extract w).toNat = (w >>> f.offset).toNat % 2 ^ min f.width 16 := by
  rw [extract_eq_and_lowMask, BitVec.toNat_and, toNat_lowMask, Nat.and_two_pow_sub_one_eq_mod]

theorem place_extract : f.place (f.extract w) = w &&& f.mask := by
  refine BitVec.eq_of_getLsbD_eq fun b hb => ?_
  rw [place, BitVec.getLsbD_shiftLeft, getLsbD_extract, BitVec.getLsbD_and, getLsbD_mask]
  rcases Nat.lt_or_ge b f.offset with hbelow | hle
  · simp [hbelow, Nat.not_le.mpr hbelow]
  · have hback : f.offset + (b - f.offset) = b := by omega
    have hwidth : b - f.offset < f.width ↔ b < f.offset + f.width := by omega
    simp [hb, hle, Nat.not_lt.mpr hle, hback, hwidth]

/-- To cut off what is not of the field and move the rest to the right is to
move first and cut off then, also for a field that reaches beyond the word.
What is left are the lowest bits of the moved opcode, as many as the field
has or all sixteen. Moved back they are the bits of the field in the opcode,
which are those from its offset on that are in the word. -/
theorem extract_eq_shift_mod :
    f.mask = f.lowMask <<< f.offset ∧
      f.extract w = (w >>> f.offset) &&& f.lowMask ∧
      (f.extract w).toNat = (w >>> f.offset).toNat % 2 ^ min f.width 16 ∧
      f.extract w <<< f.offset = w &&& f.mask ∧
      ∀ b, f.mask.getLsbD b ↔ f.offset ≤ b ∧ b < min (f.offset + f.width) 16 :=
  ⟨f.mask_eq_lowMask, f.extract_eq_and_lowMask w, f.toNat_extract w, f.place_extract w,
    fun _ => f.getLsbD_mask_iff⟩

/-- Of twelve bits from bit 8 on, four lie outside the word. -/
example : Field.extract ⟨'A', 8, 12⟩ 0xC042 = 0xC0 := by decide

end Microcode.Field
