import Mathlib.Data.BitVec
import Microcode.Word

/-!
# Masks bit by bit

Equations between masks as statements on each bit.
-/

namespace Microcode.Word

theorem and_eq_zero_iff {m m' : Word} :
    m &&& m' = 0 ↔ ∀ b, m.getLsbD b → ¬ m'.getLsbD b := by
  rw [BitVec.eq_of_getLsbD_eq_iff]
  simp only [BitVec.getLsbD_and, BitVec.ofNat_eq_ofNat, BitVec.getLsbD_zero]
  constructor
  · intro h b hm hm'
    have hb := h b (BitVec.lt_of_getLsbD hm)
    rw [hm, hm'] at hb
    cases hb
  · intro h b _
    rw [Bool.and_eq_false_imp]
    exact fun hm => Bool.eq_false_iff.mpr (h b hm)

theorem and_not_eq_zero_iff {m m' : Word} :
    m &&& ~~~m' = 0 ↔ ∀ b, m.getLsbD b → m'.getLsbD b := by
  rw [and_eq_zero_iff]
  refine forall_congr' fun b => imp_congr_right fun hm => ?_
  simp [BitVec.lt_of_getLsbD hm]

theorem and_eq_and_iff {m w w' : Word} :
    w &&& m = w' &&& m ↔ ∀ b, m.getLsbD b → w.getLsbD b = w'.getLsbD b := by
  rw [BitVec.eq_of_getLsbD_eq_iff]
  simp only [BitVec.getLsbD_and]
  constructor
  · intro h b hm
    have hb := h b (BitVec.lt_of_getLsbD hm)
    rwa [hm, Bool.and_true, Bool.and_true] at hb
  · intro h b _
    cases hm : m.getLsbD b with
    | false => simp
    | true => rw [h b hm]

theorem getLsbD_all (b : Nat) : (0xFFFF : Word).getLsbD b = decide (b < 16) := by
  rw [show (0xFFFF : Word) = BitVec.allOnes 16 from rfl, BitVec.getLsbD_allOnes]

theorem getLsbD_foldl_or {ms : List Word} {m : Word} {b : Nat} :
    (ms.foldl (· ||| ·) m).getLsbD b ↔ m.getLsbD b ∨ ∃ m' ∈ ms, m'.getLsbD b := by
  induction ms generalizing m with
  | nil => simp
  | cons m₁ ms ih =>
      rw [List.foldl_cons, ih, BitVec.getLsbD_or, Bool.or_eq_true, or_assoc,
        List.exists_mem_cons_iff]

end Microcode.Word
