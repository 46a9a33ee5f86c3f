import Mathlib.Algebra.Group.Nat.Defs
import Microcode.Proofs.Pattern.Claims

/-!
# How many opcodes a pattern claims

A consistent pattern claims two to the power of the number of its free bits
(`Pattern.length_opcodes`), one that is not consistent claims none. The
opcodes are counted among all words, one bit at a time: of the numbers below
`2 ^ (k + 1)` the lower half has the bit `k` clear and the upper half has it
set, and what a pattern says of this bit is said of all numbers in a half
(`agreeing_succ`).
-/

namespace Microcode

namespace Pattern

variable {p : Pattern} {i k : Nat}

/-- The number has the values of the fixed bits below the bit `k`. -/
def AgreesBelow (p : Pattern) (k i : Nat) : Prop :=
  ∀ b < k, (i.testBit b && p.constMask.getLsbD b) = p.constBits.getLsbD b

instance (p : Pattern) (k : Nat) : DecidablePred (p.AgreesBelow k) :=
  fun i => inferInstanceAs
    (Decidable (∀ b < k, (i.testBit b && p.constMask.getLsbD b) = p.constBits.getLsbD b))

/-- How many numbers of `k` bits agree with the pattern. -/
def agreeing (p : Pattern) (k : Nat) : Nat := (List.range (2 ^ k)).countP (p.AgreesBelow k ·)

/-- The number of bits below `k` that are fixed. -/
def fixedBelow (p : Pattern) (k : Nat) : Nat := (List.range k).countP (p.constMask.getLsbD ·)

/-- No value is given for a bit below `k` that is not fixed. -/
def ConsistentBelow (p : Pattern) (k : Nat) : Prop :=
  ∀ b < k, p.constBits.getLsbD b = true → p.constMask.getLsbD b = true

/-! ## One more bit -/

theorem agreesBelow_succ : p.AgreesBelow (k + 1) i ↔
    p.AgreesBelow k i ∧ (i.testBit k && p.constMask.getLsbD k) = p.constBits.getLsbD k :=
  Nat.forall_lt_succ_right

theorem agreesBelow_two_pow_add : p.AgreesBelow k (2 ^ k + i) ↔ p.AgreesBelow k i := by
  refine forall_congr' fun b => forall_congr' fun hb => ?_
  rw [Nat.testBit_two_pow_add_gt hb]

/-- The half with the bit clear and the half with it set. -/
theorem agreeing_succ (p : Pattern) (k : Nat) :
    p.agreeing (k + 1) =
      (if p.constBits.getLsbD k = false then p.agreeing k else 0) +
        if p.constMask.getLsbD k = p.constBits.getLsbD k then p.agreeing k else 0 := by
  have hclear : (List.range (2 ^ k)).countP (p.AgreesBelow (k + 1) ·) =
      if p.constBits.getLsbD k = false then p.agreeing k else 0 := by
    rw [agreeing, ← countP_and_const]
    refine List.countP_congr fun i hi => ?_
    rw [decide_eq_true_eq, decide_eq_true_eq, agreesBelow_succ,
      Nat.testBit_lt_two_pow (List.mem_range.mp hi), Bool.false_and, eq_comm]
  have hset : (List.range (2 ^ k)).countP (fun i => p.AgreesBelow (k + 1) (2 ^ k + i)) =
      if p.constMask.getLsbD k = p.constBits.getLsbD k then p.agreeing k else 0 := by
    rw [agreeing, ← countP_and_const]
    refine List.countP_congr fun i hi => ?_
    rw [decide_eq_true_eq, decide_eq_true_eq, agreesBelow_succ, agreesBelow_two_pow_add,
      Nat.testBit_two_pow_add_eq, Nat.testBit_lt_two_pow (List.mem_range.mp hi), Bool.not_false,
      Bool.true_and]
  rw [← hclear, ← hset, agreeing, Nat.pow_succ, Nat.mul_two, List.range_add, List.countP_append,
    List.countP_map]
  rfl

theorem fixedBelow_succ (p : Pattern) (k : Nat) :
    p.fixedBelow (k + 1) = p.fixedBelow k + (p.constMask.getLsbD k).toNat := by
  rw [fixedBelow, List.range_succ, List.countP_append, ← fixedBelow]
  cases h : p.constMask.getLsbD k <;> simp [h]

theorem consistentBelow_succ : p.ConsistentBelow (k + 1) ↔
    p.ConsistentBelow k ∧ (p.constBits.getLsbD k = true → p.constMask.getLsbD k = true) :=
  Nat.forall_lt_succ_right

/-! ## All bits -/

theorem ConsistentBelow.agreeing_mul (h : p.ConsistentBelow k) :
    p.agreeing k * 2 ^ p.fixedBelow k = 2 ^ k := by
  induction k with
  | zero => rfl
  | succ k ih =>
      obtain ⟨hlow, hbit⟩ := consistentBelow_succ.mp h
      cases hmask : p.constMask.getLsbD k with
      | false =>
          have hbits : p.constBits.getLsbD k = false := by
            rw [hmask] at hbit
            simpa using hbit
          have hboth : p.agreeing (k + 1) = 2 * p.agreeing k := by
            rw [agreeing_succ, hmask, hbits, if_pos rfl, Nat.two_mul]
          have hfixed : p.fixedBelow (k + 1) = p.fixedBelow k := by
            rw [fixedBelow_succ, hmask]
            rfl
          rw [hboth, hfixed, Nat.mul_assoc, ih hlow, Nat.pow_succ, Nat.mul_comm]
      | true =>
          have hone : p.agreeing (k + 1) = p.agreeing k := by
            rw [agreeing_succ, hmask]
            cases p.constBits.getLsbD k <;> simp
          have hfixed : p.fixedBelow (k + 1) = p.fixedBelow k + 1 := by
            rw [fixedBelow_succ, hmask]
            rfl
          rw [hone, hfixed, Nat.pow_succ, ← Nat.mul_assoc, ih hlow, Nat.pow_succ]

theorem claims_ofNat_iff : p.Claims (BitVec.ofNat 16 i) ↔ p.AgreesBelow 16 i := by
  rw [claims_iff_getLsbD]
  refine forall_congr' fun b => forall_congr' fun hb => ?_
  rw [BitVec.getLsbD_ofNat, decide_eq_true hb, Bool.true_and]

theorem length_opcodes_eq_countP (p : Pattern) :
    p.opcodes.length = Word.all.countP (p.Claims ·) := by
  rw [opcodes_eq_filter_all, List.countP_eq_length_filter]

theorem length_opcodes_eq_agreeing (p : Pattern) : p.opcodes.length = p.agreeing 16 := by
  rw [length_opcodes_eq_countP, Word.all, List.countP_map, agreeing]
  refine List.countP_congr fun i _ => ?_
  rw [Function.comp_apply, decide_eq_true_eq, decide_eq_true_eq]
  exact claims_ofNat_iff

theorem cpop_constMask (p : Pattern) : p.constMask.cpop.toNat = p.fixedBelow 16 := by
  have hrec : ∀ k, p.constMask.cpopNatRec k 0 = p.fixedBelow k := by
    intro k
    induction k with
    | zero => rfl
    | succ k ih => rw [BitVec.cpopNatRec_succ, BitVec.cpopNatRec_add, ih, fixedBelow_succ]
  rw [BitVec.toNat_cpop, hrec]

theorem encodingCount_eq (p : Pattern) : p.encodingCount = 2 ^ (16 - p.fixedBelow 16) := by
  rw [encodingCount, cpop_constMask, Nat.one_shiftLeft]

/-- A pattern claims as many opcodes as agree on its fixed bits, if its
values are values of these bits, and else none. -/
theorem length_opcodes (p : Pattern) :
    p.opcodes.length = if p.Consistent then p.encodingCount else 0 := by
  split
  next hcons =>
    have hcount := ConsistentBelow.agreeing_mul (consistent_iff_getLsbD.mp hcons)
    have hle : p.fixedBelow 16 ≤ 16 := List.countP_le_length
    rw [← Nat.pow_sub_mul_pow 2 hle] at hcount
    rw [length_opcodes_eq_agreeing, encodingCount_eq]
    exact Nat.eq_of_mul_eq_mul_right (Nat.two_pow_pos _) hcount
  next hcons => rw [opcodes, if_neg hcons, List.length_nil]

end Pattern

end Microcode
