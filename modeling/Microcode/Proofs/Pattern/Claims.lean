import Mathlib.Data.BitVec
import Mathlib.Data.List.Pairwise
import Mathlib.Data.List.Perm.Subperm
import Microcode.Pattern.Basic
import Microcode.Proofs.List
import Microcode.Proofs.Word

/-!
# The opcodes a pattern claims

`Pattern.Claims` bit by bit, and three consequences.

- **The bounded search loses nothing** (`scan_eq_filter_all`): a claimed
  opcode lies between the fixed bits alone and the fixed bits with all
  others set, so searching that range finds what searching all 65536
  opcodes finds, in the same order.
- **Overlap is a test on masks** (`exists_claims_iff_compatible`): two
  consistent patterns claim a common opcode exactly if no bit is fixed to
  different values by them. The opcode that shows it carries the fixed
  bits of both and no others.
- **Disjoint patterns are few** (`length_le_of_pairwise_disjoint`):
  consistent patterns that share no opcode have different fixed bits, so
  there are no more of them than opcodes. If there are as many, each
  claims a single opcode, and every opcode is claimed
  (`constMask_eq_of_length`, `exists_constBits_eq`).
-/

namespace Microcode

namespace Word

theorem mem_all (w : Word) : w ∈ all :=
  List.mem_map.mpr ⟨w.toNat, List.mem_range.mpr w.toNat_lt, BitVec.ofNat_toNat 16 w⟩

theorem length_all : all.length = opcodeCount := by
  rw [all, List.length_map, List.length_range]

theorem toNat_ofNat_of_lt {i : Nat} (hi : i < opcodeCount) : (BitVec.ofNat 16 i).toNat = i :=
  Nat.mod_eq_of_lt hi

theorem pairwise_all : all.Pairwise (· < ·) := by
  refine List.pairwise_map.mpr (List.pairwise_lt_range.imp_of_mem fun {i j} hi hj hij => ?_)
  rw [BitVec.lt_def, toNat_ofNat_of_lt (List.mem_range.mp hi),
    toNat_ofNat_of_lt (List.mem_range.mp hj)]
  exact hij

theorem nodup_all : all.Nodup := pairwise_all.imp BitVec.ne_of_lt

/-- The words of a range that includes both its ends, which may be the last
of all words. -/
theorem map_range'_eq_filter_all {first last : Nat} (hle : first ≤ last)
    (hlast : last < opcodeCount) :
    (List.range' first (last + 1 - first)).map (BitVec.ofNat 16) =
      all.filter fun w => first ≤ w.toNat ∧ w.toNat ≤ last := by
  have hbetween : ∀ i < opcodeCount,
      decide (first ≤ (BitVec.ofNat 16 i).toNat ∧ (BitVec.ofNat 16 i).toNat ≤ last) →
        first ≤ i ∧ i < last + 1 := by
    intro i hi h
    rw [toNat_ofNat_of_lt hi, decide_eq_true_eq] at h
    omega
  rw [all, List.filter_map]
  refine congrArg _ (Eq.trans ?_ (filter_range_eq (Nat.le_succ_of_le hle) hlast hbetween).symm)
  refine (List.filter_eq_self.mpr fun i hi => ?_).symm
  rw [List.mem_range'_1] at hi
  have hlt : i < opcodeCount := by omega
  show decide (first ≤ (BitVec.ofNat 16 i).toNat ∧ (BitVec.ofNat 16 i).toNat ≤ last) = true
  rw [toNat_ofNat_of_lt hlt, decide_eq_true_eq]
  omega

theorem length_le_of_nodup {ws : List Word} (h : ws.Nodup) : ws.length ≤ opcodeCount := by
  have hsub : ws.Subperm all := h.subperm fun w _ => mem_all w
  rw [← length_all]
  exact hsub.length_le

/-- As many words as there are opcodes, none of them twice, are all
words. -/
theorem mem_of_nodup {ws : List Word} (h : ws.Nodup) (hlen : ws.length = opcodeCount) (w : Word) :
    w ∈ ws := by
  have hsub : ws.Subperm all := h.subperm fun w _ => mem_all w
  have hperm : ws.Perm all := hsub.perm_of_length_le (length_all.trans hlen.symm).le
  exact hperm.mem_iff.mpr w.mem_all

end Word

namespace Pattern

/-! ## Bit by bit -/

theorem claims_iff_getLsbD {p : Pattern} {w : Word} :
    p.Claims w ↔
      ∀ b < 16, (w.getLsbD b && p.constMask.getLsbD b) = p.constBits.getLsbD b := by
  rw [Claims, BitVec.eq_of_getLsbD_eq_iff]
  simp only [BitVec.getLsbD_and]

theorem consistent_iff_getLsbD {p : Pattern} :
    p.Consistent ↔
      ∀ b < 16, p.constBits.getLsbD b = true → p.constMask.getLsbD b = true := by
  rw [Consistent, Word.and_not_eq_zero_iff]
  exact ⟨fun h b _ => h b, fun h b hbit => h b (BitVec.lt_of_getLsbD hbit) hbit⟩

/-- A consistent pattern claims its own fixed bits, so it claims an
opcode at all. -/
theorem Consistent.claims_constBits {p : Pattern} (h : p.Consistent) :
    p.Claims p.constBits := by
  rw [consistent_iff_getLsbD] at h
  refine claims_iff_getLsbD.mpr fun b hb => ?_
  cases hbit : p.constBits.getLsbD b with
  | false => rfl
  | true => exact h b hb hbit

theorem Consistent.claims_last {p : Pattern} (h : p.Consistent) :
    p.Claims (p.constBits ||| ~~~p.constMask) := by
  rw [consistent_iff_getLsbD] at h
  refine claims_iff_getLsbD.mpr fun b hb => ?_
  simp only [BitVec.getLsbD_or, BitVec.getLsbD_not, hb, decide_true, Bool.true_and]
  have hbit := h b hb
  grind

/-! ## The bounded search -/

theorem Claims.first_le {p : Pattern} {w : Word} (h : p.Claims w) :
    p.constBits.toNat ≤ w.toNat := by
  rw [← h, BitVec.toNat_and]
  exact Nat.and_le_left

theorem Claims.le_last {p : Pattern} {w : Word} (h : p.Claims w) :
    w.toNat ≤ (p.constBits ||| ~~~p.constMask).toNat := by
  have hw : w &&& (w &&& p.constMask ||| ~~~p.constMask) = w := by
    refine BitVec.eq_of_getLsbD_eq fun b hb => ?_
    simp only [BitVec.getLsbD_and, BitVec.getLsbD_or, BitVec.getLsbD_not, hb, decide_true]
    cases w.getLsbD b <;> cases p.constMask.getLsbD b <;> rfl
  calc w.toNat = (w &&& (w &&& p.constMask ||| ~~~p.constMask)).toNat := by rw [hw]
    _ ≤ (w &&& p.constMask ||| ~~~p.constMask).toNat := by
        rw [BitVec.toNat_and]
        exact Nat.and_le_right
    _ = (p.constBits ||| ~~~p.constMask).toNat := by rw [h]

theorem first_le_last (p : Pattern) :
    p.constBits.toNat ≤ (p.constBits ||| ~~~p.constMask).toNat := by
  rw [BitVec.toNat_or]
  exact Nat.left_le_or

/-- The search finds every claimed opcode, in ascending order. -/
theorem scan_eq_filter_all (p : Pattern) : p.scan = Word.all.filter (p.Claims ·) := by
  have hrange := Word.map_range'_eq_filter_all p.first_le_last (Word.toNat_lt _)
  rw [scan, hrange, List.filter_filter]
  refine List.filter_congr fun w _ => ?_
  by_cases hclaim : p.Claims w
  · simp only [hclaim, hclaim.first_le, hclaim.le_last, and_self, decide_true, Bool.and_self]
  · simp only [hclaim, decide_false, Bool.false_and]

theorem opcodes_eq_filter_all (p : Pattern) : p.opcodes = Word.all.filter (p.Claims ·) := by
  rw [opcodes_eq_scan, scan_eq_filter_all]

theorem mem_opcodes {p : Pattern} {w : Word} : w ∈ p.opcodes ↔ p.Claims w := by
  rw [opcodes_eq_filter_all, List.mem_filter, decide_eq_true_eq]
  exact and_iff_right w.mem_all

theorem scan_eq_nil_iff {p : Pattern} : p.scan = [] ↔ ¬ p.Consistent := by
  rw [scan_eq_filter_all, List.filter_eq_nil_iff]
  constructor
  · intro hnone hcons
    exact hnone p.constBits p.constBits.mem_all (decide_eq_true hcons.claims_constBits)
  · intro hcons w _ hclaim
    exact hcons (of_decide_eq_true hclaim).consistent

/-- What a pattern is put in for are the claimed opcodes in the range from
its fixed bits alone to its fixed bits with all others set. The range loses
nothing, whether or not the pattern is consistent: of all opcodes the same
ones are claimed, in the same, ascending order. There are none exactly if a
value is given for a bit that is not fixed. -/
theorem scan_exhaustive (p : Pattern) :
    let first := p.constBits.toNat
    let last := (p.constBits ||| ~~~p.constMask).toNat
    let range := (List.range' first (last + 1 - first)).map (BitVec.ofNat 16)
    range = (Word.all.filter fun w => first ≤ w.toNat ∧ w.toNat ≤ last) ∧
      p.opcodes = range.filter (p.Claims ·) ∧
      range.filter (p.Claims ·) = Word.all.filter (p.Claims ·) ∧
      (range.filter (p.Claims ·)).Pairwise (· < ·) ∧
      (range.filter (p.Claims ·) = [] ↔ p.constBits &&& ~~~p.constMask ≠ 0) := by
  intro first last range
  have hrange := Word.map_range'_eq_filter_all p.first_le_last (Word.toNat_lt _)
  have hall : range.filter (p.Claims ·) = Word.all.filter (p.Claims ·) := p.scan_eq_filter_all
  refine ⟨hrange, p.opcodes_eq_scan, hall, ?_, scan_eq_nil_iff⟩
  rw [hall]
  exact Word.pairwise_all.filter _

/-! ## Overlap -/

/-- No bit is fixed to different values by the two patterns. -/
def Compatible (p q : Pattern) : Prop :=
  (p.constBits ^^^ q.constBits) &&& p.constMask &&& q.constMask = 0

instance (p q : Pattern) : Decidable (p.Compatible q) :=
  inferInstanceAs (Decidable ((p.constBits ^^^ q.constBits) &&& p.constMask &&& q.constMask = 0))

theorem compatible_iff_getLsbD {p q : Pattern} :
    p.Compatible q ↔
      ∀ b < 16, p.constMask.getLsbD b = true → q.constMask.getLsbD b = true →
        p.constBits.getLsbD b = q.constBits.getLsbD b := by
  rw [Compatible, BitVec.eq_of_getLsbD_eq_iff]
  refine forall_congr' fun b => forall_congr' fun hb => ?_
  simp only [BitVec.getLsbD_and, BitVec.getLsbD_xor]
  grind

theorem Compatible.symm {p q : Pattern} (h : p.Compatible q) : q.Compatible p := by
  rw [compatible_iff_getLsbD] at h ⊢
  exact fun b hb hq hp => (h b hb hp hq).symm

theorem compatible_of_claims {p q : Pattern} {w : Word} (hp : p.Claims w)
    (hq : q.Claims w) : p.Compatible q := by
  refine compatible_iff_getLsbD.mpr fun b hb hpb hqb => ?_
  have hpw := claims_iff_getLsbD.mp hp b hb
  have hqw := claims_iff_getLsbD.mp hq b hb
  rw [hpb, Bool.and_true] at hpw
  rw [hqb, Bool.and_true] at hqw
  exact hpw.symm.trans hqw

/-- Where two patterns are compatible, the bits that the second adds to
the first are fixed to one by the first or not fixed by it. -/
theorem Compatible.claims_or {p q : Pattern} (h : p.Compatible q) (hp : p.Consistent)
    (hq : q.Consistent) : p.Claims (p.constBits ||| q.constBits) := by
  rw [consistent_iff_getLsbD] at hp hq
  rw [compatible_iff_getLsbD] at h
  refine claims_iff_getLsbD.mpr fun b hb => ?_
  rw [BitVec.getLsbD_or]
  have hpb := hp b hb
  have hqb := hq b hb
  have hpq := h b hb
  grind

theorem exists_claims_iff_compatible {p q : Pattern} (hp : p.Consistent)
    (hq : q.Consistent) : (∃ w, p.Claims w ∧ q.Claims w) ↔ p.Compatible q := by
  constructor
  · rintro ⟨w, hpw, hqw⟩
    exact compatible_of_claims hpw hqw
  · intro h
    refine ⟨p.constBits ||| q.constBits, h.claims_or hp hq, ?_⟩
    rw [BitVec.or_comm]
    exact h.symm.claims_or hq hp

/-- No opcode is claimed by both patterns. -/
def Disjoint (p q : Pattern) : Prop := ∀ w, p.Claims w → ¬ q.Claims w

theorem disjoint_iff_not_compatible {p q : Pattern} (hp : p.Consistent) (hq : q.Consistent) :
    p.Disjoint q ↔ ¬ p.Compatible q := by
  rw [← exists_claims_iff_compatible hp hq]
  simp only [Disjoint, not_exists, not_and]

instance : Std.Symm Disjoint := ⟨fun _ _ h w hq hp => h w hp hq⟩

/-! ## How many disjoint patterns there are -/

section

variable {ps : List Pattern} (hcons : ∀ p ∈ ps, p.Consistent) (hdis : ps.Pairwise Disjoint)

include hcons hdis

theorem nodup_constBits : (ps.map constBits).Nodup := by
  refine List.pairwise_map.mpr (hdis.imp_of_mem fun {p q} hp hq hpq heq => ?_)
  refine hpq p.constBits (hcons p hp).claims_constBits ?_
  rw [heq]
  exact (hcons q hq).claims_constBits

/-- Consistent patterns that never share an opcode are not more than
there are opcodes, for each claims one. -/
theorem length_le_of_pairwise_disjoint : ps.length ≤ opcodeCount := by
  rw [← List.length_map constBits]
  exact Word.length_le_of_nodup (nodup_constBits hcons hdis)

/-- If they are as many, every opcode is the fixed bits of one of them. -/
theorem exists_constBits_eq (hlen : ps.length = opcodeCount) (w : Word) :
    ∃ p ∈ ps, p.constBits = w := by
  have hlen' : (ps.map constBits).length = opcodeCount := by rw [List.length_map, hlen]
  exact List.mem_map.mp (Word.mem_of_nodup (nodup_constBits hcons hdis) hlen' w)

/-- They leave no bit free then: the last opcode that one of them claims is
the fixed bits of one of them, which must be the same. -/
theorem constMask_eq_of_length (hlen : ps.length = opcodeCount) {p : Pattern} (hp : p ∈ ps) :
    p.constMask = BitVec.allOnes 16 := by
  obtain ⟨q, hq, hlast⟩ := exists_constBits_eq hcons hdis hlen (p.constBits ||| ~~~p.constMask)
  have hclaim : q.Claims (p.constBits ||| ~~~p.constMask) := by
    rw [← hlast]
    exact (hcons q hq).claims_constBits
  obtain rfl : p = q := by
    by_contra hne
    exact hdis.forall hp hq hne _ (hcons p hp).claims_last hclaim
  refine BitVec.eq_of_getLsbD_eq fun b hb => ?_
  have hbit := congrArg (BitVec.getLsbD · b) hlast
  have hfixed := consistent_iff_getLsbD.mp (hcons p hp) b hb
  simp only [BitVec.getLsbD_or, BitVec.getLsbD_not, hb, decide_true, Bool.true_and] at hbit
  rw [BitVec.getLsbD_allOnes, decide_eq_true hb]
  cases hmask : p.constMask.getLsbD b with
  | true => rfl
  | false =>
      rw [hmask, Bool.not_false, Bool.or_true] at hbit
      rw [← hmask]
      exact hfixed hbit

end

end Pattern

end Microcode
