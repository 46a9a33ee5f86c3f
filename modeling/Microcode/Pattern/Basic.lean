import Microcode.Word

/-!
# Operand fields and encoding patterns

A pattern says which bits of an opcode are fixed, which are ignored and
which belong to operand fields. An opcode is claimed by a pattern when
it carries the fixed bits; the other two kinds do not matter for that.
-/

namespace Microcode

/-! ## Operand fields -/

/-- A run of adjacent bits that carries one operand. -/
structure Field where
  letter : Char
  offset : Nat
  width : Nat
deriving DecidableEq, Repr

namespace Field

/-- The bits of the field, in place. Bits beyond the sixteenth are cut
off. -/
def mask (f : Field) : Word := (BitVec.allOnes f.width).setWidth 16 <<< f.offset

def valueCount (f : Field) : Nat := 1 <<< f.width

/-- The value that `w` carries in the field. -/
def extract (f : Field) (w : Word) : Word := (w &&& f.mask) >>> f.offset

/-- The value `v` moved to the place of the field. -/
def place (f : Field) (v : Word) : Word := v <<< f.offset

theorem getLsbD_mask (f : Field) (i : Nat) :
    f.mask.getLsbD i =
      (decide (i < 16) && decide (f.offset ≤ i) && decide (i < f.offset + f.width)) := by
  rw [mask, BitVec.getLsbD_shiftLeft, BitVec.getLsbD_setWidth, BitVec.getLsbD_allOnes]
  by_cases h : i < 16 <;> by_cases h' : f.offset ≤ i
  · have hlt : i - f.offset < 16 := by omega
    have hiff : (i - f.offset < f.width) ↔ (i < f.offset + f.width) := by omega
    simp [h, h', hlt, hiff]
  all_goals simp [h, h']

theorem getLsbD_extract (f : Field) (w : Word) (i : Nat) :
    (f.extract w).getLsbD i = (w.getLsbD (f.offset + i) && decide (i < f.width)) := by
  rw [extract, BitVec.getLsbD_ushiftRight, BitVec.getLsbD_and, getLsbD_mask]
  by_cases h : f.offset + i < 16
  · simp [h]
  · simp [BitVec.getLsbD_of_ge w _ (Nat.le_of_not_lt h)]

theorem extract_lt (f : Field) (w : Word) : (f.extract w).toNat < f.valueCount := by
  rw [valueCount, Nat.one_shiftLeft]
  refine Nat.lt_pow_two_of_testBit _ fun i hi => ?_
  rw [BitVec.testBit_toNat, getLsbD_extract]
  simp [Nat.not_lt.mpr hi]

end Field

/-! ## Patterns -/

structure Pattern where
  /-- The fixed bits. -/
  constMask : Word := 0
  /-- The values of the fixed bits. -/
  constBits : Word := 0
  /-- The bits that are neither matched nor shown. -/
  dontCareMask : Word := 0
  /-- Operand fields, lowest first. -/
  fields : List Field := []
deriving DecidableEq, Repr

namespace Pattern

/-- Every fixed bit of `p` has its value in `w`. -/
def Claims (p : Pattern) (w : Word) : Prop := w &&& p.constMask = p.constBits

instance (p : Pattern) : DecidablePred p.Claims :=
  fun w => inferInstanceAs (Decidable (w &&& p.constMask = p.constBits))

/-- No value is given for a bit that is not fixed. -/
def Consistent (p : Pattern) : Prop := p.constBits &&& ~~~p.constMask = 0

instance (p : Pattern) : Decidable p.Consistent :=
  inferInstanceAs (Decidable (p.constBits &&& ~~~p.constMask = 0))

theorem Claims.consistent {p : Pattern} {w : Word} (h : p.Claims w) : p.Consistent := by
  unfold Consistent
  rw [← h, BitVec.and_assoc, BitVec.and_not_self]
  exact BitVec.and_zero

def fieldMask (p : Pattern) : Word := p.fields.foldl (fun m f => m ||| f.mask) 0

def field? (p : Pattern) (letter : Char) : Option Field :=
  p.fields.find? (·.letter = letter)

/-- The number of opcodes that agree on the fixed bits. -/
def encodingCount (p : Pattern) : Nat := 1 <<< (16 - p.constMask.cpop.toNat)

/-- The claimed opcodes in ascending order. No opcode below the fixed
bits is claimed, and none above the fixed bits with all others set, so
only the range between is searched. -/
def scan (p : Pattern) : List Word :=
  let first := p.constBits.toNat
  let last := (p.constBits ||| ~~~p.constMask).toNat
  ((List.range' first (last + 1 - first)).map (BitVec.ofNat 16)).filter (p.Claims ·)

/-- As `scan`, without a search where nothing can be found. -/
def opcodes (p : Pattern) : List Word := if p.Consistent then p.scan else []

theorem opcodes_eq_scan (p : Pattern) : p.opcodes = p.scan := by
  rw [opcodes]
  split
  · rfl
  next h =>
    exact (List.filter_eq_nil_iff.mpr fun w _ hw =>
      h (Claims.consistent (of_decide_eq_true hw))).symm

/-- The opcode that carries the value `v f` in each field `f` and `d` in
the ignored bits. -/
def encode (p : Pattern) (v : Field → Word) (d : Word) : Word :=
  p.fields.foldl (fun w f => w ||| f.place (v f)) (p.constBits ||| d)

end Pattern

end Microcode
