import Microcode.Proofs.Analysis.Boundaries
import Microcode.Proofs.Encoding.Standard
import Microcode.Proofs.Text.Hex

/-!
# Analyses under the standard tables

Under a standard table an analysis can be told from the words alone. The
calls, branches and conditional branches are the words whose highest four
bits are those of the kind, and the address they go to is the rest of the
word (`RefKind.and_eq_base_iff`); returns and ends of macro instructions
have their fixed bits. No table can fail to be built.

An address is got from a word in two ways: as the target of the transfer,
and as its operand. Both are the twelve low bits.
-/

namespace Microcode

/-! ## The four high bits and the twelve low ones -/

namespace Word

theorem toNat_target (w : Word) : w.target.toNat = w.toNat % 4096 := by
  rw [target, BitVec.toNat_and]
  exact Nat.and_two_pow_sub_one_eq_mod w.toNat 12

theorem toNat_and_high (w : Word) : (w &&& 0xF000).toNat = w.toNat / 4096 * 4096 := by
  have hmask : (0xF000 : Word) = BitVec.allOnes 16 <<< 12 := by decide
  have hw := w.isLt
  rw [hmask, ← BitVec.shiftLeft_ushiftRight, BitVec.toNat_shiftLeft, BitVec.toNat_ushiftRight,
    Nat.shiftRight_eq_div_pow, Nat.shiftLeft_eq]
  omega

theorem and_high_eq_branch_iff {w : Word} :
    w &&& 0xF000 = RefKind.branch.base ↔ w >>> 12 = 0xC := by
  have hw := w.isLt
  rw [← BitVec.toNat_inj, ← BitVec.toNat_inj, toNat_and_high, BitVec.toNat_ushiftRight,
    Nat.shiftRight_eq_div_pow]
  simp [RefKind.base]
  omega

end Word

/-- A word of a kind is its lowest opcode and the target added up. -/
theorem RefKind.and_eq_base_iff {k : RefKind} {w t : Word} :
    w &&& 0xF000 = k.base ∧ w.target = t ↔ t ≤ 0x0FFF ∧ w = k.base + t := by
  have hw := w.isLt
  have ht := t.isLt
  rw [BitVec.le_def, ← BitVec.toNat_inj, ← BitVec.toNat_inj, ← BitVec.toNat_inj,
    Word.toNat_and_high, Word.toNat_target, BitVec.toNat_add]
  cases k <;> simp [base] <;> omega

/-! ## Transfers by their words -/

namespace ControlStore

variable {resolution : Resolution} {d : Disassembler} {s : ControlStore}

theorem mnemonic?_eq_some_iff {a : Nat} {mnemonic : String} :
    s.mnemonic? d a = some mnemonic ↔
      ∃ w, s.word? a = some w ∧ (d.disassemble w).mnemonic = mnemonic := by
  rw [mnemonic?, Option.map_eq_some_iff]

variable (h : Disassembler.Built (Row.standard resolution) d)

include h

theorem refers_standard_iff {k : RefKind} {source target : Word} :
    s.Refers d k source target ↔
      target ≤ 0x0FFF ∧ s.word? source.toNat = some (k.base + target) := by
  have hword : ∀ w : Word, (d.disassemble w).mnemonic = k.mnemonic ∧ w &&& 0x0FFF = target ↔
      target ≤ 0x0FFF ∧ w = k.base + target := by
    intro w
    rw [Disassembler.mnemonic_eq_kind_iff h]
    exact RefKind.and_eq_base_iff
  simp only [Refers, hword]
  constructor
  · rintro ⟨w, hw, htarget, rfl⟩
    exact ⟨htarget, hw⟩
  · rintro ⟨htarget, hw⟩
    exact ⟨_, hw, htarget, rfl⟩

theorem endsBlock_standard_iff {a : Nat} :
    s.EndsBlock d a ↔
      (∃ w, s.word? a = some w ∧ w &&& 0xF9F0 = 0xF870) ∨
        1 ≤ a ∧ ∃ w, s.word? (a - 1) = some w ∧ (w >>> 12 = 0xC ∨ w &&& 0xF9F0 = 0xF0A0) := by
  have hbranch : ∀ w : Word, (d.disassemble w).mnemonic = Mnemonic.branch ↔ w >>> 12 = 0xC :=
    fun w => (Disassembler.mnemonic_eq_kind_iff h).trans Word.and_high_eq_branch_iff
  simp only [EndsBlock, mnemonic?_eq_some_iff, Disassembler.mnemonic_eq_endOfMacro_iff h,
    Disassembler.mnemonic_eq_return_iff h, hbranch, ← exists_or, ← and_or_left]

end ControlStore

/-! ## Whole stores -/

namespace Analysis

/-- The address of a recorded transfer is what its operand shows, in three
digits. -/
theorem operands_of_has {resolution : Resolution} {d : Disassembler}
    (h : Disassembler.Built (Row.standard resolution) d) {s : ControlStore} {k : RefKind}
    {t a : Word} (hhas : ((ofStore d s).references.sources k).Has t a) :
    ∃ e, (ofStore d s).entries[a.toNat]? = some e ∧
      e.instruction.operands = ["A=0x" ++ Hex.text 3 t.toNat] := by
  have href := (ControlStore.refers_standard_iff h).mp (has_ofStore.mp hhas)
  obtain ⟨hle, hword⟩ := href
  obtain ⟨hkind, htarget⟩ := RefKind.and_eq_base_iff.mpr ⟨hle, rfl⟩
  have hentry := getElem?_entries_ofStore d s a.toNat
  rw [hword, Option.map_some] at hentry
  refine ⟨_, hentry, ?_⟩
  show (d.disassemble _).operands = _
  rw [Disassembler.operands_of_kind h hkind, htarget]

theorem standard_eq_ofStore {options : Options} {d : Disassembler}
    (hd : Disassembler.standard options = .ok d) (s : ControlStore) :
    standard options s = .ok (ofStore d s) := by
  rw [standard, hd]
  rfl

/-- Under either table every store is analysed, and the analysis is that
of its words: which of them call, branch or branch on a condition, and to
where; which of them end a block, at once or after the next; and of each
transfer that is recorded, the one operand it is shown with. -/
theorem standard_eq_ok (options : Options) (s : ControlStore) :
    ∃ r, standard options s = .ok r ∧
      (∀ k t a, (r.references.sources k).Has t a ↔
        t ≤ 0x0FFF ∧ s.word? a.toNat = some (k.base + t)) ∧
      (∀ b : Word, b ∈ r.boundaries ↔ b.toNat < storeSize ∧
        ((∃ w, s.word? b.toNat = some w ∧ w &&& 0xF9F0 = 0xF870) ∨
          1 ≤ b.toNat ∧ ∃ w, s.word? (b.toNat - 1) = some w ∧
            (w >>> 12 = 0xC ∨ w &&& 0xF9F0 = 0xF0A0))) ∧
      ∀ k t a, (r.references.sources k).Has t a →
        ∃ e, r.entries[a.toNat]? = some e ∧
          e.instruction.operands = ["A=0x" ++ String.ofList
            [(t.toNat / 256).digitChar, (t.toNat / 16 % 16).digitChar,
              (t.toNat % 16).digitChar]] := by
  obtain ⟨d, hd⟩ := exists_ofRows_standard options.resolution
  have h := Disassembler.built_of_ofRows hd
  refine ⟨ofStore d s, standard_eq_ofStore hd s, ?_, ?_, ?_⟩
  · intro k t a
    rw [has_ofStore, ControlStore.refers_standard_iff h]
  · intro b
    rw [mem_boundaries_ofStore, ControlStore.endsBlock_standard_iff h]
  · intro k t a hhas
    have hlt : t.toNat < 4096 := (has_ofStore.mp hhas).target_lt
    rw [← Hex.text_three hlt]
    exact operands_of_has h hhas

end Analysis

end Microcode
