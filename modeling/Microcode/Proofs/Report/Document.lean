import Microcode.Proofs.Json
import Microcode.Proofs.References.Recording
import Microcode.Report.Document

/-!
# Documents read back

The document of an analysis tells it in full (`document_eq_iff`), in either
layout and whatever its names and operands are: no two analyses share a
document.

The text tells the JSON value, so what is left is that the values of
different analyses differ. The members of a record come in a fixed order,
so its value tells what each part of the record tells. Three parts are not
written as they are.

- Flags are written as letters. The letter of a kind stands there exactly
  if its flag is set (`RefFlags.letter_mem_text_iff`).
- Sets and maps are written as lists. They are sorted, so that one set has
  one list only.
- The keys of a map are written as strings of decimal digits.
-/

namespace Microcode

/-! ## Flags -/

def RefKind.letter : RefKind → Char
  | .call => 'S'
  | .branch => 'B'
  | .conditional => 'C'

theorem RefFlags.letter_mem_text_iff (f : RefFlags) (k : RefKind) :
    k.letter ∈ f.text.toList ↔ f.has k := by
  obtain ⟨subroutine, branch, conditional⟩ := f
  cases subroutine <;> cases branch <;> cases conditional <;> cases k <;>
    simp [text, has, RefKind.letter]

theorem RefFlags.toJson_inj {f g : RefFlags} : f.toJson = g.toJson ↔ f = g := by
  refine ⟨fun h => ext_has fun k => ?_, congrArg toJson⟩
  have htext : f.text = g.text := Json.str.inj h
  rw [Bool.eq_iff_iff, ← letter_mem_text_iff, ← letter_mem_text_iff, htext]

/-! ## Sets and maps -/

theorem num_toNat_inj {a b : Word} : Json.num a.toNat = .num b.toNat ↔ a = b := by
  rw [Json.num.injEq, BitVec.toNat_inj]

theorem AddressSet.toJson_inj {s s' : AddressSet} : toJson s = toJson s' ↔ s = s' := by
  unfold AddressSet.toJson
  rw [Json.arr.injEq, List.map_inj_right fun _ _ => num_toNat_inj.mp, Std.ExtTreeSet.toList_inj]

theorem SourceMap.toJson_inj {m m' : SourceMap} : toJson m = toJson m' ↔ m = m' := by
  have hmember : ∀ x y : Word × AddressSet,
      (x.1.toNat.repr, AddressSet.toJson x.2) = (y.1.toNat.repr, AddressSet.toJson y.2) →
        x = y := by
    intro x y h
    obtain ⟨hkey, hsources⟩ := Prod.mk.inj h
    have htarget : x.1.toNat = y.1.toNat := (Json.selfDelimiting_repr x.1.toNat).eq hkey
    exact Prod.ext (BitVec.eq_of_toNat_eq htarget) (AddressSet.toJson_inj.mp hsources)
  unfold SourceMap.toJson
  rw [Json.obj.injEq, List.map_inj_right hmember, Std.ExtTreeMap.toList_inj]

/-! ## Records -/

theorem References.toJson_inj {r r' : References} : r.toJson = r'.toJson ↔ r = r' := by
  obtain ⟨calls, branches, conditionalBranches⟩ := r
  obtain ⟨calls', branches', conditionalBranches'⟩ := r'
  simp [toJson, SourceMap.toJson_inj]

theorem Instruction.toJson_inj {i i' : Instruction} : i.toJson = i'.toJson ↔ i = i' := by
  obtain ⟨mnemonic, operands⟩ := i
  obtain ⟨mnemonic', operands'⟩ := i'
  simp [toJson, List.map_inj_right]

theorem ListedWord.toJson_inj {e e' : ListedWord} : e.toJson = e'.toJson ↔ e = e' := by
  obtain ⟨address, word, flags, instruction, boundary⟩ := e
  obtain ⟨address', word', flags', instruction', boundary'⟩ := e'
  simp [toJson, num_toNat_inj, RefFlags.toJson_inj, Instruction.toJson_inj, -Json.num.injEq]

theorem Analysis.toJson_inj {a b : Analysis} : a.toJson = b.toJson ↔ a = b := by
  obtain ⟨references, boundaries, entries⟩ := a
  obtain ⟨references', boundaries', entries'⟩ := b
  simp [toJson, References.toJson_inj, AddressSet.toJson_inj, List.map_inj_right,
    ListedWord.toJson_inj]

namespace Report

/-- No two analyses have the same document. -/
theorem document_eq_iff (layout : Json.Layout) (a b : Analysis) :
    document layout a = document layout b ↔ a = b := by
  rw [document, document, Json.render_inj, Analysis.toJson_inj]

end Report

end Microcode
