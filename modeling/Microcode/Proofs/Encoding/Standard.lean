import Microcode.Proofs.Disassembler.RowOrder
import Microcode.Proofs.References.Recording

/-!
# The standard tables

Both are accepted (`exists_ofRows_standard`). That the rows of one exclude
each other is a computation. The other differs in one row, which claims
the same opcodes (`Resolution.claims_row_iff`), so it need not be computed
again.

Of the 69 rows five transfer control (`Row.filter_standard_transfers`).
Their mnemonics occur once each, so an opcode has one of the five
mnemonics exactly if it has the fixed bits of that row
(`mnemonic_eq_kind_iff`, `mnemonic_eq_return_iff`,
`mnemonic_eq_endOfMacro_iff`).
-/

namespace Microcode

/-! ## Acceptance -/

namespace Disassembler

instance (rows : List Row) :
    Decidable (∃ t, EncodingTable.ofRows rows = .ok t ∧ t.Exclusive) :=
  match h : EncodingTable.ofRows rows with
  | .ok t => decidable_of_iff t.Exclusive (by simp)
  | .error _ => isFalse (by simp)

instance (rows : List Row) : Decidable (∃ d, ofRows rows = .ok d) :=
  decidable_of_iff _ exists_ofRows_iff_exclusive.symm

/-- A row may be replaced by another that is read and claims the same. -/
theorem exists_ofRows_of_claims_iff {before after : List Row} {row row' : Row}
    (hclaims : ∀ w, row'.Claims w ↔ row.Claims w) (hread : ∃ e, Encoding.ofRow row' = .ok e)
    (h : ∃ d, ofRows (before ++ row :: after) = .ok d) :
    ∃ d, ofRows (before ++ row' :: after) = .ok d := by
  -- at the front the row is never the second of a pair
  have hfront : ∃ d, ofRows (row :: (before ++ after)) = .ok d :=
    exists_ofRows_of_subperm List.perm_middle.symm.subperm h
  obtain ⟨hreads, hdis⟩ := exists_ofRows_iff_disjoint.mp hfront
  rw [List.forall_mem_cons] at hreads
  rw [List.pairwise_cons] at hdis
  refine exists_ofRows_of_subperm List.perm_middle.subperm (exists_ofRows_iff_disjoint.mpr ⟨?_, ?_⟩)
  · exact List.forall_mem_cons.mpr ⟨hread, hreads.2⟩
  · refine List.pairwise_cons.mpr ⟨fun other hother w hclaim => ?_, hdis.2⟩
    exact hdis.1 other hother w ((hclaims w).mp hclaim)

end Disassembler

namespace Resolution

/-- The two instructions have the same fixed bits. What one of them
ignores are the operands of the other. -/
def pattern : Resolution → Pattern
  | .setTraceFault => { constMask := 0xF9F0, constBits := 0xF0B0, dontCareMask := 0x060F }
  | .accessDestination =>
      { constMask := 0xF9F0, constBits := 0xF0B0
        fields := [⟨'V', 0, 3⟩, ⟨'W', 3, 1⟩, ⟨'J', 9, 2⟩] }

theorem ofText_row (resolution : Resolution) :
    Pattern.ofText resolution.row.pattern = .ok resolution.pattern := by
  cases resolution <;> rfl

theorem claims_row_iff (resolution : Resolution) (w : Word) :
    resolution.row.Claims w ↔ w &&& 0xF9F0 = 0xF0B0 := by
  rw [← Pattern.claims_iff_of_ofText resolution.ofText_row]
  cases resolution <;> exact Iff.rfl

end Resolution

theorem exists_ofRows_setTraceFault :
    ∃ d, Disassembler.ofRows (Row.standard .setTraceFault) = .ok d := by decide +kernel

theorem exists_ofRows_standard (resolution : Resolution) :
    ∃ d, Disassembler.ofRows (Row.standard resolution) = .ok d := by
  cases resolution with
  | setTraceFault => exact exists_ofRows_setTraceFault
  | accessDestination =>
      refine Disassembler.exists_ofRows_of_claims_iff (fun w => ?_) ⟨_, rfl⟩
        exists_ofRows_setTraceFault
      rw [Resolution.claims_row_iff, Resolution.claims_row_iff]

/-! ## Rows that transfer control -/

namespace Field

/-- The operand that holds the address a transfer goes to. -/
def address : Field := ⟨'A', 0, 12⟩

/-- The field of the operand is the mask of the target. -/
theorem extract_address (w : Word) : address.extract w = w.target := by
  have hmask : address.mask = Word.addressMask := by decide
  rw [extract, hmask]
  exact BitVec.ushiftRight_zero _

theorem operand?_address (mnemonic : String) (v : Word) :
    address.operand? mnemonic v = some ("A=0x" ++ Hex.text 3 v.toNat) := by
  have hlabel : String.singleton address.letter ++ "=" ++ "0x" = "A=0x" := by decide
  rw [operand?, hlabel]
  rfl

end Field

namespace RefKind

/-- The lowest opcode of the kind: it goes to address zero. -/
def base : RefKind → Word
  | .call => 0xE000
  | .branch => 0xC000
  | .conditional => 0xD000

def row (k : RefKind) : Row where
  pattern := match k with
    | .call => "1110 AAAA AAAA AAAA"
    | .branch => "1100 AAAA AAAA AAAA"
    | .conditional => "1101 AAAA AAAA AAAA"
  cycles := "1"
  mnemonic := k.mnemonic

/-- The kind in the highest four bits, the address in all others. -/
def pattern (k : RefKind) : Pattern where
  constMask := 0xF000
  constBits := k.base
  fields := [.address]

theorem ofText_row (k : RefKind) : Pattern.ofText k.row.pattern = .ok k.pattern := by
  cases k <;> rfl

end RefKind

namespace Row

def returnFromMicrosubroutine : Row :=
  ⟨"1111 0XX0 1010 XXXX", "1", Mnemonic.returnFromMicrosubroutine⟩

def endOfMacroInstruction : Row :=
  ⟨"1111 1SS0 0111 XXXX", "1", Mnemonic.endOfMacroInstruction⟩

/-- The rows of the standard tables that transfer control, in order. -/
def transfers : List Row :=
  [RefKind.branch.row, RefKind.conditional.row, RefKind.call.row, returnFromMicrosubroutine,
    endOfMacroInstruction]

theorem filter_standard_transfers (resolution : Resolution) :
    (standard resolution).filter (fun row => Transfer.classify row.mnemonic 0 ≠ .sequential) =
      transfers := by
  cases resolution <;> decide +kernel

theorem mem_transfers_iff (resolution : Resolution) {row : Row} :
    row ∈ transfers ↔
      row ∈ standard resolution ∧ Transfer.classify row.mnemonic 0 ≠ .sequential := by
  rw [← filter_standard_transfers resolution, List.mem_filter, decide_eq_true_eq]

theorem eq_of_mem_transfers :
    ∀ row ∈ transfers, ∀ row' ∈ transfers, row'.mnemonic = row.mnemonic → row' = row := by
  decide

end Row

/-! ## Opcodes that transfer control -/

namespace Disassembler

variable {resolution : Resolution} {d : Disassembler} (h : Built (Row.standard resolution) d)

include h

theorem mnemonic_eq_iff_claims {row : Row} (hrow : row ∈ Row.transfers) {w : Word} :
    (d.disassemble w).mnemonic = row.mnemonic ↔ row.Claims w := by
  have hne : ∀ row ∈ Row.transfers, row.mnemonic ≠ Mnemonic.unknown := by decide
  obtain ⟨hmem, htransfer⟩ := (Row.mem_transfers_iff resolution).mp hrow
  rw [h.mnemonic_eq_iff (hne row hrow)]
  constructor
  · rintro ⟨row', hmem', hmnemonic, hclaim⟩
    have hrow' : row' ∈ Row.transfers := by
      rw [← hmnemonic] at htransfer
      exact (Row.mem_transfers_iff resolution).mpr ⟨hmem', htransfer⟩
    obtain rfl := Row.eq_of_mem_transfers row hrow row' hrow' hmnemonic
    exact hclaim
  · exact fun hclaim => ⟨row, hmem, rfl, hclaim⟩

theorem mnemonic_eq_kind_iff {k : RefKind} {w : Word} :
    (d.disassemble w).mnemonic = k.mnemonic ↔ w &&& 0xF000 = k.base := by
  have hrow : k.row ∈ Row.transfers := by cases k <;> decide
  refine (mnemonic_eq_iff_claims h hrow).trans ?_
  exact (Pattern.claims_iff_of_ofText k.ofText_row).symm

theorem mnemonic_eq_return_iff {w : Word} :
    (d.disassemble w).mnemonic = Mnemonic.returnFromMicrosubroutine ↔
      w &&& 0xF9F0 = 0xF0A0 := by
  have hrow : Row.returnFromMicrosubroutine ∈ Row.transfers := by decide
  have htext : Pattern.ofText Row.returnFromMicrosubroutine.pattern = .ok
      { constMask := 0xF9F0, constBits := 0xF0A0, dontCareMask := 0x060F } := rfl
  exact (mnemonic_eq_iff_claims h hrow).trans (Pattern.claims_iff_of_ofText htext).symm

theorem mnemonic_eq_endOfMacro_iff {w : Word} :
    (d.disassemble w).mnemonic = Mnemonic.endOfMacroInstruction ↔
      w &&& 0xF9F0 = 0xF870 := by
  have hrow : Row.endOfMacroInstruction ∈ Row.transfers := by decide
  have htext : Pattern.ofText Row.endOfMacroInstruction.pattern = .ok
      { constMask := 0xF9F0, constBits := 0xF870, dontCareMask := 0x000F
        fields := [⟨'S', 9, 2⟩] } := rfl
  exact (mnemonic_eq_iff_claims h hrow).trans (Pattern.claims_iff_of_ofText htext).symm

theorem operands_of_kind {k : RefKind} {w : Word} (hw : w &&& 0xF000 = k.base) :
    (d.disassemble w).operands = ["A=0x" ++ Hex.text 3 w.target.toNat] := by
  have hrow : k.row ∈ Row.standard resolution := by
    have htransfer : k.row ∈ Row.transfers := by cases k <;> decide
    exact ((Row.mem_transfers_iff resolution).mp htransfer).1
  have hclaim : k.row.Claims w := (Pattern.claims_iff_of_ofText k.ofText_row).mp hw
  obtain ⟨-, hoperands⟩ := h.disassemble_of_ofText k.ofText_row hrow hclaim
  refine List.map_injective_iff.mpr (Option.some_injective _) ?_
  calc (d.disassemble w).operands.map some
      = [Field.address.operand? k.mnemonic (Field.address.extract w)] := hoperands
    _ = [some ("A=0x" ++ Hex.text 3 w.target.toNat)] := by
        rw [Field.extract_address, Field.operand?_address]

end Disassembler

end Microcode
