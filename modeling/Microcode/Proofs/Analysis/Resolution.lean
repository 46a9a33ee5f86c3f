import Microcode.Proofs.Analysis.Standard

/-!
# Analyses under the two standard tables

The standard tables differ in one row. An opcode that does not have the
fixed bits of that row stands for the same under both
(`Disassembler.disassemble_eq_of_not_fixed`). One that has them stands for
two instructions (`Disassembler.disassemble_ne_iff`), of which neither
transfers control, so every opcode makes the same transfer under both
(`Disassembler.classify_eq`).

The references and the block ends of an analysis are made of the
transfers alone (`Analysis.ofDecoded_congr`). What differs between two
analyses of one store are therefore the instructions at the words with
the fixed bits.
-/

namespace Microcode

/-! ## Opcodes under the two tables -/

/-- The two tables have all rows in common but one. -/
theorem Row.mem_standard_iff {resolution resolution' : Resolution} {row : Row}
    (hne : row ≠ resolution.row) (hne' : row ≠ resolution'.row) :
    row ∈ standard resolution ↔ row ∈ standard resolution' := by
  simp [standard, hne, hne']

namespace Disassembler

variable {resolution resolution' : Resolution} {d d' : Disassembler} {w : Word}
variable (h : Built (Row.standard resolution) d) (h' : Built (Row.standard resolution') d')

include h

theorem disassemble_of_fixed (hw : w &&& 0xF9F0 = 0xF0B0) :
    (d.disassemble w).mnemonic = resolution.row.mnemonic ∧
      (d.disassemble w).operands.map some =
        resolution.pattern.fields.map fun f =>
          f.operand? resolution.row.mnemonic (f.extract w) := by
  have hrow : resolution.row ∈ Row.standard resolution :=
    List.mem_append_right _ List.mem_cons_self
  have hclaim : resolution.row.Claims w := (resolution.claims_row_iff w).mpr hw
  exact h.disassemble_of_ofText resolution.ofText_row hrow hclaim

include h'

theorem disassemble_eq_of_not_fixed (hw : w &&& 0xF9F0 ≠ 0xF0B0) :
    d.disassemble w = d'.disassemble w := by
  have hne : ∀ (resolution : Resolution) (row : Row), row.Claims w → row ≠ resolution.row := by
    rintro resolution _ hclaim rfl
    exact hw ((resolution.claims_row_iff w).mp hclaim)
  exact h.disassemble_eq_of_mem_iff h' fun row hclaim =>
    Row.mem_standard_iff (hne resolution row hclaim) (hne resolution' row hclaim)

theorem isUnknown_iff : (d.disassemble w).IsUnknown ↔ (d'.disassemble w).IsUnknown := by
  by_cases hw : w &&& 0xF9F0 = 0xF0B0
  · have hne : ∀ resolution : Resolution, resolution.row.mnemonic ≠ Mnemonic.unknown := by
      intro resolution
      cases resolution <;> decide
    obtain ⟨hmnemonic, -⟩ := disassemble_of_fixed h hw
    obtain ⟨hmnemonic', -⟩ := disassemble_of_fixed h' hw
    rw [Instruction.IsUnknown, Instruction.IsUnknown, hmnemonic, hmnemonic']
    exact iff_of_false (hne resolution) (hne resolution')
  · rw [disassemble_eq_of_not_fixed h h' hw]

/-- The row that depends on the resolution does not transfer control. -/
theorem classify_eq :
    Transfer.classify (d.disassemble w).mnemonic w =
      Transfer.classify (d'.disassemble w).mnemonic w := by
  by_cases hw : w &&& 0xF9F0 = 0xF0B0
  · have hsequential : ∀ resolution : Resolution,
        Transfer.classify resolution.row.mnemonic w = .sequential := by
      intro resolution
      cases resolution <;> rfl
    obtain ⟨hmnemonic, -⟩ := disassemble_of_fixed h hw
    obtain ⟨hmnemonic', -⟩ := disassemble_of_fixed h' hw
    rw [hmnemonic, hmnemonic', hsequential, hsequential]
  · rw [disassemble_eq_of_not_fixed h h' hw]

end Disassembler

/-- The two instructions with the fixed bits have different mnemonics. -/
theorem Disassembler.disassemble_ne_iff {d d' : Disassembler} {w : Word}
    (h : Built (Row.standard .setTraceFault) d)
    (h' : Built (Row.standard .accessDestination) d') :
    d.disassemble w ≠ d'.disassemble w ↔ w &&& 0xF9F0 = 0xF0B0 := by
  constructor
  · intro hne
    by_contra hw
    exact hne (disassemble_eq_of_not_fixed h h' hw)
  · intro hw heq
    obtain ⟨hmnemonic, -⟩ := disassemble_of_fixed h hw
    obtain ⟨hmnemonic', -⟩ := disassemble_of_fixed h' hw
    rw [heq, hmnemonic'] at hmnemonic
    exact absurd hmnemonic (by decide)

/-! ## Analyses of the same transfers -/

theorem ControlStore.map_transfer_decode (s : ControlStore) (d : Disassembler) :
    (s.decode d).map (fun e => (e.address, e.transfer)) =
      s.words.toList.zipIdx.map fun p =>
        (BitVec.ofNat 16 p.2, Transfer.classify (d.disassemble p.1).mnemonic p.1) := by
  rw [decode, List.map_map]
  rfl

namespace Analysis

theorem boundaries_ofDecoded (decoded : List Decoded) :
    (ofDecoded decoded).boundaries =
      Std.ExtTreeSet.ofList ((decoded.map fun e => (e.address, e.transfer)).filterMap fun p =>
        (p.2.boundary? p.1).filter (·.toNat < storeSize)) := by
  rw [List.filterMap_map]
  rfl

theorem ofDecoded_congr {decoded decoded' : List Decoded}
    (h : decoded.map (fun e => (e.address, e.transfer)) =
      decoded'.map fun e => (e.address, e.transfer)) :
    (ofDecoded decoded).references = (ofDecoded decoded').references ∧
      (ofDecoded decoded).boundaries = (ofDecoded decoded').boundaries := by
  rw [references_ofDecoded, references_ofDecoded, boundaries_ofDecoded, boundaries_ofDecoded, h]
  exact ⟨rfl, rfl⟩

theorem ofStore_congr_of_classify_eq {d d' : Disassembler}
    (h : ∀ w, Transfer.classify (d.disassemble w).mnemonic w =
      Transfer.classify (d'.disassemble w).mnemonic w) (s : ControlStore) :
    (ofStore d s).references = (ofStore d' s).references ∧
      (ofStore d s).boundaries = (ofStore d' s).boundaries := by
  refine ofDecoded_congr ?_
  rw [ControlStore.map_transfer_decode, ControlStore.map_transfer_decode]
  simp only [h]

/-- Which of the two instructions is kept shows at the words with their
fixed bits and nowhere else. An opcode is known under both tables or under
neither. Every store is analysed under both, with the same references, the
same block ends, and at each address the same in all but the instruction.
The instructions differ exactly if the word has the fixed bits: one is
"Set Trace Fault" without operands, and the other is "Access Destination"
with the operands V, W and J, in this order. -/
theorem standard_differs_iff (parallel parallel' : Bool) :
    (∃ d d', Disassembler.standard ⟨.setTraceFault, parallel⟩ = .ok d ∧
      Disassembler.standard ⟨.accessDestination, parallel'⟩ = .ok d' ∧
      ∀ w, (d.disassemble w).IsUnknown ↔ (d'.disassemble w).IsUnknown) ∧
    ∀ s, ∃ r r', standard ⟨.setTraceFault, parallel⟩ s = .ok r ∧
      standard ⟨.accessDestination, parallel'⟩ s = .ok r' ∧
      r.references = r'.references ∧ r.boundaries = r'.boundaries ∧
      r.entries.length = storeSize ∧ r'.entries.length = storeSize ∧
      ∀ a < storeSize, ∃ w e e', s.word? a = some w ∧ r.entries[a]? = some e ∧
        r'.entries[a]? = some e' ∧ e.address.toNat = a ∧ e.word = w ∧
        e.address = e'.address ∧ e.word = e'.word ∧ e.flags = e'.flags ∧
        e.boundary = e'.boundary ∧
        (e.instruction ≠ e'.instruction ↔ w &&& 0xF9F0 = 0xF0B0) ∧
        (w &&& 0xF9F0 = 0xF0B0 →
          e.instruction.mnemonic = "Set Trace Fault" ∧ e.instruction.operands = [] ∧
          e'.instruction.mnemonic = "Access Destination" ∧
          e'.instruction.operands.map some =
            [⟨'V', 0, 3⟩, ⟨'W', 3, 1⟩, ⟨'J', 9, 2⟩].map fun f : Field =>
              f.operand? "Access Destination" (f.extract w)) := by
  obtain ⟨d, hd⟩ : ∃ d, Disassembler.standard ⟨.setTraceFault, parallel⟩ = .ok d :=
    exists_ofRows_standard .setTraceFault
  obtain ⟨d', hd'⟩ : ∃ d', Disassembler.standard ⟨.accessDestination, parallel'⟩ = .ok d' :=
    exists_ofRows_standard .accessDestination
  have h := Disassembler.built_of_ofRows hd
  have h' := Disassembler.built_of_ofRows hd'
  refine ⟨⟨d, d', hd, hd', fun w => Disassembler.isUnknown_iff h h'⟩, fun s => ?_⟩
  obtain ⟨hreferences, hboundaries⟩ :=
    ofStore_congr_of_classify_eq (fun w => Disassembler.classify_eq h h') s
  refine ⟨ofStore d s, ofStore d' s, standard_eq_ofStore hd s, standard_eq_ofStore hd' s,
    hreferences, hboundaries, length_entries_ofStore d s, length_entries_ofStore d' s, ?_⟩
  intro a ha
  obtain ⟨w, hw⟩ := s.exists_word? ha
  have hentry := getElem?_entries_ofStore d s a
  have hentry' := getElem?_entries_ofStore d' s a
  rw [hw, Option.map_some] at hentry hentry'
  refine ⟨w, _, _, hw, hentry, hentry', ControlStore.toNat_ofNat_of_word? hw, rfl, rfl, rfl,
    by rw [hreferences], by rw [hboundaries], Disassembler.disassemble_ne_iff h h',
    fun hbits => ?_⟩
  obtain ⟨hmnemonic, hoperands⟩ := Disassembler.disassemble_of_fixed h hbits
  obtain ⟨hmnemonic', hoperands'⟩ := Disassembler.disassemble_of_fixed h' hbits
  exact ⟨hmnemonic, List.map_eq_nil_iff.mp hoperands, hmnemonic', hoperands'⟩

end Analysis

end Microcode
