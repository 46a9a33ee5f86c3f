import Microcode.Proofs.Disassembler.Building
import Microcode.Proofs.OpcodeMap.Conflict
import Microcode.Proofs.Pattern.Count

/-!
# How many opcodes have an owner

An accepted call gives an owner to the opcodes that its pattern claims, none
of which had one (`populated_claim`). So after a run there are as many
opcodes with an owner as the accepted patterns claim, counted one by one
(`populated_run`), and in the map of a table as many as its encodings agree
with.
-/

namespace Microcode

namespace OpcodeMap

variable {m : OpcodeMap}

theorem populated_empty : (∅ : OpcodeMap).populated = 0 := by
  refine List.countP_eq_zero.mpr fun w _ => ?_
  rw [isSome_owner?_iff, owner?_empty]
  exact Bool.false_ne_true

/-- The step: what an admitted pattern claims had no owner before. -/
theorem populated_claim {c : Call} (hadm : m.Admits c.2) :
    (m.claim c.1 c.2).populated = m.populated + c.2.opcodes.length := by
  have howner : ∀ w ∈ Word.all, ((m.claim c.1 c.2).owner? w).isSome ↔
      (m.owner? w).isSome ∨ c.2.Claims w := by
    intro w _
    rw [isSome_owner?_iff, isSome_owner?_iff, owner?_claim]
    split <;> simp [*]
  have hapart : ∀ w ∈ Word.all, (m.owner? w).isSome → ¬ c.2.Claims w := by
    intro w _ hsome hclaim
    rw [isSome_owner?_iff, hadm.2 w hclaim] at hsome
    cases hsome
  calc (m.claim c.1 c.2).populated
      = Word.all.countP fun w => (m.owner? w).isSome ∨ c.2.Claims w := by
        refine List.countP_congr fun w hw => ?_
        rw [decide_eq_true_eq]
        exact howner w hw
    _ = m.populated + c.2.opcodes.length := by
        rw [countP_or hapart, Pattern.length_opcodes_eq_countP, populated]
        simp only [Bool.decide_eq_true]

theorem populated_run (m : OpcodeMap) (calls : List Call) :
    (m.run calls).populated =
      m.populated + ((m.accepted calls).map fun c => c.2.opcodes.length).sum := by
  induction m, calls using run_induction with
  | nil m => exact (Nat.add_zero m.populated).symm
  | admitted m c rest hadm ih =>
      rw [run_cons_of_admits hadm, accepted_cons_of_admits hadm, ih, populated_claim hadm,
        List.map_cons, List.sum_cons, Nat.add_assoc]
  | refused m c rest hadm ih =>
      rw [run_cons_of_not_admits hadm, accepted_cons_of_not_admits hadm, ih]

theorem populated_le (m : OpcodeMap) : m.populated ≤ opcodeCount := by
  rw [populated, ← Word.length_all]
  exact List.countP_le_length

/-- The sizes of the patterns of a table that has a map. -/
theorem populated_ofTable {t : EncodingTable}
    (hcons : ∀ e ∈ t.encodings.toList, e.pattern.Consistent) (h : ofTable t = .ok m) :
    m.populated = (t.encodings.toList.map fun e => e.pattern.encodingCount).sum := by
  obtain ⟨hall, rfl⟩ := ofTable_eq_ok_iff.mp h
  rw [populated_run, populated_empty, hall, Nat.zero_add, EncodingTable.calls, List.map_map]
  refine congrArg List.sum (List.map_congr_left fun e he => ?_)
  exact (Pattern.length_opcodes e.pattern).trans (if_pos (hcons e he))

/-- After any calls there are as many opcodes with an owner as the sizes of
the accepted patterns add up to. The size of a pattern is two to the power
of the number of bits that it does not fix; a pattern that gives a value
for such a bit counts for nothing. In particular the sizes of all
encodings of a table that has a map add up to its population, and to no
more than the number of opcodes. -/
theorem populated_eq_sum :
    (∀ calls, (run ∅ calls).populated =
      ((accepted ∅ calls).map fun c =>
        if c.2.constBits &&& ~~~c.2.constMask = 0 then c.2.encodingCount else 0).sum) ∧
    (∀ p : Pattern,
      p.encodingCount = 2 ^ (16 - (List.range 16).countP (p.constMask.getLsbD ·))) ∧
    ∀ rows t m, EncodingTable.ofRows rows = .ok t → ofTable t = .ok m →
      m.populated = (t.encodings.toList.map fun e => e.pattern.encodingCount).sum ∧
      (t.encodings.toList.map fun e => e.pattern.encodingCount).sum ≤ opcodeCount := by
  refine ⟨fun calls => ?_, Pattern.encodingCount_eq, fun rows t m hrows hmap => ?_⟩
  · rw [populated_run, populated_empty, Nat.zero_add]
    simp only [Pattern.length_opcodes]
    rfl
  · have hsum := populated_ofTable (EncodingTable.consistent_of_ofRows hrows) hmap
    rw [← hsum]
    exact ⟨rfl, m.populated_le⟩

/-- A pattern that gives a value for a bit that it does not fix is accepted
and claims nothing. The three rows have sixteen opcodes, two and one. -/
theorem populated_eq_sum_rows :
    let calls : List Call :=
      [("Sixteen", ⟨0xFFF0, 0x0100, 0, []⟩), ("None", ⟨0xFFF0, 0x0101, 0, []⟩)]
    let rows : List Row := [⟨"0000 0001 0000 XXXX", "1", "Sixteen"⟩,
      ⟨"0000 0001 0001 000X", "1", "Two"⟩, ⟨"0000 0001 0001 0010", "1", "One"⟩]
    accepted ∅ calls = calls ∧ (run ∅ calls).populated = 16 ∧
      ∃ t m, EncodingTable.ofRows rows = .ok t ∧ ofTable t = .ok m ∧ m.populated = 19 := by
  intro calls rows
  obtain ⟨hruns, -, htables⟩ := populated_eq_sum
  have hdis : calls.Pairwise fun c d => c.2.Disjoint d.2 :=
    List.pairwise_pair.mpr fun w _ hclaim => absurd hclaim.consistent (by decide)
  have hall : accepted ∅ calls = calls := holds_empty.accepted_eq_self (by decide) hdis
  have hcount := hruns calls
  rw [hall] at hcount
  have hrows : ∃ t, EncodingTable.ofRows rows = .ok t ∧ t.Exclusive := ⟨_, rfl, by decide⟩
  obtain ⟨t, ht, hexcl⟩ := hrows
  obtain ⟨m, hm⟩ := (exists_ofTable_iff (EncodingTable.consistent_of_ofRows ht)).mpr hexcl
  obtain ⟨hsum, -⟩ := htables rows t m ht hm
  cases ht
  exact ⟨hall, hcount, _, m, rfl, hm, hsum⟩

end OpcodeMap

end Microcode
