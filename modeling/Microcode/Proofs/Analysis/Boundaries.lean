import Microcode.Proofs.Analysis.References

/-!
# Block ends of an analysed store

Whether a block ends at an address depends on two mnemonics: that of the
word there, which may end its block at once, and that of the word before
it, which may end its block one instruction late
(`ControlStore.EndsBlock`). A word causes one block end at most
(`Transfer.boundary?_classify_eq_some_iff`), and an analysis gathers the
ones within the store. The block end of a branch or return in the last
word would lie beyond it.
-/

namespace Microcode

namespace Transfer

/-- The mnemonics of the transfers that end a block after the next
instruction. -/
def IsDelayed (mnemonic : String) : Prop :=
  mnemonic = Mnemonic.branch ∨ mnemonic = Mnemonic.returnFromMicrosubroutine

instance : DecidablePred IsDelayed :=
  fun mnemonic => inferInstanceAs
    (Decidable (mnemonic = Mnemonic.branch ∨ mnemonic = Mnemonic.returnFromMicrosubroutine))

/-- A mnemonic is delayed, ends the block at once or does not end it. -/
theorem boundary?_classify (mnemonic : String) (w address : Word) :
    (classify mnemonic w).boundary? address =
      if IsDelayed mnemonic then
        if address = BitVec.allOnes 16 then none else some (address + 1)
      else if mnemonic = Mnemonic.endOfMacroInstruction then some address
      else none := by
  unfold classify
  split
  next hcall =>
    obtain rfl := hcall
    rfl
  split
  next hbranch =>
    obtain rfl := hbranch
    rfl
  next hbranch =>
    split
    next hconditional =>
      obtain rfl := hconditional
      rfl
    split
    next hreturn =>
      obtain rfl := hreturn
      rfl
    next hreturn =>
      have hdelayed : ¬ IsDelayed mnemonic := fun h => h.elim hbranch hreturn
      rw [if_neg hdelayed]
      split <;> rfl

theorem boundary?_classify_eq_some_iff {mnemonic : String} {w address b : Word} :
    (classify mnemonic w).boundary? address = some b ↔
      mnemonic = Mnemonic.endOfMacroInstruction ∧ address = b ∨
        IsDelayed mnemonic ∧ address ≠ BitVec.allOnes 16 ∧ address + 1 = b := by
  rw [boundary?_classify]
  split
  next hdelayed =>
    have hatOnce : mnemonic ≠ Mnemonic.endOfMacroInstruction := by
      rintro rfl
      exact absurd hdelayed (by decide)
    simp [hatOnce, hdelayed]
  next hdelayed => simp [hdelayed]

end Transfer

namespace ControlStore

/-- The mnemonic of the word at an address of the store. -/
def mnemonic? (s : ControlStore) (d : Disassembler) (a : Nat) : Option String :=
  (s.word? a).map fun w => (d.disassemble w).mnemonic

/-- The word at `a` ends its block, or the word before it does so with a
delay. -/
def EndsBlock (s : ControlStore) (d : Disassembler) (a : Nat) : Prop :=
  s.mnemonic? d a = some Mnemonic.endOfMacroInstruction ∨
    1 ≤ a ∧ (s.mnemonic? d (a - 1) = some Mnemonic.branch ∨
      s.mnemonic? d (a - 1) = some Mnemonic.returnFromMicrosubroutine)

variable {s : ControlStore} {d : Disassembler}

theorem mnemonic?_of_mem_decode {e : Decoded} (he : e ∈ s.decode d) :
    s.mnemonic? d e.address.toNat = some e.instruction.mnemonic := by
  obtain ⟨hw, hinstr⟩ := mem_decode.mp he
  rw [mnemonic?, hw, hinstr, Option.map_some]

theorem exists_mem_decode_of_mnemonic? {a : Nat} {mnemonic : String}
    (h : s.mnemonic? d a = some mnemonic) :
    ∃ e ∈ s.decode d, e.address.toNat = a ∧ e.instruction.mnemonic = mnemonic := by
  obtain ⟨w, hw, rfl⟩ := Option.map_eq_some_iff.mp h
  have hnat := toNat_ofNat_of_word? hw
  refine ⟨⟨BitVec.ofNat 16 a, w, d.disassemble w⟩, mem_decode.mpr ⟨?_, rfl⟩, hnat, rfl⟩
  rw [hnat, hw]

theorem address_lt_of_mem_decode {e : Decoded} (he : e ∈ s.decode d) :
    e.address.toNat < storeSize := lt_of_word? (mem_decode.mp he).1

end ControlStore

/-! ## The block end that one word causes -/

namespace Decoded

variable {s : ControlStore} {d : Disassembler} {e : Decoded}

/-- The addresses of the store lie well below the highest word, so the
one after an address of the store is the next number. -/
theorem address_ne_allOnes (he : e ∈ s.decode d) : e.address ≠ BitVec.allOnes 16 := by
  intro h
  have hlt := ControlStore.address_lt_of_mem_decode he
  rw [h] at hlt
  exact absurd hlt (by decide)

theorem toNat_address_add_one (he : e ∈ s.decode d) :
    (e.address + 1).toNat = e.address.toNat + 1 := by
  have hlt : e.address.toNat < 4096 := ControlStore.address_lt_of_mem_decode he
  rw [BitVec.toNat_add]
  exact Nat.mod_eq_of_lt (by simp; omega)

theorem boundary?_eq_some_iff (he : e ∈ s.decode d) {b : Word} :
    e.boundary? = some b ↔
      e.instruction.mnemonic = Mnemonic.endOfMacroInstruction ∧ e.address = b ∨
        Transfer.IsDelayed e.instruction.mnemonic ∧ e.address + 1 = b ∧ b.toNat < storeSize := by
  have hlt := ControlStore.address_lt_of_mem_decode he
  rw [boundary?, transfer, Option.filter_eq_some_iff, Transfer.boundary?_classify_eq_some_iff,
    decide_eq_true_eq, and_iff_right (address_ne_allOnes he)]
  constructor
  · rintro ⟨⟨hatOnce, rfl⟩ | ⟨hdelayed, rfl⟩, hb⟩
    · exact .inl ⟨hatOnce, rfl⟩
    · exact .inr ⟨hdelayed, rfl, hb⟩
  · rintro (⟨hatOnce, rfl⟩ | ⟨hdelayed, rfl, hb⟩)
    · exact ⟨.inl ⟨hatOnce, rfl⟩, hlt⟩
    · exact ⟨.inr ⟨hdelayed, rfl⟩, hb⟩

theorem boundary?_eq_none (he : e ∈ s.decode d)
    (hatOnce : e.instruction.mnemonic ≠ Mnemonic.endOfMacroInstruction)
    (hdelayed : Transfer.IsDelayed e.instruction.mnemonic →
      e.address.toNat = storeSize - 1) : e.boundary? = none := by
  rw [Option.eq_none_iff_forall_ne_some]
  intro b hb
  rcases (boundary?_eq_some_iff he).mp hb with ⟨heq, -⟩ | ⟨hdel, rfl, hlt⟩
  · exact hatOnce heq
  · rw [toNat_address_add_one he, hdelayed hdel] at hlt
    exact absurd hlt (by decide)

end Decoded

/-! ## The block ends of the store -/

theorem AddressSet.count_toList (addresses : AddressSet) (a : Word) :
    addresses.toList.count a = if a ∈ addresses then 1 else 0 := by
  have hnodup : addresses.toList.Nodup :=
    Std.ExtTreeSet.distinct_toList.imp fun hne heq => hne (Std.compare_eq_iff_eq.mpr heq)
  rw [hnodup.count]
  exact if_congr Std.ExtTreeSet.mem_toList rfl rfl

namespace Analysis

theorem mem_boundaries_ofDecoded {decoded : List Decoded} {b : Word} :
    b ∈ (ofDecoded decoded).boundaries ↔ ∃ e ∈ decoded, e.boundary? = some b := by
  rw [ofDecoded, Std.ExtTreeSet.mem_ofList, List.contains_iff_mem, List.mem_filterMap]

variable {d : Disassembler} {s : ControlStore}

theorem mem_boundaries_ofStore {b : Word} :
    b ∈ (ofStore d s).boundaries ↔ b.toNat < storeSize ∧ s.EndsBlock d b.toNat := by
  rw [ofStore, mem_boundaries_ofDecoded]
  constructor
  · rintro ⟨e, he, hb⟩
    have hmnemonic := ControlStore.mnemonic?_of_mem_decode he
    rcases (Decoded.boundary?_eq_some_iff he).mp hb with ⟨hatOnce, rfl⟩ | ⟨hdelayed, rfl, hlt⟩
    · rw [hatOnce] at hmnemonic
      exact ⟨ControlStore.address_lt_of_mem_decode he, .inl hmnemonic⟩
    · refine ⟨hlt, .inr ?_⟩
      rw [Decoded.toNat_address_add_one he, Nat.add_sub_cancel, hmnemonic]
      exact ⟨Nat.le_add_left 1 _, hdelayed.imp (congrArg some) (congrArg some)⟩
  -- the word that causes the end is the one at `b` or the one before it
  · rintro ⟨hlt, hatOnce | ⟨hpos, hdelayed⟩⟩
    · obtain ⟨e, he, haddress, hmnemonic⟩ := ControlStore.exists_mem_decode_of_mnemonic? hatOnce
      refine ⟨e, he, (Decoded.boundary?_eq_some_iff he).mpr (.inl ⟨hmnemonic, ?_⟩)⟩
      exact BitVec.eq_of_toNat_eq haddress
    · obtain ⟨mnemonic, hmnemonic⟩ : ∃ mnemonic, s.mnemonic? d (b.toNat - 1) = some mnemonic :=
        hdelayed.elim (fun h => ⟨_, h⟩) fun h => ⟨_, h⟩
      obtain ⟨e, he, haddress, rfl⟩ := ControlStore.exists_mem_decode_of_mnemonic? hmnemonic
      rw [hmnemonic] at hdelayed
      refine ⟨e, he, (Decoded.boundary?_eq_some_iff he).mpr (.inr ⟨?_, ?_, hlt⟩)⟩
      · exact hdelayed.imp Option.some.inj Option.some.inj
      · refine BitVec.eq_of_toNat_eq ?_
        rw [Decoded.toNat_address_add_one he, haddress]
        omega

/-- A block ends at an address of the store exactly if its word ends a
macro instruction or the word before it is a branch or a return, and the
address is then listed so. The set of block ends is made of what each word
causes: nothing for a branch or return in the last word, nothing for a
conditional branch or a call, and one member where two words cause the
same. -/
theorem ofStore_boundaries (d : Disassembler) (s : ControlStore) :
    let r := ofStore d s
    (∀ b : Word, b ∈ r.boundaries ↔ b.toNat < storeSize ∧ s.EndsBlock d b.toNat) ∧
      (∀ a < storeSize, ∃ e, r.entries[a]? = some e ∧
        (e.boundary = true ↔ BitVec.ofNat 16 a ∈ r.boundaries)) ∧
      (∀ b : Word, b ∈ r.boundaries ↔ ∃ e ∈ s.decode d, e.boundary? = some b) ∧
      (∀ e ∈ s.decode d, e.address.toNat = storeSize - 1 →
        e.instruction.mnemonic = Mnemonic.branch ∨
          e.instruction.mnemonic = Mnemonic.returnFromMicrosubroutine →
        e.boundary? = none) ∧
      (∀ e ∈ s.decode d, e.instruction.mnemonic = Mnemonic.conditionalBranch ∨
          e.instruction.mnemonic = Mnemonic.callMicrosubroutine →
        e.boundary? = none) ∧
      (∀ b : Word, r.boundaries.toList.count b = if b ∈ r.boundaries then 1 else 0) := by
  intro r
  refine ⟨fun b => mem_boundaries_ofStore, ?_, fun b => mem_boundaries_ofDecoded, ?_, ?_, ?_⟩
  · intro a ha
    obtain ⟨w, hw⟩ := s.exists_word? ha
    have hentry := getElem?_entries_ofStore d s a
    rw [hw, Option.map_some] at hentry
    refine ⟨_, hentry, ?_⟩
    rw [← Std.ExtTreeSet.contains_iff_mem]
  · intro e he hlast hdelayed
    refine Decoded.boundary?_eq_none he (fun hatOnce => ?_) fun _ => hlast
    rw [hatOnce] at hdelayed
    exact absurd hdelayed (by decide)
  · intro e he hkind
    refine Decoded.boundary?_eq_none he (fun hatOnce => ?_) fun hdelayed => ?_
    · rw [hatOnce] at hkind
      exact absurd hkind (by decide)
    · rcases hkind with hkind | hkind <;> rw [hkind] at hdelayed <;>
        exact absurd hdelayed (by decide)
  · exact AddressSet.count_toList r.boundaries

end Analysis

end Microcode
