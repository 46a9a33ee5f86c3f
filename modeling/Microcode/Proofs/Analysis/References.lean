import Microcode.Analysis
import Microcode.Proofs.References.Recording

/-!
# References of an analysed store

The references of an analysis are those of the whole store: they are all
recorded before the first address is listed, so the flags of an address
tell of the transfers behind it as well as of those before. Here this is
said of the words of the store (`ControlStore.Refers`), by way of the
list of the decoded words.
-/

namespace Microcode

namespace ControlStore

/-- The word at `source` is a transfer of kind `k` to `target`. -/
def Refers (s : ControlStore) (d : Disassembler) (k : RefKind) (source target : Word) : Prop :=
  ∃ w, s.word? source.toNat = some w ∧ (d.disassemble w).mnemonic = k.mnemonic ∧
    w &&& 0x0FFF = target

variable {s : ControlStore} {d : Disassembler}

theorem exists_word? (s : ControlStore) {a : Nat} (ha : a < storeSize) :
    ∃ w, s.word? a = some w :=
  ⟨s.words[a], Vector.getElem?_eq_getElem ha⟩

theorem lt_of_word? {a : Nat} {w : Word} (h : s.word? a = some w) : a < storeSize := by
  obtain ⟨ha, -⟩ := Vector.getElem?_eq_some_iff.mp h
  exact ha

theorem toNat_ofNat_of_word? {a : Nat} {w : Word} (h : s.word? a = some w) :
    (BitVec.ofNat 16 a).toNat = a :=
  Nat.mod_eq_of_lt (Nat.lt_of_lt_of_le (lt_of_word? h) (by decide))

theorem length_decode : (s.decode d).length = storeSize := by
  rw [decode, List.length_map, List.length_zipIdx, Vector.length_toList]

theorem getElem?_decode (a : Nat) :
    (s.decode d)[a]? =
      (s.word? a).map fun w => ⟨BitVec.ofNat 16 a, w, d.disassemble w⟩ := by
  rw [decode, List.getElem?_map, List.getElem?_zipIdx, Vector.getElem?_toList, word?,
    Nat.zero_add, Option.map_map]
  rfl

/-- The address of a decoded word is its place in the store. -/
theorem mem_decode {e : Decoded} :
    e ∈ s.decode d ↔
      s.word? e.address.toNat = some e.word ∧ e.instruction = d.disassemble e.word := by
  rw [List.mem_iff_getElem?]
  constructor
  · rintro ⟨a, ha⟩
    rw [getElem?_decode, Option.map_eq_some_iff] at ha
    obtain ⟨w, hw, rfl⟩ := ha
    exact ⟨by rw [toNat_ofNat_of_word? hw, hw], rfl⟩
  · rintro ⟨hw, hinstr⟩
    refine ⟨e.address.toNat, ?_⟩
    rw [getElem?_decode, hw, Option.map_some, BitVec.ofNat_toNat, BitVec.setWidth_eq, ← hinstr]

theorem Refers.target_lt {k : RefKind} {source target : Word} (h : s.Refers d k source target) :
    target.toNat < storeSize := by
  obtain ⟨w, -, -, rfl⟩ := h
  rw [BitVec.toNat_and]
  exact Nat.lt_of_le_of_lt Nat.and_le_right (by decide)

theorem refers_iff {k : RefKind} {source target : Word} :
    s.Refers d k source target ↔
      ∃ e ∈ s.decode d, e.address = source ∧ e.transfer = k.transfer target := by
  constructor
  · rintro ⟨w, hw, hmnemonic, htarget⟩
    refine ⟨⟨source, w, d.disassemble w⟩, mem_decode.mpr ⟨hw, rfl⟩, rfl, ?_⟩
    exact Transfer.classify_eq_transfer_iff.mpr ⟨hmnemonic, htarget⟩
  · rintro ⟨e, he, rfl, htransfer⟩
    obtain ⟨hw, hinstr⟩ := mem_decode.mp he
    obtain ⟨hmnemonic, htarget⟩ := Transfer.classify_eq_transfer_iff.mp htransfer
    rw [hinstr] at hmnemonic
    exact ⟨e.word, hw, hmnemonic, htarget⟩

end ControlStore

namespace Analysis

theorem references_ofDecoded (decoded : List Decoded) :
    (ofDecoded decoded).references =
      References.recordAll {} (decoded.map fun e => (e.address, e.transfer)) := by
  rw [References.recordAll, List.foldl_map]
  rfl

theorem noneEmpty_ofDecoded (decoded : List Decoded) (k : RefKind) :
    ((ofDecoded decoded).references.sources k).NoneEmpty := by
  rw [references_ofDecoded]
  exact References.noneEmpty_recorded _ k

/-- What is recorded is what the decoded words do. -/
theorem has_ofDecoded {decoded : List Decoded} {k : RefKind} {t a : Word} :
    ((ofDecoded decoded).references.sources k).Has t a ↔
      ∃ e ∈ decoded, e.address = a ∧ e.transfer = k.transfer t := by
  rw [references_ofDecoded, References.has_recorded, List.mem_map]
  simp only [Prod.ext_iff]

theorem getElem?_entries_ofStore (d : Disassembler) (s : ControlStore) (a : Nat) :
    (ofStore d s).entries[a]? = (s.word? a).map fun w =>
      { address := BitVec.ofNat 16 a
        word := w
        flags := (ofStore d s).references.flags (BitVec.ofNat 16 a)
        instruction := d.disassemble w
        boundary := (ofStore d s).boundaries.contains (BitVec.ofNat 16 a) } := by
  rw [ofStore, ofDecoded, List.getElem?_map, ControlStore.getElem?_decode, Option.map_map]
  rfl

variable {d : Disassembler} {s : ControlStore} {k : RefKind}

theorem has_ofStore {t a : Word} :
    ((ofStore d s).references.sources k).Has t a ↔ s.Refers d k a t :=
  has_ofDecoded.trans ControlStore.refers_iff.symm

/-- An address is flagged for a kind exactly if a transfer of the kind
goes there, from wherever in the store. -/
theorem has_flags_ofStore {a : Word} :
    ((ofStore d s).references.flags a).has k ↔ ∃ source, s.Refers d k source a := by
  rw [References.has_flags, ofStore, (noneEmpty_ofDecoded (s.decode d) k).mem_iff]
  exact exists_congr fun source => has_ofStore

theorem flags_of_mem_entries {e : ListedWord} (he : e ∈ (ofStore d s).entries) :
    e.flags = (ofStore d s).references.flags e.address := by
  obtain ⟨a, ha⟩ := List.mem_iff_getElem?.mp he
  rw [getElem?_entries_ofStore, Option.map_eq_some_iff] at ha
  obtain ⟨w, -, rfl⟩ := ha
  rfl

theorem word?_of_mem_entries {e : ListedWord} (he : e ∈ (ofStore d s).entries) :
    s.word? e.address.toNat = some e.word ∧ e.instruction = d.disassemble e.word := by
  obtain ⟨a, ha⟩ := List.mem_iff_getElem?.mp he
  rw [getElem?_entries_ofStore, Option.map_eq_some_iff] at ha
  obtain ⟨w, hw, rfl⟩ := ha
  refine ⟨?_, rfl⟩
  show s.word? (BitVec.ofNat 16 a).toNat = some w
  rw [ControlStore.toNat_ofNat_of_word? hw, hw]

theorem length_entries_ofStore (d : Disassembler) (s : ControlStore) :
    (ofStore d s).entries.length = storeSize := by
  show ((s.decode d).map _).length = storeSize
  rw [List.length_map, ControlStore.length_decode]

theorem exists_getElem?_entries (d : Disassembler) (s : ControlStore) {a : Nat}
    (h : a < storeSize) :
    ∃ e, (ofStore d s).entries[a]? = some e ∧ e.address.toNat = a := by
  obtain ⟨w, hw⟩ := s.exists_word? h
  have hentry := getElem?_entries_ofStore d s a
  rw [hw, Option.map_some] at hentry
  exact ⟨_, hentry, ControlStore.toNat_ofNat_of_word? hw⟩

/-- The entries list the words of the store. -/
theorem map_word_entries_ofStore (d : Disassembler) (s : ControlStore) :
    (ofStore d s).entries.map ListedWord.word = s.words.toList := by
  refine List.ext_getElem? fun a => ?_
  rw [List.getElem?_map, getElem?_entries_ofStore, Option.map_map, Vector.getElem?_toList,
    ControlStore.word?]
  exact Option.map_id'

theorem exists_entry (d : Disassembler) (s : ControlStore) {address : Word}
    (h : address.toNat < storeSize) : ∃ e ∈ (ofStore d s).entries, e.address = address := by
  obtain ⟨e, he, hnat⟩ := exists_getElem?_entries d s h
  exact ⟨e, List.mem_of_getElem? he, BitVec.eq_of_toNat_eq hnat⟩

/-- The maps hold the transfers of the store and nothing else, and no
target without a source. Every address is listed in its place with its
word, its instruction, and a flag for each kind of transfer that goes
there. The targets are the addresses with a flag. -/
theorem ofStore_references (d : Disassembler) (s : ControlStore) :
    let r := ofStore d s
    (∀ k t a, (r.references.sources k).Has t a ↔ s.Refers d k a t) ∧
      (∀ k, (r.references.sources k).NoneEmpty) ∧
      r.entries.length = storeSize ∧
      (∀ a < storeSize, ∃ w e, s.word? a = some w ∧ r.entries[a]? = some e ∧
        e.address.toNat = a ∧ e.word = w ∧ e.instruction = d.disassemble w ∧
        ∀ k, e.flags.has k ↔ ∃ source, s.Refers d k source e.address) ∧
      (∀ a, a ∈ r.references.targets ↔ r.references.flags a ≠ {}) ∧
      (∀ a, a ∈ r.references.targets ↔ ∃ e ∈ r.entries, e.address = a ∧ e.flags ≠ {}) := by
  intro r
  refine ⟨fun k t a => has_ofStore, noneEmpty_ofDecoded _, ?_, ?_,
    fun a => References.mem_targets, ?_⟩
  · show ((s.decode d).map _).length = storeSize
    rw [List.length_map, ControlStore.length_decode]
  · intro a ha
    obtain ⟨w, hw⟩ := s.exists_word? ha
    have hentry := getElem?_entries_ofStore d s a
    rw [hw, Option.map_some] at hentry
    have hnat : (BitVec.ofNat 16 a).toNat = a :=
      Nat.mod_eq_of_lt (Nat.lt_of_lt_of_le ha (by decide))
    exact ⟨w, _, hw, hentry, hnat, rfl, rfl, fun k => has_flags_ofStore⟩
  · intro a
    rw [References.mem_targets]
    constructor
    · intro hne
      obtain ⟨k, hk⟩ := RefFlags.ne_empty_iff.mp hne
      obtain ⟨source, href⟩ := has_flags_ofStore.mp hk
      obtain ⟨e, he, rfl⟩ := exists_entry d s href.target_lt
      exact ⟨e, he, rfl, by rwa [flags_of_mem_entries he]⟩
    · rintro ⟨e, he, rfl, hne⟩
      rwa [flags_of_mem_entries he] at hne

end Analysis

end Microcode
