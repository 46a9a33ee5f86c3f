import Microcode.Analysis
import Microcode.Proofs.Disassembler.Decoding

/-!
# Rows in another order, or fewer of them

The numbers of the encodings and the slots of the opcode map change with
the order of the rows. What an opcode stands for does not: it is told by
the one row that claims it (`Built.encoding?_eq_some_iff`), wherever that
row stands. Whether rows are accepted is likewise a matter of each row
alone and of every two of them (`exists_ofRows_iff_disjoint`), so fewer
rows in any order are accepted with them.
-/

namespace Microcode

/-! ## Rows that share no opcode -/

/-- No opcode is claimed by both rows. -/
def Row.Disjoint (row row' : Row) : Prop := ∀ w, row.Claims w → ¬ row'.Claims w

theorem Row.Disjoint.symm {row row' : Row} (h : row.Disjoint row') : row'.Disjoint row :=
  fun w hclaim hclaim' => h w hclaim' hclaim

namespace EncodingTable

variable {rows : List Row} {t : EncodingTable}

theorem map_row_of_ofRows (h : ofRows rows = .ok t) :
    t.encodings.toList.map Encoding.row = rows := by
  have heq : List.Forall₂ (fun row e => row = Encoding.row e) rows t.encodings.toList :=
    (ofRows_eq_ok_iff.mp h).imp fun row e hread => (Encoding.ofRow_eq_ok_iff.mp hread).2.symm
  rw [← List.forall₂_map_right_iff, List.forall₂_eq_eq_eq] at heq
  exact heq.symm

theorem exclusive_iff_disjoint (h : ofRows rows = .ok t) :
    t.Exclusive ↔ rows.Pairwise Row.Disjoint := by
  have hcons := consistent_of_ofRows h
  rw [← map_row_of_ofRows h, List.pairwise_map, Exclusive]
  refine List.Pairwise.iff_of_mem fun {e f} he hf => ?_
  rw [← Pattern.disjoint_iff_not_compatible (hcons e he) (hcons f hf)]
  refine forall_congr' fun w => ?_
  rw [Pattern.claims_iff_of_ofText (ofText_of_mem h he),
    Pattern.claims_iff_of_ofText (ofText_of_mem h hf)]

end EncodingTable

namespace Disassembler

/-- Rows are accepted exactly if each of them is read and no two share an
opcode. -/
theorem exists_ofRows_iff_disjoint {rows : List Row} :
    (∃ d, ofRows rows = .ok d) ↔
      (∀ row ∈ rows, ∃ e, Encoding.ofRow row = .ok e) ∧ rows.Pairwise Row.Disjoint := by
  rw [exists_ofRows_iff_exclusive, ← EncodingTable.exists_ofRows_iff]
  constructor
  · rintro ⟨t, ht, hexcl⟩
    exact ⟨⟨t, ht⟩, (EncodingTable.exclusive_iff_disjoint ht).mp hexcl⟩
  · rintro ⟨⟨t, ht⟩, hdis⟩
    exact ⟨t, ht, (EncodingTable.exclusive_iff_disjoint ht).mpr hdis⟩

theorem exists_ofRows_of_subperm {rows rows' : List Row} (hsub : rows'.Subperm rows)
    (h : ∃ d, ofRows rows = .ok d) : ∃ d, ofRows rows' = .ok d := by
  rw [exists_ofRows_iff_disjoint] at h ⊢
  obtain ⟨hread, hdis⟩ := h
  obtain ⟨kept, hperm, hkept⟩ := hsub
  refine ⟨fun row hrow => hread row (hkept.subset (hperm.symm.subset hrow)), ?_⟩
  exact (hperm.pairwise_iff Row.Disjoint.symm).mp (hdis.sublist hkept)

/-! ## The row of an opcode -/

/-- The row that owns an opcode, if any. -/
def row? (d : Disassembler) (w : Word) : Option Row := (d.encoding? w).map Encoding.row

namespace Built

variable {rows rows' : List Row} {d d' : Disassembler} {w : Word}

theorem encoding?_eq_some_iff (h : Built rows d) {e : Encoding} :
    d.encoding? w = some e ↔
      e.row ∈ rows ∧ e.row.Claims w ∧ Encoding.ofRow e.row = .ok e := by
  rw [encoding?_eq_bind, Option.bind_eq_some_iff]
  constructor
  · rintro ⟨i, howner, he⟩
    obtain ⟨hrow, htext⟩ := h.row_of_get? he
    obtain ⟨row, hi, hclaim⟩ := h.owner?_eq_some_iff.mp howner
    obtain rfl := Option.some.inj (hi.symm.trans hrow)
    exact ⟨List.mem_of_getElem? hrow, hclaim, Encoding.ofRow_eq_ok_iff.mpr ⟨htext, rfl⟩⟩
  · rintro ⟨hrow, hclaim, hread⟩
    obtain ⟨i, hi⟩ := List.mem_iff_getElem?.mp hrow
    obtain ⟨e', he', heq, htext⟩ := h.get?_of_row hi
    have hread' : Encoding.ofRow e.row = .ok e' := Encoding.ofRow_eq_ok_iff.mpr ⟨htext, heq⟩
    obtain rfl := Except.ok.inj (hread.symm.trans hread')
    exact ⟨i, h.owner?_eq_some_iff.mpr ⟨e.row, hi, hclaim⟩, he'⟩

theorem exists_ofRow (h : Built rows d) {row : Row} (hrow : row ∈ rows) :
    ∃ e, Encoding.ofRow row = .ok e ∧ e.row = row := by
  obtain ⟨i, hi⟩ := List.mem_iff_getElem?.mp hrow
  obtain ⟨e, -, heq, htext⟩ := h.get?_of_row hi
  exact ⟨e, Encoding.ofRow_eq_ok_iff.mpr ⟨htext, heq⟩, heq⟩

theorem row?_eq_some_iff (h : Built rows d) {row : Row} :
    d.row? w = some row ↔ row ∈ rows ∧ row.Claims w := by
  rw [row?, Option.map_eq_some_iff]
  constructor
  · rintro ⟨e, he, rfl⟩
    obtain ⟨hrow, hclaim, -⟩ := h.encoding?_eq_some_iff.mp he
    exact ⟨hrow, hclaim⟩
  · rintro ⟨hrow, hclaim⟩
    obtain ⟨e, hread, rfl⟩ := h.exists_ofRow hrow
    exact ⟨e, h.encoding?_eq_some_iff.mpr ⟨hrow, hclaim, hread⟩, rfl⟩

theorem disassemble_of_claims (h : Built rows d) {e : Encoding} (hrow : e.row ∈ rows)
    (hclaim : e.row.Claims w) (hread : Encoding.ofRow e.row = .ok e) :
    d.disassemble w = e.instruction w := by
  rw [disassemble, h.encoding?_eq_some_iff.mpr ⟨hrow, hclaim, hread⟩]

/-- A row that claims an opcode gives it the mnemonic of the row, and the
operands of the fields in its text. -/
theorem disassemble_of_ofText (h : Built rows d) {row : Row} {p : Pattern}
    (htext : Pattern.ofText row.pattern = .ok p) (hrow : row ∈ rows) (hclaim : row.Claims w) :
    (d.disassemble w).mnemonic = row.mnemonic ∧
      (d.disassemble w).operands.map some =
        p.fields.map fun f => f.operand? row.mnemonic (f.extract w) := by
  obtain ⟨e, hread, rfl⟩ := h.exists_ofRow hrow
  obtain ⟨htext', -⟩ := Encoding.ofRow_eq_ok_iff.mp hread
  obtain rfl : e.pattern = p := Except.ok.inj (htext'.symm.trans htext)
  rw [h.disassemble_of_claims hrow hclaim hread]
  exact ⟨rfl, e.map_some_operands w⟩

theorem disassemble_of_not_claims (h : Built rows d) (hfree : ∀ row ∈ rows, ¬ row.Claims w) :
    d.disassemble w = .unknown := by
  have hnone : d.encoding? w = none := by
    rw [Option.eq_none_iff_forall_ne_some]
    intro e he
    obtain ⟨hrow, hclaim, -⟩ := h.encoding?_eq_some_iff.mp he
    exact hfree e.row hrow hclaim
  rw [disassemble, hnone]

theorem mnemonic_eq_iff (h : Built rows d) {mnemonic : String}
    (hne : mnemonic ≠ Mnemonic.unknown) :
    (d.disassemble w).mnemonic = mnemonic ↔
      ∃ row ∈ rows, row.mnemonic = mnemonic ∧ row.Claims w := by
  constructor
  · rintro rfl
    by_cases hclaimed : ∃ row ∈ rows, row.Claims w
    · obtain ⟨row, hrow, hclaim⟩ := hclaimed
      obtain ⟨e, hread, rfl⟩ := h.exists_ofRow hrow
      refine ⟨e.row, hrow, ?_, hclaim⟩
      rw [h.disassemble_of_claims hrow hclaim hread]
      rfl
    · have hfree : ∀ row ∈ rows, ¬ row.Claims w :=
        fun row hrow hclaim => hclaimed ⟨row, hrow, hclaim⟩
      rw [h.disassemble_of_not_claims hfree] at hne
      exact absurd rfl hne
  · rintro ⟨row, hrow, rfl, hclaim⟩
    obtain ⟨e, hread, rfl⟩ := h.exists_ofRow hrow
    rw [h.disassemble_of_claims hrow hclaim hread]
    rfl

/-- An opcode stands for the same under all rows among which its own row
is. -/
theorem disassemble_eq_of_claims (h : Built rows d) (h' : Built rows' d') {row : Row}
    (hrow : row ∈ rows) (hrow' : row ∈ rows') (hclaim : row.Claims w) :
    d.disassemble w = d'.disassemble w := by
  obtain ⟨e, hread, rfl⟩ := h.exists_ofRow hrow
  rw [h.disassemble_of_claims hrow hclaim hread, h'.disassemble_of_claims hrow' hclaim hread]

theorem disassemble_eq_ite_of_subset (h : Built rows d) (h' : Built rows' d')
    (hsub : rows' ⊆ rows) (w : Word) :
    d'.disassemble w =
      if ∃ row ∈ rows', d.row? w = some row then d.disassemble w else .unknown := by
  simp only [h.row?_eq_some_iff]
  split
  next hkept =>
    obtain ⟨row, hrow', hrow, hclaim⟩ := hkept
    exact h'.disassemble_eq_of_claims h hrow' hrow hclaim
  next hgone =>
    refine h'.disassemble_of_not_claims fun row hrow' hclaim => hgone ?_
    exact ⟨row, hrow', hsub hrow', hclaim⟩

/-- The rows that do not claim an opcode have no say in what it stands
for. -/
theorem disassemble_eq_of_mem_iff (h : Built rows d) (h' : Built rows' d')
    (hrows : ∀ row, row.Claims w → (row ∈ rows ↔ row ∈ rows')) :
    d.disassemble w = d'.disassemble w := by
  by_cases hclaimed : ∃ row ∈ rows, row.Claims w
  · obtain ⟨row, hrow, hclaim⟩ := hclaimed
    exact h.disassemble_eq_of_claims h' hrow ((hrows row hclaim).mp hrow) hclaim
  · have hfree : ∀ row ∈ rows, ¬ row.Claims w :=
      fun row hrow hclaim => hclaimed ⟨row, hrow, hclaim⟩
    have hfree' : ∀ row ∈ rows', ¬ row.Claims w :=
      fun row hrow' hclaim => hfree row ((hrows row hclaim).mpr hrow') hclaim
    rw [h.disassemble_of_not_claims hfree, h'.disassemble_of_not_claims hfree']

theorem disassemble_eq_of_perm (h : Built rows d) (h' : Built rows' d') (hperm : rows.Perm rows')
    (w : Word) : d.disassemble w = d'.disassemble w :=
  h.disassemble_eq_of_mem_iff h' fun _ _ => hperm.mem_iff

end Built

end Disassembler

/-- An analysis depends on what each word stands for and on nothing else
of the disassembler. -/
theorem Analysis.ofStore_congr {d d' : Disassembler}
    (h : ∀ w, d.disassemble w = d'.disassemble w) (s : ControlStore) :
    ofStore d s = ofStore d' s := by
  rw [ofStore, ofStore, ControlStore.decode, ControlStore.decode]
  simp only [h]

namespace Disassembler

/-- Where rows are accepted, so are any of them in any order, and an
opcode then stands for what it did if its row is still there, and for
nothing otherwise. Of two orders of the same rows both are accepted or
neither, and every opcode and every store reads the same under both. -/
theorem disassemble_of_subperm (rows rows' : List Row) :
    (∀ d, ofRows rows = .ok d → rows'.Subperm rows →
      ∃ d', ofRows rows' = .ok d' ∧ ∀ w, d'.disassemble w =
        if ∃ row ∈ rows', d.row? w = some row then d.disassemble w else .unknown) ∧
      (rows.Perm rows' →
        ((∃ d, ofRows rows = .ok d) ↔ ∃ d', ofRows rows' = .ok d') ∧
          ∀ d d', ofRows rows = .ok d → ofRows rows' = .ok d' →
            (∀ w, d.disassemble w = d'.disassemble w) ∧
              ∀ s, Analysis.ofStore d s = Analysis.ofStore d' s) := by
  constructor
  · intro d hd hsub
    obtain ⟨d', hd'⟩ := exists_ofRows_of_subperm hsub ⟨d, hd⟩
    refine ⟨d', hd', ?_⟩
    exact (built_of_ofRows hd).disassemble_eq_ite_of_subset (built_of_ofRows hd') hsub.subset
  · intro hperm
    refine ⟨⟨exists_ofRows_of_subperm hperm.symm.subperm, exists_ofRows_of_subperm hperm.subperm⟩,
      fun d d' hd hd' => ?_⟩
    have heq := (built_of_ofRows hd).disassemble_eq_of_perm (built_of_ofRows hd') hperm
    exact ⟨heq, Analysis.ofStore_congr heq⟩

theorem disassemble_of_subperm_rotated :
    let rows : List Row := [⟨"1100 AAAA AAAA AAAA", "1", "Branch"⟩,
      ⟨"1110 AAAA AAAA AAAA", "1", "Call Microsubroutine"⟩,
      ⟨"1111 0JJ0 1011 WVVV", "1", "Access Destination"⟩]
    ∃ d d' d'', ofRows rows = .ok d ∧ ofRows (rows.drop 1).reverse = .ok d' ∧
      ofRows (rows.rotate 1) = .ok d'' ∧
        (∀ w, d'.disassemble w =
          if ∃ row ∈ (rows.drop 1).reverse, d.row? w = some row then d.disassemble w
          else .unknown) ∧
        (∀ w, d.disassemble w = d''.disassemble w) ∧
          ∀ s, Analysis.ofStore d s = Analysis.ofStore d'' s := by
  intro rows
  have hrows : ∃ t, EncodingTable.ofRows rows = .ok t ∧ t.Exclusive := ⟨_, rfl, by decide⟩
  obtain ⟨d, hd⟩ := exists_ofRows_iff_exclusive.mpr hrows
  obtain ⟨hfewer, -⟩ := disassemble_of_subperm rows (rows.drop 1).reverse
  obtain ⟨-, hturned⟩ := disassemble_of_subperm rows (rows.rotate 1)
  obtain ⟨d', hd', hkept⟩ := hfewer d hd (by decide)
  obtain ⟨haccepted, hsame⟩ := hturned (by decide)
  obtain ⟨d'', hd''⟩ := haccepted.mp ⟨d, hd⟩
  obtain ⟨hopcodes, hstores⟩ := hsame d d'' hd hd''
  exact ⟨d, d', d'', hd, hd', hd'', hkept, hopcodes, hstores⟩

end Disassembler

end Microcode
