import Mathlib.Algebra.Order.Group.Nat
import Microcode.Disassembler
import Microcode.Proofs.OpcodeMap.Run
import Microcode.Proofs.Pattern.Reading

/-!
# Building a disassembler

A disassembler is built from rows in two passes: every row is read as an
encoding, and then the encodings are put into an opcode map one after
the other. The first pass looks at each row alone (`ofRows_eq_ok_iff`);
the second never compares two patterns but looks for a taken slot, which
comes to the same as a test on the fixed bits of every two encodings
(`exists_ofTable_iff`). The numbers for patterns do not run out before
two patterns meet, as there are no more disjoint patterns than opcodes.

What a built disassembler is, is then `Disassembler.Built`: its table
holds the rows in order, and its map was built by calls that were all
accepted.
-/

namespace Microcode

theorem Field.named_iff {f : Field} {mnemonic : String} :
    f.Named mnemonic ↔ ∀ table, NameTable.select? mnemonic f.letter = some table →
      2 ^ f.width ≤ table.names.length := by
  rw [Field.Named, Field.valueCount, Nat.one_shiftLeft]
  rfl

namespace Encoding

theorem fieldFault?_eq_none_iff {mnemonic : String} {f : Field} :
    fieldFault? mnemonic f = none ↔ f.Named mnemonic := by
  refine ⟨named_of_fieldFault?_eq_none, fun h => ?_⟩
  rw [fieldFault?]
  split
  next table hsel => exact if_neg (Nat.not_lt.mpr (h table hsel))
  next => rfl

/-- A row is read if its text is a pattern and each of its named fields
has names enough. The encoding keeps both. -/
theorem ofRow_eq_ok_iff {row : Row} {e : Encoding} :
    ofRow row = .ok e ↔ Pattern.ofText row.pattern = .ok e.pattern ∧ e.row = row := by
  rw [ofRow]
  cases htext : Pattern.ofText row.pattern with
  | error fault => simp
  | ok p =>
      obtain ⟨row', p', hnamed⟩ := e
      have hnone : p'.fields.findSome? (fieldFault? row'.mnemonic) = none :=
        List.findSome?_eq_none_iff.mpr fun f hf => fieldFault?_eq_none_iff.mpr (hnamed f hf)
      simp only
      split
      next fault hfault =>
        simp only [reduceCtorEq, false_iff, not_and]
        rintro ⟨⟩ rfl
        rw [hnone] at hfault
        cases hfault
      next => simp [and_comm, eq_comm]

theorem exists_ofRow_iff {row : Row} :
    (∃ e, ofRow row = .ok e) ↔
      (∃ p, Pattern.ofText row.pattern = .ok p) ∧
        ∀ p, Pattern.ofText row.pattern = .ok p → ∀ f ∈ p.fields, f.Named row.mnemonic := by
  constructor
  · rintro ⟨e, he⟩
    obtain ⟨htext, rfl⟩ := ofRow_eq_ok_iff.mp he
    refine ⟨⟨e.pattern, htext⟩, fun p hp => ?_⟩
    obtain rfl := Except.ok.inj (hp.symm.trans htext)
    exact e.named
  · rintro ⟨⟨p, htext⟩, hnamed⟩
    exact ⟨⟨row, p, hnamed p htext⟩, ofRow_eq_ok_iff.mpr ⟨htext, rfl⟩⟩

/-- The call that puts the encoding into an opcode map. -/
def call (e : Encoding) : OpcodeMap.Call := (e.mnemonic, e.pattern)

end Encoding

namespace EncodingTable

/-- The calls that put the encodings into an opcode map, in order. -/
def calls (t : EncodingTable) : List OpcodeMap.Call := t.encodings.toList.map Encoding.call

/-- Reads a row that stands at a position. -/
def readAt (x : Row × Nat) : Except Diagnostic Encoding :=
  (Encoding.ofRow x.1).mapError (.pattern x.2 x.1.pattern)

theorem ofRows_eq_map_mapM (rows : List Row) :
    ofRows rows = (rows.zipIdx.mapM readAt).map fun encodings => ⟨encodings.toArray⟩ := rfl

theorem readAt_eq_ok_iff {x : Row × Nat} {e : Encoding} :
    readAt x = .ok e ↔ Encoding.ofRow x.1 = .ok e := by
  rw [readAt]
  cases Encoding.ofRow x.1 <;> simp [Except.mapError]

theorem ofRows_eq_ok_iff {rows : List Row} {t : EncodingTable} :
    ofRows rows = .ok t ↔
      List.Forall₂ (fun row e => Encoding.ofRow row = .ok e) rows t.encodings.toList := by
  have hmap : ofRows rows = .ok t ↔ rows.zipIdx.mapM readAt = .ok t.encodings.toList := by
    rw [ofRows_eq_map_mapM]
    cases rows.zipIdx.mapM readAt with
    | error diagnostic => simp [Except.map]
    | ok es =>
        obtain ⟨encodings⟩ := t
        simp only [Except.map, Except.ok.injEq, mk.injEq]
        exact ⟨fun h => h ▸ List.toList_toArray.symm, fun h => h ▸ Array.toArray_toList⟩
  rw [hmap, mapM_eq_ok_iff]
  simp only [readAt_eq_ok_iff]
  conv_rhs => rw [← List.zipIdx_map_fst 0 rows, List.forall₂_map_left_iff]

theorem exists_ofRows_iff {rows : List Row} :
    (∃ t, ofRows rows = .ok t) ↔ ∀ row ∈ rows, ∃ e, Encoding.ofRow row = .ok e := by
  simp only [ofRows_eq_ok_iff]
  rw [← exists_forall₂_iff]
  exact ⟨fun ⟨t, ht⟩ => ⟨_, ht⟩, fun ⟨es, hes⟩ => ⟨⟨es.toArray⟩, hes⟩⟩

theorem ofText_of_mem {rows : List Row} {t : EncodingTable} (h : ofRows rows = .ok t)
    {e : Encoding} (he : e ∈ t.encodings.toList) :
    Pattern.ofText e.row.pattern = .ok e.pattern := by
  obtain ⟨i, hi⟩ := List.mem_iff_getElem?.mp he
  obtain ⟨row, -, hread⟩ := getElem?_of_forall₂ (ofRows_eq_ok_iff.mp h).flip hi
  obtain ⟨htext, rfl⟩ := Encoding.ofRow_eq_ok_iff.mp hread
  exact htext

theorem consistent_of_ofRows {rows : List Row} {t : EncodingTable} (h : ofRows rows = .ok t) :
    ∀ e ∈ t.encodings.toList, e.pattern.Consistent :=
  fun _ he => (Pattern.reads_of_ofText (ofText_of_mem h he)).consistent

/-- Every two encodings fix some bit to different values. -/
def Exclusive (t : EncodingTable) : Prop :=
  t.encodings.toList.Pairwise fun e f => ¬ e.pattern.Compatible f.pattern

instance (t : EncodingTable) : Decidable t.Exclusive :=
  inferInstanceAs (Decidable (List.Pairwise _ _))

theorem Exclusive.not_compatible {t : EncodingTable} (h : t.Exclusive) {i j : Nat}
    {e f : Encoding} (hi : t.encodings.toList[i]? = some e)
    (hj : t.encodings.toList[j]? = some f) (hij : i ≠ j) :
    ¬ e.pattern.Compatible f.pattern := by
  obtain ⟨hi', rfl⟩ := List.getElem?_eq_some_iff.mp hi
  obtain ⟨hj', rfl⟩ := List.getElem?_eq_some_iff.mp hj
  rcases Nat.lt_or_gt_of_ne hij with hlt | hgt
  · exact List.pairwise_iff_getElem.mp h i j hi' hj' hlt
  · exact fun hc => List.pairwise_iff_getElem.mp h j i hj' hi' hgt hc.symm

/-- The encodings exclude each other if the patterns of every two rows
do. -/
theorem exclusive_iff_of_ofRows {rows : List Row} {t : EncodingTable}
    (h : ofRows rows = .ok t) :
    t.Exclusive ↔ ∀ (i j : Nat) (row row' : Row) (p q : Pattern),
      rows[i]? = some row → rows[j]? = some row' → i ≠ j →
        Pattern.ofText row.pattern = .ok p → Pattern.ofText row'.pattern = .ok q →
          ¬ p.Compatible q := by
  have hrows := ofRows_eq_ok_iff.mp h
  constructor
  · intro hexcl i j row row' p q hi hj hij hp hq
    obtain ⟨e, he, hread⟩ := getElem?_of_forall₂ hrows hi
    obtain ⟨f, hf, hread'⟩ := getElem?_of_forall₂ hrows hj
    obtain rfl := Except.ok.inj (hp.symm.trans (Encoding.ofRow_eq_ok_iff.mp hread).1)
    obtain rfl := Except.ok.inj (hq.symm.trans (Encoding.ofRow_eq_ok_iff.mp hread').1)
    exact hexcl.not_compatible he hf hij
  · intro hdiff
    refine List.pairwise_iff_getElem.mpr fun i j hi hj hij => ?_
    obtain ⟨row, hrow, he⟩ := getElem?_of_forall₂ hrows.flip (List.getElem?_eq_getElem hi)
    obtain ⟨row', hrow', hf⟩ := getElem?_of_forall₂ hrows.flip (List.getElem?_eq_getElem hj)
    have htext := (Encoding.ofRow_eq_ok_iff.mp he).1
    have htext' := (Encoding.ofRow_eq_ok_iff.mp hf).1
    exact hdiff i j row row' _ _ hrow hrow' (Nat.ne_of_lt hij) htext htext'

end EncodingTable

namespace OpcodeMap

theorem foldlM_insert_eq_ok_iff {calls : List Call} {m m' : OpcodeMap} :
    calls.foldlM (fun m c => m.insert c.1 c.2) m = .ok m' ↔
      m.accepted calls = calls ∧ m.run calls = m' := by
  induction m, calls using run_induction with
  | nil m => exact ⟨fun h => ⟨rfl, Except.ok.inj h⟩, fun h => congrArg Except.ok h.2⟩
  | admitted m c rest hadm ih =>
      rw [List.foldlM_cons, insert_eq_ok_iff.mpr ⟨hadm, rfl⟩, accepted_cons_of_admits hadm,
        run_cons_of_admits hadm, List.cons.injEq, and_iff_right rfl]
      exact ih
  | refused m c rest hadm _ =>
      obtain ⟨diagnostic, hins⟩ := insert_eq_error hadm
      rw [List.foldlM_cons, hins, accepted_cons_of_not_admits hadm]
      have hne : m.accepted rest ≠ c :: rest := by
        intro heq
        have hle := (m.accepted_sublist rest).length_le
        rw [heq, List.length_cons] at hle
        omega
      simp [hne, bind, Except.bind]

theorem ofTable_eq_ok_iff {t : EncodingTable} {m : OpcodeMap} :
    ofTable t = .ok m ↔ accepted ∅ t.calls = t.calls ∧ run ∅ t.calls = m := by
  rw [← foldlM_insert_eq_ok_iff, EncodingTable.calls, List.foldlM_map]
  rfl

/-- The map of a table, if there is one, was built by all its calls. -/
theorem holds_of_ofTable {t : EncodingTable} {m : OpcodeMap} (h : ofTable t = .ok m) :
    m.Holds t.calls := by
  obtain ⟨hall, rfl⟩ := ofTable_eq_ok_iff.mp h
  exact holds_run_of_accepted hall

theorem pairwise_calls_iff {t : EncodingTable}
    (hcons : ∀ e ∈ t.encodings.toList, e.pattern.Consistent) :
    t.calls.Pairwise (fun c d => c.2.Disjoint d.2) ↔ t.Exclusive := by
  rw [EncodingTable.calls, List.pairwise_map, EncodingTable.Exclusive]
  exact ⟨fun h => h.imp_of_mem fun he hf =>
      (Pattern.disjoint_iff_not_compatible (hcons _ he) (hcons _ hf)).mp,
    fun h => h.imp_of_mem fun he hf =>
      (Pattern.disjoint_iff_not_compatible (hcons _ he) (hcons _ hf)).mpr⟩

/-- A table has a map exactly if its encodings exclude each other. There
are then no more of them than there are numbers. -/
theorem exists_ofTable_iff {t : EncodingTable}
    (hcons : ∀ e ∈ t.encodings.toList, e.pattern.Consistent) :
    (∃ m, ofTable t = .ok m) ↔ t.Exclusive := by
  rw [← pairwise_calls_iff hcons]
  constructor
  · rintro ⟨m, hm⟩
    exact (holds_of_ofTable hm).pairwise_disjoint
  · intro hdis
    have hlen : t.calls.length ≤ opcodeCount := by
      have hcons' : ∀ p ∈ t.calls.map Prod.snd, p.Consistent := by
        simpa [EncodingTable.calls, Encoding.call] using hcons
      have hle := Pattern.length_le_of_pairwise_disjoint hcons' (List.pairwise_map.mpr hdis)
      rwa [List.length_map] at hle
    exact ⟨_, ofTable_eq_ok_iff.mpr ⟨holds_empty.accepted_eq_self hlen hdis, rfl⟩⟩

end OpcodeMap

namespace Disassembler

/-- The disassembler holds the rows, read in order, and a map into which
all of them were put. -/
structure Built (rows : List Row) (d : Disassembler) : Prop where
  rows_read : List.Forall₂ (fun row e => Encoding.ofRow row = .ok e) rows
    d.table.encodings.toList
  holds : d.opcodes.Holds d.table.calls

theorem ofRows_eq_ok_iff {rows : List Row} {d : Disassembler} :
    ofRows rows = .ok d ↔
      EncodingTable.ofRows rows = .ok d.table ∧ OpcodeMap.ofTable d.table = .ok d.opcodes := by
  obtain ⟨table, opcodes⟩ := d
  rw [ofRows]
  cases EncodingTable.ofRows rows with
  | error diagnostic => simp
  | ok t =>
      simp only [ofTable]
      cases hmap : OpcodeMap.ofTable t with
      | error diagnostic =>
          simp only [Except.map, reduceCtorEq, Except.ok.injEq, false_iff, not_and]
          rintro rfl
          simp [hmap]
      | ok m =>
          simp only [Except.map, Except.ok.injEq, mk.injEq]
          constructor
          · rintro ⟨rfl, rfl⟩
            exact ⟨rfl, hmap⟩
          · rintro ⟨rfl, hm⟩
            exact ⟨rfl, Except.ok.inj (hmap.symm.trans hm)⟩

theorem built_of_ofRows {rows : List Row} {d : Disassembler} (h : ofRows rows = .ok d) :
    Built rows d := by
  obtain ⟨htable, hmap⟩ := ofRows_eq_ok_iff.mp h
  exact ⟨EncodingTable.ofRows_eq_ok_iff.mp htable, OpcodeMap.holds_of_ofTable hmap⟩

theorem exists_ofRows_iff_exclusive {rows : List Row} :
    (∃ d, ofRows rows = .ok d) ↔ ∃ t, EncodingTable.ofRows rows = .ok t ∧ t.Exclusive := by
  simp only [ofRows_eq_ok_iff]
  constructor
  · rintro ⟨d, htable, hmap⟩
    have hcons := EncodingTable.consistent_of_ofRows htable
    exact ⟨d.table, htable, (OpcodeMap.exists_ofTable_iff hcons).mp ⟨_, hmap⟩⟩
  · rintro ⟨t, htable, hexcl⟩
    have hcons := EncodingTable.consistent_of_ofRows htable
    obtain ⟨m, hmap⟩ := (OpcodeMap.exists_ofTable_iff hcons).mpr hexcl
    exact ⟨⟨t, m⟩, htable, hmap⟩

/-- A list of rows, however long, is accepted exactly if (a) every text is
a pattern, (b) every named field has a name for each of its values, and
(c) every two rows fix some bit to different values. -/
theorem exists_ofRows_eq_ok_iff (rows : List Row) :
    (∃ d, ofRows rows = .ok d) ↔
      (∀ row ∈ rows, ∃ p, Pattern.ofText row.pattern = .ok p) ∧
      (∀ row ∈ rows, ∀ p, Pattern.ofText row.pattern = .ok p → ∀ f ∈ p.fields, ∀ table,
        NameTable.select? row.mnemonic f.letter = some table →
          2 ^ f.width ≤ table.names.length) ∧
      (∀ (i j : Nat) (row row' : Row) p q, rows[i]? = some row → rows[j]? = some row' → i ≠ j →
        Pattern.ofText row.pattern = .ok p → Pattern.ofText row'.pattern = .ok q →
          (p.constBits ^^^ q.constBits) &&& p.constMask &&& q.constMask ≠ 0) := by
  rw [exists_ofRows_iff_exclusive]
  constructor
  · rintro ⟨t, htable, hexcl⟩
    have hread := EncodingTable.exists_ofRows_iff.mp ⟨t, htable⟩
    refine ⟨fun row hrow => ?_, fun row hrow p hp f hf => ?_, ?_⟩
    · exact (Encoding.exists_ofRow_iff.mp (hread row hrow)).1
    · obtain ⟨-, hnamed⟩ := Encoding.exists_ofRow_iff.mp (hread row hrow)
      exact Field.named_iff.mp (hnamed p hp f hf)
    · exact (EncodingTable.exclusive_iff_of_ofRows htable).mp hexcl
  · rintro ⟨htext, hnamed, hdiff⟩
    have hread : ∀ row ∈ rows, ∃ e, Encoding.ofRow row = .ok e := by
      intro row hrow
      refine Encoding.exists_ofRow_iff.mpr ⟨htext row hrow, fun p hp f hf => ?_⟩
      exact Field.named_iff.mpr (hnamed row hrow p hp f hf)
    obtain ⟨t, htable⟩ := EncodingTable.exists_ofRows_iff.mpr hread
    exact ⟨t, htable, (EncodingTable.exclusive_iff_of_ofRows htable).mpr hdiff⟩

end Disassembler

end Microcode
