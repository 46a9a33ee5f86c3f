import Mathlib.Order.Nat
import Microcode.Proofs.Disassembler.Building
import Microcode.Proofs.OpcodeMap.Conflict
import Microcode.Proofs.Pattern.RoundTrip

/-!
# Where the building of a map fails

The encodings of a table are put into a map one after the other, up to
the first that is refused. That is the first with an opcode of an earlier
one (`EncodingTable.Clash`): those before it are disjoint, so they are not
more than there are numbers and all of them are in
(`OpcodeMap.exists_holds_take`).

What is reported depends on whether a number is left. If so, it is the
least opcode that the encoding shares with an earlier one. Otherwise there
are as many disjoint encodings before it as there are opcodes, which is
only possible if each of them claims a single opcode and all opcodes are
claimed. So the numbers never run out on an encoding that could have been
put in (`OpcodeMap.ofTable_eq_error_of_clash`).
-/

namespace Microcode

namespace EncodingTable

variable {t : EncodingTable} {i j : Nat} {e : Encoding} {w : Word}

theorem get?_eq_getElem?_toList (t : EncodingTable) (i : Nat) :
    t.get? i = t.encodings.toList[i]? := Array.getElem?_toList.symm

theorem lt_of_get? (he : t.get? j = some e) : j < t.encodings.toList.length := by
  rw [get?_eq_getElem?_toList] at he
  exact (List.getElem?_eq_some_iff.mp he).1

theorem mem_take_iff : e ∈ t.encodings.toList.take j ↔ ∃ i < j, t.get? i = some e := by
  simp only [List.mem_iff_getElem?, List.getElem?_take, get?_eq_getElem?_toList]
  refine exists_congr fun i => ?_
  split <;> simp [*]

theorem length_take_of_get? (he : t.get? j = some e) :
    (t.encodings.toList.take j).length = j := by
  rw [List.length_take, Nat.min_eq_left (lt_of_get? he).le]

/-- The opcode is claimed by the encoding at `j` and by an earlier one. -/
def Clash (t : EncodingTable) (j : Nat) (w : Word) : Prop :=
  ∃ e i f, t.get? j = some e ∧ i < j ∧ t.get? i = some f ∧
    f.pattern.Claims w ∧ e.pattern.Claims w

theorem clash_iff (he : t.get? j = some e) :
    t.Clash j w ↔ ∃ f ∈ t.encodings.toList.take j, f.pattern.Claims w ∧ e.pattern.Claims w := by
  constructor
  · rintro ⟨e', i, f, he', hij, hf, hclaims⟩
    obtain rfl := Option.some.inj (he.symm.trans he')
    exact ⟨f, mem_take_iff.mpr ⟨i, hij, hf⟩, hclaims⟩
  · rintro ⟨f, hmem, hclaims⟩
    obtain ⟨i, hij, hf⟩ := mem_take_iff.mp hmem
    exact ⟨e, i, f, he, hij, hf, hclaims⟩

/-- Without a clash below `k` the encodings there are disjoint. -/
theorem pairwise_take_iff (t : EncodingTable) (k : Nat) :
    (t.encodings.toList.take k).Pairwise (fun e f => e.pattern.Disjoint f.pattern) ↔
      ∀ j < k, ∀ w, ¬ t.Clash j w := by
  rw [List.pairwise_iff_getElem]
  constructor
  · rintro hdis j hj w ⟨e, i, f, he, hij, hf, hfw, hew⟩
    rw [get?_eq_getElem?_toList] at he hf
    obtain ⟨hjlt, rfl⟩ := List.getElem?_eq_some_iff.mp he
    obtain ⟨hilt, rfl⟩ := List.getElem?_eq_some_iff.mp hf
    have hlt : j < (t.encodings.toList.take k).length := by
      rw [List.length_take]
      exact Nat.lt_min.mpr ⟨hj, hjlt⟩
    have hij' := hdis i j (hij.trans hlt) hlt hij w
    rw [List.getElem_take, List.getElem_take] at hij'
    exact hij' hfw hew
  · intro hfree i j hi hj hij w hfw hew
    rw [List.getElem_take] at hfw hew
    rw [List.length_take, Nat.lt_min] at hi hj
    refine hfree j hj.1 w ⟨_, i, _, ?_, hij, ?_, hfw, hew⟩
    · rw [get?_eq_getElem?_toList, List.getElem?_eq_getElem hj.2]
    · rw [get?_eq_getElem?_toList, List.getElem?_eq_getElem hi.2]

theorem exists_clash_iff (hcons : ∀ e ∈ t.encodings.toList, e.pattern.Consistent) :
    (∃ j w, t.Clash j w) ↔ ¬ t.Exclusive := by
  have hall := t.pairwise_take_iff t.encodings.toList.length
  rw [List.take_length] at hall
  rw [← OpcodeMap.pairwise_calls_iff hcons, calls, List.pairwise_map]
  change _ ↔ ¬ t.encodings.toList.Pairwise fun e f => e.pattern.Disjoint f.pattern
  rw [hall]
  simp only [not_forall, not_not, exists_prop]
  refine exists_congr fun j => (and_iff_right_of_imp fun hclash => ?_).symm
  obtain ⟨w, e, -, -, he, -⟩ := hclash
  exact lt_of_get? he

end EncodingTable

namespace OpcodeMap

/-! ## The map up to an encoding -/

variable {t : EncodingTable} {j : Nat} {e : Encoding} {diagnostic : Diagnostic}

theorem foldlM_insert_append_cons {before : List Call} {mnemonic : String} {p : Pattern}
    (hall : accepted ∅ before = before)
    (hins : (run ∅ before).insert mnemonic p = .error diagnostic) (after : List Call) :
    (before ++ (mnemonic, p) :: after).foldlM (fun (m : OpcodeMap) c => m.insert c.1 c.2) ∅ =
      .error diagnostic := by
  rw [List.foldlM_append, foldlM_insert_eq_ok_iff.mpr ⟨hall, rfl⟩]
  change List.foldlM _ _ _ = _
  rw [List.foldlM_cons, hins]
  rfl

section

variable (he : t.get? j = some e)
  (hdis : (t.encodings.toList.take j).Pairwise fun e f => e.pattern.Disjoint f.pattern)

include he hdis

/-- Disjoint encodings are all put in, so the map that they make decides how
it ends with the next one. -/
theorem exists_holds_take (hlen : j ≤ opcodeCount) :
    ∃ m : OpcodeMap, m.Holds ((t.encodings.toList.take j).map Encoding.call) ∧ m.size = j ∧
      ∀ diagnostic, m.insert e.mnemonic e.pattern = .error diagnostic →
        ofTable t = .error diagnostic := by
  set before := (t.encodings.toList.take j).map Encoding.call with hbefore
  have hcount : before.length = j := by
    rw [hbefore, List.length_map, EncodingTable.length_take_of_get? he]
  have hall : accepted ∅ before = before :=
    holds_empty.accepted_eq_self (hcount.trans_le hlen) (List.pairwise_map.mpr hdis)
  have hholds := holds_run_of_accepted hall
  have hcalls : before ++ e.call :: (t.encodings.toList.drop (j + 1)).map Encoding.call =
      t.calls := by
    rw [hbefore, ← List.map_cons, ← List.map_append,
      take_append_cons_drop (EncodingTable.get?_eq_getElem?_toList t j ▸ he)]
    rfl
  refine ⟨run ∅ before, hholds, hholds.size_eq.trans hcount, fun diagnostic hins => ?_⟩
  have hfold := foldlM_insert_append_cons hall hins
    ((t.encodings.toList.drop (j + 1)).map Encoding.call)
  rw [← Encoding.call, hcalls, EncodingTable.calls, List.foldlM_map] at hfold
  exact hfold

/-- While a number is left, it is refused for the least opcode that it
shares with an earlier one. -/
theorem exists_ofTable_eq_conflict (hroom : j < opcodeCount) (hclash : ∃ w, t.Clash j w) :
    ∃ w i f, IsLeast {w | t.Clash j w} w ∧ i < j ∧ t.get? i = some f ∧ f.pattern.Claims w ∧
      ofTable t = .error (.conflict w f.mnemonic i e.mnemonic j) := by
  obtain ⟨m, hholds, rfl, hend⟩ := exists_holds_take he hdis hroom.le
  have hcontested : ∀ w, m.Contested e.pattern w ↔ t.Clash m.size w := by
    intro w
    rw [hholds.contested_iff, EncodingTable.clash_iff he]
    simp only [List.mem_map, exists_exists_and_eq_and]
    rfl
  obtain ⟨v, hv⟩ := hclash
  obtain ⟨_, _, -, -, hins⟩ := ((hcontested v).mpr hv).exists_insert_eq_error hroom e.mnemonic
  obtain ⟨w, i, hleast, hi, hconflict⟩ := (insert_eq_error_iff hroom).mp hins
  rw [← hconflict] at hins
  obtain ⟨c, hc, hclaim⟩ := hholds.owner?_eq_some_iff.mp hi
  rw [hholds.getElem_names hc] at hins
  rw [List.getElem?_map, List.getElem?_take_of_lt i.isLt, Option.map_eq_some_iff] at hc
  obtain ⟨f, hf, rfl⟩ := hc
  rw [← EncodingTable.get?_eq_getElem?_toList] at hf
  simp only [hcontested] at hleast
  exact ⟨w, i, f, hleast, i.isLt, hf, hclaim, hend _ hins⟩

theorem ofTable_eq_tooManyPatterns (hfull : j = opcodeCount) :
    ofTable t = .error (.tooManyPatterns opcodeCount) := by
  obtain ⟨m, -, hsize, hend⟩ := exists_holds_take he hdis hfull.le
  rw [← hfull, ← hsize]
  exact hend _ (insert_of_full (hfull.symm.trans hsize.symm).le)

end

/-- The building of the map of a table fails exactly if an encoding shares
an opcode with an earlier one, and the first that does tells how. If a
number is left for it, the least opcode shared is reported, with the
earlier encoding that claims it. Otherwise there are no numbers left; the
encodings before it are then constants that claim every opcode. -/
theorem ofTable_eq_error_of_clash {rows : List Row} (h : EncodingTable.ofRows rows = .ok t) :
    ((∃ diagnostic, ofTable t = .error diagnostic) ↔ ∃ j w, t.Clash j w) ∧
    ∀ diagnostic, ofTable t = .error diagnostic →
      ∃ j, IsLeast {j | ∃ w, t.Clash j w} j ∧ j ≤ opcodeCount ∧
        (j < opcodeCount → ∃ w e i f, IsLeast {w | t.Clash j w} w ∧
          t.get? j = some e ∧ i < j ∧ t.get? i = some f ∧ f.pattern.Claims w ∧
          diagnostic = .conflict w f.mnemonic i e.mnemonic j) ∧
        (j = opcodeCount → diagnostic = .tooManyPatterns opcodeCount ∧
          let first := t.encodings.toList.take opcodeCount
          first.length = opcodeCount ∧
          first.Pairwise (fun e f => e.pattern.Disjoint f.pattern) ∧
          (∀ e ∈ first, e.pattern.constMask = BitVec.allOnes 16) ∧
          ∀ w, ∃ e ∈ first, e.pattern.Claims w) := by
  have hcons := EncodingTable.consistent_of_ofRows h
  have hfails : (∃ diagnostic, ofTable t = .error diagnostic) ↔ ∃ j w, t.Clash j w := by
    rw [EncodingTable.exists_clash_iff hcons, ← exists_ofTable_iff hcons]
    cases ofTable t <;> simp
  refine ⟨hfails, fun diagnostic herror => ?_⟩
  classical
  have hleast := Nat.isLeast_find (hfails.mp ⟨diagnostic, herror⟩)
  set j := Nat.find (hfails.mp ⟨diagnostic, herror⟩)
  obtain ⟨w, hclash⟩ := hleast.1
  obtain ⟨e, -, -, he, -⟩ := hclash
  have hdis : (t.encodings.toList.take j).Pairwise fun e f => e.pattern.Disjoint f.pattern :=
    (t.pairwise_take_iff j).mpr fun k hk v hv => Nat.not_le_of_lt hk (hleast.2 ⟨v, hv⟩)
  have hlen := EncodingTable.length_take_of_get? he
  have hcons' : ∀ p ∈ (t.encodings.toList.take j).map Encoding.pattern, p.Consistent :=
    List.forall_mem_map.mpr fun e he => hcons e (List.mem_of_mem_take he)
  have hdis' := List.pairwise_map.mpr hdis
  refine ⟨j, hleast, ?_, fun hroom => ?_, fun hfull => ?_⟩
  · rw [← hlen, ← List.length_map Encoding.pattern]
    exact Pattern.length_le_of_pairwise_disjoint hcons' hdis'
  · obtain ⟨w, i, f, hw, hij, hf, hclaim, hconflict⟩ :=
      exists_ofTable_eq_conflict he hdis hroom hleast.1
    exact ⟨w, e, i, f, hw, he, hij, hf, hclaim, Except.error.inj (herror.symm.trans hconflict)⟩
  · have hlen' : ((t.encodings.toList.take j).map Encoding.pattern).length = opcodeCount := by
      rw [List.length_map, hlen, hfull]
    have hreport := Except.error.inj (herror.symm.trans (ofTable_eq_tooManyPatterns he hdis hfull))
    rw [← hfull] at hreport ⊢
    refine ⟨hreport, hlen, hdis, fun f hf => ?_, fun w => ?_⟩
    · exact Pattern.constMask_eq_of_length hcons' hdis' hlen' (List.mem_map_of_mem hf)
    · obtain ⟨p, hp, rfl⟩ := Pattern.exists_constBits_eq hcons' hdis' hlen' w
      obtain ⟨f, hf, rfl⟩ := List.mem_map.mp hp
      exact ⟨f, hf, (hcons' _ hp).claims_constBits⟩

end OpcodeMap

/-! ## Tables of constants -/

namespace Encoding

/-- The encoding of the single opcode `w`. -/
def constant (w : Word) : Encoding where
  row := ⟨Pattern.toText ⟨BitVec.allOnes 16, w, 0, []⟩, "1", "Constant"⟩
  pattern := ⟨BitVec.allOnes 16, w, 0, []⟩
  named := fun _ hf => absurd hf List.not_mem_nil

theorem wellFormed_constant (w : Word) : (constant w).pattern.WellFormed where
  masks_disjoint := List.pairwise_pair.mpr BitVec.and_zero
  masks_union := by
    change (0 ||| BitVec.allOnes 16 ||| 0 : Word) = 0xFFFF
    decide
  consistent := by
    change w &&& ~~~BitVec.allOnes 16 = 0
    rw [BitVec.not_allOnes]
    exact BitVec.and_zero
  fields_wellFormed := fun _ hf => absurd hf List.not_mem_nil
  letters_nodup := .nil
  offsets_ascending := .nil

theorem ofRow_constant (w : Word) : ofRow (constant w).row = .ok (constant w) :=
  ofRow_eq_ok_iff.mpr ⟨(wellFormed_constant w).ofText_toText, rfl⟩

theorem claims_constant {v w : Word} : (constant v).pattern.Claims w ↔ v = w := by
  change w &&& BitVec.allOnes 16 = v ↔ v = w
  rw [BitVec.and_allOnes, eq_comm]

end Encoding

namespace EncodingTable

def constants (ws : List Word) : EncodingTable := ⟨(ws.map Encoding.constant).toArray⟩

theorem ofRows_constants (ws : List Word) :
    ofRows (ws.map fun w => (Encoding.constant w).row) = .ok (constants ws) := by
  rw [ofRows_eq_ok_iff, constants, List.forall₂_map_left_iff, List.forall₂_map_right_iff,
    List.forall₂_same]
  exact fun w _ => Encoding.ofRow_constant w

theorem get?_constants_eq_some_iff {ws : List Word} {i : Nat} {e : Encoding} :
    (constants ws).get? i = some e ↔ ∃ w, ws[i]? = some w ∧ Encoding.constant w = e := by
  rw [get?_eq_getElem?_toList, constants, List.getElem?_map, Option.map_eq_some_iff]

theorem clash_constants_iff {ws : List Word} {j : Nat} {w : Word} :
    (constants ws).Clash j w ↔ ws[j]? = some w ∧ ∃ i < j, ws[i]? = some w := by
  simp only [Clash, get?_constants_eq_some_iff]
  constructor
  · rintro ⟨_, i, _, ⟨v, hv, rfl⟩, hij, ⟨u, hu, rfl⟩, huw, hvw⟩
    rw [Encoding.claims_constant] at huw hvw
    exact ⟨hvw ▸ hv, i, hij, huw ▸ hu⟩
  · rintro ⟨hj, i, hij, hi⟩
    exact ⟨_, i, _, ⟨w, hj, rfl⟩, hij, ⟨w, hi, rfl⟩, Encoding.claims_constant.mpr rfl,
      Encoding.claims_constant.mpr rfl⟩

end EncodingTable

/-- Of three constants the last is one of the others. Of all constants and
one more the last finds no number left. -/
theorem OpcodeMap.ofTable_eq_error_of_clash_constants :
    let few : List Word := [1, 2, 1]
    let many : List Word := Word.all ++ [0]
    (∃ t, EncodingTable.ofRows (few.map fun w => (Encoding.constant w).row) = .ok t ∧
      ofTable t = .error (.conflict 1 "Constant" 0 "Constant" 2)) ∧
    ∃ t, EncodingTable.ofRows (many.map fun w => (Encoding.constant w).row) = .ok t ∧
      ofTable t = .error (.tooManyPatterns opcodeCount) := by
  intro few many
  constructor
  · have hrows := EncodingTable.ofRows_constants few
    refine ⟨_, hrows, ?_⟩
    obtain ⟨hfails, hreport⟩ := ofTable_eq_error_of_clash hrows
    have hclash : (EncodingTable.constants few).Clash 2 1 :=
      EncodingTable.clash_constants_iff.mpr ⟨rfl, 0, by decide, rfl⟩
    obtain ⟨diagnostic, herror⟩ := hfails.mpr ⟨_, _, hclash⟩
    obtain ⟨j, ⟨⟨v, hv⟩, -⟩, -, hconflict, -⟩ := hreport diagnostic herror
    have honly : ∀ j < 3, ∀ i < j, few[i]? = few[j]? → j = 2 ∧ i = 0 := by decide
    obtain ⟨hj, k, hkj, hk⟩ := EncodingTable.clash_constants_iff.mp hv
    obtain ⟨hlt, -⟩ := List.getElem?_eq_some_iff.mp hj
    obtain ⟨rfl, -⟩ := honly j hlt k hkj (hk.trans hj.symm)
    obtain ⟨w, e, i, f, ⟨hw, -⟩, he, hij, hf, hclaim, rfl⟩ := hconflict (by decide)
    obtain ⟨u, -, rfl⟩ := EncodingTable.get?_constants_eq_some_iff.mp he
    obtain ⟨u', hi, rfl⟩ := EncodingTable.get?_constants_eq_some_iff.mp hf
    obtain rfl := Encoding.claims_constant.mp hclaim
    obtain ⟨hlast, -⟩ := EncodingTable.clash_constants_iff.mp hw
    obtain rfl := Option.some.inj hlast
    obtain ⟨-, rfl⟩ := honly 2 (by decide) i hij hi
    exact herror
  · have hrows := EncodingTable.ofRows_constants many
    refine ⟨_, hrows, ?_⟩
    obtain ⟨hfails, hreport⟩ := ofTable_eq_error_of_clash hrows
    have hall : ∀ i < opcodeCount, many[i]? = Word.all[i]? :=
      fun i hi => List.getElem?_append_left (Word.length_all ▸ hi)
    have hclash : (EncodingTable.constants many).Clash opcodeCount 0 := by
      obtain ⟨i, hi⟩ := List.mem_iff_getElem?.mp (Word.mem_all 0)
      have hlt : i < opcodeCount := Word.length_all ▸ (List.getElem?_eq_some_iff.mp hi).1
      have hlast : many[opcodeCount]? = some 0 := by
        rw [← Word.length_all]
        exact List.getElem?_concat_length
      exact EncodingTable.clash_constants_iff.mpr ⟨hlast, i, hlt, (hall i hlt).trans hi⟩
    obtain ⟨diagnostic, herror⟩ := hfails.mpr ⟨_, _, hclash⟩
    obtain ⟨j, ⟨⟨w, hw⟩, -⟩, hle, -, hfull⟩ := hreport diagnostic herror
    have hge : opcodeCount ≤ j := by
      by_contra! hlt
      obtain ⟨hj, i, hij, hi⟩ := EncodingTable.clash_constants_iff.mp hw
      rw [hall j hlt] at hj
      rw [hall i (hij.trans hlt), ← hj] at hi
      have hlt' : i < Word.all.length := Word.length_all ▸ hij.trans hlt
      exact hij.ne ((List.getElem?_inj hlt' Word.nodup_all).mp hi)
    rw [herror, (hfull (hle.antisymm hge)).1]

end Microcode
