import Mathlib.Order.Bounds.Basic
import Microcode.Proofs.OpcodeMap.Run

/-!
# Why a pattern is refused

While there are numbers left, a pattern is refused for the opcodes that it
claims and that have an owner (`OpcodeMap.Contested`), and the least of
them is reported (`insert_eq_error_iff`).

- **Refusals in closed form** (`insert_eq_error_iff_compatible`): among
  the opcodes that two compatible patterns both claim, the least carries
  the fixed bits of both and no others. So the opcode reported is the
  least of these unions, over the accepted patterns that are compatible
  with the new one; and one of them alone attains it, as accepted patterns
  share no opcode.
- **Refusals last** (`refused_of_refused`): owners are never lost, so a
  contested opcode stays contested. Later patterns can only add to the
  contested opcodes, and the one reported can only go down.
-/

namespace Microcode

namespace Pattern

variable {p q : Pattern}

theorem pairwise_opcodes (p : Pattern) : p.opcodes.Pairwise (· < ·) := by
  rw [opcodes_eq_filter_all]
  exact Word.pairwise_all.filter _

/-- A search of the claimed opcodes ends at the least that has an
answer. -/
theorem findSome?_opcodes_eq_some_iff {α : Type} {f : Word → Option α} {a : α} :
    p.opcodes.findSome? f = some a ↔
      ∃ w, IsLeast {w | p.Claims w ∧ (f w).isSome} w ∧ f w = some a := by
  have hsorted : p.opcodes.Pairwise fun v w => v.toNat < w.toNat := p.pairwise_opcodes
  rw [findSome?_eq_some_iff_of_pairwise hsorted]
  constructor
  · rintro ⟨w, hmem, hw, hleast⟩
    refine ⟨w, ⟨⟨mem_opcodes.mp hmem, Option.isSome_of_mem hw⟩, fun v hv => ?_⟩, hw⟩
    exact hleast v (mem_opcodes.mpr hv.1) hv.2
  · rintro ⟨w, hleast, hw⟩
    refine ⟨w, mem_opcodes.mpr hleast.1.1, hw, fun v hv hsome => ?_⟩
    exact hleast.2 ⟨mem_opcodes.mp hv, hsome⟩

/-- Of the opcodes that both patterns claim, the least is the one with the
fixed bits of both and no others. -/
theorem Compatible.isLeast_claims (h : p.Compatible q) (hp : p.Consistent) (hq : q.Consistent) :
    IsLeast {w | p.Claims w ∧ q.Claims w} (p.constBits ||| q.constBits) := by
  have hq' : q.Claims (p.constBits ||| q.constBits) := by
    rw [BitVec.or_comm]
    exact h.symm.claims_or hq hp
  refine ⟨⟨h.claims_or hp hq, hq'⟩, fun w hw => ?_⟩
  have hunion : p.constBits ||| q.constBits = w &&& (p.constMask ||| q.constMask) := by
    rw [← hw.1, ← hw.2, ← BitVec.and_or_distrib_left]
  rw [hunion, BitVec.le_def, BitVec.toNat_and]
  exact Nat.and_le_left

end Pattern

namespace OpcodeMap

variable {m : OpcodeMap} {p : Pattern} {mnemonic : String} {diagnostic : Diagnostic}

/-! ## What is reported -/

/-- The opcode has an owner, and the pattern claims it too. -/
def Contested (m : OpcodeMap) (p : Pattern) (w : Word) : Prop :=
  p.Claims w ∧ (m.slots.owner? w).isSome

theorem isSome_owner?_iff (m : OpcodeMap) (w : Word) :
    (m.owner? w).isSome ↔ (m.slots.owner? w).isSome := by
  rw [← map_val_owner?, Option.isSome_map]

theorem obstacle?_eq_some_iff :
    m.obstacle? mnemonic p = some diagnostic ↔ m.insert mnemonic p = .error diagnostic := by
  unfold insert
  cases m.obstacle? mnemonic p <;> simp

/-- While there are numbers left, a refusal reports the least contested
opcode and its owner. -/
theorem insert_eq_error_iff (hroom : m.size < opcodeCount) :
    m.insert mnemonic p = .error diagnostic ↔
      ∃ w i, IsLeast {w | m.Contested p w} w ∧ m.owner? w = some i ∧
        .conflict w m.names[i] i mnemonic m.size = diagnostic := by
  rw [← obstacle?_eq_some_iff, obstacle?, if_neg (Nat.not_le_of_lt hroom),
    Pattern.findSome?_opcodes_eq_some_iff]
  simp only [Option.isSome_map, isSome_owner?_iff, Option.map_eq_some_iff, exists_and_left,
    Contested]

theorem insert_of_full (hfull : opcodeCount ≤ m.size) :
    m.insert mnemonic p = .error (.tooManyPatterns m.size) := by
  rw [insert, obstacle?, if_pos hfull]

/-- A contested opcode keeps the pattern out. The opcode reported is this
one or one below it. -/
theorem Contested.exists_insert_eq_error {w : Word} (h : m.Contested p w)
    (hroom : m.size < opcodeCount) (mnemonic : String) :
    ∃ w' i, w' ≤ w ∧ m.owner? w' = some i ∧
      m.insert mnemonic p = .error (.conflict w' m.names[i] i mnemonic m.size) := by
  have hrefused : ¬ m.Admits p := by
    intro hadm
    have howner := h.2
    rw [hadm.2 w h.1] at howner
    cases howner
  obtain ⟨diagnostic, hins⟩ := @insert_eq_error m (mnemonic, p) hrefused
  obtain ⟨w', i, hleast, hi, rfl⟩ := (insert_eq_error_iff hroom).mp hins
  exact ⟨w', i, hleast.2 h, hi, hins⟩

/-! ## Refusals in closed form -/

/-- The fixed bits of the pattern together with those of a pattern in the
list that is compatible with it. -/
def unions (P : List Call) (p : Pattern) : Set Word :=
  {w | ∃ c ∈ P, c.2.Compatible p ∧ c.2.constBits ||| p.constBits = w}

namespace Holds

variable {P : List Call}

theorem contested_iff (h : m.Holds P) {w : Word} :
    m.Contested p w ↔ ∃ c ∈ P, c.2.Claims w ∧ p.Claims w := by
  have howner : (m.slots.owner? w).isSome ↔ ∃ c ∈ P, c.2.Claims w := by
    rw [Option.isSome_iff_ne_none, ne_eq, h.owner?_eq_none_iff]
    simp only [not_forall, not_not, exists_prop]
  rw [Contested, howner, and_comm]
  simp only [← and_assoc, exists_and_right]

theorem getElem_names (h : m.Holds P) {i : Fin m.size} {c : Call} (hc : P[i.val]? = some c) :
    m.names[i] = c.1 := by
  have hname : m.names[i.val]? = some c.1 := by
    rw [← Array.getElem?_toList, h.names_eq, List.getElem?_map, hc, Option.map_some]
  exact (Array.getElem?_eq_some_iff.mp hname).2

theorem owner?_eq_some_iff (h : m.Holds P) {w : Word} {i : Fin m.size} :
    m.owner? w = some i ↔ ∃ c, P[i.val]? = some c ∧ c.2.Claims w := by
  rw [← h.owner_iff, ← map_val_owner?, Option.map_eq_some_iff]
  constructor
  · intro hi
    exact ⟨i, hi, rfl⟩
  · rintro ⟨j, hj, heq⟩
    rw [hj, Fin.ext heq]

/-- For each compatible pattern only the least opcode shared with it
matters. -/
theorem isLeast_contested_iff (h : m.Holds P) (hcons : ∀ c ∈ P, c.2.Consistent)
    (hp : p.Consistent) {w : Word} :
    IsLeast {w | m.Contested p w} w ↔ IsLeast (unions P p) w := by
  have hcontested : ∀ c ∈ P, c.2.Compatible p → m.Contested p (c.2.constBits ||| p.constBits) :=
    fun c hc hcomp => h.contested_iff.mpr ⟨c, hc, (hcomp.isLeast_claims (hcons c hc) hp).1⟩
  have hbelow : ∀ v, m.Contested p v →
      ∃ c ∈ P, c.2.Compatible p ∧ c.2.constBits ||| p.constBits ≤ v := by
    intro v hv
    obtain ⟨c, hc, hclaims⟩ := h.contested_iff.mp hv
    have hcomp := Pattern.compatible_of_claims hclaims.1 hclaims.2
    exact ⟨c, hc, hcomp, (hcomp.isLeast_claims (hcons c hc) hp).2 hclaims⟩
  constructor
  · intro hleast
    obtain ⟨c, hc, hcomp, hle⟩ := hbelow w hleast.1
    have hge := hleast.2 (hcontested c hc hcomp)
    refine ⟨⟨c, hc, hcomp, BitVec.le_antisymm hle hge⟩, ?_⟩
    rintro _ ⟨c', hc', hcomp', rfl⟩
    exact hleast.2 (hcontested c' hc' hcomp')
  · rintro ⟨⟨c, hc, hcomp, rfl⟩, hleast⟩
    refine ⟨hcontested c hc hcomp, fun v hv => ?_⟩
    obtain ⟨c', hc', hcomp', hle⟩ := hbelow v hv
    exact BitVec.le_trans (hleast ⟨c', hc', hcomp', rfl⟩) hle

/-- The refusal, in terms of the accepted patterns alone. -/
theorem insert_eq_error_iff (h : m.Holds P) (hcons : ∀ c ∈ P, c.2.Consistent)
    (hroom : P.length < opcodeCount) (hp : p.Consistent) :
    m.insert mnemonic p = .error diagnostic ↔
      ∃ w i c, IsLeast (unions P p) w ∧ P[i]? = some c ∧ c.2.Claims w ∧
        .conflict w c.1 i mnemonic P.length = diagnostic := by
  rw [← h.size_eq] at hroom ⊢
  rw [OpcodeMap.insert_eq_error_iff hroom]
  simp only [h.isLeast_contested_iff hcons hp]
  constructor
  · rintro ⟨w, i, hleast, hi, rfl⟩
    obtain ⟨c, hc, hclaim⟩ := h.owner?_eq_some_iff.mp hi
    exact ⟨w, i, c, hleast, hc, hclaim, by rw [h.getElem_names hc]⟩
  · rintro ⟨w, i, c, hleast, hc, hclaim, rfl⟩
    have hlt : i < m.size := by
      rw [h.size_eq]
      exact (List.getElem?_eq_some_iff.mp hc).1
    refine ⟨w, ⟨i, hlt⟩, hleast, h.owner?_eq_some_iff.mpr ⟨c, hc, hclaim⟩, ?_⟩
    rw [h.getElem_names hc]

/-- The least of the opcodes is attained by its owner alone. -/
theorem union_eq_iff (h : m.Holds P) (hcons : ∀ c ∈ P, c.2.Consistent) (hp : p.Consistent)
    {w : Word} (hleast : IsLeast (unions P p) w) {i j : Nat} {c d : Call}
    (hi : P[i]? = some c) (hclaim : c.2.Claims w) (hj : P[j]? = some d) :
    d.2.Compatible p ∧ d.2.constBits ||| p.constBits = w ↔ j = i := by
  constructor
  · rintro ⟨hcomp, rfl⟩
    have hd := (hcomp.isLeast_claims (hcons d (List.mem_of_getElem? hj)) hp).1.1
    exact h.eq_of_claims hj hi hd hclaim
  · rintro rfl
    obtain ⟨c', hc', hcomp, heq⟩ := hleast.1
    obtain ⟨k, hk⟩ := List.mem_iff_getElem?.mp hc'
    have hclaim' := (hcomp.isLeast_claims (hcons c' hc') hp).1.1
    rw [heq] at hclaim'
    obtain rfl := h.eq_of_claims hk hi hclaim' hclaim
    obtain rfl := Option.some.inj (hk.symm.trans hj)
    exact ⟨hcomp, heq⟩

end Holds

/-- A pattern that comes to a map of consistent patterns, while there are
numbers left, is refused exactly if it is compatible with one of them. The
opcode reported is the least union of its fixed bits with those of such a
pattern; it is reported with the one pattern that attains the least, and the
map is left as it was. -/
theorem insert_eq_error_iff_compatible {calls : List Call} (hcons : ∀ c ∈ calls, c.2.Consistent)
    (hroom : (accepted ∅ calls).length < opcodeCount) {p : Pattern} (hp : p.Consistent)
    (mnemonic : String) :
    let m := run ∅ calls
    let P := accepted ∅ calls
    ((∃ diagnostic, m.insert mnemonic p = .error diagnostic) ↔ ∃ c ∈ P, c.2.Compatible p) ∧
      ∀ diagnostic, m.insert mnemonic p = .error diagnostic →
        (∃ w i, ∃ h : i < P.length,
          diagnostic = .conflict w P[i].1 i mnemonic P.length ∧
          IsLeast {w | ∃ c ∈ P, c.2.Compatible p ∧ c.2.constBits ||| p.constBits = w} w ∧
          ∀ j, ∀ hj : j < P.length,
            P[j].2.Compatible p ∧ P[j].2.constBits ||| p.constBits = w ↔ j = i) ∧
        m.run [(mnemonic, p)] = m := by
  intro m P
  have h : m.Holds P := holds_run calls
  have hcons' : ∀ c ∈ P, c.2.Consistent :=
    fun c hc => hcons c ((accepted_sublist ∅ calls).subset hc)
  refine ⟨?_, fun diagnostic hins => ⟨?_, ?_⟩⟩
  · constructor
    · rintro ⟨diagnostic, hins⟩
      obtain ⟨w, -, -, hleast, -⟩ := (h.insert_eq_error_iff hcons' hroom hp).mp hins
      obtain ⟨c, hc, hcomp, -⟩ := hleast.1
      exact ⟨c, hc, hcomp⟩
    · rintro ⟨c, hc, hcomp⟩
      have hclaims := (hcomp.isLeast_claims (hcons' c hc) hp).1
      have hcontested : m.Contested p _ := h.contested_iff.mpr ⟨c, hc, hclaims⟩
      rw [← h.size_eq] at hroom
      obtain ⟨w, i, -, -, hins⟩ := hcontested.exists_insert_eq_error hroom mnemonic
      exact ⟨_, hins⟩
  · obtain ⟨w, i, c, hleast, hi, hclaim, rfl⟩ := (h.insert_eq_error_iff hcons' hroom hp).mp hins
    obtain ⟨hlt, rfl⟩ := List.getElem?_eq_some_iff.mp hi
    refine ⟨w, i, hlt, rfl, hleast, fun j hj => ?_⟩
    exact h.union_eq_iff hcons' hp hleast hi hclaim (List.getElem?_eq_getElem hj)
  · rw [run, hins, run]

/-- Two patterns are in the way, and the later one has the lower opcode. -/
theorem insert_eq_error_constants :
    let calls : List Call :=
      [("High", ⟨0xFFFF, 0x0105, 0, []⟩), ("Low", ⟨0xFFFF, 0x0103, 0, []⟩),
        ("Apart", ⟨0xFF00, 0x0200, 0, []⟩)]
    let p : Pattern := ⟨0xFF00, 0x0100, 0, []⟩
    (∀ c ∈ calls, c.2.Consistent) ∧ (accepted ∅ calls).length < opcodeCount ∧ p.Consistent ∧
      (run ∅ calls).insert "Wide" p = .error (.conflict 0x0103 "Low" 1 "Wide" 3) ∧
      (run ∅ calls).run [("Wide", p)] = run ∅ calls := by
  intro calls p
  have hcons : ∀ c ∈ calls, c.2.Consistent := by decide
  have hapart : calls.Pairwise fun c d => ¬ c.2.Compatible d.2 := by decide
  have hdis : calls.Pairwise fun c d => c.2.Disjoint d.2 :=
    hapart.imp_of_mem fun hc hd h =>
      (Pattern.disjoint_iff_not_compatible (hcons _ hc) (hcons _ hd)).mpr h
  have hall : accepted ∅ calls = calls := holds_empty.accepted_eq_self (by decide) hdis
  have hroom : (accepted ∅ calls).length < opcodeCount := by
    rw [hall]
    decide
  have hp : p.Consistent := by decide
  obtain ⟨hrefused, hreport⟩ := insert_eq_error_iff_compatible hcons hroom hp "Wide"
  simp only [hall] at hrefused hreport
  obtain ⟨diagnostic, hins⟩ := hrefused.mpr ⟨("High", ⟨0xFFFF, 0x0105, 0, []⟩), by decide⟩
  obtain ⟨⟨w, i, hi, rfl, hleast, hunique⟩, hkept⟩ := hreport diagnostic hins
  have hlow : (⟨0xFFFF, 0x0103, 0, []⟩ : Pattern).Compatible p ∧
      (0x0103 : Word) ||| p.constBits = 0x0103 := by decide
  have hle : w ≤ 0x0103 := hleast.2 ⟨("Low", ⟨0xFFFF, 0x0103, 0, []⟩), by decide, hlow⟩
  obtain rfl : w = 0x0103 := by
    have hbelow : ∀ c ∈ calls, c.2.Compatible p → c.2.constBits ||| p.constBits ≤ 0x0103 →
        c.2.constBits ||| p.constBits = 0x0103 := by decide
    obtain ⟨c, hc, hcomp, rfl⟩ := hleast.1
    exact hbelow c hc hcomp hle
  obtain rfl := (hunique 1 (by decide)).mp hlow
  exact ⟨hcons, hroom, hp, hins, hkept⟩

/-! ## Refusals last -/

/-- The step: what an admitted pattern claims had no owner before. -/
theorem owner?_claim_of_admits {c : Call} {w : Word} {i : Nat} (hadm : m.Admits c.2)
    (h : m.slots.owner? w = some i) : (m.claim c.1 c.2).slots.owner? w = some i := by
  have hfree : ¬ c.2.Claims w := by
    intro hclaim
    rw [hadm.2 w hclaim] at h
    cases h
  rw [owner?_claim, if_neg hfree, h]

theorem owner?_run {w : Word} {i : Nat} (h : m.slots.owner? w = some i) (calls : List Call) :
    (m.run calls).slots.owner? w = some i := by
  induction m, calls using run_induction with
  | nil m => exact h
  | admitted m c rest hadm ih =>
      rw [run_cons_of_admits hadm]
      exact ih (owner?_claim_of_admits hadm h)
  | refused m c rest hadm ih =>
      rw [run_cons_of_not_admits hadm]
      exact ih h

theorem Contested.run {w : Word} (h : m.Contested p w) (calls : List Call) :
    (m.run calls).Contested p w := by
  obtain ⟨i, hi⟩ := Option.isSome_iff_exists.mp h.2
  exact ⟨h.1, Option.isSome_of_mem (owner?_run hi calls)⟩

theorem contested_of_insert_eq_error {w : Word} {existing incoming : String} {i j : Nat}
    (h : m.insert mnemonic p = .error (.conflict w existing i incoming j)) :
    m.Contested p w := by
  rcases Nat.lt_or_ge m.size opcodeCount with hroom | hfull
  · obtain ⟨w', i', hleast, -, heq⟩ := (insert_eq_error_iff hroom).mp h
    obtain ⟨rfl, -⟩ := Diagnostic.conflict.inj heq
    exact hleast.1
  · rw [insert_of_full hfull] at h
    cases h

theorem run_append (m : OpcodeMap) (before later : List Call) :
    m.run (before ++ later) = (m.run before).run later := by
  induction m, before using run_induction with
  | nil m => rfl
  | admitted m c rest hadm ih =>
      rw [List.cons_append, run_cons_of_admits hadm, run_cons_of_admits hadm, ih]
  | refused m c rest hadm ih =>
      rw [List.cons_append, run_cons_of_not_admits hadm, run_cons_of_not_admits hadm, ih]

/-- Calls that come later, refused or not, take no opcode from its owner.
Nor do they help a pattern in that was refused for an opcode: it is
refused again, under whatever mnemonic, because no number is left for it or
for the same opcode or one below. -/
theorem refused_of_refused (before : List Call) :
    (∀ later w i, (run ∅ before).slots.owner? w = some i →
      (run ∅ (before ++ later)).slots.owner? w = some i) ∧
    ∀ mnemonic p w existing i incoming j,
      (run ∅ before).insert mnemonic p = .error (.conflict w existing i incoming j) →
      ∀ later mnemonic',
        let calls := before ++ (mnemonic, p) :: later
        let count := (accepted ∅ calls).length
        (count = opcodeCount ∧
            (run ∅ calls).insert mnemonic' p = .error (.tooManyPatterns opcodeCount)) ∨
          (count ≠ opcodeCount ∧ ∃ w' existing' i', w' ≤ w ∧
            (run ∅ calls).insert mnemonic' p =
              .error (.conflict w' existing' i' mnemonic' count)) := by
  refine ⟨fun later w i hi => ?_, fun mnemonic p w existing i incoming j hrefused => ?_⟩
  · rw [run_append]
    exact owner?_run hi later
  · intro later mnemonic' calls count
    have hsize : (run ∅ calls).size = count := (holds_run calls).size_eq
    have hle : (run ∅ calls).size ≤ opcodeCount := size_run_le (Nat.zero_le _) calls
    have hcontested : (run ∅ calls).Contested p w := by
      rw [run_append]
      exact (contested_of_insert_eq_error hrefused).run _
    rw [← hsize]
    rcases Nat.lt_or_eq_of_le hle with hroom | hfull
    · obtain ⟨w', i', hw', -, hins⟩ := hcontested.exists_insert_eq_error hroom mnemonic'
      exact .inr ⟨Nat.ne_of_lt hroom, w', _, i', hw', hins⟩
    · have hins : (run ∅ calls).insert mnemonic' p = _ := insert_of_full (Nat.le_of_eq hfull.symm)
      rw [hfull] at hins
      exact .inl ⟨hfull, hins⟩

/-- The opcode reported goes down as later patterns come in, while the
first one keeps its owner. -/
theorem refused_of_refused_constants :
    let before : List Call := [("High", ⟨0xFFFF, 0x0105, 0, []⟩)]
    let p : Pattern := ⟨0xFF00, 0x0100, 0, []⟩
    let calls := before ++ [("Wide", p), ("Low", ⟨0xFFFF, 0x0103, 0, []⟩)]
    (run ∅ before).slots.owner? 0x0105 = some 0 ∧
      (run ∅ before).insert "Wide" p = .error (.conflict 0x0105 "High" 0 "Wide" 1) ∧
      (run ∅ calls).slots.owner? 0x0105 = some 0 ∧
      ∃ w existing i, w ≤ 0x0105 ∧ (run ∅ calls).insert "Again" p =
        .error (.conflict w existing i "Again" (accepted ∅ calls).length) := by
  intro before p calls
  have h : (run ∅ before).Holds before := by
    have hall : accepted ∅ before = before :=
      holds_empty.accepted_eq_self (by decide) (List.pairwise_singleton _ _)
    have hrun := holds_run before
    rwa [hall] at hrun
  have howner : (run ∅ before).slots.owner? 0x0105 = some 0 :=
    (h.owner_iff 0x0105 0).mpr ⟨("High", ⟨0xFFFF, 0x0105, 0, []⟩), rfl, by decide⟩
  have hleast : IsLeast (unions before p) 0x0105 := by
    refine ⟨⟨("High", ⟨0xFFFF, 0x0105, 0, []⟩), by decide⟩, ?_⟩
    rintro w ⟨c, hc, -, rfl⟩
    obtain rfl := List.mem_singleton.mp hc
    decide
  have hrefused : (run ∅ before).insert "Wide" p =
      .error (.conflict 0x0105 "High" 0 "Wide" 1) :=
    (h.insert_eq_error_iff (by decide) (by decide) (by decide)).mpr
      ⟨0x0105, 0, _, hleast, rfl, by decide, rfl⟩
  obtain ⟨hkept, hlater⟩ := refused_of_refused before
  refine ⟨howner, hrefused, hkept _ _ _ howner, ?_⟩
  have hagain := hlater _ _ _ _ _ _ _ hrefused [("Low", ⟨0xFFFF, 0x0103, 0, []⟩)] "Again"
  rcases hagain with ⟨hfull, -⟩ | ⟨-, hconflict⟩
  · have hle := (accepted_sublist ∅ calls).length_le
    rw [hfull] at hle
    exact absurd hle (by decide)
  · exact hconflict

end OpcodeMap

end Microcode
