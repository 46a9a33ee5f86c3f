import Microcode.OpcodeMap
import Microcode.Proofs.Pattern.Claims

/-!
# Runs of insertions

An opcode map is built by calls of `insert`, any of which may be refused.
`run` is the map after a list of calls and `accepted` the calls that
were not refused. What a map has to do with the calls that built it is
one invariant, `Holds`: the names are the mnemonics of the accepted calls,
and an opcode is owned by the number `i` exactly if the pattern of the
`i`-th accepted call claims it.

One accepted call keeps the invariant (`Holds.claim`), hence every run
does (`Holds.run`). The rest is read off it: accepted patterns never
share an opcode, a look-up is a search of the accepted patterns from the
front, and what a map admits depends on them alone.
-/

namespace Microcode

namespace OpcodeMap

/-- A call of `insert`: a mnemonic and the pattern to be put in. -/
abbrev Call := String × Pattern

/-- The map after the calls. A call that is refused leaves it as it
was. -/
def run (m : OpcodeMap) : List Call → OpcodeMap
  | [] => m
  | (mnemonic, p) :: rest =>
      match m.insert mnemonic p with
      | .ok m' => m'.run rest
      | .error _ => m.run rest

/-- The calls that are not refused, in order. -/
def accepted (m : OpcodeMap) : List Call → List Call
  | [] => []
  | (mnemonic, p) :: rest =>
      match m.insert mnemonic p with
      | .ok m' => (mnemonic, p) :: m'.accepted rest
      | .error _ => m.accepted rest

/-! ## What one call does -/

theorem map_val_owner? (m : OpcodeMap) (w : Word) :
    (m.owner? w).map Fin.val = m.slots.owner? w := by
  unfold owner?
  split <;> simp [*]

theorem owner?_empty (w : Word) : (∅ : OpcodeMap).slots.owner? w = none := by
  change (empty : OpcodeMap).slots.owner? w = none
  simp [empty, OpcodeSlots.owner?]

/-- There is a number left for the pattern, and no opcode that it claims
has an owner. -/
def Admits (m : OpcodeMap) (p : Pattern) : Prop :=
  m.size < opcodeCount ∧ ∀ w, p.Claims w → m.slots.owner? w = none

theorem obstacle?_eq_none_iff {m : OpcodeMap} {mnemonic : String} {p : Pattern} :
    m.obstacle? mnemonic p = none ↔ m.Admits p := by
  rw [obstacle?, Admits]
  split
  next hfull => simp [Nat.not_lt.mpr hfull]
  next hroom =>
    rw [List.findSome?_eq_none_iff, and_iff_right (Nat.lt_of_not_le hroom)]
    refine forall_congr' fun w => ?_
    rw [Pattern.mem_opcodes, ← map_val_owner?]
    simp only [Option.map_eq_none_iff]

/-- A call goes through exactly if the pattern is admitted, and then
makes it the owner of what it claims. -/
theorem insert_eq_ok_iff {m m' : OpcodeMap} {mnemonic : String} {p : Pattern} :
    m.insert mnemonic p = .ok m' ↔ m.Admits p ∧ m.claim mnemonic p = m' := by
  rw [← @obstacle?_eq_none_iff m mnemonic p, insert]
  cases m.obstacle? mnemonic p <;> simp

theorem owner?_claim (m : OpcodeMap) (mnemonic : String) (p : Pattern) (w : Word) :
    (m.claim mnemonic p).slots.owner? w =
      if p.Claims w then some m.size else m.slots.owner? w := by
  rw [claim, OpcodeSlots.owner?_mark]
  exact if_congr Pattern.mem_opcodes rfl rfl

theorem run_cons_of_admits {m : OpcodeMap} {c : Call} (h : m.Admits c.2) (rest : List Call) :
    m.run (c :: rest) = (m.claim c.1 c.2).run rest := by
  rw [run, insert_eq_ok_iff.mpr ⟨h, rfl⟩]

theorem accepted_cons_of_admits {m : OpcodeMap} {c : Call} (h : m.Admits c.2)
    (rest : List Call) :
    m.accepted (c :: rest) = c :: (m.claim c.1 c.2).accepted rest := by
  rw [accepted, insert_eq_ok_iff.mpr ⟨h, rfl⟩]

theorem insert_eq_error {m : OpcodeMap} {c : Call} (h : ¬ m.Admits c.2) :
    ∃ diagnostic, m.insert c.1 c.2 = .error diagnostic := by
  cases hins : m.insert c.1 c.2 with
  | error diagnostic => exact ⟨diagnostic, rfl⟩
  | ok m' => exact absurd (insert_eq_ok_iff.mp hins).1 h

theorem run_cons_of_not_admits {m : OpcodeMap} {c : Call} (h : ¬ m.Admits c.2)
    (rest : List Call) : m.run (c :: rest) = m.run rest := by
  obtain ⟨diagnostic, hins⟩ := insert_eq_error h
  rw [run, hins]

theorem accepted_cons_of_not_admits {m : OpcodeMap} {c : Call} (h : ¬ m.Admits c.2)
    (rest : List Call) : m.accepted (c :: rest) = m.accepted rest := by
  obtain ⟨diagnostic, hins⟩ := insert_eq_error h
  rw [accepted, hins]

/-- Induction along a run: the first call is admitted or refused. -/
@[elab_as_elim]
theorem run_induction {motive : OpcodeMap → List Call → Prop} (nil : ∀ m, motive m [])
    (admitted : ∀ m c rest, m.Admits c.2 → motive (m.claim c.1 c.2) rest → motive m (c :: rest))
    (refused : ∀ m c rest, ¬ m.Admits c.2 → motive m rest → motive m (c :: rest))
    (m : OpcodeMap) (calls : List Call) : motive m calls := by
  induction calls generalizing m with
  | nil => exact nil m
  | cons c rest ih =>
      by_cases hadm : m.Admits c.2
      · exact admitted m c rest hadm (ih _)
      · exact refused m c rest hadm (ih m)

/-! ## The invariant -/

/-- The map was built by the accepted calls `P`. -/
structure Holds (m : OpcodeMap) (P : List Call) : Prop where
  names_eq : m.names.toList = P.map Prod.fst
  owner_iff : ∀ w i, m.slots.owner? w = some i ↔ ∃ c, P[i]? = some c ∧ c.2.Claims w

theorem holds_empty : (∅ : OpcodeMap).Holds [] where
  names_eq := rfl
  owner_iff w i := by simp [owner?_empty]

namespace Holds

variable {m : OpcodeMap} {P : List Call}

theorem size_eq (h : m.Holds P) : m.size = P.length := by
  rw [size, ← Array.length_toList, h.names_eq, List.length_map]

theorem owner_lt (h : m.Holds P) {w : Word} {i : Nat} (hi : m.slots.owner? w = some i) :
    i < P.length := by
  obtain ⟨c, hc, -⟩ := (h.owner_iff w i).mp hi
  exact (List.getElem?_eq_some_iff.mp hc).1

theorem owner?_eq_none_iff (h : m.Holds P) {w : Word} :
    m.slots.owner? w = none ↔ ∀ c ∈ P, ¬ c.2.Claims w := by
  rw [Option.eq_none_iff_forall_ne_some]
  constructor
  · intro hnone c hc hclaim
    obtain ⟨i, hi⟩ := List.mem_iff_getElem?.mp hc
    exact hnone i ((h.owner_iff w i).mpr ⟨c, hi, hclaim⟩)
  · intro hfree i hi
    obtain ⟨c, hc, hclaim⟩ := (h.owner_iff w i).mp hi
    exact hfree c (List.mem_of_getElem? hc) hclaim

/-- Two positions whose patterns claim one opcode are the same, for the
slot of the opcode holds one number. -/
theorem eq_of_claims (h : m.Holds P) {w : Word} {i j : Nat} {c d : Call}
    (hi : P[i]? = some c) (hj : P[j]? = some d) (hc : c.2.Claims w) (hd : d.2.Claims w) :
    i = j := by
  have hiw := (h.owner_iff w i).mpr ⟨c, hi, hc⟩
  have hjw := (h.owner_iff w j).mpr ⟨d, hj, hd⟩
  exact Option.some.inj (hiw.symm.trans hjw)

theorem pairwise_disjoint (h : m.Holds P) : P.Pairwise fun c d => c.2.Disjoint d.2 := by
  rw [List.pairwise_iff_getElem]
  intro i j hi hj hij w hc hd
  have heq := h.eq_of_claims (List.getElem?_eq_getElem hi) (List.getElem?_eq_getElem hj) hc hd
  omega

theorem owner?_eq_findIdx? (h : m.Holds P) (w : Word) :
    m.slots.owner? w = P.findIdx? fun c => c.2.Claims w := by
  cases hfind : P.findIdx? fun c => c.2.Claims w with
  | none =>
      rw [List.findIdx?_eq_none_iff] at hfind
      exact h.owner?_eq_none_iff.mpr fun c hc => of_decide_eq_false (hfind c hc)
  | some i =>
      obtain ⟨hi, hclaim, -⟩ := List.findIdx?_eq_some_iff_getElem.mp hfind
      exact (h.owner_iff w i).mpr
        ⟨P[i], List.getElem?_eq_getElem hi, of_decide_eq_true hclaim⟩

theorem admits_iff (h : m.Holds P) {p : Pattern} :
    m.Admits p ↔ P.length < opcodeCount ∧ ∀ c ∈ P, c.2.Disjoint p := by
  rw [Admits, h.size_eq]
  refine and_congr_right fun _ => ?_
  simp only [h.owner?_eq_none_iff, Pattern.Disjoint]
  exact ⟨fun hfree c hc w hcw hpw => hfree w hpw c hc hcw,
    fun hdis w hpw c hc hcw => hdis c hc w hcw hpw⟩

/-- The step: the new pattern takes the next number, and no opcode that
it claims had an owner, so no earlier owner is lost. -/
theorem claim (h : m.Holds P) {c : Call} (hadm : m.Admits c.2) :
    (m.claim c.1 c.2).Holds (P ++ [c]) where
  names_eq := by
    rw [OpcodeMap.claim, Array.toList_push, h.names_eq, List.map_append]
    rfl
  owner_iff w i := by
    rw [owner?_claim, h.size_eq]
    simp only [getElem?_concat_eq_some_iff]
    split
    next hclaim =>
      have hfree := h.owner?_eq_none_iff.mp (hadm.2 w hclaim)
      constructor
      · rintro ⟨⟩
        exact ⟨c, .inr ⟨rfl, rfl⟩, hclaim⟩
      · rintro ⟨d, hplace, hdw⟩
        rcases hplace with hd | ⟨rfl, rfl⟩
        · exact absurd hdw (hfree d (List.mem_of_getElem? hd))
        · rfl
    next hclaim =>
      rw [h.owner_iff]
      constructor
      · rintro ⟨d, hd, hdw⟩
        exact ⟨d, .inl hd, hdw⟩
      · rintro ⟨d, hplace, hdw⟩
        rcases hplace with hd | ⟨-, rfl⟩
        · exact ⟨d, hd, hdw⟩
        · exact absurd hdw hclaim

end Holds

/-! ## Whole runs -/

theorem Holds.run {m : OpcodeMap} {P : List Call} (h : m.Holds P) (calls : List Call) :
    (m.run calls).Holds (P ++ m.accepted calls) := by
  induction m, calls using run_induction generalizing P with
  | nil m =>
      rw [accepted, List.append_nil]
      exact h
  | admitted m c rest hadm ih =>
      have hstep := ih (h.claim hadm)
      rw [run_cons_of_admits hadm, accepted_cons_of_admits hadm, List.append_cons]
      exact hstep
  | refused m c rest hadm ih =>
      rw [run_cons_of_not_admits hadm, accepted_cons_of_not_admits hadm]
      exact ih h

theorem holds_run (calls : List Call) :
    (run ∅ calls).Holds (accepted ∅ calls) := holds_empty.run calls

theorem holds_run_of_accepted {calls : List Call} (h : accepted ∅ calls = calls) :
    (run ∅ calls).Holds calls := by
  have hrun := holds_run calls
  rwa [h] at hrun

theorem accepted_sublist (m : OpcodeMap) (calls : List Call) :
    (m.accepted calls).Sublist calls := by
  induction m, calls using run_induction with
  | nil m => exact .slnil
  | admitted m c rest hadm ih =>
      rw [accepted_cons_of_admits hadm]
      exact ih.cons_cons c
  | refused m c rest hadm ih =>
      rw [accepted_cons_of_not_admits hadm]
      exact ih.cons c

/-- Refused calls leave no trace. -/
theorem run_accepted (m : OpcodeMap) (calls : List Call) :
    m.run (m.accepted calls) = m.run calls := by
  induction m, calls using run_induction with
  | nil m => rfl
  | admitted m c rest hadm ih =>
      rw [accepted_cons_of_admits hadm, run_cons_of_admits hadm, run_cons_of_admits hadm, ih]
  | refused m c rest hadm ih =>
      rw [accepted_cons_of_not_admits hadm, run_cons_of_not_admits hadm, ih]

theorem accepted_accepted (m : OpcodeMap) (calls : List Call) :
    m.accepted (m.accepted calls) = m.accepted calls := by
  induction m, calls using run_induction with
  | nil m => rfl
  | admitted m c rest hadm ih =>
      rw [accepted_cons_of_admits hadm, accepted_cons_of_admits hadm, ih]
  | refused m c rest hadm ih =>
      rw [accepted_cons_of_not_admits hadm, ih]

/-- Calls are all accepted where their patterns are disjoint from each
other and from those already in, and the numbers suffice. -/
theorem Holds.accepted_eq_self {m : OpcodeMap} {P calls : List Call} (h : m.Holds P)
    (hlen : (P ++ calls).length ≤ opcodeCount)
    (hdis : (P ++ calls).Pairwise fun c d => c.2.Disjoint d.2) :
    m.accepted calls = calls := by
  induction m, calls using run_induction generalizing P with
  | nil m => rfl
  | admitted m c rest hadm ih =>
      rw [List.append_cons] at hlen hdis
      rw [accepted_cons_of_admits hadm, ih (h.claim hadm) hlen hdis]
  | refused m c rest hadm ih =>
      rw [List.length_append, List.length_cons] at hlen
      have hroom : P.length < opcodeCount := by omega
      obtain ⟨-, -, hcross⟩ := List.pairwise_append.mp hdis
      exact absurd (h.admits_iff.mpr ⟨hroom, fun d hd => hcross d hd c List.mem_cons_self⟩) hadm

/-- There are never more patterns than numbers for them. -/
theorem size_run_le {m : OpcodeMap} (h : m.size ≤ opcodeCount) (calls : List Call) :
    (m.run calls).size ≤ opcodeCount := by
  induction m, calls using run_induction with
  | nil m => exact h
  | admitted m c rest hadm ih =>
      have hsize : (m.claim c.1 c.2).size ≤ opcodeCount := by
        rw [size, OpcodeMap.claim, Array.size_push]
        exact hadm.1
      rw [run_cons_of_admits hadm]
      exact ih hsize
  | refused m c rest hadm ih =>
      rw [run_cons_of_not_admits hadm]
      exact ih h

/-- After any calls, whichever of them were refused, the map says of the
accepted patterns which opcodes they claim, and nothing else. As the part
of a run up to any of its calls is itself a run, this holds after every
call. -/
theorem run_invariant (calls : List Call) :
    let m := run ∅ calls
    let P := accepted ∅ calls
    m.names.toList = P.map Prod.fst ∧
      (∀ w i, m.slots.owner? w = some i ↔ ∃ h : i < P.length, P[i].2.Claims w) ∧
      P.Pairwise (fun c d => c.2.Disjoint d.2) ∧
      (∀ w i, m.slots.owner? w = some i → i < m.names.size ∧ i < opcodeCount) ∧
      (∀ w, (m.owner? w).map Fin.val = P.findIdx? fun c => c.2.Claims w) ∧
      accepted ∅ P = P ∧ run ∅ P = m := by
  intro m P
  have h : m.Holds P := holds_run calls
  have hsize : m.size ≤ opcodeCount := size_run_le (Nat.zero_le _) calls
  refine ⟨h.names_eq, ?_, h.pairwise_disjoint, ?_, ?_, accepted_accepted ∅ calls,
    run_accepted ∅ calls⟩
  · intro w i
    rw [h.owner_iff]
    constructor
    · rintro ⟨c, hc, hclaim⟩
      obtain ⟨hi, rfl⟩ := List.getElem?_eq_some_iff.mp hc
      exact ⟨hi, hclaim⟩
    · rintro ⟨hi, hclaim⟩
      exact ⟨P[i], List.getElem?_eq_getElem hi, hclaim⟩
  · intro w i hi
    have hlt : i < m.size := by
      rw [h.size_eq]
      exact h.owner_lt hi
    exact ⟨hlt, Nat.lt_of_lt_of_le hlt hsize⟩
  · intro w
    rw [map_val_owner?, h.owner?_eq_findIdx?]

end OpcodeMap

end Microcode
