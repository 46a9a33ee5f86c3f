import Mathlib.Logic.Basic
import Microcode.References

/-!
# Recording references

A reference map is known by the pairs of target and source that it holds
(`SourceMap.Has`) as long as none of its sets is empty
(`SourceMap.NoneEmpty`). Adding a pair adds that pair and nothing else.
From this follows what is recorded by a whole list of transfers
(`has_recordAll`): in the map of each kind, the transfers of that kind.

The three kinds of transfer that refer to an address differ only in
their mnemonic, their map and their flag, so everything here is said once
for a kind.
-/

namespace Microcode

/-! ## Kinds of reference -/

inductive RefKind where
  | call
  | branch
  | conditional
deriving DecidableEq, Repr

namespace RefKind

def mnemonic : RefKind → String
  | .call => Mnemonic.callMicrosubroutine
  | .branch => Mnemonic.branch
  | .conditional => Mnemonic.conditionalBranch

def transfer : RefKind → Word → Transfer
  | .call => .call
  | .branch => .branch
  | .conditional => .conditionalBranch

theorem mnemonic_eq_mnemonic_iff {k k' : RefKind} : k.mnemonic = k'.mnemonic ↔ k = k' := by
  cases k <;> cases k' <;> decide

theorem transfer_eq_transfer_iff {k k' : RefKind} {t t' : Word} :
    k.transfer t = k'.transfer t' ↔ k = k' ∧ t = t' := by
  cases k <;> cases k' <;> simp [transfer]

end RefKind

def References.sources (r : References) : RefKind → SourceMap
  | .call => r.calls
  | .branch => r.branches
  | .conditional => r.conditionalBranches

def RefFlags.has (f : RefFlags) : RefKind → Bool
  | .call => f.subroutine
  | .branch => f.branch
  | .conditional => f.conditional

theorem RefFlags.ext_has {f g : RefFlags} (h : ∀ k, f.has k = g.has k) : f = g := by
  obtain ⟨fs, fb, fc⟩ := f
  obtain ⟨gs, gb, gc⟩ := g
  obtain rfl : fs = gs := h .call
  obtain rfl : fb = gb := h .branch
  obtain rfl : fc = gc := h .conditional
  rfl

theorem RefFlags.ne_empty_iff {f : RefFlags} : f ≠ {} ↔ ∃ k, f.has k := by
  have hempty : ∀ k, ({} : RefFlags).has k = false := by
    intro k
    cases k <;> rfl
  constructor
  · intro hne
    by_cases hsome : ∃ k, f.has k
    · exact hsome
    · refine absurd (RefFlags.ext_has fun k => ?_) hne
      rw [hempty k, Bool.eq_false_iff]
      exact fun hk => hsome ⟨k, hk⟩
  · rintro ⟨k, hk⟩ rfl
    rw [hempty k] at hk
    cases hk

theorem Transfer.classify_mnemonic (k : RefKind) (w : Word) :
    classify k.mnemonic w = k.transfer w.target := by
  cases k <;> rfl

theorem Transfer.classify_ne_transfer {mnemonic : String} (h : ∀ k : RefKind, mnemonic ≠ k.mnemonic)
    (w : Word) (k : RefKind) (target : Word) : classify mnemonic w ≠ k.transfer target := by
  have hcall : mnemonic ≠ Mnemonic.callMicrosubroutine := h .call
  have hbranch : mnemonic ≠ Mnemonic.branch := h .branch
  have hconditional : mnemonic ≠ Mnemonic.conditionalBranch := h .conditional
  rw [classify, if_neg hcall, if_neg hbranch, if_neg hconditional]
  intro heq
  split at heq
  next => cases k <;> cases heq
  split at heq
  next => cases k <;> cases heq
  next => cases k <;> cases heq

theorem Transfer.classify_eq_transfer_iff {mnemonic : String} {w target : Word} {k : RefKind} :
    classify mnemonic w = k.transfer target ↔ mnemonic = k.mnemonic ∧ w.target = target := by
  by_cases hkind : ∃ k' : RefKind, mnemonic = k'.mnemonic
  · obtain ⟨k', rfl⟩ := hkind
    rw [classify_mnemonic, RefKind.transfer_eq_transfer_iff, RefKind.mnemonic_eq_mnemonic_iff]
  · have hne : ∀ k' : RefKind, mnemonic ≠ k'.mnemonic := fun k' heq => hkind ⟨k', heq⟩
    constructor
    · intro h
      exact absurd h (classify_ne_transfer hne w k target)
    · intro h
      exact absurd h.1 (hne k)

/-! ## One map -/

namespace SourceMap

/-- The map holds `source` as a source of `target`. -/
def Has (m : SourceMap) (target source : Word) : Prop :=
  ∃ sources, m[target]? = some sources ∧ source ∈ sources

/-- Every target in the map has a source. -/
def NoneEmpty (m : SourceMap) : Prop :=
  ∀ (target : Word) (sources : AddressSet), m[target]? = some sources → sources ≠ ∅

theorem not_has_empty (t a : Word) : ¬ Has ∅ t a := by
  rintro ⟨sources, hs, -⟩
  rw [Std.ExtTreeMap.getElem?_empty] at hs
  cases hs

theorem noneEmpty_empty : NoneEmpty ∅ := by
  intro t sources hs
  rw [Std.ExtTreeMap.getElem?_empty] at hs
  cases hs

theorem getElem?_add (m : SourceMap) (target source t : Word) :
    (m.add target source)[t]? =
      if target = t then some ((m[target]?.getD ∅).insert source) else m[t]? := by
  rw [add, Std.ExtTreeMap.getElem?_alter]
  exact if_congr Std.compare_eq_iff_eq rfl rfl

theorem mem_getD_iff {m : SourceMap} {t a : Word} : a ∈ m[t]?.getD ∅ ↔ m.Has t a := by
  cases h : m[t]? with
  | none => simp [Has, h]
  | some sources => simp [Has, h]

theorem has_add {m : SourceMap} {target source t a : Word} :
    (m.add target source).Has t a ↔ m.Has t a ∨ target = t ∧ source = a := by
  rw [Has, getElem?_add]
  split
  next heq =>
    obtain rfl := heq
    simp only [Option.some.injEq, exists_eq_left', Std.ExtTreeSet.mem_insert,
      Std.compare_eq_iff_eq, mem_getD_iff, true_and]
    exact or_comm
  next hne => simp [hne, Has]

theorem NoneEmpty.add {m : SourceMap} (h : m.NoneEmpty) (target source : Word) :
    (m.add target source).NoneEmpty := by
  intro t sources hs
  rw [getElem?_add] at hs
  split at hs
  · obtain rfl := Option.some.inj hs
    exact Std.ExtTreeSet.insert_ne_empty
  · exact h t sources hs

theorem NoneEmpty.exists_mem {m : SourceMap} (h : m.NoneEmpty) {t : Word} {sources : AddressSet}
    (hs : m[t]? = some sources) : ∃ a, a ∈ sources := by
  have hne := h t sources hs
  rw [ne_eq, Std.ExtTreeSet.eq_empty_iff_forall_not_mem, not_forall] at hne
  obtain ⟨a, ha⟩ := hne
  exact ⟨a, not_not.mp ha⟩

/-- Where no set is empty, the targets are those that have a source. -/
theorem NoneEmpty.mem_iff {m : SourceMap} (h : m.NoneEmpty) {t : Word} :
    t ∈ m ↔ ∃ a, m.Has t a := by
  rw [Std.ExtTreeMap.mem_iff_isSome_getElem?, Option.isSome_iff_exists]
  constructor
  · rintro ⟨sources, hs⟩
    obtain ⟨a, ha⟩ := h.exists_mem hs
    exact ⟨a, sources, hs, ha⟩
  · rintro ⟨a, sources, hs, -⟩
    exact ⟨sources, hs⟩

end SourceMap

/-! ## All three -/

namespace References

/-- Records what the instructions at given addresses do, in order. -/
def recordAll (r : References) (transfers : List (Word × Transfer)) : References :=
  transfers.foldl (fun r x => r.record x.1 x.2) r

theorem sources_empty (k : RefKind) : ({} : References).sources k = ∅ := by
  cases k <;> rfl

/-- A transfer is added to the map of its kind and to no other. -/
theorem sources_record (r : References) (source : Word) (x : Transfer) (k : RefKind) :
    (∃ t, x = k.transfer t ∧ (r.record source x).sources k = (r.sources k).add t source) ∨
      (∀ t, x ≠ k.transfer t) ∧ (r.record source x).sources k = r.sources k := by
  cases k with
  | call =>
      cases x with
      | call t => exact .inl ⟨t, rfl, rfl⟩
      | _ => exact .inr ⟨nofun, rfl⟩
  | branch =>
      cases x with
      | branch t => exact .inl ⟨t, rfl, rfl⟩
      | _ => exact .inr ⟨nofun, rfl⟩
  | conditional =>
      cases x with
      | conditionalBranch t => exact .inl ⟨t, rfl, rfl⟩
      | _ => exact .inr ⟨nofun, rfl⟩

theorem has_record {r : References} {source : Word} {x : Transfer} {k : RefKind} {t a : Word} :
    ((r.record source x).sources k).Has t a ↔
      (r.sources k).Has t a ∨ x = k.transfer t ∧ source = a := by
  rcases r.sources_record source x k with ⟨t', rfl, heq⟩ | ⟨hne, heq⟩
  · rw [heq, SourceMap.has_add, RefKind.transfer_eq_transfer_iff, and_iff_right rfl]
  · rw [heq]
    simp [hne t]

theorem noneEmpty_record {r : References} (h : ∀ k, (r.sources k).NoneEmpty) (source : Word)
    (x : Transfer) (k : RefKind) : ((r.record source x).sources k).NoneEmpty := by
  rcases r.sources_record source x k with ⟨t, -, heq⟩ | ⟨-, heq⟩
  · rw [heq]
    exact (h k).add t source
  · rw [heq]
    exact h k

theorem has_recordAll {r : References} {transfers : List (Word × Transfer)} {k : RefKind}
    {t a : Word} :
    ((r.recordAll transfers).sources k).Has t a ↔
      (r.sources k).Has t a ∨ (a, k.transfer t) ∈ transfers := by
  induction transfers generalizing r with
  | nil => simp [recordAll]
  | cons x rest ih =>
      rw [recordAll, List.foldl_cons, ← recordAll, ih, has_record, List.mem_cons, or_assoc,
        Prod.ext_iff, and_comm]
      simp only [eq_comm]

theorem noneEmpty_recordAll {r : References} (h : ∀ k, (r.sources k).NoneEmpty)
    (transfers : List (Word × Transfer)) (k : RefKind) :
    ((r.recordAll transfers).sources k).NoneEmpty := by
  induction transfers generalizing r with
  | nil => exact h k
  | cons x rest ih => exact ih (noneEmpty_record h x.1 x.2)

/-! ### Recorded from nothing -/

theorem noneEmpty_recorded (transfers : List (Word × Transfer)) (k : RefKind) :
    ((recordAll {} transfers).sources k).NoneEmpty := by
  refine noneEmpty_recordAll (fun k => ?_) transfers k
  rw [sources_empty]
  exact SourceMap.noneEmpty_empty

theorem has_recorded {transfers : List (Word × Transfer)} {k : RefKind} {t a : Word} :
    ((recordAll {} transfers).sources k).Has t a ↔ (a, k.transfer t) ∈ transfers := by
  rw [has_recordAll, sources_empty]
  exact or_iff_right (SourceMap.not_has_empty t a)

/-! ### Flags and targets -/

theorem has_flags {r : References} {address : Word} {k : RefKind} :
    (r.flags address).has k ↔ address ∈ r.sources k := by
  cases k <;> exact Std.ExtTreeMap.contains_iff_mem

theorem mem_targets {r : References} {address : Word} :
    address ∈ r.targets ↔ r.flags address ≠ {} := by
  rw [RefFlags.ne_empty_iff]
  simp only [has_flags]
  rw [targets, Std.ExtTreeSet.mem_ofList, List.contains_iff_mem]
  simp only [List.mem_append, Std.ExtTreeMap.mem_keys]
  constructor
  · intro h
    rcases h with (h | h) | h
    · exact ⟨.call, h⟩
    · exact ⟨.branch, h⟩
    · exact ⟨.conditional, h⟩
  · rintro ⟨k, h⟩
    cases k with
    | call => exact .inl (.inl h)
    | branch => exact .inl (.inr h)
    | conditional => exact .inr h

end References

end Microcode
