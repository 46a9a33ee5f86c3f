import Microcode.Proofs.References.Recording

/-!
# References recorded in any order

A reference map without empty sets is known by the pairs of target and
source that it holds (`SourceMap.NoneEmpty.getElem?_eq`), and the maps that
arise by recording have no empty sets. So they depend only on which
transfers are recorded: the order leaves no trace, nor does recording a
transfer twice (`References.recordAll_eq_iff`). The transfers of a store
may be taken from it piece by piece, and the maps of two pieces put
together target by target (`References.getElem?_recordAll_append`).
-/

namespace Microcode

namespace SourceMap

variable {m m' m₁ m₂ : SourceMap} {t : Word}

/-- What a map without empty sets says of a target is told by the sources
that it holds for it. -/
theorem NoneEmpty.getElem?_eq (h : m.NoneEmpty) {sources? : Option AddressSet}
    (hsome : ∀ sources, sources? = some sources → ∃ a, a ∈ sources)
    (hhas : ∀ a, m.Has t a ↔ ∃ sources, sources? = some sources ∧ a ∈ sources) :
    m[t]? = sources? := by
  cases hm : m[t]? with
  | none =>
      cases sources? with
      | none => rfl
      | some sources =>
          obtain ⟨a, ha⟩ := hsome sources rfl
          obtain ⟨held, hheld, -⟩ := (hhas a).mpr ⟨sources, rfl, ha⟩
          cases hm.symm.trans hheld
  | some held =>
      have hheld : ∀ a, m.Has t a ↔ a ∈ held := by
        intro a
        simp [Has, hm]
      cases sources? with
      | none =>
          obtain ⟨a, ha⟩ := h.exists_mem hm
          obtain ⟨sources, hsources, -⟩ := (hhas a).mp ((hheld a).mpr ha)
          cases hsources
      | some sources =>
          refine congrArg some (Std.ExtTreeSet.ext_mem fun a => ?_)
          rw [← hheld, hhas]
          simp

theorem NoneEmpty.ext (h : m.NoneEmpty) (h' : m'.NoneEmpty)
    (hhas : ∀ t a, m.Has t a ↔ m'.Has t a) : m = m' :=
  Std.ExtTreeMap.ext_getElem? fun t => h.getElem?_eq (fun _ => h'.exists_mem) (hhas t)

/-- Where one map holds what two others hold, its sets are the unions of
theirs. -/
theorem NoneEmpty.getElem?_eq_merge (h : m.NoneEmpty) (h₁ : m₁.NoneEmpty) (h₂ : m₂.NoneEmpty)
    (hhas : ∀ a, m.Has t a ↔ m₁.Has t a ∨ m₂.Has t a) :
    m[t]? = Option.merge (· ∪ ·) m₁[t]? m₂[t]? := by
  refine h.getElem?_eq (fun sources hsources => ?_) fun a => ?_
  · cases hm₁ : m₁[t]? with
    | none =>
        rw [hm₁, Option.merge_none_left] at hsources
        exact h₂.exists_mem hsources
    | some s₁ =>
        obtain ⟨a, ha⟩ := h₁.exists_mem hm₁
        cases hm₂ : m₂[t]? with
        | none =>
            rw [hm₂, Option.merge_none_right] at hsources
            exact h₁.exists_mem hsources
        | some s₂ =>
            rw [hm₁, hm₂] at hsources
            obtain rfl := Option.some.inj hsources
            exact ⟨a, Std.ExtTreeSet.mem_union_iff.mpr (.inl ha)⟩
  · rw [hhas, Has, Has]
    cases m₁[t]? <;> cases m₂[t]? <;> simp [Option.merge]

end SourceMap

namespace References

variable {xs ys : List (Word × Transfer)}

theorem ext_sources {r r' : References} (h : ∀ k, r.sources k = r'.sources k) : r = r' := by
  obtain ⟨calls, branches, conditionalBranches⟩ := r
  obtain ⟨calls', branches', conditionalBranches'⟩ := r'
  obtain rfl : calls = calls' := h .call
  obtain rfl : branches = branches' := h .branch
  obtain rfl : conditionalBranches = conditionalBranches' := h .conditional
  rfl

/-- Two lists record the same exactly if the same transfers to some
address are in them. -/
theorem recordAll_eq_iff :
    recordAll {} xs = recordAll {} ys ↔
      ∀ (k : RefKind) (t a : Word), (a, k.transfer t) ∈ xs ↔ (a, k.transfer t) ∈ ys := by
  constructor
  · intro h k t a
    rw [← has_recorded, h, has_recorded]
  · intro h
    refine ext_sources fun k => ?_
    refine (noneEmpty_recorded xs k).ext (noneEmpty_recorded ys k) fun t a => ?_
    rw [has_recorded, has_recorded]
    exact h k t a

theorem getElem?_recordAll_append (xs ys : List (Word × Transfer)) (k : RefKind) (t : Word) :
    ((recordAll {} (xs ++ ys)).sources k)[t]? =
      Option.merge (· ∪ ·) ((recordAll {} xs).sources k)[t]? ((recordAll {} ys).sources k)[t]? := by
  refine (noneEmpty_recorded _ k).getElem?_eq_merge (noneEmpty_recorded xs k)
    (noneEmpty_recorded ys k) fun a => ?_
  simp only [has_recorded, List.mem_append]

/-- From nothing, transfers are recorded as a set. A list that has the same
transfers in another order or more than once gives the same maps, and with
them the same flags, targets, tables and JSON. Two lists one after the other
give, for each kind and target, the sources that either gives, and a target
is in a map exactly if it is in that of one of them. -/
theorem recordAll_unordered :
    (∀ xs ys : List (Word × Transfer), (∀ x, x ∈ xs ↔ x ∈ ys) →
        recordAll {} xs = recordAll {} ys) ∧
      ∀ (xs ys : List (Word × Transfer)) (k : RefKind) (t : Word),
        let whole := (recordAll {} (xs ++ ys)).sources k
        let first := (recordAll {} xs).sources k
        let second := (recordAll {} ys).sources k
        whole[t]? = Option.merge (· ∪ ·) first[t]? second[t]? ∧
          (t ∈ whole ↔ t ∈ first ∨ t ∈ second) := by
  constructor
  · intro xs ys hsame
    exact recordAll_eq_iff.mpr fun k t a => hsame (a, k.transfer t)
  · intro xs ys k t whole first second
    have hmerge : whole[t]? = Option.merge (· ∪ ·) first[t]? second[t]? :=
      getElem?_recordAll_append xs ys k t
    refine ⟨hmerge, ?_⟩
    simp only [Std.ExtTreeMap.mem_iff_isSome_getElem?, hmerge]
    cases first[t]? <;> cases second[t]? <;> simp [Option.merge]

/-- Three kinds of transfer to one address, in two orders and with
repetitions. -/
theorem recordAll_unordered_repeated :
    let xs : List (Word × Transfer) :=
      [(1, .conditionalBranch 0x200), (2, .call 0x200), (3, .branch 0x200), (9, .call 0x200)]
    let ys : List (Word × Transfer) :=
      [(9, .call 0x200), (3, .branch 0x200), (9, .call 0x200), (2, .call 0x200),
        (1, .conditionalBranch 0x200), (3, .branch 0x200)]
    (∀ x, x ∈ xs ↔ x ∈ ys) ∧ recordAll {} xs = recordAll {} ys := by
  intro xs ys
  have hsame : ∀ x, x ∈ xs ↔ x ∈ ys := by
    have hforth : ∀ x ∈ xs, x ∈ ys := by decide
    have hback : ∀ x ∈ ys, x ∈ xs := by decide
    exact fun x => ⟨hforth x, hback x⟩
  exact ⟨hsame, recordAll_unordered.1 xs ys hsame⟩

end References

end Microcode
