import Microcode.Proofs.List
import Microcode.Proofs.Text.Hex
import Microcode.Report.Tables

/-!
# Tables of references read back

The table of references tells the maps in full: no two references share a
table (`references_eq_iff`), whatever targets and sources they hold, and
even if a target has no sources.

It is read back from the outside in. The lines are what stands between the
line feeds. A blank line ends each section and no other line is blank, so
the sections are found without looking at their headings. In the line of a
target the first colon ends its numeral, and the sources behind it are told
apart by blanks; that there is none shows as no numeral at all, since no
numeral is empty. How many digits a numeral has does not matter at any
point.
-/

namespace Microcode.Report

variable {t t' : Word} {s s' : AddressSet} {m m' : SourceMap} {title : String}

/-! ## The line of a target -/

theorem toList_targetLine (t : Word) (s : AddressSet) :
    (targetLine t s).toList =
      [' ', ' '] ++ (Hex.digits 3 t.toNat ++ ':' :: ' ' ::
        [' '].intercalate (s.toList.map fun a => Hex.digits 3 a.toNat)) := by
  simp [targetLine, Hex.text, String.toList_intercalate, Function.comp_def]

theorem digits_toNat_inj {width : Nat} {a b : Word}
    (h : Hex.digits width a.toNat = Hex.digits width b.toNat) : a = b :=
  BitVec.eq_of_toNat_eq (Hex.digits_inj.mp h)

theorem targetLine_inj (h : (targetLine t s).toList = (targetLine t' s').toList) :
    t = t' ∧ s = s' := by
  have hcolon : ∀ n, ':' ∉ Hex.digits 3 n := Hex.not_mem_digits rfl 3
  have hnumerals : ∀ sources : AddressSet,
      ∀ ds ∈ sources.toList.map fun a => Hex.digits 3 a.toNat, ds ≠ [] ∧ ' ' ∉ ds := by
    intro sources ds hds
    obtain ⟨a, -, rfl⟩ := List.mem_map.mp hds
    exact ⟨Hex.digits_ne_nil 3 a.toNat, Hex.not_mem_digits rfl 3 a.toNat⟩
  rw [toList_targetLine, toList_targetLine, List.append_cancel_left_eq,
    append_cons_eq_iff (hcolon _) (hcolon _)] at h
  obtain ⟨htarget, hsources⟩ := h
  have hlist := eq_of_intercalate_eq (hnumerals s) (hnumerals s') (List.tail_eq_of_cons_eq hsources)
  rw [List.map_inj_right fun _ _ => digits_toNat_inj, Std.ExtTreeSet.toList_inj] at hlist
  exact ⟨digits_toNat_inj htarget, hlist⟩

theorem targetLine_ne_nil (t : Word) (s : AddressSet) : (targetLine t s).toList ≠ [] := by
  rw [toList_targetLine]
  simp

theorem newline_not_mem_targetLine (t : Word) (s : AddressSet) :
    '\n' ∉ (targetLine t s).toList := by
  have hdigits : ∀ n, '\n' ∉ Hex.digits 3 n := Hex.not_mem_digits rfl 3
  have hsources : '\n' ∉ [' '].intercalate (s.toList.map fun a => Hex.digits 3 a.toNat) :=
    not_mem_intercalate (by decide) (List.forall_mem_map.mpr fun a _ => hdigits a.toNat)
  rw [toList_targetLine]
  simp [hdigits, hsources]

/-! ## The lines of a section -/

/-- The title with the number of targets, and a line for each. -/
def sectionLines (title : String) (m : SourceMap) : List (List Char) :=
  (title ++ " (" ++ m.size.repr ++ "):").toList ::
    m.toList.map fun x => (targetLine x.1 x.2).toList

theorem toList_referenceSection (title : String) (m : SourceMap) :
    (referenceSection title m).toList =
      (sectionLines title m ++ [[]]).flatMap (· ++ ['\n']) := by
  simp [referenceSection, sectionLines, String.toList_join, List.flatMap_map]

/-- Of the heading nothing is needed. -/
theorem sectionLines_inj (h : sectionLines title m = sectionLines title m') : m = m' := by
  have htargets := List.tail_eq_of_cons_eq h
  rw [List.map_inj_right fun x y hxy => Prod.ext_iff.mpr (targetLine_inj hxy),
    Std.ExtTreeMap.toList_inj] at htargets
  exact htargets

theorem nil_not_mem_sectionLines (title : String) (m : SourceMap) : [] ∉ sectionLines title m := by
  have htargets : [] ∉ m.toList.map fun x => (targetLine x.1 x.2).toList := by
    intro hmem
    obtain ⟨x, -, hx⟩ := List.mem_map.mp hmem
    exact targetLine_ne_nil x.1 x.2 hx
  rw [sectionLines, List.mem_cons, not_or]
  exact ⟨by simp, htargets⟩

theorem newline_not_mem_sectionLines (htitle : '\n' ∉ title.toList) (m : SourceMap) :
    ∀ line ∈ sectionLines title m, '\n' ∉ line := by
  have hsize : '\n' ∉ Nat.toDigits 10 m.size := by
    intro hmem
    exact absurd (Nat.isDigit_of_mem_toDigits (by decide) (by decide) hmem) (by decide)
  rw [sectionLines, List.forall_mem_cons]
  refine ⟨by simp [htitle, hsize], List.forall_mem_map.mpr fun x _ => ?_⟩
  exact newline_not_mem_targetLine x.1 x.2

/-! ## The whole table -/

/-- The lines of the three sections, each with a blank line behind it. -/
def referenceLines (r : References) : List (List Char) :=
  sectionLines "Call targets" r.calls ++ [] ::
    (sectionLines "Branch targets" r.branches ++ [] ::
      (sectionLines "Conditional branch targets" r.conditionalBranches ++ [[]]))

theorem toList_references (r : References) :
    (references r).toList = (referenceLines r).flatMap (· ++ ['\n']) := by
  simp [references, referenceLines, toList_referenceSection]

theorem newline_not_mem_referenceLines (r : References) :
    ∀ line ∈ referenceLines r, '\n' ∉ line := by
  have hnil : '\n' ∉ ([] : List Char) := List.not_mem_nil
  rw [referenceLines, List.forall_mem_append, List.forall_mem_cons, List.forall_mem_append,
    List.forall_mem_cons, List.forall_mem_append, List.forall_mem_singleton]
  exact ⟨newline_not_mem_sectionLines (by decide) r.calls, hnil,
    newline_not_mem_sectionLines (by decide) r.branches, hnil,
    newline_not_mem_sectionLines (by decide) r.conditionalBranches, hnil⟩

theorem referenceLines_inj {r r' : References} (h : referenceLines r = referenceLines r') :
    r = r' := by
  have hblank := nil_not_mem_sectionLines
  obtain ⟨calls, branches, conditionalBranches⟩ := r
  obtain ⟨calls', branches', conditionalBranches'⟩ := r'
  obtain ⟨hcalls, h⟩ := (append_cons_eq_iff (hblank _ _) (hblank _ _)).mp h
  obtain ⟨hbranches, h⟩ := (append_cons_eq_iff (hblank _ _) (hblank _ _)).mp h
  obtain ⟨hconditional, -⟩ := (append_cons_eq_iff (hblank _ _) (hblank _ _)).mp h
  obtain rfl := sectionLines_inj hcalls
  obtain rfl := sectionLines_inj hbranches
  obtain rfl := sectionLines_inj hconditional
  rfl

/-- No two references have the same table. -/
theorem references_eq_iff (r r' : References) : references r = references r' ↔ r = r' := by
  constructor
  · intro h
    have hpieces := congrArg (fun text => text.toList.splitOn '\n') h
    simp only [toList_references, splitOn_flatMap_concat (newline_not_mem_referenceLines _),
      List.append_cancel_right_eq] at hpieces
    exact referenceLines_inj hpieces
  · rintro rfl
    rfl

end Microcode.Report
