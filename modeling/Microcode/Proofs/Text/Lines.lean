import Mathlib.Data.List.DropRight
import Microcode.Text.Blank
import Microcode.Text.Lines

/-!
# Lines and what is trimmed off them

A text is taken apart at its line feeds, one line at a time
(`lines_append_cons`), and a carriage return before a line feed is a blank
like others once the line is trimmed (`trim_dropReturn`). So whoever trims
the lines of a text need not look at carriage returns.

What trimming leaves and what the lines of a text are is also told without
the functions: a trimmed line is what stands between blanks and has none at
its ends (`TrimsTo`), and a text is its lines, each ended but perhaps the
last (`TrimmedLines`). Both say what the functions compute (`trimsTo_iff`,
`trimmedLines_iff`).
-/

namespace Microcode.Text

/-! ## Trimming -/

section

variable {cs before after : List Char}

theorem trim_eq_rdropWhile (cs : List Char) :
    trim cs = (cs.dropWhile isBlank).rdropWhile isBlank := rfl

theorem trim_append_left (h : ∀ c ∈ before, isBlank c) : trim (before ++ cs) = trim cs := by
  rw [trim, List.dropWhile_append_of_pos h, trim]

theorem trim_append_right (h : ∀ c ∈ after, isBlank c) : trim (cs ++ after) = trim cs := by
  have hafter : after.dropWhile isBlank = [] := List.dropWhile_eq_nil_iff.mpr h
  rw [trim, List.dropWhile_append]
  split
  next hnil => rw [hafter, trim, List.isEmpty_iff.mp hnil]
  next =>
    rw [List.reverse_append, List.dropWhile_append_of_pos (by simpa using h), trim]

/-- A carriage return at the end is one more blank. -/
theorem trim_append_return (cs : List Char) : trim (cs ++ ['\r']) = trim cs :=
  trim_append_right (List.forall_mem_singleton.mpr rfl)

theorem trim_of_ends (hfirst : ∀ c ∈ cs.head?, ¬ isBlank c)
    (hlast : ∀ c ∈ cs.getLast?, ¬ isBlank c) : trim cs = cs := by
  have hfront : cs.dropWhile isBlank = cs :=
    List.dropWhile_eq_self_iff.mpr fun hpos => hfirst _ (by
      rw [List.head?_eq_getElem?]
      exact List.getElem?_eq_getElem hpos)
  rw [trim_eq_rdropWhile, hfront]
  exact List.rdropWhile_eq_self_iff.mpr fun hne => hlast _ (List.getLast?_eq_some_getLast hne)

theorem trim_of_not_blank (h : ∀ c ∈ cs, ¬ isBlank c) : trim cs = cs :=
  trim_of_ends (fun c hc => h c (List.mem_of_head? hc)) fun c hc => h c (List.mem_of_getLast? hc)

theorem not_isBlank_head?_trim (cs : List Char) : ∀ c ∈ (trim cs).head?, ¬ isBlank c := by
  intro c hc
  have hprefix : trim cs <+: cs.dropWhile isBlank := List.rdropWhile_prefix _ _
  obtain ⟨after, hafter⟩ := hprefix
  have hhead : (cs.dropWhile isBlank).head? = some c := by
    rw [← hafter, List.head?_append, Option.mem_def.mp hc, Option.some_or]
  have hdark := List.head?_dropWhile_not isBlank cs
  rw [hhead] at hdark
  simpa using hdark

theorem not_isBlank_getLast?_trim (cs : List Char) : ∀ c ∈ (trim cs).getLast?, ¬ isBlank c := by
  intro c hc
  obtain ⟨hne, rfl⟩ := List.mem_getLast?_eq_getLast hc
  exact List.rdropWhile_last_not _ _ hne

/-- What is trimmed off is blank. -/
theorem exists_eq_append_trim (cs : List Char) :
    ∃ before after, cs = before ++ trim cs ++ after ∧ (∀ c ∈ before, isBlank c) ∧
      ∀ c ∈ after, isBlank c := by
  refine ⟨cs.takeWhile isBlank, (cs.dropWhile isBlank).rtakeWhile isBlank, ?_, ?_, ?_⟩
  · rw [trim_eq_rdropWhile, List.append_assoc, List.rdropWhile_append_rtakeWhile,
      List.takeWhile_append_dropWhile]
  · exact fun c hc => List.mem_takeWhile_imp hc
  · exact fun c hc => List.mem_rtakeWhile_imp hc

theorem trim_eq_nil_iff : trim cs = [] ↔ ∀ c ∈ cs, isBlank c := by
  constructor
  · intro h
    obtain ⟨before, after, heq, hbefore, hafter⟩ := exists_eq_append_trim cs
    rw [h, List.append_nil] at heq
    rw [heq]
    exact fun c hc => (List.mem_append.mp hc).elim (hbefore c) (hafter c)
  · intro h
    have hnil : trim (cs ++ []) = trim [] := trim_append_left h
    rwa [List.append_nil] at hnil

/-- The characters `content` with blanks around them. They neither start
nor end with one. -/
structure TrimsTo (line content : List Char) : Prop where
  surrounded : ∃ before after, line = before ++ content ++ after ∧
    (∀ c ∈ before, isBlank c) ∧ ∀ c ∈ after, isBlank c
  first : ∀ c ∈ content.head?, ¬ isBlank c
  last : ∀ c ∈ content.getLast?, ¬ isBlank c

theorem trimsTo_iff {line content : List Char} : TrimsTo line content ↔ trim line = content := by
  constructor
  · intro h
    obtain ⟨before, after, rfl, hbefore, hafter⟩ := h.surrounded
    rw [trim_append_right hafter, trim_append_left hbefore, trim_of_ends h.first h.last]
  · rintro rfl
    exact ⟨exists_eq_append_trim line, not_isBlank_head?_trim line, not_isBlank_getLast?_trim line⟩

end

/-! ## Lines -/

theorem trim_dropReturn (line : List Char) : trim (dropReturn line) = trim line := by
  unfold dropReturn
  split
  next hlast =>
    have hline : line.dropLast ++ ['\r'] = line := List.dropLast_append_getLast? _ hlast
    conv_rhs => rw [← hline]
    exact (trim_append_return _).symm
  next => rfl

/-- What follows the last line feed is a line unless it is empty. -/
theorem lines_of_not_mem {line : List Char} (h : '\n' ∉ line) :
    lines line = [line].filter (· ≠ []) := by
  rw [lines, List.splitOn_eq_singleton h]
  rfl

theorem lines_append_cons {line : List Char} (h : '\n' ∉ line) (cs : List Char) :
    lines (line ++ '\n' :: cs) = dropReturn line :: lines cs := by
  have hne := List.splitOn_ne_nil '\n' cs
  rw [lines, List.splitOn_append_cons_self_of_not_mem h, List.dropLast_cons_of_ne_nil hne,
    List.getLast?_cons, List.getLast?_eq_some_getLast hne, lines, List.getLast?_eq_some_getLast hne]
  rfl

/-- Induction on a text, one line at a time. What is left after a line is
no part of the list, so this goes by the number of characters. -/
@[elab_as_elim]
theorem lines_induction {motive : List Char → Prop}
    (last : ∀ line, '\n' ∉ line → motive line)
    (line : ∀ line rest, '\n' ∉ line → motive rest → motive (line ++ '\n' :: rest))
    (text : List Char) : motive text := by
  induction hlen : text.length using Nat.strongRecOn generalizing text with
  | ind n ih =>
      by_cases hmem : '\n' ∈ text
      · obtain ⟨before, rest, rfl, hfeed⟩ := List.eq_append_cons_of_mem hmem
        have hshorter : rest.length < n := by
          rw [← hlen, List.length_append, List.length_cons]
          omega
        exact line before rest hfeed (ih _ hshorter rest rfl)
      · exact last text hmem

/-- A text and what its lines are without the blanks around them. A line is
ended by a line feed or by a carriage return and a line feed. The last line
need not be ended, but then it is not empty. -/
inductive TrimmedLines : List Char → List (List Char) → Prop where
  | nil : TrimmedLines [] []
  | last {line content : List Char} (hne : line ≠ []) (hfeed : '\n' ∉ line)
      (htrim : TrimsTo line content) : TrimmedLines line [content]
  | line {line content ending rest : List Char} {contents : List (List Char)}
      (hfeed : '\n' ∉ line) (htrim : TrimsTo line content)
      (hending : ending = ['\n'] ∨ ending = ['\r', '\n']) (hrest : TrimmedLines rest contents) :
      TrimmedLines (line ++ ending ++ rest) (content :: contents)

theorem map_trim_lines_append_cons {line rest : List Char} (h : '\n' ∉ line) :
    (lines (line ++ '\n' :: rest)).map trim = trim line :: (lines rest).map trim := by
  rw [lines_append_cons h, List.map_cons, trim_dropReturn]

theorem trimmedLines_iff {text : List Char} {contents : List (List Char)} :
    TrimmedLines text contents ↔ (lines text).map trim = contents := by
  constructor
  · intro h
    induction h with
    | nil => rfl
    | @last line content hne hfeed htrim =>
        rw [lines_of_not_mem hfeed, List.filter_singleton, ← trimsTo_iff.mp htrim]
        simp [hne]
    | @line line content ending rest contents hfeed htrim hending _ ih =>
        rw [← trimsTo_iff.mp htrim, ← ih]
        rcases hending with rfl | rfl
        · rw [List.append_assoc]
          exact map_trim_lines_append_cons hfeed
        · have hfeed' : '\n' ∉ line ++ ['\r'] := by simp [hfeed]
          have hsplit : line ++ ['\r', '\n'] ++ rest = (line ++ ['\r']) ++ '\n' :: rest := by simp
          rw [hsplit, map_trim_lines_append_cons hfeed', trim_append_return]
  · rintro rfl
    induction text using lines_induction with
    | last line hfeed =>
        by_cases hnil : line = []
        · rw [hnil]
          exact .nil
        · rw [lines_of_not_mem hfeed]
          simpa [hnil] using TrimmedLines.last hnil hfeed (trimsTo_iff.mpr rfl)
    | line line rest hfeed ih =>
        rw [map_trim_lines_append_cons hfeed]
        have htext := TrimmedLines.line hfeed (trimsTo_iff.mpr rfl) (.inl rfl) ih
        rwa [List.append_assoc] at htext

end Microcode.Text
