import Mathlib.Data.List.Basic
import Mathlib.Data.List.Forall2

/-!
# Lists

Searches over a range of numbers, and lists that grow at their end: the
form in which opcodes are scanned, patterns are numbered and pattern
texts are read. Lists put together with a separator, which can be taken
apart where the first element of the separator occurs nowhere else.
-/

namespace Microcode

/-- A search of the numbers below `n` need not leave a range that holds
all there is to find. -/
theorem filter_range_eq {P : Nat → Bool} {a b n : Nat} (hab : a ≤ b) (hbn : b ≤ n)
    (h : ∀ i < n, P i → a ≤ i ∧ i < b) :
    (List.range n).filter P = (List.range' a (b - a)).filter P := by
  have hsplit : List.range n =
      List.range' 0 a ++ List.range' a (b - a) ++ List.range' b (n - b) := by
    have h₁ := @List.range'_append_1 0 a (b - a)
    have h₂ := @List.range'_append_1 0 b (n - b)
    rw [Nat.zero_add, Nat.add_sub_cancel' hab] at h₁
    rw [Nat.zero_add, Nat.add_sub_cancel' hbn] at h₂
    rw [List.range_eq_range', h₁, h₂]
  have hbelow : (List.range' 0 a).filter P = [] := by
    refine List.filter_eq_nil_iff.mpr fun i hi hP => ?_
    rw [List.mem_range'_1] at hi
    have := h i (by omega) hP
    omega
  have habove : (List.range' b (n - b)).filter P = [] := by
    refine List.filter_eq_nil_iff.mpr fun i hi hP => ?_
    rw [List.mem_range'_1] at hi
    have := h i (by omega) hP
    omega
  rw [hsplit, List.filter_append, List.filter_append, hbelow, habove, List.nil_append,
    List.append_nil]

theorem getElem?_concat_eq_some_iff {α : Type} {xs : List α} {x y : α} {i : Nat} :
    (xs ++ [x])[i]? = some y ↔ xs[i]? = some y ∨ i = xs.length ∧ x = y := by
  rw [List.getElem?_append]
  split
  next hlt => simp [Nat.ne_of_lt hlt]
  next hge => grind

theorem exists_lt_getElem?_append_iff {α : Type} {xs ys : List α} {x : α} :
    (∃ i < xs.length, (xs ++ ys)[i]? = some x) ↔ x ∈ xs := by
  rw [List.mem_iff_getElem?]
  constructor
  · rintro ⟨i, hi, hx⟩
    exact ⟨i, by rwa [List.getElem?_append_left hi] at hx⟩
  · rintro ⟨i, hx⟩
    have hi := (List.getElem?_eq_some_iff.mp hx).1
    exact ⟨i, hi, by rwa [List.getElem?_append_left hi]⟩

theorem take_append_cons_drop {α : Type} {xs : List α} {i : Nat} {x : α} (h : xs[i]? = some x) :
    xs.take i ++ x :: xs.drop (i + 1) = xs := by
  obtain ⟨hlt, rfl⟩ := List.getElem?_eq_some_iff.mp h
  rw [List.getElem_cons_drop, List.take_append_drop]

/-! ## The first element with a property -/

section

variable {α : Type} {P : α → Prop} [DecidablePred P]

theorem forall_not_or_exists_first (P : α → Prop) [DecidablePred P] (xs : List α) :
    (∀ x ∈ xs, ¬ P x) ∨
      ∃ before x after, xs = before ++ x :: after ∧ P x ∧ ∀ y ∈ before, ¬ P y := by
  cases hfind : xs.find? (P ·) with
  | none =>
      left
      simpa using hfind
  | some x =>
      obtain ⟨hx, before, after, rfl, hbefore⟩ := List.find?_eq_some_iff_append.mp hfind
      right
      exact ⟨before, x, after, rfl, by simpa using hx, by simpa using hbefore⟩

/-- A search among numbered elements finds the first with its number. -/
theorem find?_zipIdx_append_cons {before : List α} {x : α} (hbefore : ∀ y ∈ before, ¬ P y)
    (hx : P x) (after : List α) (k : Nat) :
    ((before ++ x :: after).zipIdx k).find? (fun y => P y.1) = some (x, k + before.length) := by
  induction before generalizing k with
  | nil => simp [hx]
  | cons y before ih =>
      rw [List.forall_mem_cons] at hbefore
      rw [List.cons_append, List.zipIdx_cons, List.find?_cons_of_neg (by simp [hbefore.1]),
        ih hbefore.2, List.length_cons, Nat.add_assoc, Nat.add_comm 1]

theorem find?_zipIdx_eq_none {xs : List α} (h : ∀ x ∈ xs, ¬ P x) (k : Nat) :
    (xs.zipIdx k).find? (fun y => P y.1) = none := by
  rw [List.find?_eq_none]
  exact fun y hy => by simpa using h y.1 (List.fst_mem_of_mem_zipIdx hy)

end

section

variable {α β : Type}

theorem pairwise_snd_zipIdx (xs : List α) : xs.zipIdx.Pairwise fun x y => x.2 < y.2 := by
  rw [← List.pairwise_map, List.zipIdx_map_snd]
  exact List.pairwise_lt_range'

/-- A search of ascending elements ends at the least that has an answer. -/
theorem findSome?_eq_some_iff_of_pairwise {key : α → Nat} {xs : List α}
    (hsorted : xs.Pairwise fun x y => key x < key y) {f : α → Option β} {y : β} :
    xs.findSome? f = some y ↔
      ∃ x ∈ xs, f x = some y ∧ ∀ x' ∈ xs, (f x').isSome → key x ≤ key x' := by
  rw [List.findSome?_eq_some_iff]
  constructor
  · rintro ⟨before, x, after, rfl, hx, hbefore⟩
    rw [List.pairwise_append, List.pairwise_cons] at hsorted
    refine ⟨x, List.mem_append_right _ List.mem_cons_self, hx, fun x' hx' hsome => ?_⟩
    rcases List.mem_append.mp hx' with hmem | hmem
    · rw [hbefore x' hmem] at hsome
      cases hsome
    · rcases List.mem_cons.mp hmem with rfl | hmem
      · exact Nat.le_refl _
      · exact Nat.le_of_lt (hsorted.2.1.1 x' hmem)
  · rintro ⟨x, hmem, hx, hleast⟩
    obtain ⟨before, after, rfl⟩ := List.append_of_mem hmem
    rw [List.pairwise_append] at hsorted
    refine ⟨before, x, after, rfl, hx, fun x' hx' => ?_⟩
    have hlt : key x' < key x := hsorted.2.2 x' hx' x List.mem_cons_self
    cases hf : f x' with
    | none => rfl
    | some y' =>
        have hle := hleast x' (List.mem_append_left _ hx') (Option.isSome_of_mem hf)
        exact absurd hlt (Nat.not_lt.mpr hle)

theorem find?_eq_some_iff_of_pairwise {P : Nat → Prop} [DecidablePred P] {xs : List Nat}
    (hsorted : xs.Pairwise (· < ·)) {i : Nat} :
    xs.find? (P ·) = some i ↔ i ∈ xs ∧ P i ∧ ∀ j ∈ xs, P j → i ≤ j := by
  have hkey : xs.Pairwise fun j k => id j < id k := hsorted
  rw [List.find?_eq_findSome?_guard, findSome?_eq_some_iff_of_pairwise hkey]
  simp [Option.guard_eq_some_iff]

end

/-! ## Counting -/

section

variable {α : Type}

theorem countP_and_const {P : α → Prop} [DecidablePred P] {c : Prop} [Decidable c]
    {xs : List α} : xs.countP (fun x => P x ∧ c) = if c then xs.countP (P ·) else 0 := by
  split <;> simp [*]

/-- What has one of two properties that exclude each other is counted under
one of them. -/
theorem countP_or {P Q : α → Prop} [DecidablePred P] [DecidablePred Q] {xs : List α}
    (h : ∀ x ∈ xs, P x → ¬ Q x) :
    xs.countP (fun x => P x ∨ Q x) = xs.countP (P ·) + xs.countP (Q ·) := by
  induction xs with
  | nil => rfl
  | cons x xs ih =>
      rw [List.forall_mem_cons] at h
      rw [List.countP_cons, List.countP_cons, List.countP_cons, ih h.2]
      by_cases hP : P x
      · simp [hP, h.1 hP]
        omega
      · simp [hP]
        omega

end

/-! ## Lists with separators -/

section

variable {α : Type} {c : α}

theorem append_cons_eq_iff {xs xs' ys ys' : List α} (hx : c ∉ xs) (hx' : c ∉ xs') :
    xs ++ c :: ys = xs' ++ c :: ys' ↔ xs = xs' ∧ ys = ys' := by
  induction xs generalizing xs' with
  | nil =>
      cases xs' with
      | nil => simp
      | cons x' xs' =>
          simp only [List.mem_cons, not_or] at hx'
          simp [hx'.1]
  | cons x xs ih =>
      cases xs' with
      | nil =>
          simp only [List.mem_cons, not_or] at hx
          simp [Ne.symm hx.1]
      | cons x' xs' =>
          simp only [List.mem_cons, not_or] at hx hx'
          simp [ih hx.2 hx'.2, and_assoc]

/-- Two texts that begin with elements of one kind and go on with others
are taken apart where the kind changes. -/
theorem append_eq_append_of_forall {P : α → Prop} {xs xs' ys ys' : List α}
    (hx : ∀ x ∈ xs, P x) (hx' : ∀ x ∈ xs', P x) (hy : ∀ y ∈ ys.head?, ¬ P y)
    (hy' : ∀ y ∈ ys'.head?, ¬ P y) (h : xs ++ ys = xs' ++ ys') : xs = xs' ∧ ys = ys' := by
  induction xs generalizing xs' with
  | nil =>
      cases xs' with
      | nil => exact ⟨rfl, h⟩
      | cons x' xs' =>
          obtain rfl : ys = x' :: (xs' ++ ys') := h
          exact absurd (hx' x' List.mem_cons_self) (hy x' rfl)
  | cons x xs ih =>
      cases xs' with
      | nil =>
          obtain rfl : x :: (xs ++ ys) = ys' := h
          exact absurd (hx x List.mem_cons_self) (hy' x rfl)
      | cons x' xs' =>
          rw [List.forall_mem_cons] at hx hx'
          rw [List.cons_append, List.cons_append, List.cons.injEq] at h
          obtain ⟨rfl, h⟩ := h
          obtain ⟨rfl, rfl⟩ := ih hx.2 hx'.2 h
          exact ⟨rfl, rfl⟩

/-- The lists are found again if their number is known, which tells no
list from a single empty one. -/
theorem intercalate_inj {sep : List α} {xs ys : List (List α)} (hlen : xs.length = ys.length)
    (hx : ∀ x ∈ xs, c ∉ x) (hy : ∀ y ∈ ys, c ∉ y)
    (h : (c :: sep).intercalate xs = (c :: sep).intercalate ys) : xs = ys := by
  induction xs generalizing ys with
  | nil => exact (List.length_eq_zero_iff.mp hlen.symm).symm
  | cons x xs ih =>
      obtain ⟨y, ys, rfl⟩ := List.exists_cons_of_length_eq_add_one hlen.symm
      rw [List.forall_mem_cons] at hx hy
      have hlen' : xs.length = ys.length := Nat.succ.inj hlen
      cases xs with
      | nil =>
          obtain rfl := List.length_eq_zero_iff.mp hlen'.symm
          simpa using h
      | cons x' xs =>
          obtain ⟨y', ys, rfl⟩ := List.exists_cons_of_length_eq_add_one hlen'.symm
          simp only [List.intercalate_cons_cons, List.append_assoc, List.cons_append] at h
          obtain ⟨rfl, hrest⟩ := (append_cons_eq_iff hx.1 hy.1).mp h
          rw [ih hlen' hx.2 hy.2 (List.append_cancel_left hrest)]

theorem intercalate_cons_ne_nil {sep x : List α} (h : x ≠ []) (xs : List (List α)) :
    sep.intercalate (x :: xs) ≠ [] := by
  cases xs with
  | nil => rwa [List.intercalate_singleton]
  | cons y ys =>
      rw [List.intercalate_cons_cons]
      simp [h]

/-- Where no list is empty they are found again without their number. -/
theorem eq_of_intercalate_eq [DecidableEq α] {xs ys : List (List α)}
    (hx : ∀ x ∈ xs, x ≠ [] ∧ c ∉ x) (hy : ∀ y ∈ ys, y ≠ [] ∧ c ∉ y)
    (h : [c].intercalate xs = [c].intercalate ys) : xs = ys := by
  cases xs with
  | nil =>
      cases ys with
      | nil => rfl
      | cons y ys =>
          exact absurd h.symm (intercalate_cons_ne_nil (hy y List.mem_cons_self).1 ys)
  | cons x xs =>
      cases ys with
      | nil => exact absurd h (intercalate_cons_ne_nil (hx x List.mem_cons_self).1 xs)
      | cons y ys =>
          have hsplit := congrArg (List.splitOn c) h
          rwa [List.splitOn_intercalate c (fun l hl => (hx l hl).2) (List.cons_ne_nil x xs),
            List.splitOn_intercalate c (fun l hl => (hy l hl).2) (List.cons_ne_nil y ys)] at hsplit

theorem not_mem_intercalate {sep : List α} {xs : List (List α)} (hsep : c ∉ sep)
    (h : ∀ x ∈ xs, c ∉ x) : c ∉ sep.intercalate xs := by
  induction xs with
  | nil => exact List.not_mem_nil
  | cons x xs ih =>
      rw [List.forall_mem_cons] at h
      cases xs with
      | nil =>
          rw [List.intercalate_singleton]
          exact h.1
      | cons y ys =>
          rw [List.intercalate_cons_cons]
          simp [h.1, hsep, ih h.2]

/-- Where every part is ended by the separator, what follows the last end
is one more part, which is empty. -/
theorem splitOn_flatMap_concat [DecidableEq α] {xs : List (List α)} (h : ∀ x ∈ xs, c ∉ x) :
    (xs.flatMap (· ++ [c])).splitOn c = xs ++ [[]] := by
  induction xs with
  | nil => rfl
  | cons x xs ih =>
      rw [List.forall_mem_cons] at h
      rw [List.flatMap_cons, List.append_assoc, List.singleton_append,
        List.splitOn_append_cons_self_of_not_mem h.1, ih h.2, List.cons_append]

end

/-! ## Lists strung together -/

section

variable {α β : Type}

/-- An element of lists that are strung together stands in one of them,
behind all that the lists before it hold. -/
theorem getElem?_flatMap_eq_some_iff {f : α → List β} {xs : List α} {i : Nat} {y : β} :
    (xs.flatMap f)[i]? = some y ↔
      ∃ j x k, xs[j]? = some x ∧ (f x)[k]? = some y ∧ i = ((xs.take j).flatMap f).length + k := by
  induction xs generalizing i with
  | nil => simp
  | cons x xs ih =>
      rw [List.flatMap_cons, List.getElem?_append]
      constructor
      · intro h
        split at h
        next hlt => exact ⟨0, x, i, rfl, h, by simp⟩
        next hge =>
          obtain ⟨j, x', k, hj, hk, hi⟩ := ih.mp h
          refine ⟨j + 1, x', k, hj, hk, ?_⟩
          rw [List.take_succ_cons, List.flatMap_cons, List.length_append]
          omega
      · rintro ⟨j, x', k, hj, hk, rfl⟩
        cases j with
        | zero =>
            obtain rfl := Option.some.inj hj
            have hlt := (List.getElem?_eq_some_iff.mp hk).1
            simpa [hlt] using hk
        | succ j =>
            rw [List.take_succ_cons, List.flatMap_cons, List.length_append, if_neg (by omega),
              Nat.add_assoc, Nat.add_sub_cancel_left]
            exact ih.mpr ⟨j, x', k, hj, hk, rfl⟩

end

/-! ## Rows and what they are read as -/

section

variable {α β ε : Type}

theorem mapM_eq_ok_iff {f : α → Except ε β} {xs : List α} {ys : List β} :
    xs.mapM f = .ok ys ↔ List.Forall₂ (fun x y => f x = .ok y) xs ys := by
  induction xs generalizing ys with
  | nil =>
      rw [List.forall₂_nil_left_iff]
      exact ⟨fun h => (Except.ok.inj h).symm, fun h => congrArg Except.ok h.symm⟩
  | cons x xs ih =>
      rw [List.mapM_cons, List.forall₂_cons_left_iff]
      simp only [← ih]
      cases hx : f x with
      | error fault => simp [bind, Except.bind]
      | ok y =>
          cases hxs : xs.mapM f with
          | error fault => simp [bind, Except.bind]
          | ok ys' => simp [bind, Except.bind, pure, Except.pure, eq_comm]

/-- The error of an answer, if it is one. -/
def error? : Except ε β → Option ε
  | .error e => some e
  | .ok _ => none

theorem error?_eq_some_iff {r : Except ε β} {e : ε} : error? r = some e ↔ r = .error e := by
  cases r <;> simp [error?]

theorem error?_mapError {ε' : Type} (r : Except ε β) (g : ε → ε') :
    error? (r.mapError g) = (error? r).map g := by
  cases r <;> rfl

theorem mapM_eq_error_iff {f : α → Except ε β} {xs : List α} {e : ε} :
    xs.mapM f = .error e ↔ xs.findSome? (fun x => error? (f x)) = some e := by
  induction xs with
  | nil => simp [pure, Except.pure]
  | cons x xs ih =>
      rw [List.mapM_cons, List.findSome?_cons]
      cases hx : f x with
      | error e' => simp [error?, bind, Except.bind]
      | ok y =>
          show _ ↔ xs.findSome? (fun x => error? (f x)) = some e
          rw [← ih]
          cases xs.mapM f <;> simp [bind, Except.bind, pure, Except.pure]

theorem mapM_eq_some_iff {f : α → Option β} {xs : List α} {ys : List β} :
    xs.mapM f = some ys ↔ xs.map f = ys.map some := by
  induction xs generalizing ys with
  | nil => cases ys <;> simp
  | cons x xs ih =>
      rw [List.mapM_cons, List.map_cons]
      cases ys with
      | nil => cases f x <;> cases xs.mapM f <;> simp
      | cons y ys =>
          rw [List.map_cons, List.cons.injEq, ← ih]
          cases f x <;> cases xs.mapM f <;> simp

theorem exists_forall₂_iff {R : α → β → Prop} {xs : List α} :
    (∃ ys, List.Forall₂ R xs ys) ↔ ∀ x ∈ xs, ∃ y, R x y := by
  induction xs with
  | nil => simp
  | cons x xs ih =>
      rw [List.forall_mem_cons, ← ih]
      constructor
      · rintro ⟨_, hall⟩
        cases hall with
        | cons hy hys => exact ⟨⟨_, hy⟩, _, hys⟩
      · rintro ⟨⟨y, hy⟩, ys, hys⟩
        exact ⟨y :: ys, .cons hy hys⟩

theorem getElem?_of_forall₂ {R : α → β → Prop} {xs : List α} {ys : List β}
    (h : List.Forall₂ R xs ys) {i : Nat} {x : α} (hx : xs[i]? = some x) :
    ∃ y, ys[i]? = some y ∧ R x y := by
  induction h generalizing i with
  | nil => simp at hx
  | cons hR _ ih =>
      cases i with
      | zero =>
          obtain rfl := Option.some.inj hx
          exact ⟨_, rfl, hR⟩
      | succ i => exact ih hx

end

end Microcode
