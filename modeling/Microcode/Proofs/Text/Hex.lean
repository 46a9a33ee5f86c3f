import Mathlib.Algebra.Group.Nat.Defs
import Mathlib.Data.List.Induction
import Microcode.Text.Hex

/-!
# Digits of hexadecimal numerals

A numeral of a given least width, digit by digit: the last digit is the
remainder by sixteen, and what stands before it is the numeral of the
quotient with a width of one less. Whatever the width, reading the
numeral gives the number back (`value?_digits`), so no two numbers share
a numeral. Upper-case digits spell the same as lower-case ones, and digits
in lower case are the numeral of what they spell
(`map_toLower_eq_digits`).
-/

namespace Microcode.Hex

theorem digits_of_lt {n : Nat} (h : n < 16) : digits 1 n = [n.digitChar] := by
  rw [digits, Nat.toDigits_of_lt_base h]
  rfl

/-- The zeros in front stand before the quotient too. A quotient of zero
is written with one digit, so the width has to leave room for it. -/
theorem digits_add_two (width n : Nat) :
    digits (width + 2) n = digits (width + 1) (n / 16) ++ [(n % 16).digitChar] := by
  rw [digits, digits]
  rcases Nat.lt_or_ge n 16 with hlt | hge
  · rw [Nat.div_eq_of_lt hlt, Nat.mod_eq_of_lt hlt, Nat.toDigits_of_lt_base hlt, Nat.toDigits_zero]
    simp [List.leftpad, List.replicate_succ']
  · rw [Nat.toDigits_of_base_le (by decide) hge]
    simp [List.leftpad]

/-- Three digits spell any address of the control store. -/
theorem digits_three {n : Nat} (h : n < 4096) :
    digits 3 n = [(n / 256).digitChar, (n / 16 % 16).digitChar, (n % 16).digitChar] := by
  have hhigh : n / 16 / 16 < 16 := by omega
  rw [digits_add_two, digits_add_two, digits_of_lt hhigh, Nat.div_div_eq_div_mul]
  rfl

theorem text_three {n : Nat} (h : n < 4096) :
    text 3 n =
      String.ofList [(n / 256).digitChar, (n / 16 % 16).digitChar, (n % 16).digitChar] :=
  congrArg String.ofList (digits_three h)

/-! ## Reading a numeral back -/

theorem value?_concat (cs : List Char) (c : Char) :
    value? (cs ++ [c]) = (value? cs).bind fun n => (digit? c).map (16 * n + ·) := by
  rw [value?, List.foldlM_append]
  simp only [List.foldlM_cons, List.foldlM_nil, bind_pure]
  rfl

theorem value?_concat_eq_some_iff {cs : List Char} {c : Char} {n : Nat} :
    value? (cs ++ [c]) = some n ↔
      ∃ m d, value? cs = some m ∧ digit? c = some d ∧ 16 * m + d = n := by
  simp only [value?_concat, Option.bind_eq_some_iff, Option.map_eq_some_iff, exists_and_left]

theorem isSome_digit?_of_value?_eq_some {cs : List Char} {n : Nat} (h : value? cs = some n) :
    ∀ c ∈ cs, (digit? c).isSome := by
  induction cs using List.reverseRecOn generalizing n with
  | nil => simp
  | append_singleton cs d ih =>
      obtain ⟨m, v, hm, hv, -⟩ := value?_concat_eq_some_iff.mp h
      intro c hc
      rcases List.mem_append.mp hc with hc | hc
      · exact ih hm c hc
      · rw [List.mem_singleton.mp hc, hv]
        rfl

/-- The digits, in either case. -/
def IsDigit (c : Char) : Prop :=
  ('0' ≤ c ∧ c ≤ '9') ∨ ('a' ≤ c ∧ c ≤ 'f') ∨ ('A' ≤ c ∧ c ≤ 'F')

theorem isSome_digit?_iff {c : Char} : (digit? c).isSome ↔ IsDigit c := by
  unfold digit? IsDigit
  split
  next h => simp [h]
  split
  next h => simp [h]
  split
  next h => simp [h]
  next => simp [*]

theorem isSome_value?_iff {cs : List Char} : (value? cs).isSome ↔ ∀ c ∈ cs, IsDigit c := by
  simp only [← isSome_digit?_iff]
  constructor
  · intro h
    obtain ⟨n, hn⟩ := Option.isSome_iff_exists.mp h
    exact isSome_digit?_of_value?_eq_some hn
  · intro h
    induction cs using List.reverseRecOn with
    | nil => rfl
    | append_singleton cs c ih =>
        have hcs := ih fun d hd => h d (List.mem_append_left _ hd)
        have hc := h c (List.mem_append_right _ List.mem_cons_self)
        obtain ⟨n, hn⟩ := Option.isSome_iff_exists.mp hcs
        rw [value?_concat, hn, Option.bind_some, Option.isSome_map]
        exact hc

theorem digit?_digitChar {d : Nat} (h : d < 16) : digit? d.digitChar = some d := by
  revert d
  decide

theorem value?_toDigits (n : Nat) : value? (Nat.toDigits 16 n) = some n := by
  induction n using Nat.strongRecOn with
  | ind n ih =>
      rcases Nat.lt_or_ge n 16 with hlt | hge
      · rw [Nat.toDigits_of_lt_base hlt]
        simp [value?, digit?_digitChar hlt]
      · have hdigit : digit? (n % 16).digitChar = some (n % 16) := digit?_digitChar (by omega)
        rw [Nat.toDigits_of_base_le (by decide) hge, value?_concat, ih (n / 16) (by omega), hdigit]
        simp only [Option.bind_some, Option.map_some, Option.some.injEq]
        omega

/-- Zeros in front do not count. -/
theorem value?_digits (width n : Nat) : value? (digits width n) = some n := by
  rw [digits, List.leftpad]
  induction width - (Nat.toDigits 16 n).length with
  | zero => exact value?_toDigits n
  | succ k ih => exact ih

theorem digits_inj {width m n : Nat} : digits width m = digits width n ↔ m = n := by
  refine ⟨fun h => ?_, fun h => congrArg (digits width) h⟩
  have hvalue := congrArg value? h
  rw [value?_digits, value?_digits] at hvalue
  exact Option.some.inj hvalue

theorem text_inj {width m n : Nat} : text width m = text width n ↔ m = n := by
  rw [text, text, String.ofList_inj, digits_inj]

theorem digits_ne_nil (width n : Nat) : digits width n ≠ [] := by
  rw [digits, List.leftpad]
  simp [Nat.toDigits_ne_nil]

/-- What is no digit is in no numeral. -/
theorem not_mem_digits {c : Char} (h : digit? c = none) (width n : Nat) : c ∉ digits width n := by
  intro hmem
  have hdigit := isSome_digit?_of_value?_eq_some (value?_digits width n) c hmem
  rw [h] at hdigit
  cases hdigit

theorem isSome_digit?_of_mem_text {width n : Nat} :
    ∀ c ∈ (text width n).toList, (digit? c).isSome := by
  rw [text, String.toList_ofList]
  exact isSome_digit?_of_value?_eq_some (value?_digits width n)

/-! ## Digits as they are written -/

theorem exists_digitChar_of_mem_toDigits {c : Char} {n : Nat} (h : c ∈ Nat.toDigits 16 n) :
    ∃ d < 16, c = d.digitChar := by
  induction n using Nat.strongRecOn with
  | ind n ih =>
      rcases Nat.lt_or_ge n 16 with hlt | hge
      · rw [Nat.toDigits_of_lt_base hlt, List.mem_singleton] at h
        exact ⟨n, hlt, h⟩
      · rw [Nat.toDigits_of_base_le (by decide) hge, List.mem_append, List.mem_singleton] at h
        rcases h with hhigh | hlast
        · exact ih (n / 16) (by omega) hhigh
        · exact ⟨n % 16, Nat.mod_lt n (by decide), hlast⟩

/-- The digits that are written; those in upper case are read as well. -/
def IsLowerDigit (c : Char) : Prop := ('0' ≤ c ∧ c ≤ '9') ∨ ('a' ≤ c ∧ c ≤ 'f')

theorem isLowerDigit_digitChar {d : Nat} (h : d < 16) : IsLowerDigit d.digitChar := by
  revert d
  unfold IsLowerDigit
  decide

theorem isLowerDigit_of_mem_digits {width n : Nat} {c : Char} (h : c ∈ digits width n) :
    IsLowerDigit c := by
  rw [digits, List.leftpad, List.mem_append, List.mem_replicate] at h
  rcases h with ⟨-, rfl⟩ | hmem
  · exact isLowerDigit_digitChar (by decide : 0 < 16)
  · obtain ⟨d, hd, rfl⟩ := exists_digitChar_of_mem_toDigits hmem
    exact isLowerDigit_digitChar hd

/-! ## Digits of either case -/

theorem toNat_lt_of_digit? {c : Char} {d : Nat} (h : digit? c = some d) : c.toNat < 128 := by
  have hle : c ≤ 'f' := by
    unfold digit? at h
    split at h
    next hc => exact Char.le_trans hc.2 (by decide)
    split at h
    next hc => exact hc.2
    split at h
    next hc => exact Char.le_trans hc.2 (by decide)
    next => cases h
  exact Nat.lt_of_le_of_lt hle (by decide)

theorem isAlphanum_of_isSome_digit? {c : Char} (h : (digit? c).isSome) : c.isAlphanum := by
  have hall : ∀ n < 128, (digit? (Char.ofNat n)).isSome → (Char.ofNat n).isAlphanum := by decide
  obtain ⟨d, hd⟩ := Option.isSome_iff_exists.mp h
  have hc := hall c.toNat (toNat_lt_of_digit? hd)
  rw [Char.ofNat_toNat] at hc
  exact hc h

/-- In lower case a digit is the one that stands for its value. -/
theorem toLower_of_digit? {c : Char} {d : Nat} (h : digit? c = some d) :
    d < 16 ∧ c.toLower = d.digitChar := by
  have hall : ∀ n < 128, ∀ d ∈ digit? (Char.ofNat n),
      d < 16 ∧ (Char.ofNat n).toLower = d.digitChar := by decide
  have hc := hall c.toNat (toNat_lt_of_digit? h)
  rw [Char.ofNat_toNat] at hc
  exact hc d h

theorem digit?_toLower (c : Char) : digit? c.toLower = digit? c := by
  rcases Nat.lt_or_ge c.toNat 128 with hlt | hge
  · have hall : ∀ n < 128, digit? (Char.ofNat n).toLower = digit? (Char.ofNat n) := by decide
    have hc := hall c.toNat hlt
    rwa [Char.ofNat_toNat] at hc
  · have hupper : ¬ (c.val ≥ 'A'.val ∧ c.val ≤ 'Z'.val) := by
      intro h
      have hle : c.toNat ≤ 'Z'.toNat := h.2
      exact absurd (Nat.le_trans hge hle) (by decide)
    have hlower : c.toLower = c := dif_neg hupper
    rw [hlower]

theorem value?_map_toLower (cs : List Char) : value? (cs.map Char.toLower) = value? cs := by
  rw [value?, List.foldlM_map]
  simp only [digit?_toLower]
  rfl

theorem value?_lt {cs : List Char} {n : Nat} (h : value? cs = some n) : n < 16 ^ cs.length := by
  induction cs using List.reverseRecOn generalizing n with
  | nil =>
      obtain rfl := Option.some.inj h
      decide
  | append_singleton cs c ih =>
      obtain ⟨m, d, hm, hd, rfl⟩ := value?_concat_eq_some_iff.mp h
      have hdigit := (toLower_of_digit? hd).1
      have hhigh := ih hm
      rw [List.length_append, List.length_singleton, Nat.pow_succ]
      omega

/-- Digits in lower case are the numeral of what they spell, with their
number for its width. -/
theorem map_toLower_eq_digits {cs : List Char} {n : Nat} (h : value? cs = some n) (hne : cs ≠ []) :
    cs.map Char.toLower = digits cs.length n := by
  induction cs using List.reverseRecOn generalizing n with
  | nil => exact absurd rfl hne
  | append_singleton cs c ih =>
      obtain ⟨m, d, hm, hd, rfl⟩ := value?_concat_eq_some_iff.mp h
      obtain ⟨hlt, hlower⟩ := toLower_of_digit? hd
      rw [List.map_append, List.map_singleton, hlower, List.length_append, List.length_singleton]
      cases cs with
      | nil =>
          obtain rfl := Option.some.inj hm
          rw [List.map_nil, List.nil_append, List.length_nil, Nat.mul_zero, Nat.zero_add,
            Nat.zero_add, digits_of_lt hlt]
      | cons c' cs =>
          have hquotient : (16 * m + d) / 16 = m := by omega
          have hremainder : (16 * m + d) % 16 = d := by omega
          rw [ih hm (List.cons_ne_nil c' cs), List.length_cons, digits_add_two, hquotient,
            hremainder]

theorem length_digits {width n : Nat} (h : n < 16 ^ width) (hwidth : 0 < width) :
    (digits width n).length = width := by
  rw [digits, List.length_leftpad]
  exact Nat.max_eq_left ((Nat.length_toDigits_le_iff (by decide) hwidth).mpr h)

end Microcode.Hex
