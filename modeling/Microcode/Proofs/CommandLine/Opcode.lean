import Microcode.CommandLine.Opcode
import Microcode.Proofs.Text.Hex

/-!
# The texts of an opcode

A text gives an opcode if, behind one marker (`Unmarked`) and one plus sign
(`Unsigned`), of which either may be missing, it has digits that spell the
opcode, at least one, and nothing else (`readOpcode_eq_ok_iff`). Their
number does not matter, so zeros in front do not either.

The reader gives up as soon as the number is too large. It may, since
another digit makes no number smaller: digits that spell a number below the
limit never pass it on the way (`readDigits_of_lt`), and once a number is
too large it stays so (`readDigits_of_le`). What else can go wrong, and
which fault is met first, is `DigitFault`. Digits that spell no opcode have
a fault (`exists_opcode_or_fault`), so a text that is refused is refused for
a reason that it has (`readOpcode_eq_error_iff`).
-/

namespace Microcode.CommandLine

/-! ## Marker and sign -/

/-- The characters that say that a number is hexadecimal. -/
def markers : List (List Char) := [['0', 'x'], ['0', 'X']]

/-- `rest` is what stands in `cs` behind one marker, or all of `cs` if it
does not begin with a marker. -/
def Unmarked (cs rest : List Char) : Prop :=
  (∃ marker ∈ markers, cs = marker ++ rest) ∨
    (∀ marker ∈ markers, ¬ marker <+: cs) ∧ rest = cs

/-- `digits` is what stands in `rest` behind one plus sign, or all of `rest`
if it does not begin with one. A plus sign with nothing behind it is not
taken for a sign. -/
def Unsigned (rest digits : List Char) : Prop :=
  (rest = '+' :: digits ∧ digits ≠ []) ∨
    (∀ more, rest = '+' :: more → more = []) ∧ digits = rest

theorem mem_markers {marker : List Char} :
    marker ∈ markers ↔ marker = ['0', 'x'] ∨ marker = ['0', 'X'] := by
  simp [markers]

theorem dropMarker_append {marker : List Char} (h : marker ∈ markers) (rest : List Char) :
    dropMarker (marker ++ rest) = rest := by
  rcases mem_markers.mp h with rfl | rfl <;> rfl

theorem dropMarker_of_not_prefix {cs : List Char} (h : ∀ marker ∈ markers, ¬ marker <+: cs) :
    dropMarker cs = cs := by
  unfold dropMarker
  split
  next cs => exact absurd ⟨cs, rfl⟩ (h ['0', 'x'] (mem_markers.mpr (.inl rfl)))
  next cs => exact absurd ⟨cs, rfl⟩ (h ['0', 'X'] (mem_markers.mpr (.inr rfl)))
  next => rfl

theorem unmarked_iff {cs rest : List Char} : Unmarked cs rest ↔ dropMarker cs = rest := by
  constructor
  · intro h
    rcases h with ⟨marker, hmarker, rfl⟩ | ⟨hbare, rfl⟩
    · exact dropMarker_append hmarker rest
    · exact dropMarker_of_not_prefix hbare
  · rintro rfl
    by_cases hbare : ∀ marker ∈ markers, ¬ marker <+: cs
    · exact .inr ⟨hbare, dropMarker_of_not_prefix hbare⟩
    · simp only [not_forall, not_not] at hbare
      obtain ⟨marker, hmarker, rest, rfl⟩ := hbare
      rw [dropMarker_append hmarker]
      exact .inl ⟨marker, hmarker, rfl⟩

theorem dropSign_of_bare {rest : List Char} (h : ∀ more, rest = '+' :: more → more = []) :
    dropSign rest = rest := by
  unfold dropSign
  split
  next c cs => cases h (c :: cs) rfl
  next => rfl

theorem dropSign_cons {digits : List Char} (h : digits ≠ []) :
    dropSign ('+' :: digits) = digits := by
  obtain ⟨c, cs, rfl⟩ := List.exists_cons_of_ne_nil h
  rfl

theorem unsigned_iff {rest digits : List Char} : Unsigned rest digits ↔ dropSign rest = digits := by
  constructor
  · intro h
    rcases h with ⟨rfl, hne⟩ | ⟨hbare, rfl⟩
    · exact dropSign_cons hne
    · exact dropSign_of_bare hbare
  · rintro rfl
    by_cases hbare : ∀ more, rest = '+' :: more → more = []
    · exact .inr ⟨hbare, dropSign_of_bare hbare⟩
    · simp only [not_forall] at hbare
      obtain ⟨digits, rfl, hne⟩ := hbare
      rw [dropSign_cons hne]
      exact .inl ⟨rfl, hne⟩

/-! ## Digits -/

theorem readDigits_append (n : Nat) (cs ds : List Char) :
    readDigits n (cs ++ ds) = (readDigits n cs).bind (readDigits · ds) := by
  induction cs generalizing n with
  | nil => rfl
  | cons c cs ih =>
      rw [List.cons_append, readDigits, readDigits]
      split
      next => rfl
      next d hd =>
        split
        next => exact ih (16 * n + d)
        next => rfl

theorem readDigits_append_of_ok {n m : Nat} {cs : List Char} (h : readDigits n cs = .ok m)
    (ds : List Char) : readDigits n (cs ++ ds) = readDigits m ds := by
  rw [readDigits_append, h]
  rfl

theorem readDigits_append_of_error {n : Nat} {cs : List Char} {fault : OpcodeFault}
    (h : readDigits n cs = .error fault) (ds : List Char) :
    readDigits n (cs ++ ds) = .error fault := by
  rw [readDigits_append, h]
  rfl

section

variable {n d : Nat} {c : Char} (hd : Hex.digit? c = some d)

include hd

theorem readDigits_cons_of_lt (h : 16 * n + d < opcodeCount) (cs : List Char) :
    readDigits n (c :: cs) = readDigits (16 * n + d) cs := by
  rw [readDigits, hd]
  exact if_pos h

theorem readDigits_cons_of_le (h : opcodeCount ≤ 16 * n + d) (cs : List Char) :
    readDigits n (c :: cs) = .error .tooLarge := by
  rw [readDigits, hd]
  exact if_neg (Nat.not_lt.mpr h)

end

theorem readDigits_cons_of_not_digit {n : Nat} {c : Char} (h : ¬ Hex.IsDigit c) (cs : List Char) :
    readDigits n (c :: cs) = .error .invalidDigit := by
  have hnone : Hex.digit? c = none := by
    rwa [← Hex.isSome_digit?_iff, Option.not_isSome_iff_eq_none] at h
  rw [readDigits, hnone]

theorem readDigits_of_lt {cs : List Char} {n : Nat} (h : Hex.value? cs = some n)
    (hlt : n < opcodeCount) : readDigits 0 cs = .ok n := by
  induction cs using List.reverseRecOn generalizing n with
  | nil =>
      obtain rfl := Option.some.inj h
      rfl
  | append_singleton cs c ih =>
      obtain ⟨m, d, hm, hd, rfl⟩ := Hex.value?_concat_eq_some_iff.mp h
      have hhigh : m < opcodeCount := by omega
      rw [readDigits_append_of_ok (ih hm hhigh), readDigits_cons_of_lt hd hlt, readDigits]

theorem readDigits_of_le {cs : List Char} {n : Nat} (h : Hex.value? cs = some n)
    (hle : opcodeCount ≤ n) : readDigits 0 cs = .error .tooLarge := by
  induction cs using List.reverseRecOn generalizing n with
  | nil =>
      obtain rfl := Option.some.inj h
      cases hle
  | append_singleton cs c ih =>
      obtain ⟨m, d, hm, hd, rfl⟩ := Hex.value?_concat_eq_some_iff.mp h
      rcases Nat.lt_or_ge m opcodeCount with hlt | hge
      · rw [readDigits_append_of_ok (readDigits_of_lt hm hlt), readDigits_cons_of_le hd hle]
      · -- the reader has given up before the last digit
        exact readDigits_append_of_error (ih hm hge) [c]

/-- What is wrong with characters that are no numeral below the limit. What
stands behind the fault does not matter. -/
inductive DigitFault (digits : List Char) : OpcodeFault → Prop where
  | invalidDigit {before after : List Char} {c : Char} {n : Nat}
      (hdigits : digits = before ++ c :: after) (hvalue : Hex.value? before = some n)
      (hlt : n < opcodeCount) (hc : ¬ Hex.IsDigit c) : DigitFault digits .invalidDigit
  | tooLarge {before after : List Char} {n : Nat} (hdigits : digits = before ++ after)
      (hvalue : Hex.value? before = some n) (hle : opcodeCount ≤ n) :
      DigitFault digits .tooLarge

namespace DigitFault

variable {digits : List Char} {fault : OpcodeFault}

theorem append (h : DigitFault digits fault) (more : List Char) :
    DigitFault (digits ++ more) fault := by
  cases h with
  | invalidDigit hdigits hvalue hlt hc =>
      exact .invalidDigit (by rw [hdigits, List.append_assoc, List.cons_append]) hvalue hlt hc
  | tooLarge hdigits hvalue hle =>
      exact .tooLarge (by rw [hdigits, List.append_assoc]) hvalue hle

theorem readDigits_eq (h : DigitFault digits fault) : readDigits 0 digits = .error fault := by
  cases h with
  | invalidDigit hdigits hvalue hlt hc =>
      rw [hdigits, readDigits_append_of_ok (readDigits_of_lt hvalue hlt),
        readDigits_cons_of_not_digit hc]
  | tooLarge hdigits hvalue hle =>
      rw [hdigits]
      exact readDigits_append_of_error (readDigits_of_le hvalue hle) _

theorem ne_nil (h : DigitFault digits fault) : digits ≠ [] := by
  rintro rfl
  cases h.readDigits_eq

end DigitFault

theorem exists_opcode_or_fault (digits : List Char) :
    (∃ w : Word, Hex.value? digits = some w.toNat) ∨ ∃ fault, DigitFault digits fault := by
  induction digits using List.reverseRecOn with
  | nil => exact .inl ⟨0, rfl⟩
  | append_singleton cs c ih =>
      rcases ih with ⟨w, hvalue⟩ | ⟨fault, hfault⟩
      · by_cases hc : Hex.IsDigit c
        · obtain ⟨d, hd⟩ := Option.isSome_iff_exists.mp (Hex.isSome_digit?_iff.mpr hc)
          have hnext : Hex.value? (cs ++ [c]) = some (16 * w.toNat + d) :=
            Hex.value?_concat_eq_some_iff.mpr ⟨_, d, hvalue, hd, rfl⟩
          rcases Nat.lt_or_ge (16 * w.toNat + d) opcodeCount with hlt | hge
          · have hword : (BitVec.ofNat 16 (16 * w.toNat + d)).toNat = 16 * w.toNat + d :=
              Nat.mod_eq_of_lt hlt
            exact .inl ⟨_, hnext.trans (congrArg some hword.symm)⟩
          · exact .inr ⟨_, .tooLarge (List.append_nil _).symm hnext hge⟩
        · exact .inr ⟨_, .invalidDigit rfl hvalue w.toNat_lt hc⟩
      · exact .inr ⟨fault, hfault.append [c]⟩

/-! ## Texts -/

section

variable {text : String} {digits : List Char}
  (hdigits : dropSign (dropMarker text.toList) = digits)

include hdigits

theorem readOpcode_of_nil (hnil : digits = []) : readOpcode text = .error .empty := by
  rw [readOpcode, hdigits, hnil]

theorem readOpcode_of_ne_nil (hne : digits ≠ []) :
    readOpcode text = (readDigits 0 digits).map (BitVec.ofNat 16) := by
  unfold readOpcode
  rw [hdigits]
  split
  next => exact absurd rfl hne
  next => rfl

theorem readOpcode_of_value? {w : Word} (hne : digits ≠ [])
    (hvalue : Hex.value? digits = some w.toNat) : readOpcode text = .ok w := by
  rw [readOpcode_of_ne_nil hdigits hne, readDigits_of_lt hvalue w.toNat_lt, Except.map,
    BitVec.ofNat_toNat, BitVec.setWidth_eq]

theorem readOpcode_of_fault {fault : OpcodeFault} (hfault : DigitFault digits fault) :
    readOpcode text = .error fault := by
  rw [readOpcode_of_ne_nil hdigits hfault.ne_nil, hfault.readDigits_eq, Except.map]

theorem readOpcode_eq_ok_iff {w : Word} :
    readOpcode text = .ok w ↔
      digits ≠ [] ∧ (∀ c ∈ digits, Hex.IsDigit c) ∧ Hex.value? digits = some w.toNat := by
  constructor
  · intro h
    by_cases hnil : digits = []
    · cases h.symm.trans (readOpcode_of_nil hdigits hnil)
    rcases exists_opcode_or_fault digits with ⟨w', hvalue⟩ | ⟨fault, hfault⟩
    · obtain rfl := Except.ok.inj (h.symm.trans (readOpcode_of_value? hdigits hnil hvalue))
      exact ⟨hnil, Hex.isSome_value?_iff.mp (Option.isSome_of_mem hvalue), hvalue⟩
    · cases h.symm.trans (readOpcode_of_fault hdigits hfault)
  · rintro ⟨hne, -, hvalue⟩
    exact readOpcode_of_value? hdigits hne hvalue

theorem readOpcode_eq_error_iff {fault : OpcodeFault} :
    readOpcode text = .error fault ↔
      digits = [] ∧ fault = .empty ∨ DigitFault digits fault := by
  constructor
  · intro h
    by_cases hnil : digits = []
    · exact .inl ⟨hnil, Except.error.inj (h.symm.trans (readOpcode_of_nil hdigits hnil))⟩
    rcases exists_opcode_or_fault digits with ⟨w, hvalue⟩ | ⟨fault', hfault⟩
    · cases h.symm.trans (readOpcode_of_value? hdigits hnil hvalue)
    · obtain rfl := Except.error.inj (h.symm.trans (readOpcode_of_fault hdigits hfault))
      exact .inr hfault
  · intro h
    rcases h with ⟨hnil, rfl⟩ | hfault
    · exact readOpcode_of_nil hdigits hnil
    · exact readOpcode_of_fault hdigits hfault

end

/-! ### Numerals behind a marker and a sign -/

theorem exists_of_mem_markers {marker : List Char} (h : marker ∈ markers) :
    ∃ c, marker = ['0', c] ∧ ¬ Hex.IsDigit c ∧ c ≠ '+' := by
  simp only [← Hex.isSome_digit?_iff]
  rcases mem_markers.mp h with rfl | rfl
  · exact ⟨'x', rfl, by decide, by decide⟩
  · exact ⟨'X', rfl, by decide, by decide⟩

section

variable {sign digits : List Char} (hsign : sign = [] ∨ sign = ['+'])
  (hall : ∀ c ∈ digits, Hex.IsDigit c)

include hsign hall

theorem not_prefix_of_mem_markers : ∀ marker ∈ markers, ¬ marker <+: sign ++ digits := by
  intro marker hmarker hprefix
  obtain ⟨c, rfl, hc, hplus⟩ := exists_of_mem_markers hmarker
  have hmem : c ∈ sign ++ digits := hprefix.subset (by simp)
  rcases List.mem_append.mp hmem with hin | hin
  · rcases hsign with rfl | rfl
    · cases hin
    · exact hplus (List.mem_singleton.mp hin)
  · exact hc (hall c hin)

theorem dropSign_append (hne : digits ≠ []) : dropSign (sign ++ digits) = digits := by
  rcases hsign with rfl | rfl
  · refine dropSign_of_bare fun more hmore => ?_
    have hplus := hall '+' (by rw [← List.nil_append digits, hmore]; exact List.mem_cons_self)
    rw [← Hex.isSome_digit?_iff] at hplus
    cases hplus
  · exact dropSign_cons hne

/-- Digits with a sign in front of them are not taken for a marker, though
both may begin with a zero. -/
theorem dropSign_dropMarker_append {marker : List Char} (hmarker : marker ∈ [] :: markers)
    (hne : digits ≠ []) : dropSign (dropMarker (marker ++ (sign ++ digits))) = digits := by
  rcases List.mem_cons.mp hmarker with rfl | hmem
  · rw [List.nil_append, dropMarker_of_not_prefix (not_prefix_of_mem_markers hsign hall),
      dropSign_append hsign hall hne]
  · rw [dropMarker_append hmem, dropSign_append hsign hall hne]

end

theorem readOpcode_two_markers {marker marker' : List Char} (h : marker ∈ markers)
    (h' : marker' ∈ markers) (more : List Char) :
    readOpcode (String.ofList (marker ++ (marker' ++ more))) = .error .invalidDigit := by
  obtain ⟨c, rfl, hc, -⟩ := exists_of_mem_markers h'
  have hdigits : dropSign (dropMarker (String.ofList (marker ++ (['0', c] ++ more))).toList) =
      ['0'] ++ c :: more := by
    rw [String.toList_ofList, dropMarker_append h]
    rfl
  have hzero : Hex.value? ['0'] = some 0 := rfl
  exact readOpcode_of_fault hdigits (.invalidDigit rfl hzero (by decide) hc)

/-- An opcode is read off a text exactly if, behind one marker and one sign,
of which either may be missing, there are digits that spell it, at least
one, in either case, and nothing else. Otherwise nothing is there, or there
is a fault, and the text is refused for that.

So the digits of an opcode give it back, in either case, with any number of
zeros in front and behind either marker or none; those of a larger number
are refused, and so is a second marker. -/
theorem readOpcode_reads_numerals :
    (∀ text : String, ∃ rest digits, Unmarked text.toList rest ∧ Unsigned rest digits ∧
      (∀ w, readOpcode text = .ok w ↔
        digits ≠ [] ∧ (∀ c ∈ digits, Hex.IsDigit c) ∧ Hex.value? digits = some w.toNat) ∧
      ∀ fault, readOpcode text = .error fault ↔
        digits = [] ∧ fault = .empty ∨ DigitFault digits fault) ∧
    (∀ marker ∈ [] :: markers, ∀ sign, sign = [] ∨ sign = ['+'] →
      ∀ width n digits, digits.map Char.toLower = Hex.digits width n →
        (∀ w : Word, n = w.toNat →
          readOpcode (String.ofList (marker ++ (sign ++ digits))) = .ok w) ∧
        (opcodeCount ≤ n →
          readOpcode (String.ofList (marker ++ (sign ++ digits))) = .error .tooLarge)) ∧
    ∀ marker ∈ markers, ∀ marker' ∈ markers, ∀ more,
      readOpcode (String.ofList (marker ++ (marker' ++ more))) = .error .invalidDigit := by
  refine ⟨fun text => ?_, fun marker hmarker sign hsign width n digits hnumeral => ?_,
    fun marker h marker' h' more => readOpcode_two_markers h h' more⟩
  · exact ⟨_, _, unmarked_iff.mpr rfl, unsigned_iff.mpr rfl, fun w => readOpcode_eq_ok_iff rfl,
      fun fault => readOpcode_eq_error_iff rfl⟩
  · have hvalue : Hex.value? digits = some n := by
      rw [← Hex.value?_map_toLower, hnumeral, Hex.value?_digits]
    have hne : digits ≠ [] := by
      rintro rfl
      exact Hex.digits_ne_nil width n hnumeral.symm
    have hall := Hex.isSome_value?_iff.mp (Option.isSome_of_mem hvalue)
    have hdigits : dropSign (dropMarker (String.ofList (marker ++ (sign ++ digits))).toList) =
        digits := by
      rw [String.toList_ofList, dropSign_dropMarker_append hsign hall hmarker hne]
    refine ⟨?_, fun hle => ?_⟩
    · rintro w rfl
      exact readOpcode_of_value? hdigits hne hvalue
    · exact readOpcode_of_fault hdigits (.tooLarge (List.append_nil digits).symm hvalue hle)

/-- Ten digits are not too many if the number is not too large. -/
theorem readOpcode_reads_numerals_zeros :
    ['0', '0', '0', '0', '0', '0', 'c', '0', '4', 'A'].map Char.toLower = Hex.digits 10 0xC04A ∧
      readOpcode "0X+000000c04A" = .ok 0xC04A := by
  obtain ⟨-, hread, -⟩ := readOpcode_reads_numerals
  have hmarker : ['0', 'X'] ∈ [] :: markers := List.mem_cons_of_mem _ (mem_markers.mpr (.inr rfl))
  refine ⟨rfl, ?_⟩
  exact (hread _ hmarker _ (.inr rfl) 10 0xC04A _ rfl).1 0xC04A rfl

end Microcode.CommandLine
