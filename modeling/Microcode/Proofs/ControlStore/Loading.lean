import Microcode.ControlStore
import Microcode.Proofs.Text.Hex
import Microcode.Proofs.Text.Lines

/-!
# Loading a control store

A store is loaded from words, from bytes or from a text, and each loader
accepts what stands for the store in its form and nothing else. In bytes a
store has one form. Its texts are those of a grammar, which says nothing of
trimming or of carriage returns: lines that hold a word or are blank
(`LineOf`), one after the other (`TextOf`).

The loader of texts sees lines with their blanks trimmed off. What such a
line comes to is what the grammar says of it (`lineOf_iff`), and a text is
taken apart at its first line feed on both sides (`textOf_iff`).
-/

namespace Microcode.ControlStore

variable {s : ControlStore} {w : Word} {w? : Option Word} {ws : List Word}

theorem ofWords_eq_ok_iff : ofWords ws = .ok s ↔ ws = s.words.toList := by
  unfold ofWords
  split
  next hlen =>
    rw [Except.ok.injEq]
    constructor
    · rintro rfl
      rfl
    · rintro rfl
      rfl
  next hlen =>
    simp only [reduceCtorEq, false_iff]
    rintro rfl
    exact hlen s.words.length_toList

/-! ## Bytes -/

theorem wordsOfBytes_flatMap (ws : List Word) : wordsOfBytes (ws.flatMap bytesOfWord) = ws := by
  induction ws with
  | nil => rfl
  | cons w ws ih =>
      have hword : w.extractLsb' 8 8 ++ w.extractLsb' 0 8 = w :=
        BitVec.extractLsb'_append_extractLsb'
      show (w.extractLsb' 8 8 ++ w.extractLsb' 0 8) :: wordsOfBytes (ws.flatMap bytesOfWord) = _
      rw [hword, ih]

theorem bytesOfWord_append (high low : UInt8) :
    bytesOfWord (high.toBitVec ++ low.toBitVec) = [high, low] := by
  rw [bytesOfWord, BitVec.extractLsb'_append_eq_left, BitVec.extractLsb'_append_eq_right]

theorem flatMap_wordsOfBytes {bytes : List UInt8} (h : bytes.length % 2 = 0) :
    (wordsOfBytes bytes).flatMap bytesOfWord = bytes := by
  induction bytes using wordsOfBytes.induct with
  | case1 high low rest ih =>
      rw [List.length_cons, List.length_cons] at h
      rw [wordsOfBytes, List.flatMap_cons, bytesOfWord_append, ih (by omega)]
      rfl
  | case2 bytes hshort =>
      rcases bytes with _ | ⟨high, _ | ⟨low, rest⟩⟩
      · rfl
      · exact absurd h (by decide : ¬ 1 % 2 = 0)
      · exact absurd rfl (hshort high low rest)

theorem length_toBytes : s.toBytes.length = 2 * storeSize := by
  have htwo : ∀ w ∈ s.words.toList, (bytesOfWord w).length = 2 := fun _ _ => rfl
  rw [toBytes, List.length_flatMap, List.map_congr_left htwo, List.map_const',
    List.sum_replicate_nat, Vector.length_toList, Nat.mul_comm]

theorem ofBytes_eq_ok_iff {bytes : List UInt8} : ofBytes bytes = .ok s ↔ bytes = s.toBytes := by
  unfold ofBytes
  split
  next hlen =>
    rw [ofWords_eq_ok_iff]
    constructor
    · intro h
      rw [toBytes, ← h, flatMap_wordsOfBytes (by rw [hlen]; exact Nat.mul_mod_right 2 storeSize)]
    · rintro rfl
      exact wordsOfBytes_flatMap s.words.toList
  next hlen =>
    simp only [reduceCtorEq, false_iff]
    rintro rfl
    exact hlen length_toBytes

/-! ## Texts -/

/-- The four digits of a word, each in upper or in lower case. -/
def DigitsOf (digits : List Char) (w : Word) : Prop :=
  digits.map Char.toLower = Hex.digits 4 w.toNat

/-- Blanks that stand within a line. -/
def Padding (cs : List Char) : Prop := ∀ c ∈ cs, Text.isBlank c ∧ c ≠ '\n'

/-- A line without its end, and the word that it holds if it is not
blank. -/
inductive LineOf : List Char → Option Word → Prop where
  | blank {line : List Char} (hline : Padding line) : LineOf line none
  | word {before digits after : List Char} {w : Word} (hbefore : Padding before)
      (hdigits : DigitsOf digits w) (hafter : Padding after) :
      LineOf (before ++ digits ++ after) (some w)

/-- A text and the words that its lines hold, in order. The last line need
not be ended. -/
inductive TextOf : List Char → List Word → Prop where
  | last {line : List Char} {w? : Option Word} (hline : LineOf line w?) :
      TextOf line w?.toList
  | line {line ending rest : List Char} {w? : Option Word} {ws : List Word}
      (hline : LineOf line w?) (hending : ending = ['\n'] ∨ ending = ['\r', '\n'])
      (hrest : TextOf rest ws) :
      TextOf (line ++ ending ++ rest) (w?.toList ++ ws)

/-! ### One line -/

theorem isBlank_eq_false_of_digit? {c : Char} {d : Nat} (h : Hex.digit? c = some d) :
    Text.isBlank c = false := by
  have hall : ∀ n < 128, (Hex.digit? (Char.ofNat n)).isSome →
      Text.isBlank (Char.ofNat n) = false := by decide
  have hc := hall c.toNat (Hex.toNat_lt_of_digit? h)
  rw [Char.ofNat_toNat] at hc
  exact hc (Option.isSome_of_mem h)

theorem digitsOf_iff {digits : List Char} : DigitsOf digits w ↔ wordOfHex? digits = some w := by
  have hlt : w.toNat < 16 ^ 4 := w.isLt
  unfold DigitsOf wordOfHex?
  constructor
  · intro h
    have hlen : digits.length = 4 := by
      rw [← List.length_map Char.toLower, h, Hex.length_digits hlt (by decide)]
    rw [if_pos hlen, ← Hex.value?_map_toLower, h, Hex.value?_digits, Option.map_some,
      BitVec.ofNat_toNat, BitVec.setWidth_eq]
  · intro h
    split at h
    next hlen =>
      obtain ⟨n, hn, rfl⟩ := Option.map_eq_some_iff.mp h
      have hvalue := Hex.value?_lt hn
      rw [hlen] at hvalue
      have hne : digits ≠ [] := List.ne_nil_of_length_pos (by omega)
      have hnat : (BitVec.ofNat 16 n).toNat = n := Nat.mod_eq_of_lt hvalue
      rw [Hex.map_toLower_eq_digits hn hne, hlen, hnat]
    next => cases h

theorem not_isBlank_of_wordOfHex? {digits : List Char} (h : wordOfHex? digits = some w) :
    ∀ c ∈ digits, ¬ Text.isBlank c := by
  unfold wordOfHex? at h
  split at h
  next =>
    obtain ⟨n, hn, -⟩ := Option.map_eq_some_iff.mp h
    intro c hc
    obtain ⟨d, hd⟩ := Option.isSome_iff_exists.mp (Hex.isSome_digit?_of_value?_eq_some hn c hc)
    rw [isBlank_eq_false_of_digit? hd]
    exact Bool.false_ne_true
  next => cases h

/-- The grammar of lines is what the loader does with them. -/
theorem lineOf_iff {line : List Char} :
    LineOf line w? ↔
      '\n' ∉ line ∧ ¬ IsBadLine (Text.trim line) ∧ wordOfHex? (Text.trim line) = w? := by
  constructor
  · intro h
    cases h with
    | blank hline =>
        have hnil : Text.trim line = [] := Text.trim_eq_nil_iff.mpr fun c hc => (hline c hc).1
        rw [hnil]
        exact ⟨fun hmem => (hline _ hmem).2 rfl, by decide, rfl⟩
    | @word before digits after w hbefore hdigits hafter =>
        have hword := digitsOf_iff.mp hdigits
        have hdark := not_isBlank_of_wordOfHex? hword
        have htrim : Text.trim (before ++ digits ++ after) = digits := by
          rw [Text.trim_append_right fun c hc => (hafter c hc).1,
            Text.trim_append_left fun c hc => (hbefore c hc).1, Text.trim_of_not_blank hdark]
        rw [htrim]
        refine ⟨fun hmem => ?_, fun hbad => ?_, hword⟩
        · rcases List.mem_append.mp hmem with hmem | hmem
          · rcases List.mem_append.mp hmem with hmem | hmem
            · exact (hbefore _ hmem).2 rfl
            · exact hdark _ hmem (by decide)
          · exact (hafter _ hmem).2 rfl
        · exact absurd (hword.symm.trans hbad.2) (Option.some_ne_none w)
  · intro h
    obtain ⟨hfeed, hgood, hword⟩ := h
    have hpadding : ∀ cs ⊆ line, (∀ c ∈ cs, Text.isBlank c) → Padding cs := by
      rintro cs hsub hblank c hc
      exact ⟨hblank c hc, fun heq => hfeed (heq ▸ hsub hc)⟩
    cases w? with
    | none =>
        have hnil : Text.trim line = [] := by
          by_contra hne
          exact hgood ⟨hne, hword⟩
        exact .blank (hpadding line (fun _ => id) (Text.trim_eq_nil_iff.mp hnil))
    | some w =>
        obtain ⟨before, after, heq, hbefore, hafter⟩ := Text.exists_eq_append_trim line
        have hleft : before ⊆ line := fun c hc => by
          rw [heq, List.append_assoc]
          exact List.mem_append_left _ hc
        have hright : after ⊆ line := fun c hc => by
          rw [heq]
          exact List.mem_append_right _ hc
        rw [heq]
        exact .word (hpadding before hleft hbefore) (digitsOf_iff.mpr hword)
          (hpadding after hright hafter)

/-- A carriage return at the end is one more blank. -/
theorem LineOf.append_return {line : List Char} (h : LineOf line w?) :
    LineOf (line ++ ['\r']) w? := by
  rw [lineOf_iff] at h ⊢
  rw [Text.trim_append_return]
  exact ⟨by simp [h.1], h.2⟩

/-! ### All lines -/

/-- The loader finds the words `ws` in the text and nothing to object
to. -/
def Loads (text : List Char) (ws : List Word) : Prop :=
  (∀ line ∈ (Text.lines text).map Text.trim, ¬ IsBadLine line) ∧
    ((Text.lines text).map Text.trim).filterMap wordOfHex? = ws

theorem loads_of_not_mem {line : List Char} (h : '\n' ∉ line) :
    Loads line ws ↔ ¬ IsBadLine (Text.trim line) ∧ (wordOfHex? (Text.trim line)).toList = ws := by
  rw [Loads, Text.lines_of_not_mem h]
  by_cases hnil : line = []
  · rw [hnil]
    simp [IsBadLine, wordOfHex?, Text.trim]
  · cases hword : wordOfHex? (Text.trim line) <;> simp [hnil, hword]

theorem loads_append_cons {line rest : List Char} (h : '\n' ∉ line) :
    Loads (line ++ '\n' :: rest) ws ↔
      ¬ IsBadLine (Text.trim line) ∧
        ∃ ws', Loads rest ws' ∧ (wordOfHex? (Text.trim line)).toList ++ ws' = ws := by
  simp only [Loads, Text.map_trim_lines_append_cons h, List.forall_mem_cons, and_assoc,
    exists_and_left, exists_eq_left']
  cases hword : wordOfHex? (Text.trim line) <;> simp [hword]

theorem textOf_iff {text : List Char} : TextOf text ws ↔ Loads text ws := by
  constructor
  · intro h
    induction h with
    | last hline =>
        obtain ⟨hfeed, hgood, rfl⟩ := lineOf_iff.mp hline
        exact (loads_of_not_mem hfeed).mpr ⟨hgood, rfl⟩
    | @line line ending rest w? ws hline hending _ ih =>
        rcases hending with rfl | rfl
        · obtain ⟨hfeed, hgood, rfl⟩ := lineOf_iff.mp hline
          rw [List.append_assoc]
          exact (loads_append_cons hfeed).mpr ⟨hgood, ws, ih, rfl⟩
        · obtain ⟨hfeed, hgood, rfl⟩ := lineOf_iff.mp hline.append_return
          have hsplit : line ++ ['\r', '\n'] ++ rest = (line ++ ['\r']) ++ '\n' :: rest := by simp
          rw [hsplit]
          exact (loads_append_cons hfeed).mpr ⟨hgood, ws, ih, rfl⟩
  · intro h
    induction text using Text.lines_induction generalizing ws with
    | last line hfeed =>
        obtain ⟨hgood, rfl⟩ := (loads_of_not_mem hfeed).mp h
        exact .last (lineOf_iff.mpr ⟨hfeed, hgood, rfl⟩)
    | line line rest hfeed ih =>
        obtain ⟨hgood, ws', hrest, rfl⟩ := (loads_append_cons hfeed).mp h
        have htext := TextOf.line (lineOf_iff.mpr ⟨hfeed, hgood, rfl⟩) (.inl rfl) (ih hrest)
        rwa [List.append_assoc] at htext

/-- The plain form: the words in lower case, one to a line, the last line
not ended. -/
theorem textOf_intercalate (ws : List Word) :
    TextOf (['\n'].intercalate (ws.map fun w => Hex.digits 4 w.toNat)) ws := by
  have hplain : ∀ w : Word, LineOf (Hex.digits 4 w.toNat) (some w) := by
    intro w
    have hlen : (Hex.digits 4 w.toNat).length = 4 := Hex.length_digits w.isLt (by decide)
    have hne := List.ne_nil_of_length_eq_add_one hlen
    have hdigits : DigitsOf (Hex.digits 4 w.toNat) w := by
      rw [DigitsOf, Hex.map_toLower_eq_digits (Hex.value?_digits 4 w.toNat) hne, hlen]
    have hnone : Padding [] := fun c hc => absurd hc List.not_mem_nil
    have hline := LineOf.word hnone hdigits hnone
    rwa [List.nil_append, List.append_nil] at hline
  induction ws with
  | nil => exact .last (.blank fun c hc => absurd hc List.not_mem_nil)
  | cons w ws ih =>
      cases ws with
      | nil =>
          rw [List.map_singleton, List.intercalate_singleton]
          exact .last (hplain w)
      | cons w' ws =>
          rw [List.map_cons, List.map_cons, List.intercalate_cons_cons]
          exact .line (hplain w) (.inl rfl) ih

theorem ofText_eq_ok_iff {text : String} :
    ofText text = .ok s ↔ Loads text.toList s.words.toList := by
  simp only [ofText, Loads]
  split
  next line number hfind =>
    have hfound := List.find?_some hfind
    have hbad : IsBadLine line := of_decide_eq_true hfound
    have hline := List.fst_mem_of_mem_zipIdx (List.mem_of_find?_eq_some hfind)
    simp only [reduceCtorEq, false_iff, not_and]
    exact fun hgood => absurd hbad (hgood line hline)
  next hfind =>
    rw [ofWords_eq_ok_iff]
    refine (and_iff_right fun line hline hbad => ?_).symm
    rw [← List.zipIdx_map_fst 1 ((Text.lines text.toList).map Text.trim)] at hline
    obtain ⟨⟨line, number⟩, hmem, rfl⟩ := List.mem_map.mp hline
    exact List.find?_eq_none.mp hfind _ hmem (decide_eq_true hbad)

/-! ## Files -/

theorem ofFile_hexText_of_textOf {file : Except FileFault ByteArray} {text : String}
    (hfile : file = .ok text.toUTF8) (htext : TextOf text.toList s.words.toList) :
    ofFile .hexText file = .ok s := by
  have hdecode : String.fromUTF8? text.toUTF8 = some text := dif_pos text.isValidUTF8
  rw [hfile, ofFile, ofContents, hdecode]
  exact ofText_eq_ok_iff.mpr (textOf_iff.mp htext)

theorem ofFile_binary_of_toBytes {file : Except FileFault ByteArray} {bytes : ByteArray}
    (hfile : file = .ok bytes) (hbytes : bytes.data.toList = s.toBytes) :
    ofFile .binary file = .ok s := by
  rw [hfile, ofFile, ofContents]
  exact ofBytes_eq_ok_iff.mpr hbytes

/-! ## All loaders -/

/-- The words of a store are loaded from themselves, from their bytes with
the high one first, and from every text of the grammar that holds them in
order; and nothing else is loaded as these words. -/
theorem loaders_eq_ok_iff (ws : Vector Word storeSize) :
    (∀ words, ofWords words = .ok ⟨ws⟩ ↔ words = ws.toList) ∧
      (∀ bytes, ofBytes bytes = .ok ⟨ws⟩ ↔ bytes = ws.toList.flatMap bytesOfWord) ∧
      ∀ text : String, ofText text = .ok ⟨ws⟩ ↔ TextOf text.toList ws.toList :=
  ⟨fun _ => ofWords_eq_ok_iff, fun _ => ofBytes_eq_ok_iff,
    fun _ => ofText_eq_ok_iff.trans textOf_iff.symm⟩

end Microcode.ControlStore
