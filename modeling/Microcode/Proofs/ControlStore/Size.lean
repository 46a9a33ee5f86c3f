import Microcode.Proofs.ControlStore.Verdict

/-!
# Reports of a wrong size

A store that is too short or too long is refused with two numbers, the
words that were expected and those that were there. The expected number is
always that of a store. The other is the number of words given
(`ofWords_eq_storeSize_iff`) or of lines that hold one
(`ofText_eq_storeSize_iff`), and differs from it, since it is what was
tested.

Bytes are the exception. They are tested by their own number and reported
in words, and half of an odd number is rounded down. One byte too many is
therefore refused with two equal numbers, and nothing else is
(`ofBytes_eq_storeSize_iff`).
-/

namespace Microcode.ControlStore

variable {expected actual : Nat}

theorem ofWords_eq_storeSize_iff {ws : List Word} :
    ofWords ws = .error (.storeSize expected actual) ↔
      expected = storeSize ∧ actual = ws.length ∧ actual ≠ expected := by
  constructor
  · intro h
    by_cases hlen : ws.length = storeSize
    · obtain ⟨s, hs⟩ := exists_ofWords hlen
      cases hs.symm.trans h
    · cases (ofWords_of_length_ne hlen).symm.trans h
      exact ⟨rfl, rfl, hlen⟩
  · rintro ⟨rfl, rfl, hlen⟩
    exact ofWords_of_length_ne hlen

/-! ## Lines -/

theorem ofText_eq_storeSize_iff {text : String} :
    ofText text = .error (.storeSize expected actual) ↔
      expected = storeSize ∧
        (∃ contents, Text.TrimmedLines text.toList contents ∧
          (∀ line ∈ contents, line = [] ∨ FourDigits line) ∧
            actual = (filled contents).length) ∧
        actual ≠ expected := by
  constructor
  · intro h
    obtain ⟨r, hverdict⟩ := exists_verdict text.toList
    obtain rfl := hverdict.ofText_eq.symm.trans h
    cases hverdict with
    | wrongCount hlines hgood hcount => exact ⟨rfl, ⟨_, hlines, hgood, rfl⟩, hcount⟩
  · rintro ⟨rfl, ⟨contents, hlines, hgood, rfl⟩, hcount⟩
    exact (Verdict.wrongCount hlines hgood hcount).ofText_eq

/-! ## Bytes -/

/-- A byte left over is no word. -/
theorem length_wordsOfBytes (bytes : List UInt8) :
    (wordsOfBytes bytes).length = bytes.length / 2 := by
  induction bytes using wordsOfBytes.induct with
  | case1 high low rest ih =>
      rw [wordsOfBytes, List.length_cons, ih, List.length_cons, List.length_cons]
      omega
  | case2 bytes hshort =>
      rcases bytes with _ | ⟨high, _ | ⟨low, rest⟩⟩
      · rfl
      · simp [wordsOfBytes]
      · exact absurd rfl (hshort high low rest)

theorem ofBytes_of_length_ne {bytes : List UInt8} (h : bytes.length ≠ 2 * storeSize) :
    ofBytes bytes = .error (.storeSize storeSize (bytes.length / 2)) := if_neg h

theorem exists_ofBytes {bytes : List UInt8} (h : bytes.length = 2 * storeSize) :
    ∃ s, ofBytes bytes = .ok s := by
  have hwords : (wordsOfBytes bytes).length = storeSize := by
    rw [length_wordsOfBytes, h]
    rfl
  rw [ofBytes, if_pos h]
  exact exists_ofWords hwords

theorem ofBytes_eq_storeSize_iff {bytes : List UInt8} :
    ofBytes bytes = .error (.storeSize expected actual) ↔
      expected = storeSize ∧ actual = bytes.length / 2 ∧
        (actual ≠ expected ∨ bytes.length = 2 * storeSize + 1) := by
  -- the half misses the right number, or the number of bytes is that of the
  -- store or one more
  have hhalf : bytes.length ≠ 2 * storeSize ↔
      bytes.length / 2 ≠ storeSize ∨ bytes.length = 2 * storeSize + 1 := by
    omega
  constructor
  · intro h
    by_cases hlen : bytes.length = 2 * storeSize
    · obtain ⟨s, hs⟩ := exists_ofBytes hlen
      cases hs.symm.trans h
    · cases (ofBytes_of_length_ne hlen).symm.trans h
      exact ⟨rfl, rfl, hhalf.mp hlen⟩
  · rintro ⟨rfl, rfl, hlen⟩
    exact ofBytes_of_length_ne (hhalf.mpr hlen)

/-! ## All three -/

/-- When a store is refused for its size, and with which numbers: the
expected one is 4096, and the other differs from it, unless it was counted
from 8193 bytes. -/
theorem loaders_eq_storeSize_iff (expected actual : Nat) :
    (∀ ws, ofWords ws = .error (.storeSize expected actual) ↔
        expected = 4096 ∧ actual = ws.length ∧ actual ≠ expected) ∧
      (∀ text, ofText text = .error (.storeSize expected actual) ↔
        expected = 4096 ∧
          (∃ contents, Text.TrimmedLines text.toList contents ∧
            (∀ line ∈ contents, line = [] ∨ FourDigits line) ∧
              actual = (filled contents).length) ∧
          actual ≠ expected) ∧
      (∀ bytes, ofBytes bytes = .error (.storeSize expected actual) ↔
        expected = 4096 ∧ actual = bytes.length / 2 ∧
          (actual ≠ expected ∨ bytes.length = 8193)) := by
  refine ⟨fun ws => ?_, fun text => ?_, fun bytes => ?_⟩
  · exact ofWords_eq_storeSize_iff
  · exact ofText_eq_storeSize_iff
  · exact ofBytes_eq_storeSize_iff

/-- One byte more than a store has is refused as a store of the right
size. -/
theorem ofBytes_one_byte_more :
    ofBytes (List.replicate 8193 0xA0) = .error (.storeSize 4096 4096) ∧
      (Diagnostic.storeSize 4096 4096).message =
        "Image size error: expected 4096 words, got 4096" := by
  refine ⟨?_, rfl⟩
  rw [ofBytes_eq_storeSize_iff, List.length_replicate]
  exact ⟨rfl, rfl, .inr rfl⟩

end Microcode.ControlStore
