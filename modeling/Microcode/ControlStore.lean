import Microcode.Diagnostic
import Microcode.Text.Blank
import Microcode.Text.Lines

/-!
# The control store

A control store is a full image of 4096 words. It is read from a text
with one word to a line, four hexadecimal digits each, or from its bytes
with the high byte of each word first. In a text, blank lines and blanks
around a word mean nothing, but every line counts where a line is
reported.
-/

namespace Microcode

structure ControlStore where
  words : Vector Word storeSize
deriving DecidableEq, Repr

namespace ControlStore

def word? (s : ControlStore) (address : Nat) : Option Word := s.words[address]?

def ofWords (ws : List Word) : Except Diagnostic ControlStore :=
  if h : ws.length = storeSize then .ok ⟨⟨ws.toArray, by simp [h]⟩⟩
  else .error (.storeSize storeSize ws.length)

/-! ## Text -/

/-- The word that four hexadecimal digits spell. -/
def wordOfHex? (cs : List Char) : Option Word :=
  if cs.length = 4 then (Hex.value? cs).map (BitVec.ofNat 16) else none

/-- A line that is neither blank nor a word. -/
def IsBadLine (line : List Char) : Prop := line ≠ [] ∧ wordOfHex? line = none

instance : DecidablePred IsBadLine :=
  fun line => inferInstanceAs (Decidable (line ≠ [] ∧ wordOfHex? line = none))

def ofText (text : String) : Except Diagnostic ControlStore :=
  let lines := (Text.lines text.toList).map Text.trim
  match (lines.zipIdx 1).find? fun (line, _) => IsBadLine line with
  | some (line, number) => .error (.wordLine number (String.ofList line))
  | none => ofWords (lines.filterMap wordOfHex?)

/-! ## Bytes -/

def wordsOfBytes : List UInt8 → List Word
  | high :: low :: rest => (high.toBitVec ++ low.toBitVec) :: wordsOfBytes rest
  | _ => []

/-- The bytes of a word, high byte first. -/
def bytesOfWord (w : Word) : List UInt8 :=
  [UInt8.ofBitVec (w.extractLsb' 8 8), UInt8.ofBitVec (w.extractLsb' 0 8)]

def toBytes (s : ControlStore) : List UInt8 := s.words.toList.flatMap bytesOfWord

def ofBytes (bytes : List UInt8) : Except Diagnostic ControlStore :=
  if bytes.length = 2 * storeSize then ofWords (wordsOfBytes bytes)
  else .error (.storeSize storeSize (bytes.length / 2))

/-! ## Files -/

inductive Format where
  | hexText
  | binary
deriving DecidableEq, Repr

/-- Reads the contents of a file. A text must be UTF-8. -/
def ofContents (format : Format) (contents : ByteArray) :
    Except Diagnostic ControlStore :=
  match format with
  | .binary => ofBytes contents.data.toList
  | .hexText =>
      match String.fromUTF8? contents with
      | some text => ofText text
      | none => .error (.unreadable .notUtf8)

def ofFile (format : Format) : Except FileFault ByteArray →
    Except Diagnostic ControlStore
  | .ok contents => ofContents format contents
  | .error fault => .error (.unreadable fault)

end ControlStore

end Microcode
