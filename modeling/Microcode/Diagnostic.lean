import Microcode.Pattern.Text
import Microcode.Text.Hex

/-!
# Diagnostics

Everything that can go wrong, as values, and the wording of each. An
opcode without an encoding and an address without references are
ordinary outcomes and not among them.
-/

namespace Microcode

/-- Why the contents of a file are not to be had. -/
inductive FileFault where
  | notFound
  | isDirectory
  /-- The path goes on after the name of a file. -/
  | notDirectory
  | denied
  | notUtf8
  | refused (reason : String)
deriving DecidableEq, Repr

inductive Diagnostic where
  | unreadable (fault : FileFault)
  | pattern (entry : Nat) (text : String) (fault : PatternFault)
  /-- The incoming encoding claims an opcode that has an owner. -/
  | conflict (opcode : Word) (existing : String) (existingIndex : Nat)
      (incoming : String) (incomingIndex : Nat)
  | storeSize (expected actual : Nat)
  /-- The line with this number, counted from one, is no word. -/
  | wordLine (line : Nat) (text : String)
  /-- There is no tag left for another pattern. -/
  | tooManyPatterns (index : Nat)
  | unknownResolution (name : String)
deriving DecidableEq, Repr

namespace FileFault

def message : FileFault → String
  | .notFound => "No such file or directory (os error 2)"
  | .isDirectory => "Is a directory (os error 21)"
  | .notDirectory => "Not a directory (os error 20)"
  | .denied => "Permission denied (os error 13)"
  | .notUtf8 => "stream did not contain valid UTF-8"
  | .refused reason => reason

end FileFault

namespace PatternFault

def message : PatternFault → String
  | .length count => s!"expected {Pattern.textLength} ASCII characters, got {count}"
  | .separator position => s!"expected a space at index {position}"
  | .character c bit => s!"invalid character '{c}' for bit {bit}"
  | .reappears letter bit last =>
      s!"field '{letter}' reappears at bit {bit} after ending at bit {last}"
  | .tooWide letter width names =>
      s!"field '{letter}' is {width} bits wide but its name table has {names} entries"

end PatternFault

namespace Diagnostic

/-! ## Wording -/

def unreadableText (reason : String) : String := "IO error: " ++ reason

def patternText (entry : Nat) (text detail : String) : String :=
  s!"Pattern spec error in entry {entry} ('{text}'): {detail}"

def configurationText (detail : String) : String := "Configuration error: " ++ detail

def message : Diagnostic → String
  | .unreadable fault => unreadableText fault.message
  | .pattern entry text fault => patternText entry text fault.message
  | .conflict opcode existing existingIndex incoming incomingIndex =>
      "Decode conflict at opcode 0x" ++ Hex.upperText 4 opcode.toNat
        ++ s!": '{incoming}' (entry {incomingIndex})"
        ++ s!" overlaps '{existing}' (entry {existingIndex})"
  | .storeSize expected actual =>
      s!"Image size error: expected {expected} words, got {actual}"
  | .wordLine line text =>
      s!"Image parse error at line {line}: '{text}' is not a 16-bit hex word"
  | .tooManyPatterns index => configurationText s!"too many patterns ({index})"
  | .unknownResolution name =>
      configurationText s!"unknown trace-fault resolution '{name}'"

end Diagnostic

end Microcode
