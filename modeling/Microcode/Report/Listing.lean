import Microcode.Analysis

/-!
# Text listing

One line for each address: the flags of the references to it, the
address, the word and the instruction. A blank line follows each line at
which a block ends. Both the column of flags and the blank lines can be
left out.
-/

namespace Microcode.Report

structure ListingOptions where
  separators : Bool := true
  flags : Bool := true
deriving DecidableEq, Repr

/-- One line for each address and nothing else. -/
def ListingOptions.plain : ListingOptions := { separators := false, flags := false }

/-- The column of flags, three characters wide, and a blank after it. -/
def flagColumn (options : ListingOptions) (flags : RefFlags) : String :=
  if options.flags then String.ofList (flags.text.toList.rightpad 3 ' ') ++ " " else ""

def entryLine (options : ListingOptions) (e : ListedWord) : String :=
  flagColumn options e.flags ++ Hex.text 3 e.address.toNat ++ ": "
    ++ Hex.text 4 e.word.toNat ++ "  " ++ e.instruction.text

def entryText (options : ListingOptions) (e : ListedWord) : String :=
  entryLine options e ++ "\n"

def separator? (options : ListingOptions) : Option String :=
  if options.separators then some "\n" else none

/-- The line of an address and what follows it. -/
def entryBlock (options : ListingOptions) (e : ListedWord) : String :=
  entryText options e ++ if e.boundary then (separator? options).getD "" else ""

def listing (options : ListingOptions) (a : Analysis) : String :=
  String.join (a.entries.map (entryBlock options))

end Microcode.Report
