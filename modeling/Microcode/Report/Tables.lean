import Microcode.Encoding.Basic
import Microcode.References

/-!
# Tables of references and of encodings
-/

namespace Microcode.Report

/-! ## References -/

def targetLine (target : Word) (sources : AddressSet) : String :=
  "  " ++ Hex.text 3 target.toNat ++ ": "
    ++ " ".intercalate (sources.toList.map fun s => Hex.text 3 s.toNat)

/-- A title with the number of targets, a line for each, and a blank
line. -/
def referenceSection (title : String) (m : SourceMap) : String :=
  title ++ " (" ++ m.size.repr ++ "):\n"
    ++ String.join (m.toList.map fun (target, sources) => targetLine target sources ++ "\n")
    ++ "\n"

def references (r : References) : String :=
  referenceSection "Call targets" r.calls
    ++ referenceSection "Branch targets" r.branches
    ++ referenceSection "Conditional branch targets" r.conditionalBranches

/-! ## Encodings -/

def encodingHeading : String :=
  "idx  pattern              const  bits   dc     cyc  mnemonic\n"

def encodingLine (index : Nat) (e : Encoding) : String :=
  String.ofList (index.repr.toList.leftpad 3 ' ') ++ "  " ++ e.row.pattern
    ++ "  " ++ Hex.text 4 e.pattern.constMask.toNat
    ++ "   " ++ Hex.text 4 e.pattern.constBits.toNat
    ++ "   " ++ Hex.text 4 e.pattern.dontCareMask.toNat
    ++ "   " ++ String.ofList (e.row.cycles.toList.rightpad 3 ' ')
    ++ "  " ++ e.mnemonic ++ "\n"

def encodings (t : EncodingTable) : String :=
  encodingHeading
    ++ String.join (t.encodings.toList.zipIdx.map fun (e, index) => encodingLine index e)

end Microcode.Report
