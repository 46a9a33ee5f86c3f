import Microcode.ControlStore
import Microcode.Disassembler
import Microcode.References

/-!
# Analysis of a control store

Every word is disassembled, the transfers among them are recorded, and
each address is then listed with the references to it and with whether a
block ends there. A block end that would lie beyond the store, after a
transfer in its last word, is left out.
-/

namespace Microcode

structure ListedWord where
  address : Word
  word : Word
  flags : RefFlags := {}
  instruction : Instruction
  /-- A block ends with this word. -/
  boundary : Bool := false
deriving DecidableEq, Repr

structure Analysis where
  references : References := {}
  /-- The addresses at which a block ends. -/
  boundaries : AddressSet := ∅
  /-- Every address, in ascending order. -/
  entries : List ListedWord := []
deriving DecidableEq

/-- A word with its address and what it stands for. -/
structure Decoded where
  address : Word
  word : Word
  instruction : Instruction
deriving DecidableEq, Repr

namespace Decoded

def transfer (e : Decoded) : Transfer :=
  Transfer.classify e.instruction.mnemonic e.word

/-- The block end that the word causes within the store. -/
def boundary? (e : Decoded) : Option Word :=
  (e.transfer.boundary? e.address).filter (·.toNat < storeSize)

end Decoded

def ControlStore.decode (s : ControlStore) (d : Disassembler) : List Decoded :=
  s.words.toList.zipIdx.map fun (word, address) =>
    ⟨BitVec.ofNat 16 address, word, d.disassemble word⟩

namespace Analysis

def ofDecoded (decoded : List Decoded) : Analysis :=
  let references : References :=
    decoded.foldl (fun r e => r.record e.address e.transfer) {}
  let boundaries : AddressSet :=
    Std.ExtTreeSet.ofList (decoded.filterMap Decoded.boundary?)
  { references, boundaries,
    entries := decoded.map fun e =>
      { address := e.address
        word := e.word
        flags := references.flags e.address
        instruction := e.instruction
        boundary := boundaries.contains e.address } }

def ofStore (d : Disassembler) (s : ControlStore) : Analysis :=
  ofDecoded (s.decode d)

def standard (options : Options) (s : ControlStore) : Except Diagnostic Analysis :=
  (Disassembler.standard options).map fun d => ofStore d s

/-- The analysis of a text file under the standard table as it is set up
by default. -/
def ofTextFile (file : Except FileFault ByteArray) : Except Diagnostic Analysis :=
  match ControlStore.ofFile .hexText file with
  | .ok s => standard {} s
  | .error diagnostic => .error diagnostic

end Analysis

end Microcode
