import Microcode.Diagnostic
import Microcode.Encoding.Basic
import Microcode.Mnemonic

/-!
# The encodings of the iAPX 432 execution unit

The published table has two instructions at one pattern: the instruction
unit turns "Access Destination" into other accesses before the execution
unit sees it, and "Set Trace Fault" has the same fixed bits. A table in
which every opcode has one owner holds one of the two; `Resolution` says
which. All rows but that one are common to both tables.

The letters of the operand fields are `A` address or index into the
constant store, `B` base register, `C` operation, condition or source,
`D` destination, `F` flag, `L` logical function, `R` register, `S`
source, `T` operand type, `V` operand size and `W` direction. Other
letters have no published meaning.
-/

namespace Microcode

/-- Which of the two instructions at one pattern is kept. -/
inductive Resolution where
  | setTraceFault
  | accessDestination
deriving DecidableEq, Repr

namespace Resolution

def name : Resolution → String
  | .setTraceFault => "set-trace-fault"
  | .accessDestination => "access-destination"

def ofName? (name : String) : Option Resolution :=
  [setTraceFault, accessDestination].find? (·.name = name)

def ofName (name : String) : Except Diagnostic Resolution :=
  match ofName? name with
  | some resolution => .ok resolution
  | none => .error (.unknownResolution name)

def row : Resolution → Row
  | .setTraceFault => ⟨"1111 0XX0 1011 XXXX", "1", Mnemonic.setTraceFault⟩
  | .accessDestination => ⟨"1111 0JJ0 1011 WVVV", "1", Mnemonic.accessDestination⟩

end Resolution

namespace Row

/-- The rows before the one that depends on the resolution. Branches,
calls and returns take effect after the instruction that follows them. -/
def standardHead : List Row :=
  [⟨"000M PJJQ WVVV BBBB", "var", "Access Memory"⟩,
   ⟨"0010 0010 W001 XXXX", "var", "Local Access"⟩,
   ⟨"0010 1JJQ WVVV MXXX", "var", "Access List Access"⟩,
   ⟨"0011 0XX0 0110 1010", "var", "Instruction Segment Read"⟩,
   ⟨"0011 1JJ0 WVVV 1011", "var", "Operand Stack Access"⟩,
   ⟨"0100 0SSD DTTT 0110", "2-3", "Add"⟩,
   ⟨"0100 0SSD DTTT 1001", "2-3", "Subtract"⟩,
   ⟨"0100 1SSD DTTT 0110", "2-3", "Decrement"⟩,
   ⟨"0100 1SSD DTTT 1001", "2-3", "Increment"⟩,
   ⟨"0101 0SSD DTTT XXX0", "2-3", "Absolute Value"⟩,
   ⟨"0101 0SSD DTTT 1001", "2-3", "Negate"⟩,
   ⟨"0101 1SSX X001 0110", "2", "Add to Displacement Stack"⟩,
   ⟨"0101 1SSX X010 0110", "2", "Add to IP Stack"⟩,
   ⟨"0101 1SSX X100 0110", "2", "Add to Exponent Stack"⟩,
   ⟨"0110 0SSD DRJT AABB", "1", "Extract"⟩,
   ⟨"0110 1SSD DTTT LLLL", "1-2", "Logical Operation"⟩,
   ⟨"0111 0SSD DXXX XXXX", "2", "Significant Bit"⟩,
   ⟨"0111 1SSD DVVV 0100", "2", "Scale Displacement"⟩,
   ⟨"1000 0SS0 RRRR LLLL", "1", "DEQ OP DEQ to Register"⟩,
   ⟨"1000 0DD1 RRRR LLLL", "1", "OP DEQ to DEQ"⟩,
   ⟨"1000 1DDA AAAA LLLL", "1", "ROM OP DEQ to DEQ"⟩,
   ⟨"1001 0SSF FFFI XXXX", "2", Mnemonic.returnFlag⟩,
   ⟨"1001 1DDF FFFI 0101", "2", Mnemonic.convertFlagToBoolean⟩,
   ⟨"1010 0SS0 000K KKKK", "1", "Move Constant to Displacement Stack"⟩,
   ⟨"1010 0SS0 001K KKKK", "1", "Move Constant to Extractor Shift Count"⟩,
   ⟨"1010 0SS0 0110 XXXX", "1", "Reset Execution Unit Fault State"⟩,
   ⟨"1010 0SS0 0111 XXXX", "1", "Test Write Rights"⟩,
   ⟨"1010 0SS0 1000 XXXX", "1", "Clear Operand Sign Bits"⟩,
   ⟨"1010 0SS0 1001 XXXX", "1", "Exchange Flags"⟩,
   ⟨"1010 0SS0 1010 XXXX", "1", "Invert SA"⟩,
   ⟨"1010 0SS0 1100 XXXX", "1", "No Operation"⟩,
   ⟨"1010 0SS1 0000 XXXX", "1", "Invalidate Data Segment Cache Register"⟩,
   ⟨"1010 0SS1 0001 XXXX", "1", "Invalidate Data Segment Cache Register Set"⟩,
   ⟨"1010 0SS1 0010 XXXX", "1", "Invalidate Data Segment Cache"⟩,
   ⟨"1010 0SS1 0011 XXXX", "1", "Invalidate Segment Table Cache"⟩,
   ⟨"1010 0SS1 010X XXXX", "1", "Stop Process Timer"⟩,
   ⟨"1010 0SS1 011X XXXX", "1", "Start Process Timer"⟩,
   ⟨"1010 0SS1 1000 BBBB", "1", "Load Rights"⟩,
   ⟨"1010 0SS1 1001 BBBB", "1", "Load Physical Address Lower"⟩,
   ⟨"1010 0SS1 1010 BBBB", "1", "Load Physical Address Upper"⟩,
   ⟨"1010 0SS1 1011 BBBB", "1", "Load Segment Length"⟩,
   ⟨"1010 0001 110C LLLL", "1", "Conditionally Shift by Sixteen"⟩,
   ⟨"1010 0SS1 111U LLLL", "1", "Move to Extractor Shift Count"⟩,
   ⟨"1010 1XXX XXXX CCCC", "var", Mnemonic.performOperation⟩,
   ⟨"1011 0SSZ KKKK KKKK", "2", "Test Segment Type"⟩,
   ⟨"1100 AAAA AAAA AAAA", "1", Mnemonic.branch⟩,
   ⟨"1101 AAAA AAAA AAAA", "1", Mnemonic.conditionalBranch⟩,
   ⟨"1110 AAAA AAAA AAAA", "1", Mnemonic.callMicrosubroutine⟩,
   ⟨"1111 0XX0 0000 XXXX", "1", "Stop Instruction Decoder and Flush Composer"⟩,
   ⟨"1111 0XX0 0001 XXXX", "1", "Start Instruction Decoder"⟩,
   ⟨"1111 0XX0 0010 XXXX", "1", "Pop Bit Pointer Stack"⟩,
   ⟨"1111 0XX0 0011 XXXX", "1", "Move TBIP to BIP"⟩,
   ⟨"1111 0XX0 0100 XXXX", "1", "Move Bit Pointer Stack to XBUF"⟩,
   ⟨"1111 0XX0 0101 XXXX", "1", "Set Invalid Class Fault"⟩,
   ⟨"1111 0XX0 0110 XXXX", "1", "Issue IPC Function"⟩,
   ⟨"1111 0XX0 0111 XXXX", "1", "Set Processor Fatal Condition Pin"⟩,
   ⟨"1111 0XX0 1000 XXXX", "1", "Restart Current Access Microinstruction"⟩,
   ⟨"1111 0XX0 1001 XXCC", "1", Mnemonic.moveConditionToBranchFlag⟩,
   ⟨"1111 0XX0 1010 XXXX", "1", Mnemonic.returnFromMicrosubroutine⟩]

def standardTail : List Row :=
  [⟨"1111 1SS0 0000 XXXX", "3", "Transfer Operator Fault Encoding"⟩,
   ⟨"1111 1SS0 0001 0000", "3", "Transfer Logical Address"⟩,
   ⟨"1111 1SS0 0010 RRRR", "2", "Transfer Data to Register"⟩,
   ⟨"1111 1SS0 0011 XXXX", "1", "Set Lookahead Mode"⟩,
   ⟨"1111 1SS0 0100 XXXX", "1", "Reset Processor"⟩,
   ⟨"1111 1SS0 0110 XXXX", "1", "End of Branch Macro Instruction"⟩,
   ⟨"1111 1SS0 0111 XXXX", "1", Mnemonic.endOfMacroInstruction⟩,
   ⟨"1111 1SS0 1001 XXXX", "1", "Reset IP and Stack to Instruction Start"⟩,
   ⟨"1111 1SS0 1010 LLLL", "1", "Transfer DEQ to BIP"⟩]

def standard (resolution : Resolution) : List Row :=
  standardHead ++ resolution.row :: standardTail

end Row

end Microcode
