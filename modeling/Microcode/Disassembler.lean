import Microcode.Encoding.Standard
import Microcode.Instruction
import Microcode.OpcodeMap

/-!
# The disassembler

A table of encodings together with the owners of the opcodes under it.
-/

namespace Microcode

structure Options where
  resolution : Resolution := .setTraceFault
  /-- Leave to decode the words of a control store side by side. Each
  word is decoded on its own, so the result is the same either way. -/
  parallel : Bool := false
deriving DecidableEq, Repr

structure Disassembler where
  table : EncodingTable
  opcodes : OpcodeMap

namespace Disassembler

def ofTable (table : EncodingTable) : Except Diagnostic Disassembler :=
  (OpcodeMap.ofTable table).map fun opcodes => { table, opcodes }

def ofRows (rows : List Row) : Except Diagnostic Disassembler :=
  match EncodingTable.ofRows rows with
  | .ok table => ofTable table
  | .error diagnostic => .error diagnostic

def standard (options : Options) : Except Diagnostic Disassembler :=
  ofRows (Row.standard options.resolution)

def encoding? (d : Disassembler) (w : Word) : Option Encoding :=
  (d.opcodes.owner? w).bind fun i => d.table.get? i

def disassemble (d : Disassembler) (w : Word) : Instruction :=
  match d.encoding? w with
  | some e => e.instruction w
  | none => .unknown

end Disassembler

end Microcode
