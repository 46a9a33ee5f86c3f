import Microcode.Mnemonic
import Microcode.Word

/-!
# Transfers of control

What an instruction does to the flow of control is known by its
mnemonic. Branches and returns let the instruction after them run before
they take effect, so the block they end reaches to that one; the end of
a macro instruction ends its block at once. A conditional branch may
fall through and a call comes back, so neither ends a block.
-/

namespace Microcode

inductive Transfer where
  /-- Control goes on to the next word. -/
  | sequential
  | call (target : Word)
  | branch (target : Word)
  | conditionalBranch (target : Word)
  | return
  | endOfMacro
deriving DecidableEq, Repr

namespace Transfer

def classify (mnemonic : String) (w : Word) : Transfer :=
  if mnemonic = Mnemonic.callMicrosubroutine then .call w.target
  else if mnemonic = Mnemonic.branch then .branch w.target
  else if mnemonic = Mnemonic.conditionalBranch then .conditionalBranch w.target
  else if mnemonic = Mnemonic.returnFromMicrosubroutine then .return
  else if mnemonic = Mnemonic.endOfMacroInstruction then .endOfMacro
  else .sequential

/-- The last address of the block that an instruction at `address`
ends. No address follows the highest one. -/
def boundary? (t : Transfer) (address : Word) : Option Word :=
  match t with
  | .branch _ | .return =>
      if address = BitVec.allOnes 16 then none else some (address + 1)
  | .endOfMacro => some address
  | .sequential | .call _ | .conditionalBranch _ => none

end Transfer

end Microcode
