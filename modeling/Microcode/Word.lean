/-!
# Words of the control store

Microinstructions, their addresses and the masks over them are all
16-bit words. The control store holds 4096 of them, so twelve bits
address it.
-/

namespace Microcode

abbrev Word := BitVec 16

/-- The number of words in a control store. -/
def storeSize : Nat := 4096

def opcodeCount : Nat := 65536

namespace Word

theorem toNat_lt (w : Word) : w.toNat < opcodeCount := w.isLt

/-- The bits of a transfer that hold the address it goes to. -/
def addressMask : Word := 0x0FFF

def target (w : Word) : Word := w &&& addressMask

/-- Every word once, in ascending order. -/
def all : List Word := (List.range opcodeCount).map (BitVec.ofNat 16)

end Word

end Microcode
