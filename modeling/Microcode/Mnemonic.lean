/-!
# Mnemonics with a meaning of their own

Most instructions are known by their name alone. The ones below decide
how an operand is named or where control goes.
-/

namespace Microcode.Mnemonic

def accessDestination : String := "Access Destination"
def branch : String := "Branch"
def callMicrosubroutine : String := "Call Microsubroutine"
def conditionalBranch : String := "Conditional Branch"
def convertFlagToBoolean : String := "Convert Flag to Boolean"
def endOfMacroInstruction : String := "End of Macro Instruction"
def moveConditionToBranchFlag : String := "Move Condition to Branch Flag"
def performOperation : String := "Perform Operation"
def returnFlag : String := "Return Flag to Instruction Unit Branch Condition"
def returnFromMicrosubroutine : String := "Return From Microsubroutine"
def setTraceFault : String := "Set Trace Fault"

/-- The name shown for an opcode that no encoding claims. -/
def unknown : String := "unknown"

end Microcode.Mnemonic
