import Microcode.Json
import Microcode.Transfer
import Std.Data.ExtTreeMap
import Std.Data.ExtTreeSet

/-!
# References to addresses

For each kind of transfer a map from the addresses that are targets to
the set of addresses that the transfers come from. Maps and sets are
ordered and equal when they have the same members, so the order in which
references are recorded leaves no trace.
-/

namespace Microcode

/-- Words are ordered as numbers. -/
instance : Std.TransOrd Word := inferInstance

/-- Words that compare as equal are the same. -/
instance : Std.LawfulEqOrd Word := inferInstance

abbrev AddressSet := Std.ExtTreeSet Word

/-- The sources of the transfers to each target. -/
abbrev SourceMap := Std.ExtTreeMap Word AddressSet

def SourceMap.add (m : SourceMap) (target source : Word) : SourceMap :=
  m.alter target fun sources? => some ((sources?.getD ∅).insert source)

/-! ## Kinds of reference to one address -/

structure RefFlags where
  subroutine : Bool := false
  branch : Bool := false
  conditional : Bool := false
deriving DecidableEq, Repr

namespace RefFlags

/-- The flags of a number: its three lowest bits. -/
def ofBits (bits : Nat) : RefFlags where
  subroutine := bits.testBit 0
  branch := bits.testBit 1
  conditional := bits.testBit 2

/-- One letter for each kind, always in the same order. -/
def text (f : RefFlags) : String :=
  (if f.subroutine then "S" else "") ++ (if f.branch then "B" else "")
    ++ (if f.conditional then "C" else "")

def toJson (f : RefFlags) : Json := .str f.text

end RefFlags

/-! ## Reference maps -/

structure References where
  calls : SourceMap := ∅
  branches : SourceMap := ∅
  conditionalBranches : SourceMap := ∅
deriving DecidableEq

namespace References

def record (r : References) (source : Word) : Transfer → References
  | .call target => { r with calls := r.calls.add target source }
  | .branch target => { r with branches := r.branches.add target source }
  | .conditionalBranch target =>
      { r with conditionalBranches := r.conditionalBranches.add target source }
  | .sequential | .return | .endOfMacro => r

def flags (r : References) (address : Word) : RefFlags where
  subroutine := r.calls.contains address
  branch := r.branches.contains address
  conditional := r.conditionalBranches.contains address

def targets (r : References) : AddressSet :=
  Std.ExtTreeSet.ofList
    (r.calls.keys ++ r.branches.keys ++ r.conditionalBranches.keys)

end References

/-! ## JSON -/

def AddressSet.toJson (s : AddressSet) : Json :=
  .arr (s.toList.map fun address => .num address.toNat)

def SourceMap.toJson (m : SourceMap) : Json :=
  .obj (m.toList.map fun (target, sources) =>
    (target.toNat.repr, AddressSet.toJson sources))

def References.toJson (r : References) : Json :=
  .obj [("call_target_ref", SourceMap.toJson r.calls),
    ("branch_target_ref", SourceMap.toJson r.branches),
    ("cond_branch_target_ref", SourceMap.toJson r.conditionalBranches)]

end Microcode
