import Microcode.Analysis

/-!
# Analyses and patterns as JSON documents

Words and addresses are decimal numbers, flags are their letters, and
the members of an object come in a fixed order.
-/

namespace Microcode

def ListedWord.toJson (e : ListedWord) : Json :=
  .obj [("address", .num e.address.toNat), ("word", .num e.word.toNat),
    ("flags", e.flags.toJson), ("instruction", e.instruction.toJson),
    ("boundary", .bool e.boundary)]

def Analysis.toJson (a : Analysis) : Json :=
  .obj [("refs", a.references.toJson), ("boundaries", AddressSet.toJson a.boundaries),
    ("entries", .arr (a.entries.map ListedWord.toJson))]

def Field.toJson (f : Field) : Json :=
  .obj [("letter", .str (String.singleton f.letter)), ("offset", .num f.offset),
    ("width", .num f.width)]

def Pattern.toJson (p : Pattern) : Json :=
  .obj [("const_mask", .num p.constMask.toNat), ("const_bits", .num p.constBits.toNat),
    ("dont_care_mask", .num p.dontCareMask.toNat),
    ("fields", .arr (p.fields.map Field.toJson))]

def Resolution.toJson (r : Resolution) : Json := .str r.name

end Microcode

namespace Microcode.Report

def defaultLayout : Json.Layout := .indented

def document (layout : Json.Layout) (a : Analysis) : String := a.toJson.render layout 0

end Microcode.Report
