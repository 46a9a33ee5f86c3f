import Microcode.Encoding.Basic

/-!
# Owners of opcodes

An opcode map knows for each of the 65536 opcodes which pattern owns it,
if any. Patterns are put in one after the other and numbered in that
order. A pattern goes in only if no opcode that it claims has an owner
yet, so no opcode ever has two; one that is refused changes nothing.
-/

namespace Microcode

/-- One slot for each opcode, which may hold the number of its owner. -/
abbrev OpcodeSlots := Vector (Option Nat) opcodeCount

namespace OpcodeSlots

def owner? (slots : OpcodeSlots) (w : Word) : Option Nat :=
  getElem slots w.toNat w.toNat_lt

def mark (slots : OpcodeSlots) (owner : Option Nat) (ws : List Word) : OpcodeSlots :=
  ws.foldl (fun s w => s.set w.toNat owner w.toNat_lt) slots

theorem owner?_mark (slots : OpcodeSlots) (owner : Option Nat) (ws : List Word) (w : Word) :
    (slots.mark owner ws).owner? w = if w ∈ ws then owner else slots.owner? w := by
  induction ws generalizing slots with
  | nil => simp [mark]
  | cons v vs ih =>
      have hstep : slots.mark owner (v :: vs) =
          mark (slots.set v.toNat owner v.toNat_lt) owner vs := rfl
      rw [hstep, ih]
      by_cases hvs : w ∈ vs
      · simp [hvs]
      · by_cases hv : w = v
        · subst hv
          simp [owner?, hvs]
        · have hne : v.toNat ≠ w.toNat := fun h => hv (BitVec.eq_of_toNat_eq h.symm)
          simp [owner?, hvs, hv, hne]

end OpcodeSlots

structure OpcodeMap where
  slots : OpcodeSlots
  /-- The mnemonics of the patterns, in the order in which they were put
  in. -/
  names : Array String
  /-- Every owner is one of the patterns. -/
  owner_lt : ∀ (w : Word) (i : Nat), slots.owner? w = some i → i < names.size

namespace OpcodeMap

def empty : OpcodeMap where
  slots := Vector.replicate opcodeCount none
  names := #[]
  owner_lt := by simp [OpcodeSlots.owner?]

instance : EmptyCollection OpcodeMap := ⟨empty⟩

instance : Inhabited OpcodeMap := ⟨empty⟩

abbrev size (m : OpcodeMap) : Nat := m.names.size

def owner? (m : OpcodeMap) (w : Word) : Option (Fin m.size) :=
  match h : m.slots.owner? w with
  | none => none
  | some i => some ⟨i, m.owner_lt w i h⟩

def populated (m : OpcodeMap) : Nat := Word.all.countP fun w => (m.owner? w).isSome

/-! ## Putting patterns in -/

/-- What keeps the pattern `p` out: there are no more numbers for
patterns, or an opcode that it claims has an owner. Of several such
opcodes the lowest is named. -/
def obstacle? (m : OpcodeMap) (mnemonic : String) (p : Pattern) : Option Diagnostic :=
  if opcodeCount ≤ m.size then some (.tooManyPatterns m.size)
  else p.opcodes.findSome? fun w =>
    (m.owner? w).map fun (i : Fin m.size) =>
      .conflict w m.names[i] i mnemonic m.size

/-- Makes the pattern `p` the owner of all opcodes that it claims. -/
def claim (m : OpcodeMap) (mnemonic : String) (p : Pattern) : OpcodeMap where
  slots := m.slots.mark (some m.size) p.opcodes
  names := m.names.push mnemonic
  owner_lt := by
    intro w i h
    rw [OpcodeSlots.owner?_mark] at h
    rw [Array.size_push]
    split at h
    · obtain rfl := Option.some.inj h
      exact Nat.lt_succ_self _
    · exact Nat.lt_succ_of_lt (m.owner_lt w i h)

def insert (m : OpcodeMap) (mnemonic : String) (p : Pattern) :
    Except Diagnostic OpcodeMap :=
  match m.obstacle? mnemonic p with
  | some diagnostic => .error diagnostic
  | none => .ok (m.claim mnemonic p)

/-- The map of a table of encodings, which fails if two of them claim
the same opcode. -/
def ofTable (t : EncodingTable) : Except Diagnostic OpcodeMap :=
  t.encodings.toList.foldlM (fun m e => m.insert e.mnemonic e.pattern) ∅

end OpcodeMap

end Microcode
