import Microcode.Text.Hex

/-!
# JSON documents

A document is printed in one of two layouts: compact, without any blank,
or indented, with one item to a line and two blanks for each level.
Members keep the order in which they are given. In strings the quote,
the backslash and the control characters are escaped, and nothing else.
-/

namespace Microcode

inductive Json where
  | bool (b : Bool)
  | num (n : Nat)
  | str (s : String)
  | arr (items : List Json)
  | obj (members : List (String × Json))

namespace Json

inductive Layout where
  | compact
  | indented
deriving DecidableEq, Repr

/-! ## Strings -/

def backslash : Char := '\x5c'

def escape (c : Char) : List Char :=
  match c with
  | '\x22' => [backslash, '\x22']
  | '\x5c' => [backslash, backslash]
  | '\n' => [backslash, 'n']
  | '\r' => [backslash, 'r']
  | '\t' => [backslash, 't']
  | '\x08' => [backslash, 'b']
  | '\x0c' => [backslash, 'f']
  | c => if c.toNat < 32 then backslash :: 'u' :: Hex.digits 4 c.toNat else [c]

def quote (s : String) : String :=
  "\x22" ++ String.ofList (s.toList.flatMap escape) ++ "\x22"

/-! ## Values -/

def Layout.newline : Layout → Nat → String
  | .compact, _ => ""
  | .indented, depth => String.ofList ('\n' :: List.replicate (2 * depth) ' ')

def Layout.colon : Layout → String
  | .compact => ":"
  | .indented => ": "

/-- The items between two brackets, which stand at `depth`; nothing
stands between the brackets of an empty value. -/
def enclose (layout : Layout) (depth : Nat) (opening closing : String) :
    List String → String
  | [] => opening ++ closing
  | items =>
      let separator := "," ++ layout.newline (depth + 1)
      opening ++ layout.newline (depth + 1) ++ separator.intercalate items
        ++ layout.newline depth ++ closing

mutual

/-- The text of a value whose first line starts at `depth`. -/
def render (layout : Layout) (depth : Nat) : Json → String
  | bool true => "true"
  | bool false => "false"
  | num n => n.repr
  | str s => quote s
  | arr items => enclose layout depth "[" "]" (renderItems layout (depth + 1) items)
  | obj members =>
      enclose layout depth "\x7b" "\x7d" (renderMembers layout (depth + 1) members)

def renderItems (layout : Layout) (depth : Nat) : List Json → List String
  | [] => []
  | item :: rest => item.render layout depth :: renderItems layout depth rest

def renderMembers (layout : Layout) (depth : Nat) :
    List (String × Json) → List String
  | [] => []
  | (key, value) :: rest =>
      (quote key ++ layout.colon ++ value.render layout depth)
        :: renderMembers layout depth rest

end

end Json

end Microcode
