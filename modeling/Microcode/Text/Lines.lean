/-!
# Lines of a text

A line ends at a line feed or at a carriage return followed by a line
feed; a carriage return alone ends nothing. What follows the last line
feed is a line only if it is not empty.
-/

namespace Microcode.Text

/-- The characters before a line feed, without the carriage return that
belongs to the line end. -/
def dropReturn (line : List Char) : List Char :=
  if line.getLast? = some '\r' then line.dropLast else line

def lines (cs : List Char) : List (List Char) :=
  let pieces := cs.splitOn '\n'
  pieces.dropLast.map dropReturn ++ pieces.getLast?.toList.filter (· ≠ [])

end Microcode.Text
