import CanonicalListing.Text.Blank

/-!
# Lines of a text

A text is cut at every line feed. One carriage return right before a line feed
belongs to the line break; any other carriage return is part of its line, also
one at the very end of the text. There is always at least one line, and the text
after the last break is one. `indent` works on the same pieces and leaves the
empty ones alone, so blocks that are indented inside out gain one level each time.
-/

namespace CanonicalListing
namespace Text

/-- A piece without the carriage return that belongs to the line feed after it. -/
def dropReturn (piece : List Char) : List Char :=
  if piece.getLast? = some '\r' then piece.dropLast else piece

/-- Every piece but the last is followed by a line feed. -/
def closePieces : List (List Char) → List (List Char)
  | [] => []
  | [last] => [last]
  | piece :: next :: rest => dropReturn piece :: closePieces (next :: rest)

def lines (text : String) : List String :=
  (closePieces (text.toList.splitOn '\n')).map String.ofList

def indentPiece (margin piece : List Char) : List Char :=
  if piece.isEmpty then piece else margin ++ piece

def indentChars (margin text : List Char) : List Char :=
  ['\n'].intercalate ((text.splitOn '\n').map (indentPiece margin))

/-- Puts the margin in front of every line that is not empty. -/
def indent (text : String) (margin : String := "    ") : String :=
  String.ofList (indentChars margin.toList text.toList)

@[simp] theorem toList_indent (text margin : String) :
    (indent text margin).toList = indentChars margin.toList text.toList := by
  simp [indent]

end Text
end CanonicalListing
