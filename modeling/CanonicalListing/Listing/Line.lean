import CanonicalListing.Text.Blank
import CanonicalListing.Instruction.Reader

/-!
# Lines of a listing

The first line that is not blank is the header; every later one is a section marker, a
symbol marker or an instruction, tried in this order, or it is not recognized. The two
markers are recognized on the trimmed line, an instruction on the line as it stands. A
line that ends like a symbol marker is never an instruction.
-/

namespace CanonicalListing

open Text

/-- A line with its number in the input, counted from one. -/
structure SourceLine where
  text : String
  number : Nat
  deriving DecidableEq, Repr

/-- The lines that are not blank; blank ones count for the numbers. -/
def SourceLine.ofTexts (texts : List String) : List SourceLine :=
  ((texts.zipIdx 1).map fun (text, number) => ⟨text, number⟩).filter fun line => !isBlank line.text

/-- What a line after the header stands for. -/
inductive Line where
  | sectionMarker (name : String)
  | symbolMarker (name : String)
  | instruction (i : Instruction)
  | unrecognized
  deriving DecidableEq, Repr

namespace Line

def isSectionNameChar (c : Char) : Bool := c.isAlphanum || c == '.'

/-- The name in `Disassembly of section <name>:`. -/
def sectionName? (trimmed : List Char) : Option (List Char) :=
  match "Disassembly of section ".toList.isPrefixOf? trimmed with
  | some rest =>
    let name := rest.dropLast
    if rest.getLast? = some ':' ∧ name ≠ [] ∧ name.all isSectionNameChar then some name else none
  | none => none

def endsLikeSymbol (trimmed : List Char) : Bool := [':', '>'].isPrefixOf trimmed.reverse

/-- The name in `<name>:`, angle brackets included. -/
def symbolName? (trimmed : List Char) : Option (List Char) :=
  if trimmed.head? = some '<' ∧ endsLikeSymbol trimmed ∧ !trimmed.any isLineTerminator then
    some trimmed.dropLast
  else none

def read (text : String) : Line :=
  let trimmed := trimChars text.toList
  match sectionName? trimmed, symbolName? trimmed with
  | some name, _ => sectionMarker (String.ofList name)
  | none, some name => symbolMarker (String.ofList name)
  | none, none =>
    if endsLikeSymbol trimmed then unrecognized
    else
      match Instruction.read? text with
      | some i => instruction i
      | none => unrecognized

end Line

/-- The file name and the file format that a header states. -/
structure Header where
  fileName : String
  fileFormat : String
  deriving DecidableEq, Repr

/-- The file name is everything before the first colon, blanks included; the format is what
follows `file format `, trimmed. The words have to be followed by a format. -/
def Header.read? (text : String) : Option Header :=
  let (name, rest) := text.toList.span (· ≠ ':')
  match rest with
  | [] => none
  | _ :: rest =>
    ("file format ".toList.isPrefixOf? (trimChars rest)).map fun format =>
      ⟨String.ofList name, String.ofList (trimChars format)⟩

end CanonicalListing
