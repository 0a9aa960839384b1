import CanonicalListing.Text.Lines
import CanonicalListing.Journal
import CanonicalListing.Listing.Draft
import CanonicalListing.Listing.Line
import CanonicalListing.Listing.Order

/-!
# Reading a listing

The lines after the header are taken one by one: a section marker opens a section, a
symbol marker opens a symbol of the open section, and an instruction goes to the open
symbol. The first line that does not fit ends the reading with a fault at that line.
What is read to the end is put into the canonical order. The journal of a reading gets a
summary for the header, a trace for every marker, also one that does not fit, and a
final summary.
-/

namespace CanonicalListing
namespace Listing

open Journal

/-- The outcome of a reading and what is to be said about it. -/
structure Reading where
  entries : List Entry
  outcome : Except Fault Listing

def journalTag : String := "PARSE"

/-- Markers are traced with their line number. -/
def traces (number : Nat) : Line → List Entry
  | .sectionMarker name => [trace journalTag (toString number ++ ": section " ++ name)]
  | .symbolMarker name => [trace journalTag (toString number ++ ": symbol " ++ name)]
  | _ => []

/-- The draft after one more line. -/
def advance (d : Draft) (source : SourceLine) (line : Line) : Except Fault Draft :=
  match line with
  | .sectionMarker name => .ok (d.openSection name)
  | .symbolMarker name => d.openSymbol name
  | .instruction i => d.addInstruction i
  | .unrecognized => .error (Fault.unrecognizedLine source.text (some source.number))

/-- Takes the remaining lines; `written` holds the entries so far, latest first. -/
def readBody (written : List Entry) (d : Draft) : List SourceLine → List Entry × Except Fault Draft
  | [] => (written, .ok d)
  | source :: rest =>
    let line := Line.read source.text
    let written := traces source.number line ++ written
    match advance d source line with
    | .ok next => readBody written next rest
    | .error fault => (written, .error (fault.locate source.text source.number))

def opening (header : Header) : Entry :=
  info journalTag ("file=" ++ header.fileName ++ " format=" ++ header.fileFormat)

def closing (t : Tally) : Entry :=
  info journalTag ("done: " ++ toString t.sections ++ " sections, " ++ toString t.symbols ++
    " symbols, " ++ toString t.instructions ++ " instructions")

def readSource : List SourceLine → Reading
  | [] => ⟨[], .error Fault.emptyInput⟩
  | first :: body =>
    match Header.read? first.text with
    | none => ⟨[], .error (Fault.malformedHeader first.text (some first.number))⟩
    | some header =>
      match readBody [opening header] {} body with
      | (written, .error fault) => ⟨written.reverse, .error fault⟩
      | (written, .ok draft) =>
        let listing := Listing.sort ⟨header.fileName, header.fileFormat, draft.sections⟩
        ⟨(closing listing.tally :: written).reverse, .ok listing⟩

/-- The reading of a sequence of lines; a line may hold line breaks of its own. -/
def readLines (lines : List String) : Reading := readSource (SourceLine.ofTexts lines)

def read (text : String) : Reading := readLines (Text.lines text)

end Listing
end CanonicalListing
