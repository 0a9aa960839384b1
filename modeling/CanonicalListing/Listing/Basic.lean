import CanonicalListing.Text.Blank
import CanonicalListing.Instruction.Basic
import CanonicalListing.Fault

/-!
# Listings

A listing is the content of one object file: sections, the symbols found in each, and
the instructions that follow each symbol. Names are kept trimmed. Symbols and
instructions are added at the end; the open symbol of a section is its last one, and
an instruction given to a section goes to its open symbol.
-/

namespace CanonicalListing

structure Symbol where
  name : String
  instructions : List Instruction := []
  deriving DecidableEq, Repr

structure Section where
  name : String
  symbols : List Symbol := []
  deriving DecidableEq, Repr

structure Listing where
  fileName : String
  fileFormat : String
  sections : List Section := []
  deriving DecidableEq, Repr

/-- How many of each a listing holds. -/
structure Tally where
  sections : Nat
  symbols : Nat
  instructions : Nat
  deriving DecidableEq, Repr

namespace Symbol

def named (name : String) : Symbol := ⟨Text.trim name, []⟩

def addInstruction (s : Symbol) (i : Instruction) : Symbol :=
  { s with instructions := s.instructions ++ [i] }

end Symbol

namespace Section

def named (name : String) : Section := ⟨Text.trim name, []⟩

def addSymbol (s : Section) (symbol : Symbol) : Section :=
  { s with symbols := s.symbols ++ [symbol] }

def openSymbol? (s : Section) : Option Symbol := s.symbols.getLast?

/-- The instruction goes to the open symbol; without one there is nowhere to put it. -/
def addInstruction (s : Section) (i : Instruction) : Except Fault Section :=
  match s.openSymbol? with
  | some symbol => .ok { s with symbols := s.symbols.dropLast ++ [symbol.addInstruction i] }
  | none => .error Fault.missingSymbol

end Section

namespace Listing

/-- The symbols of all sections. -/
def symbols (l : Listing) : List Symbol := l.sections.flatMap Section.symbols

def instructions (l : Listing) : List Instruction := l.symbols.flatMap Symbol.instructions

def tally (l : Listing) : Tally where
  sections := l.sections.length
  symbols := l.symbols.length
  instructions := l.instructions.length

end Listing
end CanonicalListing
