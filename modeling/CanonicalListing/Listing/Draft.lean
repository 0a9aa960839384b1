import CanonicalListing.Listing.Basic

/-!
# Drafts

A draft is a listing under construction. Its sections, their symbols and their
instructions are kept latest first, so that the open section and the open symbol are at
hand; `sections` puts everything into the order in which it came.
-/

namespace CanonicalListing

/-- Sections that are read so far, latest first at every level. -/
structure Draft where
  latest : List Section := []
  deriving DecidableEq, Repr

namespace Draft

/-- A new section is open, and it has no symbol yet. -/
def openSection (d : Draft) (name : String) : Draft := ⟨Section.named name :: d.latest⟩

/-- A new symbol of the open section is open. -/
def openSymbol (d : Draft) (name : String) : Except Fault Draft :=
  match d.latest with
  | [] => .error (Fault.missingSection .symbol)
  | s :: earlier => .ok ⟨{ s with symbols := Symbol.named name :: s.symbols } :: earlier⟩

def addInstruction (d : Draft) (i : Instruction) : Except Fault Draft :=
  match d.latest with
  | [] => .error (Fault.missingSection .instruction)
  | s :: earlier =>
    match s.symbols with
    | [] => .error Fault.missingSymbol
    | symbol :: others =>
      let longer := { symbol with instructions := i :: symbol.instructions }
      .ok ⟨{ s with symbols := longer :: others } :: earlier⟩

def forwardSymbol (s : Symbol) : Symbol := { s with instructions := s.instructions.reverse }

def forwardSection (s : Section) : Section :=
  { s with symbols := (s.symbols.map forwardSymbol).reverse }

/-- Everything in the order in which it came. -/
def sections (d : Draft) : List Section := (d.latest.map forwardSection).reverse

@[simp] theorem sections_openSection (d : Draft) (name : String) :
    (d.openSection name).sections = d.sections ++ [Section.named name] := by
  simp [openSection, sections, forwardSection, Section.named]

end Draft
end CanonicalListing
