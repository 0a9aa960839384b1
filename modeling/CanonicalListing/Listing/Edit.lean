import CanonicalListing.Listing.Order
import CanonicalListing.Listing.Render

/-!
# Editing a listing

A listing is edited step by step. A step names a section by its current position and a
symbol by its current position in that section. Steps that only look leave the listing as
it is, and so does an addition that is refused.
-/

namespace CanonicalListing
namespace Listing

/-- What a rendering covers. -/
inductive Target where
  | all
  | sectionAt (i : Nat)
  | symbolAt (i j : Nat)
  deriving DecidableEq, Repr

inductive Step where
  | addSymbol (i : Nat) (name : String)
  | addInstruction (i : Nat) (instruction : Instruction)
  | addInstructionTo (i j : Nat) (instruction : Instruction)
  | sortSymbols (i : Nat)
  | sort
  | openSymbol (i : Nat)
  | tally
  | render (target : Target) (options : RenderOptions)
  deriving DecidableEq, Repr

/-- What a step answers. -/
inductive Answer where
  | done
  | refused (fault : Fault)
  | name (name : Option String)
  | tally (t : Tally)
  | text (text : String)
  deriving DecidableEq, Repr

def modifySection (l : Listing) (i : Nat) (f : Section → Section) : Listing :=
  { l with sections := l.sections.modify i f }

def renderTarget (l : Listing) (options : RenderOptions) : Target → String
  | .all => l.render options
  | .sectionAt i => (l.sections[i]?.map fun s => s.render options).getD ""
  | .symbolAt i j =>
    ((l.sections[i]?.bind fun s => s.symbols[j]?).map fun symbol => symbol.render options).getD ""

/-- Adds to the open symbol of a section, if there is one. -/
def addInstructionAt (l : Listing) (i : Nat) (instruction : Instruction) : Except Fault Listing :=
  match l.sections[i]? with
  | none => .ok l
  | some s => (s.addInstruction instruction).map fun s' => l.modifySection i fun _ => s'

def apply (l : Listing) : Step → Listing × Answer
  | .addSymbol i name => (l.modifySection i fun s => s.addSymbol (Symbol.named name), .done)
  | .addInstruction i instruction =>
    match l.addInstructionAt i instruction with
    | .ok l' => (l', .done)
    | .error fault => (l, .refused fault)
  | .addInstructionTo i j instruction =>
    (l.modifySection i fun s =>
      { s with symbols := s.symbols.modify j fun symbol => symbol.addInstruction instruction },
      .done)
  | .sortSymbols i => (l.modifySection i Section.sortSymbols, .done)
  | .sort => (l.sort, .done)
  | .openSymbol i => (l, .name ((l.sections[i]?.bind Section.openSymbol?).map Symbol.name))
  | .tally => (l, .tally l.tally)
  | .render target options => (l, .text (l.renderTarget options target))

/-- The answers of a run, each with the listing after its step. -/
def applyAll (l : Listing) : List Step → List (Listing × Answer)
  | [] => []
  | step :: rest => l.apply step :: applyAll (l.apply step).1 rest

theorem length_applyAll (l : Listing) (steps : List Step) :
    (l.applyAll steps).length = steps.length := by
  induction steps generalizing l with
  | nil => rfl
  | cons step rest ih => simp [applyAll, ih]

end Listing
end CanonicalListing
