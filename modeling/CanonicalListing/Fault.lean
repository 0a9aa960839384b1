/-!
# Faults

A fault says why no listing came out, and on which line where there is one. Every
fault is final: reading stops at the first one and hands back no partial listing.
-/

namespace CanonicalListing

/-- What was to be added when no section was open. -/
inductive Part where
  | symbol
  | instruction
  deriving DecidableEq, Repr

inductive Cause where
  | emptyInput
  | malformedHeader (line : String)
  | unrecognizedLine (line : String)
  | missingSection (part : Part)
  | missingSymbol
  | ioFailure (message : String)
  deriving DecidableEq, Repr

namespace Cause

inductive Kind where
  | emptyInput
  | malformedHeader
  | unrecognizedLine
  | missingSection
  | missingSymbol
  | ioFailure
  deriving DecidableEq, Repr

def kind : Cause → Kind
  | emptyInput => .emptyInput
  | malformedHeader _ => .malformedHeader
  | unrecognizedLine _ => .unrecognizedLine
  | missingSection _ => .missingSection
  | missingSymbol => .missingSymbol
  | ioFailure _ => .ioFailure

def message : Cause → String
  | emptyInput => "the input does not contain any text"
  | malformedHeader line => "incorrect format for the first line: '" ++ line ++ "'"
  | unrecognizedLine line => "unrecognized format for the following line: '" ++ line ++ "'"
  | missingSection .symbol => "attempted to add a symbol without first defining a section"
  | missingSection .instruction =>
    "attempted to add an instruction without first defining a section"
  | missingSymbol => "attempted to add an instruction without first defining a symbol"
  | ioFailure message => message

end Cause

/-- A cause with the offending line and its number in the input, as far as they are known. -/
structure Fault where
  cause : Cause
  line : Option String := none
  lineNumber : Option Int := none
  deriving DecidableEq, Repr

namespace Fault

def kind (f : Fault) : Cause.Kind := f.cause.kind

def message (f : Fault) : String := f.cause.message

def emptyInput : Fault := ⟨.emptyInput, none, none⟩

/-- The offending line is part of the cause and of the position. -/
def malformedHeader (line : String) (number : Option Int := none) : Fault :=
  ⟨.malformedHeader line, some line, number⟩

def unrecognizedLine (line : String) (number : Option Int := none) : Fault :=
  ⟨.unrecognizedLine line, some line, number⟩

def missingSection (part : Part) (line : Option String := none) (number : Option Int := none) :
    Fault :=
  ⟨.missingSection part, line, number⟩

def missingSymbol (line : Option String := none) (number : Option Int := none) : Fault :=
  ⟨.missingSymbol, line, number⟩

def ioFailure (message : String) : Fault := ⟨.ioFailure message, none, none⟩

/-- The same fault with the missing parts of its position filled in. -/
def locate (f : Fault) (line : String) (number : Int) : Fault :=
  { f with line := f.line <|> some line, lineNumber := f.lineNumber <|> some number }

end Fault

theorem map_eq_ok_iff {α β ε : Type} {f : α → β} {r : Except ε α} {b : β} :
    r.map f = .ok b ↔ ∃ a, r = .ok a ∧ f a = b := by
  cases r <;> simp [Except.map]

theorem map_eq_error_iff {α β ε : Type} {f : α → β} {r : Except ε α} {e : ε} :
    r.map f = .error e ↔ r = .error e := by
  cases r <;> simp [Except.map]

end CanonicalListing
