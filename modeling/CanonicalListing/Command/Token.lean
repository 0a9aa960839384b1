import CanonicalListing.Failure

/-!
# Command-line tokens

The arguments are cut into tokens from left to right: positional arguments, switches,
and settings with their value. The value of a setting stands behind an equals sign after
a long name, or it is the next argument, which then must not start with a dash. The
first argument that begins no token decides what is reported.
-/

namespace CanonicalListing
namespace Command

inductive Switch where
  | operands
  | comments
  | hash
  | help
  deriving DecidableEq, Repr

inductive Setting where
  | executable
  | out
  | input
  deriving DecidableEq, Repr

inductive Token where
  | positional (argument : String)
  | switch (s : Switch)
  | setting (s : Setting) (value : String)
  deriving DecidableEq, Repr

def switch? : String → Option Switch
  | "--operands" => some .operands
  | "--comments" => some .comments
  | "--hash" => some .hash
  | "-h" => some .help
  | "--help" => some .help
  | _ => none

def setting? : String → Option Setting
  | "-e" => some .executable
  | "--executable" => some .executable
  | "-o" => some .out
  | "--out" => some .out
  | "-i" => some .input
  | "--input" => some .input
  | _ => none

def startsWithDash (argument : String) : Bool := argument.toList.head? == some '-'

/-- A lone dash is a positional argument. -/
def isFlag (argument : String) : Bool := startsWithDash argument && argument != "-"

/-- A long flag with an equals sign, cut at the first one. -/
def inlineValue? (argument : String) : Option (String × String) :=
  if "--".toList.isPrefixOf argument.toList then
    match argument.toList.span (· ≠ '=') with
    | (_, []) => none
    | (name, _ :: value) => some (String.ofList name, String.ofList value)
  else none

/-- What one argument is before the next one is looked at. -/
inductive Head where
  | complete (t : Token)
  | expectsValue (s : Setting)
  | invalid (m : Misuse)
  deriving DecidableEq, Repr

def inlineHead (name value : String) : Head :=
  match setting? name with
  | some s => if value = "" then .invalid (.valueRequired name) else .complete (.setting s value)
  | none => .invalid (.valueNotTaken name)

def bareHead (name : String) : Head :=
  match setting? name, switch? name with
  | some s, _ => .expectsValue s
  | none, some s => .complete (.switch s)
  | none, none => .invalid (.unknownFlag name)

def head (argument : String) : Head :=
  if isFlag argument then
    match inlineValue? argument with
    | some (name, value) => inlineHead name value
    | none => bareHead argument
  else .complete (.positional argument)

def isSeparateValue (argument : String) : Bool := argument != "" && !startsWithDash argument

/-- All tokens, or what is wrong with the first argument that begins none. -/
def tokens : List String → Except Misuse (List Token)
  | [] => .ok []
  | argument :: rest =>
    match head argument with
    | .invalid m => .error m
    | .complete t => (tokens rest).map (t :: ·)
    | .expectsValue s =>
      match rest with
      | [] => .error (.valueRequired argument)
      | value :: rest =>
        if isSeparateValue value then (tokens rest).map (.setting s value :: ·)
        else .error (.valueRequired argument)

end Command
end CanonicalListing
