import CanonicalListing.Command.Token

/-!
# Command-line options

The tokens decide the options: at most one positional argument, the object file; the
last value of every setting; and every switch that occurs. Exactly one source of the
listing is needed, unless help is asked for, and even then two are too many.
-/

namespace CanonicalListing
namespace Command

structure Options where
  objFile : Option String := none
  executable : Option String := none
  out : Option String := none
  input : Option String := none
  operands : Bool := false
  comments : Bool := false
  hash : Bool := false
  help : Bool := false
  deriving DecidableEq, Repr

def Token.positional? : Token → Option String
  | .positional argument => some argument
  | _ => none

def Token.valueOf? (s : Setting) : Token → Option String
  | .setting s' value => if s = s' then some value else none
  | _ => none

def lastValue? (s : Setting) (ts : List Token) : Option String :=
  (ts.filterMap (Token.valueOf? s)).getLast?

namespace Options

def ofTokens? (ts : List Token) : Except Misuse Options :=
  let positionals := ts.filterMap Token.positional?
  let options : Options :=
    { objFile := positionals.head?
      executable := lastValue? .executable ts
      out := lastValue? .out ts
      input := lastValue? .input ts
      operands := ts.contains (.switch .operands)
      comments := ts.contains (.switch .comments)
      hash := ts.contains (.switch .hash)
      help := ts.contains (.switch .help) }
  match positionals[1]? with
  | some extra => .error (.unexpectedArgument extra)
  | none =>
    if !options.help && options.objFile.isNone && options.input.isNone then
      .error .objectFileMissing
    else if options.objFile.isSome && options.input.isSome then .error .twoSources
    else .ok options

/-- The options of an argument list. -/
def read (arguments : List String) : Except Misuse Options :=
  match tokens arguments with
  | .error m => .error m
  | .ok ts => ofTokens? ts

end Options
end Command
end CanonicalListing
