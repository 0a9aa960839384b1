import CanonicalListing.Text.Blank
import CanonicalListing.Capture
import CanonicalListing.Instruction.Basic
import CanonicalListing.Journal
import CanonicalListing.Numeral

/-!
# Settings

The environment gives the defaults of a run. A flag variable is set by `1` or `true`,
in any case and with blanks around it. The journal limit is a numeric literal whose
rounded value lies between one and a million; anything else means the default.
-/

namespace CanonicalListing

/-- A look-up of environment variables. -/
abbrev Environment := String → Option String

structure Settings where
  render : RenderOptions
  objdump : String
  journal : Journal.Policy
  deriving DecidableEq, Repr

namespace Settings

def defaultLimit : Nat := 200

def maximalLimit : Nat := 1000000

/-- Upper case counts like lower case; the two accepted words are ASCII, and no other character
has an ASCII letter of `true` as its lower case. -/
def isSet (value? : Option String) : Bool :=
  match value? with
  | none => false
  | some value =>
    let word := (Text.trimChars value.toList).map Char.toLower
    word == ['1'] || word == "true".toList

def limitOf (value? : Option String) : Nat :=
  ((value?.bind Numeral.read?).bind (Numeral.count? maximalLimit)).getD defaultLimit

def executableOf (value? : Option String) : String :=
  let name := Text.trim (value?.getD "")
  if name = "" then Capture.defaultExecutable else name

def ofEnvironment (env : Environment) : Settings where
  render :=
    { operands := isSet (env "DISASM_INCLUDE_OPERANDS")
      comments := isSet (env "DISASM_INCLUDE_COMMENTS") }
  objdump := executableOf (env "DISASM_OBJDUMP")
  journal :=
    { enabled := isSet (env "DISASM_LOG")
      limit := limitOf (env "DISASM_LOG_LIMIT") }

theorem executableOf_of_blank {value? : Option String} (h : Text.trim (value?.getD "") = "") :
    executableOf value? = Capture.defaultExecutable := by
  simp [executableOf, h]

theorem executableOf_of_not_blank {value? : Option String} (h : Text.trim (value?.getD "") ≠ "") :
    executableOf value? = Text.trim (value?.getD "") := by
  simp [executableOf, h]

end Settings
end CanonicalListing
