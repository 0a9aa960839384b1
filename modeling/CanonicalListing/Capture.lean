import CanonicalListing.Text.Units
import CanonicalListing.Text.Utf8
import CanonicalListing.Failure
import CanonicalListing.Journal

/-!
# Capturing the output of a child process

The listing of an object file is what the disassembler writes to its standard output.
The child is seen through its events: chunks of the two streams, a failure, and the end
with an exit code. The first failure or end settles the capture; before that it is
pending. Whatever the child writes to its standard error makes the capture fail, also
with exit code 0. Later events change nothing but the journal: every end with good
output is noted.
-/

namespace CanonicalListing

inductive ChildEvent where
  | stdout (chunk : ByteArray)
  | stderr (chunk : ByteArray)
  | failed (message : String) (code : Option String)
  | closed (exitCode : Option Int)

/-- The events of a child; a stream that the child lacks delivers nothing. -/
structure Child where
  events : List ChildEvent
  hasStdout : Bool := true
  hasStderr : Bool := true

/-- Starting a child either fails at once or gives a child. -/
inductive Launch where
  | refused (message : String)
  | started (child : Child)

/-- A program and its arguments. -/
structure Invocation where
  program : String
  arguments : List String
  deriving DecidableEq, Repr

namespace Capture

inductive Outcome where
  | pending
  | text (text : String)
  | failed (failure : Failure)
  deriving DecidableEq, Repr

/-- What came out, what was started for it, and what is to be said about it. -/
structure Report where
  outcome : Outcome
  started : List Invocation := []
  entries : List Journal.Entry := []

def journalTag : String := "OBJDUMP"

def defaultExecutable : String := "objdump"

/-- Addresses and raw bytes are left out, so only mnemonics and operands are listed. -/
def arguments (objFile : String) : List String :=
  ["-d", "--no-addresses", "--no-show-raw-insn", objFile]

def quoted (executable : String) : String := "'" ++ executable ++ "'"

def ofFailure (executable message : String) (code : Option String) : Fault :=
  if code = some "ENOENT" then
    Fault.ioFailure (quoted executable ++
      " was not found! Check your PATH or explicitly provide an executable")
  else Fault.ioFailure message

def exitText : Option Int → String
  | some code => toString code
  | none => "null"

/-- The text of a child that has ended, from all that it wrote. -/
def ofEnd (executable : String) (out err : ByteArray) (exitCode : Option Int) :
    Except Fault String :=
  match Text.decodeUtf8? err with
  | none => .error (Fault.ioFailure (quoted executable ++ " wrote invalid UTF-8 to stderr"))
  | some complaint =>
    if complaint ≠ "" then .error (Fault.ioFailure complaint)
    else if exitCode ≠ some 0 then
      .error (Fault.ioFailure (quoted executable ++ " exited with code " ++ exitText exitCode))
    else
      match Text.decodeUtf8? out with
      | none => .error (Fault.ioFailure (quoted executable ++ " wrote invalid UTF-8 to stdout"))
      | some text => .ok text

/-- What is collected so far; `settled` is the first result. -/
structure State where
  out : ByteArray := .empty
  err : ByteArray := .empty
  settled : Option (Except Fault String) := none
  entries : List Journal.Entry := []

def State.settle (s : State) (result : Except Fault String) : State :=
  { s with settled := s.settled <|> some result }

def captured (text : String) : Journal.Entry :=
  Journal.info journalTag ("captured " ++ toString (Text.unitLength text) ++ " chars")

def State.advance (executable : String) (child : Child) (s : State) : ChildEvent → State
  | .stdout chunk => if child.hasStdout then { s with out := s.out ++ chunk } else s
  | .stderr chunk => if child.hasStderr then { s with err := s.err ++ chunk } else s
  | .failed message code => s.settle (.error (ofFailure executable message code))
  | .closed exitCode =>
    match ofEnd executable s.out s.err exitCode with
    | .ok text => { s.settle (.ok text) with entries := s.entries ++ [captured text] }
    | .error fault => s.settle (.error fault)

def State.outcome (s : State) : Outcome :=
  match s.settled with
  | none => .pending
  | some (.ok text) => .text text
  | some (.error fault) => .failed (.fault fault)

def follow (executable : String) (child : Child) : State :=
  child.events.foldl (State.advance executable child) {}

def commandLine (executable objFile : String) : Journal.Entry :=
  Journal.info journalTag (executable ++ " " ++ " ".intercalate (arguments objFile))

/-- Captures the listing of an object file; the child counts as started also when it refuses. -/
def run (executable objFile : String) (launch : Launch) : Report :=
  let started := [⟨executable, arguments objFile⟩]
  match launch with
  | .refused message =>
    { outcome := .failed (.notStarted message), started,
      entries := [commandLine executable objFile] }
  | .started child =>
    let s := follow executable child
    { outcome := s.outcome, started,
      entries := commandLine executable objFile :: s.entries }

end Capture
end CanonicalListing
