import CanonicalListing.Capture
import CanonicalListing.Command.Options
import CanonicalListing.Fingerprint
import CanonicalListing.Listing.Reader
import CanonicalListing.Listing.Render
import CanonicalListing.Settings

/-!
# Runs of the command

A run is a function of the arguments and of the world around it: what the paths name,
the environment, what becomes of a child process, and whether a write succeeds. It
obtains a listing, reads it, and delivers the rendering or its fingerprint in one piece,
to the standard output or to one file. Nothing is delivered unless everything before
succeeded.
-/

namespace CanonicalListing
namespace Command

/-- What a path names. A regular file may still be unreadable. -/
inductive Node where
  | file (content : ByteArray)
  | unreadable (message : String)
  | directory

structure World where
  node : String → Option Node
  environment : Environment
  /-- What starting the disassembler comes to. -/
  launch : Launch
  /-- Why a write to a path fails, if it does. -/
  writeRefusal : String → Option String

/-- A run without an exit code is still waiting for its child. Every piece that is printed to the
standard output or reported to the standard error is one write, and so is every write to a file. -/
structure Outcome where
  exitCode : Option Nat
  printed : List String := []
  reported : List String := []
  writes : List (String × String) := []
  started : List Invocation := []
  deriving DecidableEq, Repr

def Outcome.stdout (o : Outcome) : String := String.join o.printed

def Outcome.stderr (o : Outcome) : String := String.join o.reported

def usage : String := "\n".intercalate
  [ "Usage: disasm-normalize <OBJ-FILE> [options]",
    "",
    "Disassemble <OBJ-FILE> with objdump and print an address-free listing,",
    "grouped by section and symbol and sorted by name.",
    "",
    "Options:",
    "  -e, --executable <FILE>  " ++
      "Use the objdump executable <FILE> (default: $DISASM_OBJDUMP or objdump)",
    "  -o, --out <FILE>         Place the output into <FILE> instead of stdout",
    "  -i, --input <FILE>       " ++
      "Normalize a saved objdump listing instead of running objdump",
    "      --operands           Keep instruction operands",
    "      --comments           Keep trailing '#' comments",
    "      --hash               " ++
      "Print an FNV-1a fingerprint of the listing instead of the listing",
    "  -h, --help               Show this help" ]

def errorLine (message : String) : String := "error: " ++ message ++ "\n"

def World.isFile (w : World) (path : String) : Bool :=
  match w.node path with
  | some (.file _) => true
  | some (.unreadable _) => true
  | _ => false

/-- The bytes of a saved listing as a text. -/
def readSaved (w : World) (path : String) : Except Failure String :=
  match w.node path with
  | some (.file content) =>
    match Text.decodeUtf8? content with
    | some text => .ok text
    | none => .error (.fault (Fault.ioFailure (path ++ ": not valid UTF-8")))
  | some (.unreadable message) => .error (.fault (Fault.ioFailure message))
  | _ => .error (.misuse (.noSuchFile path))

/-- The first of the given paths that is no regular file. -/
def missingFile? (w : World) (paths : List String) : Option String :=
  paths.find? fun path => !w.isFile path

/-- The listing text, saved or captured. A program that is only named is not looked up here, but
one that is given explicitly has to be a file. -/
def obtain (o : Options) (executable : String) (w : World) : Capture.Report :=
  match o.input, o.objFile with
  | some path, _ =>
    match readSaved w path with
    | .ok text => { outcome := .text text }
    | .error failure => { outcome := .failed failure }
  | none, none => { outcome := .failed (.misuse .objectFileMissing) }
  | none, some objFile =>
    match missingFile? w (objFile :: o.executable.toList) with
    | some path => { outcome := .failed (.misuse (.noSuchFile path)) }
    | none => Capture.run executable objFile w.launch

/-- What is kept is what the settings or the switches ask for. -/
def Options.merge (o : Options) (defaults : RenderOptions) : RenderOptions where
  operands := o.operands || defaults.operands
  comments := o.comments || defaults.comments

def Options.sourceName (o : Options) : String := (o.objFile <|> o.input).getD ""

/-- The text to deliver: the rendering, or a line with its fingerprint and the source. -/
def Options.product (o : Options) (rendering : String) : String :=
  if o.hash then Fingerprint.ofText rendering ++ "  " ++ o.sourceName ++ "\n" else rendering

def written (product path : String) : Journal.Entry :=
  Journal.info "CLI"
    ("wrote " ++ toString (Text.unitLength product) ++ " chars to " ++ path)

/-- How a run ends, with its journal still as entries. -/
structure Ending where
  result : Option (Except Failure Unit)
  printed : List String := []
  writes : List (String × String) := []
  entries : List Journal.Entry := []

/-- Delivers the product to the file of `--out`, or else to the standard output. -/
def deliver (o : Options) (w : World) (product : String) (entries : List Journal.Entry) : Ending :=
  match o.out with
  | none => { result := some (.ok ()), printed := [product], entries }
  | some path =>
    match w.writeRefusal path with
    | some message => { result := some (.error (.fault (Fault.ioFailure message))), entries }
    | none =>
      { result := some (.ok ()), writes := [(path, product)]
        entries := entries ++ [written product path] }

/-- Reads what was obtained and delivers the product. -/
def process (o : Options) (options : RenderOptions) (w : World) (report : Capture.Report) :
    Ending :=
  match report.outcome with
  | .pending => { result := none, entries := report.entries }
  | .failed failure => { result := some (.error failure), entries := report.entries }
  | .text text =>
    let reading := Listing.read text
    let entries := report.entries ++ reading.entries
    match reading.outcome with
    | .error fault => { result := some (.error (.fault fault)), entries }
    | .ok listing => deliver o w (o.product (listing.render options)) entries

def journalLines (policy : Journal.Policy) (entries : List Journal.Entry) : List String :=
  (Journal.write policy entries).map (· ++ "\n")

def Ending.finish (d : Ending) (policy : Journal.Policy) (started : List Invocation) : Outcome :=
  let journal := journalLines policy d.entries
  match d.result with
  | none => { exitCode := none, reported := journal, started }
  | some (.error failure) =>
    { exitCode := some failure.exitCode, reported := journal ++ [errorLine failure.message],
      started }
  | some (.ok ()) =>
    { exitCode := some 0, printed := d.printed, reported := journal, writes := d.writes, started }

/-- A run whose arguments are accepted and do not ask for help. -/
def execute (o : Options) (w : World) : Outcome :=
  let settings := Settings.ofEnvironment w.environment
  let report := obtain o (o.executable.getD settings.objdump) w
  (process o (o.merge settings.render) w report).finish settings.journal report.started

def run (arguments : List String) (w : World) : Outcome :=
  match Options.read arguments with
  | .error m =>
    { exitCode := some (Failure.misuse m).exitCode
      reported := [errorLine m.message ++ "\n" ++ usage ++ "\n"] }
  | .ok o => if o.help then { exitCode := some 0, printed := [usage ++ "\n"] } else execute o w

end Command
end CanonicalListing
