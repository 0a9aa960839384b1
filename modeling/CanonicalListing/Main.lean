import CanonicalListing.Command.Run

/-!
# The command

The outer layer of the command: it looks at the files that the options name, runs, and
carries out what the run decided. It starts no child process itself, so a listing comes
from a saved file, and for an object file the launch is refused.
-/

namespace CanonicalListing
namespace Command

def variableNames : List String :=
  [ "DISASM_INCLUDE_OPERANDS", "DISASM_INCLUDE_COMMENTS", "DISASM_OBJDUMP", "DISASM_LOG",
    "DISASM_LOG_LIMIT" ]

/-- The paths that a run looks at. -/
def pathsOf (arguments : List String) : List String :=
  match Options.read arguments with
  | .ok o => o.input.toList ++ o.objFile.toList ++ o.executable.toList
  | .error _ => []

/-- What a path names, found out by reading it. -/
def readNode (path : String) : IO (Option Node) := do
  try
    return some (.file (← IO.FS.readBinFile path))
  catch e =>
    match e with
    | .permissionDenied .. => return some (.unreadable (toString e))
    | _ => return none

def readWorld (arguments : List String) : IO World := do
  let nodes ← (pathsOf arguments).mapM fun path => return (path, ← readNode path)
  let values ← variableNames.mapM fun name => return (name, ← IO.getEnv name)
  return {
    node := fun path => (nodes.lookup path).join
    environment := fun name => (values.lookup name).join
    launch := .refused "this build starts no child processes; use --input with a saved listing"
    writeRefusal := fun _ => none }

/-- Writes the files of a run, and answers what a failed write makes of it. -/
def perform (arguments : List String) (w : World) : IO Outcome := do
  let outcome := run arguments w
  try
    for (path, content) in outcome.writes do
      IO.FS.writeFile path content
    return outcome
  catch e =>
    return run arguments { w with writeRefusal := fun _ => some (toString e) }

end Command
end CanonicalListing

open CanonicalListing in
def main (arguments : List String) : IO UInt32 := do
  let outcome ← Command.perform arguments (← Command.readWorld arguments)
  IO.print outcome.stdout
  IO.eprint outcome.stderr
  return (outcome.exitCode.getD 1).toUInt32
