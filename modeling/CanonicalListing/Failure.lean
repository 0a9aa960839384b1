import CanonicalListing.Fault

/-!
# Failures

A run can fail before there is anything to read: the arguments may be wrong, a file they
name may be missing, or the child process may not start. All other failures are faults.
-/

namespace CanonicalListing

/-- What is wrong with the arguments. -/
inductive Misuse where
  | valueRequired (flag : String)
  | valueNotTaken (flag : String)
  | unknownFlag (flag : String)
  | unexpectedArgument (argument : String)
  | objectFileMissing
  | twoSources
  | noSuchFile (path : String)
  deriving DecidableEq, Repr

def Misuse.message : Misuse → String
  | valueRequired flag => flag ++ " requires a value"
  | valueNotTaken flag => flag ++ " does not take a value"
  | unknownFlag flag => "unknown flag: " ++ flag
  | unexpectedArgument argument => "unexpected argument: " ++ argument
  | objectFileMissing => "missing <OBJ-FILE>"
  | twoSources => "<OBJ-FILE> and --input are mutually exclusive"
  | noSuchFile path => path ++ ": File does not exist!"

inductive Failure where
  | misuse (m : Misuse)
  | notStarted (message : String)
  | fault (f : Fault)
  deriving DecidableEq, Repr

namespace Failure

def message : Failure → String
  | misuse m => m.message
  | notStarted message => message
  | fault f => f.message

/-- A fault, and of the given kind if one is given. -/
def isFault (kind? : Option Cause.Kind) : Failure → Bool
  | fault f => kind?.all (· == f.kind)
  | _ => false

theorem isFault_eq_true_iff {kind? : Option Cause.Kind} {failure : Failure} :
    failure.isFault kind? = true ↔
      ∃ f, failure = fault f ∧ ∀ kind ∈ kind?, f.kind = kind := by
  cases failure with
  | fault f => cases kind? <;> simp [isFault, eq_comm (a := f.kind)]
  | misuse m => simp [isFault]
  | notStarted message => simp [isFault]

/-- Misuse exits with 2, everything else with 1. -/
def exitCode : Failure → Nat
  | misuse _ => 2
  | _ => 1

end Failure
end CanonicalListing
