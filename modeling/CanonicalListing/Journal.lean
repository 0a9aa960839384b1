/-!
# The journal

Work is reported as tagged entries: summaries, which are always written while the
journal is enabled, and traces, of which only the first `limit` are. The notice that
the limit is reached follows directly on the last trace that is written and bears its tag.
-/

namespace CanonicalListing
namespace Journal

inductive Level where
  | trace
  | info
  deriving DecidableEq, Repr

structure Entry where
  level : Level
  tag : String
  message : String
  deriving DecidableEq, Repr

structure Policy where
  enabled : Bool
  limit : Int := 200
  deriving DecidableEq, Repr

def info (tag message : String) : Entry := ⟨.info, tag, message⟩

def trace (tag message : String) : Entry := ⟨.trace, tag, message⟩

def tagged (tag message : String) : String := "[" ++ tag ++ "] " ++ message

def notice (limit : Int) (tag : String) : String :=
  tagged tag ("trace limit of " ++ toString limit ++ " lines reached")

theorem tagged_append (tag front back : String) :
    tagged tag (front ++ back) = tagged tag front ++ back :=
  String.append_assoc.symm

/-- The lines of one entry when `count` traces have been written, and the new count. -/
def writeNext (policy : Policy) (count : Nat) (entry : Entry) : Nat × List String :=
  if policy.enabled then
    match entry.level with
    | .info => (count, [tagged entry.tag entry.message])
    | .trace =>
      if count < policy.limit then
        (count + 1, tagged entry.tag entry.message ::
          if count + 1 = policy.limit then [notice policy.limit entry.tag] else [])
      else (count, [])
  else (count, [])

def writeFrom (policy : Policy) : Nat → List Entry → List (List String)
  | _, [] => []
  | count, entry :: rest =>
    let (next, lines) := writeNext policy count entry
    lines :: writeFrom policy next rest

/-- The lines that each entry causes. -/
def writeEach (policy : Policy) (entries : List Entry) : List (List String) :=
  writeFrom policy 0 entries

def write (policy : Policy) (entries : List Entry) : List String :=
  (writeEach policy entries).flatten

theorem writeNext_of_disabled {policy : Policy} (h : policy.enabled = false) (count : Nat)
    (entry : Entry) : writeNext policy count entry = (count, []) := by
  simp [writeNext, h]

theorem writeFrom_of_disabled {policy : Policy} (h : policy.enabled = false) (count : Nat)
    (entries : List Entry) : (writeFrom policy count entries).flatten = [] := by
  induction entries generalizing count with
  | nil => rfl
  | cons entry rest ih => simp [writeFrom, writeNext_of_disabled h, ih]

theorem write_of_disabled {policy : Policy} (h : policy.enabled = false) (entries : List Entry) :
    write policy entries = [] :=
  writeFrom_of_disabled h 0 entries

end Journal
end CanonicalListing
