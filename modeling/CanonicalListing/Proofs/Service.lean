import CanonicalListing.Proofs.ExitCodes

/-!
# What a run serves

Whoever calls the command gets an exit code, what is printed and what is written; the
reports come beside that. All of it is a function of the options and of what the listing
reads as, wherever the listing comes from: a run that waits or breaks off serves nothing
but its exit code.
-/

namespace CanonicalListing

/-- What a text reads as. -/
def readingOf (text : String) : Except Failure Listing :=
  match (Listing.read text).outcome with
  | .ok listing => .ok listing
  | .error fault => .error (.fault fault)

/-- What becomes of a capture: a reading of its text, unless it fails or is still waiting. -/
def Capture.Outcome.reading : Capture.Outcome → Option (Except Failure Listing)
  | .pending => none
  | .failed failure => some (.error failure)
  | .text listing => some (readingOf listing)

namespace Command

variable {arguments : List String} {w : World} {o : Options}

/-- A run as its caller sees it, without the reports. -/
structure Service where
  exitCode : Option Nat
  printed : List String := []
  writes : List (String × String) := []
  deriving DecidableEq, Repr

def Outcome.service (outcome : Outcome) : Service :=
  ⟨outcome.exitCode, outcome.printed, outcome.writes⟩

/-- The product goes to the one place that the options name, if it takes it. -/
def Options.place (o : Options) (w : World) (product : String) : Service :=
  match o.out with
  | none => { exitCode := some 0, printed := [product] }
  | some path =>
    match w.writeRefusal path with
    | some _ => { exitCode := some 1 }
    | none => { exitCode := some 0, writes := [(path, product)] }

def Options.serve (o : Options) (w : World) : Option (Except Failure Listing) → Service
  | none => { exitCode := none }
  | some (.error failure) => { exitCode := some failure.exitCode }
  | some (.ok listing) => o.place w (o.result w listing)

theorem place_of_stdout (h : o.out = none) (product : String) :
    o.place w product = { exitCode := some 0, printed := [product] } := by
  simp [Options.place, h]

theorem place_of_file {path : String} (h : o.out = some path)
    (hwrite : w.writeRefusal path = none) (product : String) :
    o.place w product = { exitCode := some 0, writes := [(path, product)] } := by
  simp [Options.place, h, hwrite]

/-- How a run exits if every write succeeds. -/
def exitCodeOf : Option (Except Failure Listing) → Option Nat
  | none => none
  | some (.error failure) => some failure.exitCode
  | some (.ok _) => some 0

section
variable {outcome : Outcome} {listing : Listing}

theorem printed_of_service (h : outcome.service = o.serve w (some (.ok listing)))
    (hout : o.out = none) : outcome.printed = [o.result w listing] ∧ outcome.writes = [] := by
  rw [Options.serve, place_of_stdout hout] at h
  exact ⟨congrArg Service.printed h, congrArg Service.writes h⟩

theorem writes_of_service {path : String} (h : outcome.service = o.serve w (some (.ok listing)))
    (hout : o.out = some path) (hwrite : w.writeRefusal path = none) :
    outcome.printed = [] ∧ outcome.writes = [(path, o.result w listing)] := by
  rw [Options.serve, place_of_file hout hwrite] at h
  exact ⟨congrArg Service.printed h, congrArg Service.writes h⟩

theorem exitCode_of_service {reading : Option (Except Failure Listing)}
    (h : outcome.service = o.serve w reading)
    (hwrite : ∀ path ∈ o.out, w.writeRefusal path = none) :
    outcome.exitCode = exitCodeOf reading := by
  refine (congrArg Service.exitCode h).trans ?_
  rcases reading with _ | failure | listing
  · rfl
  · rfl
  · cases hout : o.out with
    | none => simp [Options.serve, place_of_stdout hout, exitCodeOf]
    | some path => simp [Options.serve, place_of_file hout (hwrite path hout), exitCodeOf]

/-- A run that succeeds has one product, which is printed or written. -/
theorem exists_product_of_service {reading : Option (Except Failure Listing)}
    (h : outcome.service = o.serve w reading) (hzero : outcome.exitCode = some 0) :
    ∃ listing, reading = some (.ok listing) ∧
      outcome.printed ++ outcome.writes.map Prod.snd = [o.result w listing] := by
  have hserved : (o.serve w reading).exitCode = some 0 := h ▸ hzero
  rcases reading with _ | failure | listing
  · cases hserved
  · cases failure <;> cases hserved
  · refine ⟨listing, rfl, ?_⟩
    cases hout : o.out with
    | none =>
      obtain ⟨hprinted, hwrites⟩ := printed_of_service h hout
      simp [hprinted, hwrites]
    | some path =>
      cases hrefusal : w.writeRefusal path with
      | some message => simp [Options.serve, Options.place, hout, hrefusal] at hserved
      | none =>
        obtain ⟨hprinted, hwrites⟩ := writes_of_service h hout hrefusal
        simp [hprinted, hwrites]

end

theorem exists_listing_of_exitCodeOf {reading : Option (Except Failure Listing)}
    (h : exitCodeOf reading = some 0) : ∃ listing, reading = some (.ok listing) := by
  rcases reading with _ | failure | listing
  · cases h
  · cases failure <;> cases h
  · exact ⟨listing, rfl⟩

theorem Outcome.Withholds.service_eq {outcome : Outcome} {exitCode : Option Nat}
    {reports : List String} (h : outcome.Withholds w exitCode reports) :
    outcome.service = { exitCode } := by
  simp only [Outcome.service, h.exitCode, h.printed, h.writes]

theorem service_finish_deliver (product : String) (entries : List Journal.Entry)
    (policy : Journal.Policy) (started : List Invocation) :
    ((deliver o w product entries).finish policy started).service = o.place w product := by
  cases hout : o.out with
  | none => simp [deliver, Options.place, hout, Ending.finish, Outcome.service]
  | some path =>
    cases hrefusal : w.writeRefusal path with
    | none => simp [deliver, Options.place, hout, hrefusal, Ending.finish, Outcome.service]
    | some message =>
      simp [deliver, Options.place, hout, hrefusal, Ending.finish, Outcome.service,
        Failure.exitCode]

theorem run_service (h : Requests arguments o) :
    (run arguments w).service = o.serve w (obtain o (o.program w) w).outcome.reading := by
  rw [run_of_requests h]
  cases hobtained : (obtain o (o.program w) w).outcome with
  | pending => exact (Ending.finish_of_pending (process_of_pending hobtained)).service_eq
  | failed failure => exact (Ending.finish_of_error (process_of_failed hobtained)).service_eq
  | text text =>
    simp only [Capture.Outcome.reading, readingOf]
    cases hread : (Listing.read text).outcome with
    | error fault => exact (Ending.finish_of_error (process_of_fault hobtained hread)).service_eq
    | ok listing =>
      rw [process_of_listing hobtained hread, product_eq_result]
      exact service_finish_deliver _ _ _ _

end Command
end CanonicalListing
