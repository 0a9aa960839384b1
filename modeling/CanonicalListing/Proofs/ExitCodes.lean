import CanonicalListing.Command.Run
import CanonicalListing.Proofs.ChildRuns

/-!
# Exit codes

A run is rejected, waits for its child, breaks at some stage, or delivers. Each of the
four is described by itself, from the arguments and the world alone, and each fixes the
exit code and what leaves the run. One of them always happens, so the exit code also says
which. Only a run that delivers, or that shows the help, lets anything out, and that in
one piece.
-/

namespace CanonicalListing
namespace Command

variable {arguments : List String} {w : World} {o : Options}

/-- The path names a regular file, which need not be readable. -/
def World.HasFile (w : World) (path : String) : Prop :=
  (∃ content, w.node path = some (.file content)) ∨
    ∃ message, w.node path = some (.unreadable message)

theorem World.isFile_iff {path : String} : w.isFile path = true ↔ w.HasFile path := by
  unfold isFile HasFile
  cases w.node path with
  | none => simp
  | some node => cases node <;> simp

/-- The arguments are accepted and ask for a listing. -/
def Requests (arguments : List String) (o : Options) : Prop :=
  Options.read arguments = .ok o ∧ o.help = false

/-- The files that have to be there, in the order in which they are looked for. -/
def Options.needed (o : Options) : List String :=
  match o.input with
  | some path => [path]
  | none => o.objFile.toList ++ o.executable.toList

theorem needed_of_input {path : String} (h : o.input = some path) : o.needed = [path] := by
  simp [Options.needed, h]

theorem needed_of_objFile {objFile : String} (hinput : o.input = none)
    (hobj : o.objFile = some objFile) : o.needed = objFile :: o.executable.toList := by
  simp [Options.needed, hinput, hobj]

/-- The program that lists an object file. -/
def Options.program (o : Options) (w : World) : String :=
  o.executable.getD (Settings.ofEnvironment w.environment).objdump

/-- The first needed path that names no regular file. -/
def Lacks (o : Options) (w : World) (path : String) : Prop :=
  ∃ found rest, o.needed = found ++ path :: rest ∧ (∀ p ∈ found, w.HasFile p) ∧ ¬ w.HasFile path

/-- The disassembler is called on an object file, and everything it needs is there. -/
def Calls (o : Options) (w : World) (objFile : String) : Prop :=
  o.input = none ∧ o.objFile = some objFile ∧ ∀ path ∈ o.needed, w.HasFile path

theorem calls_iff {objFile : String} :
    Calls o w objFile ↔ o.input = none ∧ o.objFile = some objFile ∧ w.HasFile objFile ∧
      ∀ tool ∈ o.executable, w.HasFile tool := by
  refine and_congr_right fun hinput => and_congr_right fun hobj => ?_
  simp [needed_of_objFile hinput hobj]

/-- The text of the listing, saved or captured. -/
inductive Obtains (o : Options) (w : World) : String → Prop where
  | saved {path text : String} {content : ByteArray} (hinput : o.input = some path)
      (hnode : w.node path = some (.file content)) (htext : Text.decodeUtf8? content = some text) :
      Obtains o w text
  | captured {objFile text : String} (hcalls : Calls o w objFile)
      (htext : (Capture.run (o.program w) objFile w.launch).outcome = .text text) :
      Obtains o w text

/-- The help as it is printed. -/
def helpText : String := String.join
  [ "Usage: disasm-normalize <OBJ-FILE> [options]\n",
    "\n",
    "Disassemble <OBJ-FILE> with objdump and print an address-free listing,\n",
    "grouped by section and symbol and sorted by name.\n",
    "\n",
    "Options:\n",
    "  -e, --executable <FILE>  Use the objdump executable <FILE> ",
    "(default: $DISASM_OBJDUMP or objdump)\n",
    "  -o, --out <FILE>         Place the output into <FILE> instead of stdout\n",
    "  -i, --input <FILE>       Normalize a saved objdump listing instead of running objdump\n",
    "      --operands           Keep instruction operands\n",
    "      --comments           Keep trailing '#' comments\n",
    "      --hash               Print an FNV-1a fingerprint of the listing ",
    "instead of the listing\n",
    "  -h, --help               Show this help\n" ]

theorem usage_eq : usage ++ "\n" = helpText := by decide +kernel

/-- The arguments are at fault, or a file that they name is missing; with the report on it. -/
inductive Rejects (arguments : List String) (w : World) : String → Prop where
  | arguments {m : Misuse} (hread : Options.read arguments = .error m) :
      Rejects arguments w ("error: " ++ m.message ++ "\n\n" ++ helpText)
  | file {o : Options} {path : String} (hrequests : Requests arguments o)
      (hlacks : Lacks o w path) :
      Rejects arguments w ("error: " ++ path ++ ": File does not exist!\n")

/-- The disassembler is called, and none of the events of its run settles it. -/
def Waits (arguments : List String) (w : World) : Prop :=
  ∃ o objFile child, Requests arguments o ∧ Calls o w objFile ∧ w.launch = .started child ∧
    ∀ e ∈ child.events, e.settles = false

/-- A stage of the run fails. -/
inductive Breaks (arguments : List String) (w : World) : Failure → Prop where
  | reading {o : Options} {path message : String} (hrequests : Requests arguments o)
      (hinput : o.input = some path) (hnode : w.node path = some (.unreadable message)) :
      Breaks arguments w (.fault (Fault.ioFailure message))
  | decoding {o : Options} {path : String} {content : ByteArray} (hrequests : Requests arguments o)
      (hinput : o.input = some path) (hnode : w.node path = some (.file content))
      (htext : Text.decodeUtf8? content = none) :
      Breaks arguments w (.fault (Fault.ioFailure (path ++ ": not valid UTF-8")))
  | capturing {o : Options} {objFile : String} {failure : Failure}
      (hrequests : Requests arguments o) (hcalls : Calls o w objFile)
      (hfailed : (Capture.run (o.program w) objFile w.launch).outcome = .failed failure) :
      Breaks arguments w failure
  | parsing {o : Options} {text : String} {fault : Fault} (hrequests : Requests arguments o)
      (hobtains : Obtains o w text) (hfault : (Listing.read text).outcome = .error fault) :
      Breaks arguments w (.fault fault)
  | writing {o : Options} {text path message : String} {listing : Listing}
      (hrequests : Requests arguments o) (hobtains : Obtains o w text)
      (hlisting : (Listing.read text).outcome = .ok listing) (hout : o.out = some path)
      (hrefused : w.writeRefusal path = some message) :
      Breaks arguments w (.fault (Fault.ioFailure message))

/-- What is kept of an instruction beside its mnemonic. -/
def Options.kept (o : Options) (w : World) : RenderOptions where
  operands := o.operands || Settings.isSet (w.environment "DISASM_INCLUDE_OPERANDS")
  comments := o.comments || Settings.isSet (w.environment "DISASM_INCLUDE_COMMENTS")

/-- What is to be delivered for a listing: all of its rendering, or a line with the fingerprint of
that and with the source. -/
def Options.result (o : Options) (w : World) (listing : Listing) : String :=
  if o.hash then
    Fingerprint.ofText (listing.render (o.kept w)) ++ "  " ++ o.objFile.getD (o.input.getD "") ++
      "\n"
  else listing.render (o.kept w)

theorem sourceName_eq (o : Options) : o.sourceName = o.objFile.getD (o.input.getD "") := by
  cases hobj : o.objFile <;> simp [Options.sourceName, hobj]

theorem product_eq_result (o : Options) (w : World) (listing : Listing) :
    o.product (listing.render (o.merge (Settings.ofEnvironment w.environment).render)) =
      o.result w listing := by
  rw [Options.product, sourceName_eq]
  rfl

/-- Everything succeeds, and the product goes to the one destination that takes it. -/
def Delivers (arguments : List String) (w : World) (outcome : Outcome) : Prop :=
  ∃ o text listing, Requests arguments o ∧ Obtains o w text ∧
    (Listing.read text).outcome = .ok listing ∧
    ((o.out = none ∧ outcome.printed = [o.result w listing] ∧ outcome.writes = []) ∨
      ∃ path, o.out = some path ∧ w.writeRefusal path = none ∧ outcome.printed = [] ∧
        outcome.writes = [(path, o.result w listing)])

theorem Requests.source (h : Requests arguments o) :
    (∃ path, o.input = some path) ∨ o.input = none ∧ ∃ objFile, o.objFile = some objFile := by
  obtain ⟨hread, hhelp⟩ := h
  cases hinput : o.input with
  | some path => exact .inl ⟨path, rfl⟩
  | none =>
    refine .inr ⟨rfl, Option.ne_none_iff_exists'.mp fun hobj => ?_⟩
    unfold Options.read at hread
    split at hread
    · cases hread
    · -- Without either source the tokens are refused, unless help is asked for.
      simp only [Options.ofTokens?] at hread
      repeat' split at hread
      all_goals cases hread
      simp_all

theorem run_of_requests (h : Requests arguments o) :
    run arguments w =
      (process o (o.merge (Settings.ofEnvironment w.environment).render) w
        (obtain o (o.program w) w)).finish (Settings.ofEnvironment w.environment).journal
          (obtain o (o.program w) w).started := by
  rw [run, h.1]
  exact if_neg (by simp [h.2])

/-- The run ends with this code, lets nothing out and, with the journal off, reports only this. -/
structure Outcome.Withholds (outcome : Outcome) (w : World) (exitCode : Option Nat)
    (reports : List String) : Prop where
  exitCode : outcome.exitCode = exitCode
  printed : outcome.printed = []
  writes : outcome.writes = []
  reported : Settings.isSet (w.environment "DISASM_LOG") = false → outcome.reported = reports

theorem journalLines_of_disabled {policy : Journal.Policy} (h : policy.enabled = false)
    (entries : List Journal.Entry) : journalLines policy entries = [] := by
  rw [journalLines, Journal.write_of_disabled h, List.map_nil]

section
variable {d : Ending} {started : List Invocation} {failure : Failure}

theorem Ending.finish_of_error (h : d.result = some (.error failure)) :
    (d.finish (Settings.ofEnvironment w.environment).journal started).Withholds w
      (some failure.exitCode) ["error: " ++ failure.message ++ "\n"] := by
  simp only [Ending.finish, h]
  refine ⟨rfl, rfl, rfl, fun hoff => ?_⟩
  rw [journalLines_of_disabled hoff, List.nil_append]
  rfl

theorem Ending.finish_of_pending (h : d.result = none) :
    (d.finish (Settings.ofEnvironment w.environment).journal started).Withholds w none [] := by
  simp only [Ending.finish, h]
  exact ⟨rfl, rfl, rfl, fun hoff => journalLines_of_disabled hoff _⟩

end

section
variable {options : RenderOptions} {report : Capture.Report} {text : String}

theorem process_of_pending (h : report.outcome = .pending) :
    (process o options w report).result = none := by
  simp [process, h]

theorem process_of_failed {failure : Failure} (h : report.outcome = .failed failure) :
    (process o options w report).result = some (.error failure) := by
  simp [process, h]

theorem process_of_fault {fault : Fault} (h : report.outcome = .text text)
    (hread : (Listing.read text).outcome = .error fault) :
    (process o options w report).result = some (.error (.fault fault)) := by
  simp [process, h, hread]

theorem process_of_listing {listing : Listing} (h : report.outcome = .text text)
    (hread : (Listing.read text).outcome = .ok listing) :
    process o options w report = deliver o w (o.product (listing.render options))
      (report.entries ++ (Listing.read text).entries) := by
  simp [process, h, hread]

end

theorem missingFile?_eq_some_iff {paths : List String} {path : String} :
    missingFile? w paths = some path ↔
      ∃ found rest, paths = found ++ path :: rest ∧ (∀ p ∈ found, w.HasFile p) ∧
        ¬ w.HasFile path := by
  rw [missingFile?, List.find?_eq_some_iff_append]
  simp only [Bool.not_eq_true', Bool.not_not, World.isFile_iff, ← Bool.not_eq_true]
  constructor
  · rintro ⟨hpath, found, rest, hpaths, hfound⟩
    exact ⟨found, rest, hpaths, hfound, hpath⟩
  · rintro ⟨found, rest, hpaths, hfound, hpath⟩
    exact ⟨hpath, found, rest, hpaths, hfound⟩

theorem missingFile?_eq_none_iff {paths : List String} :
    missingFile? w paths = none ↔ ∀ path ∈ paths, w.HasFile path := by
  simp [missingFile?, World.isFile_iff]

theorem readSaved_of_not_hasFile {path : String} (h : ¬ w.HasFile path) :
    readSaved w path = .error (.misuse (.noSuchFile path)) := by
  unfold World.HasFile at h
  unfold readSaved
  cases hnode : w.node path with
  | none => rfl
  | some node => cases node <;> simp_all

theorem obtain_of_input {path executable : String} (h : o.input = some path) :
    (obtain o executable w).outcome =
      match readSaved w path with
      | .ok text => .text text
      | .error failure => .failed failure := by
  simp only [obtain, h]
  cases readSaved w path <;> rfl

theorem obtain_of_lacks {path : String} (hrequests : Requests arguments o) (h : Lacks o w path) :
    (obtain o (o.program w) w).outcome = .failed (.misuse (.noSuchFile path)) := by
  obtain ⟨saved, hinput⟩ | ⟨hinput, objFile, hobj⟩ := hrequests.source
  · obtain ⟨found, rest, hneeded, -, hpath⟩ := h
    have hsaved : saved = path := by
      rw [needed_of_input hinput] at hneeded
      cases found with
      | nil => exact (List.cons.inj hneeded).1
      | cons p found => simp at hneeded
    rw [obtain_of_input hinput, hsaved, readSaved_of_not_hasFile hpath]
  · have hmissing := missingFile?_eq_some_iff.mpr h
    rw [needed_of_objFile hinput hobj] at hmissing
    simp [obtain, hinput, hobj, hmissing]

theorem obtain_of_calls {objFile : String} (h : Calls o w objFile) :
    obtain o (o.program w) w = Capture.run (o.program w) objFile w.launch := by
  obtain ⟨hinput, hobj, hfiles⟩ := h
  rw [needed_of_objFile hinput hobj, ← missingFile?_eq_none_iff] at hfiles
  simp [obtain, hinput, hobj, hfiles]

theorem Obtains.outcome_eq {text : String} (h : Obtains o w text) :
    (obtain o (o.program w) w).outcome = .text text := by
  cases h with
  | saved hinput hnode htext => simp [obtain, readSaved, hinput, hnode, htext]
  | captured hcalls htext => rw [obtain_of_calls hcalls, htext]

/-- What there is before any text is read. -/
theorem obtain_cases (hrequests : Requests arguments o) :
    (∃ path, Lacks o w path) ∨ Waits arguments w ∨ (∃ failure, Breaks arguments w failure) ∨
      ∃ text, Obtains o w text := by
  cases hmissing : missingFile? w o.needed with
  | some path => exact .inl ⟨path, missingFile?_eq_some_iff.mp hmissing⟩
  | none =>
    refine .inr ?_
    have hfiles := missingFile?_eq_none_iff.mp hmissing
    obtain ⟨path, hinput⟩ | ⟨hinput, objFile, hobj⟩ := hrequests.source
    · obtain ⟨content, hnode⟩ | ⟨message, hnode⟩ := hfiles path (by simp [needed_of_input hinput])
      · cases htext : Text.decodeUtf8? content with
        | none => exact .inr (.inl ⟨_, .decoding hrequests hinput hnode htext⟩)
        | some text => exact .inr (.inr ⟨text, .saved hinput hnode htext⟩)
      · exact .inr (.inl ⟨_, .reading hrequests hinput hnode⟩)
    · have hcalls : Calls o w objFile := ⟨hinput, hobj, hfiles⟩
      cases hrun : (Capture.run (o.program w) objFile w.launch).outcome with
      | failed failure => exact .inr (.inl ⟨failure, .capturing hrequests hcalls hrun⟩)
      | text text => exact .inr (.inr ⟨text, .captured hcalls hrun⟩)
      | pending =>
        cases hlaunch : w.launch with
        | refused message => simp [hlaunch, Capture.run] at hrun
        | started child =>
          rw [hlaunch, Capture.run_eq_pending_iff, Child.ending_eq_none_iff] at hrun
          exact .inl ⟨o, objFile, child, hrequests, hcalls, hlaunch, hrun⟩

theorem Rejects.withholds {report : String} (h : Rejects arguments w report) :
    (run arguments w).Withholds w (some 2) [report] := by
  cases h with
  | @arguments m hread =>
    have hlead : errorLine m.message ++ "\n" = "error: " ++ m.message ++ "\n\n" := by
      simp [errorLine, String.append_assoc]
    have hreport : errorLine m.message ++ "\n" ++ usage ++ "\n" =
        "error: " ++ m.message ++ "\n\n" ++ helpText := by
      rw [hlead, ← usage_eq]
      exact String.append_assoc
    simp only [run, hread, hreport]
    exact ⟨rfl, rfl, rfl, fun _ => rfl⟩
  | @file o path hrequests hlacks =>
    have hreport : "error: " ++ path ++ ": File does not exist!\n" =
        "error: " ++ (path ++ ": File does not exist!") ++ "\n" := by
      simp [String.append_assoc]
    rw [run_of_requests hrequests, hreport]
    exact Ending.finish_of_error (process_of_failed (obtain_of_lacks hrequests hlacks))

theorem Waits.withholds (h : Waits arguments w) : (run arguments w).Withholds w none [] := by
  obtain ⟨o, objFile, child, hrequests, hcalls, hlaunch, hevents⟩ := h
  have hpending : (obtain o (o.program w) w).outcome = .pending := by
    rw [obtain_of_calls hcalls, hlaunch, Capture.run_eq_pending_iff, Child.ending_eq_none_iff]
    exact hevents
  rw [run_of_requests hrequests]
  exact Ending.finish_of_pending (process_of_pending hpending)

/-- A child process fails in its own way, or because of what it wrote; both exit with 1. -/
theorem exitCode_of_run_eq_failed {executable objFile : String} {launch : Launch}
    {failure : Failure} (h : (Capture.run executable objFile launch).outcome = .failed failure) :
    failure.exitCode = 1 := by
  cases launch with
  | refused message =>
    obtain rfl : Failure.notStarted message = failure := by simpa [Capture.run] using h
    rfl
  | started child =>
    obtain ⟨message, rfl⟩ := Capture.exists_of_run_eq_failed h
    rfl

theorem Breaks.exitCode_eq {failure : Failure} (h : Breaks arguments w failure) :
    failure.exitCode = 1 := by
  cases h with
  | capturing _ _ hfailed => exact exitCode_of_run_eq_failed hfailed
  | _ => rfl

theorem deliver_of_refused {path message product : String} {entries : List Journal.Entry}
    (hout : o.out = some path) (hrefused : w.writeRefusal path = some message) :
    (deliver o w product entries).result = some (.error (.fault (Fault.ioFailure message))) := by
  simp [deliver, hout, hrefused]

theorem Breaks.withholds {failure : Failure} (h : Breaks arguments w failure) :
    (run arguments w).Withholds w (some 1) ["error: " ++ failure.message ++ "\n"] := by
  obtain ⟨o, hrequests, hresult⟩ : ∃ o, Requests arguments o ∧
      (process o (o.merge (Settings.ofEnvironment w.environment).render) w
        (obtain o (o.program w) w)).result = some (.error failure) := by
    cases h with
    | @reading o path message hrequests hinput hnode =>
      refine ⟨o, hrequests, process_of_failed ?_⟩
      simp [obtain_of_input hinput, readSaved, hnode]
    | @decoding o path content hrequests hinput hnode htext =>
      refine ⟨o, hrequests, process_of_failed ?_⟩
      simp [obtain_of_input hinput, readSaved, hnode, htext]
    | @capturing o objFile failure hrequests hcalls hfailed =>
      exact ⟨o, hrequests, process_of_failed (by rw [obtain_of_calls hcalls, hfailed])⟩
    | @parsing o text fault hrequests hobtains hfault =>
      exact ⟨o, hrequests, process_of_fault hobtains.outcome_eq hfault⟩
    | @writing o text path message listing hrequests hobtains hlisting hout hrefused =>
      refine ⟨o, hrequests, ?_⟩
      rw [process_of_listing hobtains.outcome_eq hlisting]
      exact deliver_of_refused hout hrefused
  rw [run_of_requests hrequests, ← h.exitCode_eq]
  exact Ending.finish_of_error hresult

theorem delivers_of_obtains {text : String} {listing : Listing} (hrequests : Requests arguments o)
    (hobtains : Obtains o w text) (hlisting : (Listing.read text).outcome = .ok listing)
    (hwrite : ∀ path ∈ o.out, w.writeRefusal path = none) :
    (run arguments w).exitCode = some 0 ∧ Delivers arguments w (run arguments w) := by
  rw [run_of_requests hrequests, process_of_listing hobtains.outcome_eq hlisting,
    product_eq_result]
  cases hout : o.out with
  | none =>
    simp only [deliver, hout, Ending.finish, true_and]
    exact ⟨o, text, listing, hrequests, hobtains, hlisting, .inl ⟨hout, rfl, rfl⟩⟩
  | some path =>
    have hrefusal := hwrite path hout
    simp only [deliver, hout, hrefusal, Ending.finish, true_and]
    exact ⟨o, text, listing, hrequests, hobtains, hlisting,
      .inr ⟨path, hout, hrefusal, rfl, rfl⟩⟩

/-- The arguments ask for help, and it is shown. -/
def ShowsHelp (arguments : List String) (outcome : Outcome) : Prop :=
  (∃ o, Options.read arguments = .ok o ∧ o.help = true) ∧
    outcome.printed = [helpText] ∧ outcome.writes = []

theorem run_cases (arguments : List String) (w : World) :
    (∃ report, Rejects arguments w report) ∨ Waits arguments w ∨
      (∃ failure, Breaks arguments w failure) ∨
      (run arguments w).exitCode = some 0 ∧
        (ShowsHelp arguments (run arguments w) ∨ Delivers arguments w (run arguments w)) := by
  cases hread : Options.read arguments with
  | error m => exact .inl ⟨_, .arguments hread⟩
  | ok o =>
    cases hhelp : o.help with
    | true =>
      have hrun : run arguments w = { exitCode := some 0, printed := [helpText] } := by
        simp [run, hread, hhelp, usage_eq]
      rw [hrun]
      exact .inr (.inr (.inr ⟨rfl, .inl ⟨⟨o, hread, hhelp⟩, rfl, rfl⟩⟩))
    | false =>
      have hrequests : Requests arguments o := ⟨hread, hhelp⟩
      obtain ⟨path, hlacks⟩ | hwaits | hbreaks | ⟨text, hobtains⟩ := obtain_cases hrequests
      · exact .inl ⟨_, .file hrequests hlacks⟩
      · exact .inr (.inl hwaits)
      · exact .inr (.inr (.inl hbreaks))
      · refine .inr (.inr ?_)
        cases hlisting : (Listing.read text).outcome with
        | error fault => exact .inl ⟨_, .parsing hrequests hobtains hlisting⟩
        | ok listing =>
          cases hrefusal : o.out.bind w.writeRefusal with
          | some message =>
            obtain ⟨path, hout, hmessage⟩ := Option.bind_eq_some_iff.mp hrefusal
            exact .inl ⟨_, .writing hrequests hobtains hlisting hout hmessage⟩
          | none =>
            have hwrite := Option.bind_eq_none_iff.mp hrefusal
            obtain ⟨hcode, hdelivers⟩ := delivers_of_obtains hrequests hobtains hlisting hwrite
            exact .inr ⟨hcode, .inr hdelivers⟩

/-- What an exit code says about a run, and what the run lets out. -/
structure Accounts (arguments : List String) (w : World) (outcome : Outcome) : Prop where
  rejects : outcome.exitCode = some 2 ↔ ∃ report, Rejects arguments w report
  waits : outcome.exitCode = none ↔ Waits arguments w
  breaks : outcome.exitCode = some 1 ↔ (¬ ∃ report, Rejects arguments w report) ∧
    ¬ Waits arguments w ∧ ∃ failure, Breaks arguments w failure
  succeeds : outcome.exitCode = some 0 ↔ (¬ ∃ report, Rejects arguments w report) ∧
    ¬ Waits arguments w ∧ ¬ ∃ failure, Breaks arguments w failure
  silent : outcome.exitCode ≠ some 0 → outcome.printed = [] ∧ outcome.writes = []
  reports : Settings.isSet (w.environment "DISASM_LOG") = false →
    (outcome.exitCode = some 2 → ∃ report, Rejects arguments w report ∧
      outcome.reported = [report]) ∧
    (outcome.exitCode = some 1 → ∃ failure, Breaks arguments w failure ∧
      outcome.reported = ["error: " ++ failure.message ++ "\n"]) ∧
    (outcome.exitCode = none → outcome.reported = [])
  delivers : outcome.exitCode = some 0 → ShowsHelp arguments outcome ∨ Delivers arguments w outcome

/-- Codes that differ tell exhaustive cases apart. -/
theorem code_iff_of_cases {rejected waiting broken delivered : Prop} {code : Option Nat}
    (htwo : rejected → code = some 2) (hnone : waiting → code = none)
    (hone : broken → code = some 1)
    (hcases : rejected ∨ waiting ∨ broken ∨ code = some 0 ∧ delivered) :
    (code = some 2 ↔ rejected) ∧ (code = none ↔ waiting) ∧
      (code = some 1 ↔ ¬ rejected ∧ ¬ waiting ∧ broken) ∧
      (code = some 0 ↔ ¬ rejected ∧ ¬ waiting ∧ ¬ broken) ∧ (code = some 0 → delivered) := by
  grind

theorem run_accounts (arguments : List String) (w : World) :
    Accounts arguments w (run arguments w) := by
  have hcases := run_cases arguments w
  obtain ⟨hrejects, hwaits, hbreaks, hsucceeds, hdelivers⟩ :=
    code_iff_of_cases (fun ⟨_, h⟩ => h.withholds.exitCode) (fun h => h.withholds.exitCode)
      (fun ⟨_, h⟩ => h.withholds.exitCode) hcases
  refine ⟨hrejects, hwaits, hbreaks, hsucceeds, ?_, ?_, hdelivers⟩
  · intro hcode
    obtain ⟨report, h⟩ | h | ⟨failure, h⟩ | ⟨hzero, -⟩ := hcases
    · exact ⟨h.withholds.printed, h.withholds.writes⟩
    · exact ⟨h.withholds.printed, h.withholds.writes⟩
    · exact ⟨h.withholds.printed, h.withholds.writes⟩
    · exact absurd hzero hcode
  · intro hoff
    refine ⟨fun hcode => ?_, fun hcode => ?_, fun hcode => ?_⟩
    · obtain ⟨report, h⟩ := hrejects.mp hcode
      exact ⟨report, h, h.withholds.reported hoff⟩
    · obtain ⟨-, -, failure, h⟩ := hbreaks.mp hcode
      exact ⟨failure, h, h.withholds.reported hoff⟩
    · exact (hwaits.mp hcode).withholds.reported hoff

end Command
end CanonicalListing
