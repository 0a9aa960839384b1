import CanonicalListing.Proofs.OptionTokens
import CanonicalListing.Proofs.ExitCodes

/-!
# What is started, and with which arguments

A run starts the disassembler at most once, and only when the arguments ask for the
listing of an object file and every file they name is there. The program is the one that
is given last, or else the one of the environment. Of the arguments of the command only
the object file is passed on, and that is no flag, so no option can be slipped in.
-/

namespace CanonicalListing
namespace Command

variable {arguments : List String} {w : World} {o : Options} {ts : List Token}

/-- The program to start: the one that is given last, or else the one of the environment without
the blanks around it, or else the usual one. -/
inductive Names (ts : List Token) (environment : Environment) : String → Prop where
  | given {before after : List Token} {value : String}
      (hts : ts = before ++ .setting .executable value :: after)
      (hlast : ∀ value', Token.setting .executable value' ∉ after) : Names ts environment value
  | configured (hnone : ∀ value, Token.setting .executable value ∉ ts)
      (hname : Text.trim ((environment "DISASM_OBJDUMP").getD "") ≠ "") :
      Names ts environment (Text.trim ((environment "DISASM_OBJDUMP").getD ""))
  | usual (hnone : ∀ value, Token.setting .executable value ∉ ts)
      (hname : Text.trim ((environment "DISASM_OBJDUMP").getD "") = "") :
      Names ts environment "objdump"

theorem names_program (ts : List Token) (w : World) :
    Names ts w.environment ((Options.gather ts).program w) := by
  have hexecutable : (Options.gather ts).executable = lastValue? .executable ts := by
    rw [Options.gather_eq]
  rw [Options.program, hexecutable]
  cases hlast : lastValue? .executable ts with
  | some value =>
    obtain ⟨before, after, hts, hafter⟩ := exists_last_of_lastValue? hlast
    exact .given hts hafter
  | none =>
    have hnone := lastValue?_eq_none_iff.mp hlast
    rw [Option.getD_none, Settings.ofEnvironment]
    by_cases hname : Text.trim ((w.environment "DISASM_OBJDUMP").getD "") = ""
    · rw [Settings.executableOf_of_blank hname]
      exact .usual hnone hname
    · rw [Settings.executableOf_of_not_blank hname]
      exact .configured hnone hname

/-- The invariant of the scan: what is taken for positional is an argument that is no flag. -/
theorem Cuts.positional (h : Cuts arguments ts) {argument : String}
    (hmem : Token.positional argument ∈ ts) :
    argument ∈ arguments ∧ isFlag argument = false := by
  induction h with
  | nil => cases hmem
  | @cons t ts spelling rest ht hts ih =>
    rcases List.mem_cons.mp hmem with rfl | hmem
    · cases ht with
      | positional hplain => exact ⟨by simp, hplain⟩
    · obtain ⟨hargument, hplain⟩ := ih hmem
      exact ⟨List.mem_append_right _ hargument, hplain⟩

theorem positionals_of_objFile {objFile : String}
    (hsingle : (ts.filterMap Token.positional?)[1]? = none)
    (hobj : (Options.gather ts).objFile = some objFile) :
    ts.filterMap Token.positional? = [objFile] := by
  rw [Options.gather_eq] at hobj
  cases hpositionals : ts.filterMap Token.positional? with
  | nil => simp [hpositionals] at hobj
  | cons first rest =>
    cases rest with
    | nil => simpa [hpositionals] using hobj
    | cons second rest => simp [hpositionals] at hsingle

theorem started_finish (d : Ending) (policy : Journal.Policy) (started : List Invocation) :
    (d.finish policy started).started = started := by
  unfold Ending.finish
  split <;> rfl

theorem run_started_of_requests (h : Requests arguments o) :
    (run arguments w).started = (obtain o (o.program w) w).started := by
  rw [run_of_requests h, started_finish]

theorem run_started_of_not_requests (h : ∀ o, ¬ Requests arguments o) :
    (run arguments w).started = [] := by
  unfold run
  cases hread : Options.read arguments with
  | error m => rfl
  | ok o =>
    cases hhelp : o.help with
    | true => simp [hhelp]
    | false => exact absurd ⟨hread, hhelp⟩ (h o)

theorem started_run (executable objFile : String) (launch : Launch) :
    (Capture.run executable objFile launch).started =
      [⟨executable, Capture.arguments objFile⟩] := by
  cases launch <;> rfl

theorem obtain_started_of_not_calls (h : ∀ objFile, ¬ Calls o w objFile) (executable : String) :
    (obtain o executable w).started = [] := by
  unfold obtain
  cases hinput : o.input with
  | some path => cases hread : readSaved w path <;> simp [hread]
  | none =>
    cases hobj : o.objFile with
    | none => rfl
    | some objFile =>
      cases hmissing : missingFile? w (objFile :: o.executable.toList) with
      | some path => simp [hmissing]
      | none =>
        rw [← needed_of_objFile hinput hobj, missingFile?_eq_none_iff] at hmissing
        exact absurd ⟨hinput, hobj, hmissing⟩ (h objFile)

/-- A run starts something exactly if it calls the disassembler. -/
theorem run_started_cases (arguments : List String) (w : World) :
    (run arguments w).started = [] ∧ (∀ o objFile, Requests arguments o → ¬ Calls o w objFile) ∨
      ∃ o objFile, Requests arguments o ∧ Calls o w objFile ∧
        (run arguments w).started = [⟨o.program w, Capture.arguments objFile⟩] := by
  by_cases hcalls : ∃ o objFile, Requests arguments o ∧ Calls o w objFile
  · obtain ⟨o, objFile, hrequests, hcalls⟩ := hcalls
    refine .inr ⟨o, objFile, hrequests, hcalls, ?_⟩
    rw [run_started_of_requests hrequests, obtain_of_calls hcalls, started_run]
  · have hnone : ∀ o objFile, Requests arguments o → ¬ Calls o w objFile :=
      fun o objFile hrequests h => hcalls ⟨o, objFile, hrequests, h⟩
    refine .inl ⟨?_, hnone⟩
    by_cases hrequests : ∃ o, Requests arguments o
    · obtain ⟨o, hrequests⟩ := hrequests
      rw [run_started_of_requests hrequests]
      exact obtain_started_of_not_calls (fun objFile => hnone o objFile hrequests) _
    · exact run_started_of_not_requests (not_exists.mp hrequests)

/-- What may be started for these arguments: nothing, or one program whose only operand is the
object file. -/
structure Disciplined (arguments : List String) (w : World) (started : List Invocation) : Prop where
  atMostOnce : started.length ≤ 1
  exactlyWhen : started ≠ [] ↔ ∃ o objFile, Options.read arguments = .ok o ∧ o.help = false ∧
    o.input = none ∧ o.objFile = some objFile ∧ w.HasFile objFile ∧
      ∀ tool ∈ o.executable, w.HasFile tool
  readable : started ≠ [] → ∃ ts, Cuts arguments ts
  program : ∀ ts, Cuts arguments ts → ∀ i ∈ started, Names ts w.environment i.program
  operand : ∀ ts, Cuts arguments ts → ∀ i ∈ started, ∃ objFile,
    ts.filterMap Token.positional? = [objFile] ∧
      (objFile = "-" ∨ startsWithDash objFile = false) ∧
      i.arguments = ["-d", "--no-addresses", "--no-show-raw-insn", objFile]

theorem disciplined_nil (h : ∀ o objFile, Requests arguments o → ¬ Calls o w objFile) :
    Disciplined arguments w [] where
  atMostOnce := Nat.zero_le 1
  exactlyWhen := by
    refine ⟨fun hne => absurd rfl hne, ?_⟩
    rintro ⟨o, objFile, hread, hhelp, hcalls⟩
    exact absurd (calls_iff.mpr hcalls) (h o objFile ⟨hread, hhelp⟩)
  readable := fun hne => absurd rfl hne
  program := fun _ _ _ hi => absurd hi List.not_mem_nil
  operand := fun _ _ _ hi => absurd hi List.not_mem_nil

theorem disciplined_singleton {objFile : String} (hrequests : Requests arguments o)
    (hcalls : Calls o w objFile) :
    Disciplined arguments w [⟨o.program w, Capture.arguments objFile⟩] := by
  obtain ⟨ts, hcuts, hsingle, -, hgather⟩ := Options.read_eq_ok_iff.mp hrequests.1
  have hcalled := calls_iff.mp hcalls
  refine ⟨Nat.le_refl 1, ⟨fun _ => ?_, fun _ => List.cons_ne_nil _ _⟩, fun _ => ⟨ts, hcuts⟩, ?_, ?_⟩
  · exact ⟨o, objFile, hrequests.1, hrequests.2, hcalled⟩
  · intro us hus i hi
    obtain rfl := List.mem_singleton.mp hi
    rw [hcuts.unique hus, ← hgather]
    exact names_program ts w
  · intro us hus i hi
    obtain rfl := List.mem_singleton.mp hi
    rw [hcuts.unique hus]
    have hpositionals := positionals_of_objFile hsingle (hgather.symm ▸ hcalled.2.1)
    obtain ⟨t, ht, hobj⟩ : ∃ t ∈ ts, t.positional? = some objFile :=
      List.mem_filterMap.mp (hpositionals ▸ List.mem_singleton_self objFile)
    obtain rfl := Token.positional?_eq_some_iff.mp hobj
    exact ⟨objFile, hpositionals, isFlag_eq_false_iff.mp (hcuts.positional ht).2, rfl⟩

theorem run_disciplined (arguments : List String) (w : World) :
    Disciplined arguments w (run arguments w).started := by
  obtain ⟨hnone, hcalls⟩ | ⟨o, objFile, hrequests, hcalls, hstarted⟩ :=
    run_started_cases arguments w
  · rw [hnone]
    exact disciplined_nil hcalls
  · rw [hstarted]
    exact disciplined_singleton hrequests hcalls

end Command
end CanonicalListing
