import CanonicalListing.Proofs.Launches
import CanonicalListing.Proofs.OutputModes

/-!
# The journal changes nothing else

Two variables of the environment are about the journal. Everything a run decides is decided
without them: which files it needs, what it starts, how it reads, what it delivers and how
it ends. A run collects the same entries whether or not they are shown, and the two
variables say only how many of them are. So two runs that differ in these variables report
different lines of the same entries, and the same complaints behind them; and a run that
has nothing to complain of is silent when its journal is off.
-/

namespace CanonicalListing

def Settings.journalVariables : List String := ["DISASM_LOG", "DISASM_LOG_LIMIT"]

/-- The environments give every variable that is not about the journal the same value. -/
def Environment.AgreesBesideJournal (env env' : Environment) : Prop :=
  ∀ name, name ∉ Settings.journalVariables → env' name = env name

theorem Settings.ofEnvironment_of_agrees {env env' : Environment}
    (h : env.AgreesBesideJournal env') :
    (ofEnvironment env').render = (ofEnvironment env).render ∧
      (ofEnvironment env').objdump = (ofEnvironment env).objdump := by
  have hoperands := h "DISASM_INCLUDE_OPERANDS" (by decide)
  have hcomments := h "DISASM_INCLUDE_COMMENTS" (by decide)
  have hobjdump := h "DISASM_OBJDUMP" (by decide)
  simp only [ofEnvironment, hoperands, hcomments, hobjdump, and_self]

namespace Command

variable {arguments : List String} {w : World} {env env' : Environment}

def World.within (w : World) (env : Environment) : World := { w with environment := env }

/-- Past the settings nothing looks at the environment. -/
theorem execute_within (o : Options) (w : World) (env : Environment) :
    execute o (w.within env) =
      let settings := Settings.ofEnvironment env
      let report := obtain o (o.executable.getD settings.objdump) w
      (process o (o.merge settings.render) w report).finish settings.journal report.started := rfl

/-- A report is the shown part of the journal, and then what there is to complain of. -/
structure Outcome.Reports (outcome : Outcome) (env : Environment) (entries : List Journal.Entry)
    (complaints : List String) : Prop where
  reported :
    outcome.reported = journalLines (Settings.ofEnvironment env).journal entries ++ complaints
  content : outcome.exitCode = some 0 ∨ outcome.exitCode = none → complaints = []

/-- With the journal off nothing is reported by a run that succeeds or is still waiting. -/
def Outcome.QuietIn (outcome : Outcome) (env : Environment) : Prop :=
  Settings.isSet (env "DISASM_LOG") = false →
    outcome.exitCode = some 0 ∨ outcome.exitCode = none → outcome.stderr = ""

theorem Outcome.Reports.quietIn {outcome : Outcome} {entries : List Journal.Entry}
    {complaints : List String} (h : outcome.Reports env entries complaints) :
    outcome.QuietIn env := by
  intro hoff hcode
  rw [Outcome.stderr, h.reported, h.content hcode, journalLines_of_disabled hoff]
  rfl

def Ending.complaints (d : Ending) : List String :=
  match d.result with
  | some (.error failure) => [errorLine failure.message]
  | _ => []

theorem Ending.finish_reports (d : Ending) (env : Environment) (started : List Invocation) :
    (d.finish (Settings.ofEnvironment env).journal started).Reports env d.entries d.complaints := by
  rcases hresult : d.result with _ | failure | ⟨⟩
  · simp only [finish, complaints, hresult]
    exact ⟨(List.append_nil _).symm, fun _ => rfl⟩
  · simp only [finish, complaints, hresult]
    exact ⟨rfl, fun hcode => by cases failure <;> simp [Failure.exitCode] at hcode⟩
  · simp only [finish, complaints, hresult]
    exact ⟨(List.append_nil _).symm, fun _ => rfl⟩

/-- The two runs come to the same, except for what they show of their journal. -/
structure DifferInJournal (env env' : Environment) (outcome outcome' : Outcome) : Prop where
  exitCode : outcome'.exitCode = outcome.exitCode
  printed : outcome'.printed = outcome.printed
  stdout : outcome'.stdout = outcome.stdout
  writes : outcome'.writes = outcome.writes
  started : outcome'.started = outcome.started
  reports : ∃ entries complaints, outcome.Reports env entries complaints ∧
    outcome'.Reports env' entries complaints
  quiet : outcome.QuietIn env ∧ outcome'.QuietIn env'

theorem differInJournal_of_reports {outcome outcome' : Outcome} {entries : List Journal.Entry}
    {complaints : List String} (hservice : outcome'.service = outcome.service)
    (hstarted : outcome'.started = outcome.started)
    (h : outcome.Reports env entries complaints) (h' : outcome'.Reports env' entries complaints) :
    DifferInJournal env env' outcome outcome' where
  exitCode := congrArg Service.exitCode hservice
  printed := congrArg Service.printed hservice
  stdout := congrArg (fun service : Service => String.join service.printed) hservice
  writes := congrArg Service.writes hservice
  started := hstarted
  reports := ⟨entries, complaints, h, h'⟩
  quiet := ⟨h.quietIn, h'.quietIn⟩

/-- Before there is a journal the environment does not matter at all. -/
theorem differInJournal_self {outcome : Outcome}
    (h : outcome.exitCode = some 0 ∨ outcome.exitCode = none → outcome.reported = []) :
    DifferInJournal env env' outcome outcome := by
  have hreports (env : Environment) : outcome.Reports env [] outcome.reported := ⟨rfl, h⟩
  exact differInJournal_of_reports rfl rfl (hreports env) (hreports env')

theorem service_finish (d : Ending) (policy policy' : Journal.Policy) (started : List Invocation) :
    (d.finish policy' started).service = (d.finish policy started).service := by
  rcases hresult : d.result with _ | failure | ⟨⟩ <;> simp only [Ending.finish, hresult] <;> rfl

theorem exists_ending_of_agrees (h : env.AgreesBesideJournal env') (o : Options) (w : World) :
    ∃ (d : Ending) (started : List Invocation),
      execute o (w.within env) = d.finish (Settings.ofEnvironment env).journal started ∧
        execute o (w.within env') = d.finish (Settings.ofEnvironment env').journal started := by
  obtain ⟨hrender, hobjdump⟩ := Settings.ofEnvironment_of_agrees h
  refine ⟨_, _, execute_within o w env, ?_⟩
  simp only [execute_within, hrender, hobjdump]

theorem run_differInJournal (arguments : List String) (w : World)
    (h : env.AgreesBesideJournal env') :
    DifferInJournal env env' (run arguments (w.within env)) (run arguments (w.within env')) := by
  cases hread : Options.read arguments with
  | error m =>
    simp only [run, hread]
    exact differInJournal_self (by simp [Failure.exitCode])
  | ok o =>
    cases hhelp : o.help with
    | true =>
      simp only [run, hread, hhelp, if_true]
      exact differInJournal_self fun _ => rfl
    | false =>
      obtain ⟨d, started, hrun, hrun'⟩ := exists_ending_of_agrees h o w
      simp only [run, hread, hhelp, Bool.false_eq_true, if_false, hrun, hrun']
      exact differInJournal_of_reports (service_finish d _ _ started)
        (by rw [started_finish, started_finish]) (d.finish_reports env started)
        (d.finish_reports env' started)

/-! ### A run whose journal is cut short -/

namespace Shown

/-- The limit is one, in another spelling. -/
def environment : Environment := fun name =>
  if name = "DISASM_LOG" then some "TRUE"
  else if name = "DISASM_LOG_LIMIT" then some " 0x1 "
  else none

end Shown

theorem run_differInJournal_shown :
    Environment.AgreesBesideJournal Saved.world.environment Shown.environment ∧
      (run Saved.request (Saved.world.within Saved.world.environment)).reported = [] ∧
      (run Saved.request (Saved.world.within Shown.environment)).reported =
        ["[PARSE] file=a.o format=elf\n", "[PARSE] 2: section .text\n",
          "[PARSE] trace limit of 1 lines reached\n",
          "[PARSE] done: 1 sections, 1 symbols, 1 instructions\n"] ∧
      DifferInJournal Saved.world.environment Shown.environment
        (run Saved.request (Saved.world.within Saved.world.environment))
        (run Saved.request (Saved.world.within Shown.environment)) := by
  have hagrees : Environment.AgreesBesideJournal Saved.world.environment Shown.environment := by
    intro name hname
    simp only [Settings.journalVariables, List.mem_cons, List.not_mem_nil, or_false, not_or]
      at hname
    simp only [Shown.environment, if_neg hname.1, if_neg hname.2]
    rfl
  refine ⟨hagrees, by decide +kernel, by decide +kernel, ?_⟩
  exact run_differInJournal Saved.request Saved.world hagrees

end Command
end CanonicalListing
