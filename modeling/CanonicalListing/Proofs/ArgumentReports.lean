import CanonicalListing.Proofs.ArgumentForms
import CanonicalListing.Proofs.OptionTokens

/-!
# What an argument list says, or what is said of it

An argument list that is covered by forms says what its tokens say, as long as these may
stand together. Otherwise there is one report. It is on the first argument where no form
begins, if there is one, and depends on that argument alone; else on the tokens: on the
second positional argument before a missing source, and on two sources last.
-/

namespace CanonicalListing
namespace Command

/-! ### Arguments where no form begins -/

/-- The report on an argument where no form begins. -/
inductive Complaint : String → String → Prop where
  | valueRequired {s : Setting} {name : String} (hname : name ∈ s.names) :
      Complaint name (name ++ " requires a value")
  | valueEmpty {s : Setting} :
      Complaint (s.longName ++ "=") (s.longName ++ " requires a value")
  | valueNotTaken {name value : String} (hlong : "--".toList <+: name.toList)
      (hcut : '=' ∉ name.toList) (hname : ∀ s : Setting, name ∉ s.names) :
      Complaint (name ++ "=" ++ value) (name ++ " does not take a value")
  | unknownFlag {name : String} (hname : ∀ s : Setting, name ∉ s.names)
      (hinline : "--".toList <+: name.toList → '=' ∉ name.toList) :
      Complaint name ("unknown flag: " ++ name)

/-- No form is written at the front of the list. -/
def BeginsNoForm (arguments : List String) : Prop := ∀ f : Form, ¬ f.arguments <+: arguments

theorem equals_notMem_of_names {s : Setting} {name : String} (h : name ∈ s.names) :
    '=' ∉ name.toList :=
  equals_notMem_of_setting (setting?_eq_some_iff.mpr h)

theorem inlineValue?_eq_none_iff {argument : String} :
    inlineValue? argument = none ↔ ("--".toList <+: argument.toList → '=' ∉ argument.toList) := by
  constructor
  · intro h hlong hmem
    obtain ⟨front, back, hcut, hfront⟩ := List.eq_append_cons_of_mem hmem
    have hlead : "--".toList <+: front := prefix_of_prefix_append_cons (hcut ▸ hlong) (by decide)
    have hinline : inlineValue? argument = some (String.ofList front, String.ofList back) := by
      rw [inlineValue?_eq_some_iff]
      refine ⟨by simpa using hlead, by simpa using hfront, ?_⟩
      rw [← String.toList_inj, hcut]
      simp
    rw [h] at hinline
    cases hinline
  · intro h
    rw [Option.eq_none_iff_forall_ne_some]
    rintro ⟨name, value⟩ hcut
    obtain ⟨hlong, -, rfl⟩ := inlineValue?_eq_some_iff.mp hcut
    refine h ?_ (by simp)
    rw [String.append_assoc, String.toList_append]
    exact hlong.trans (List.prefix_append _ _)

theorem complaint_of_inlineHead {name value : String} {m : Misuse}
    (hlong : "--".toList <+: name.toList) (hcut : '=' ∉ name.toList)
    (h : inlineHead name value = .invalid m) : Complaint (name ++ "=" ++ value) m.message := by
  unfold inlineHead at h
  split at h
  next s hname =>
    split at h
    next hvalue =>
      obtain rfl := Setting.eq_longName (setting?_eq_some_iff.mp hname) hlong
      cases h
      rw [hvalue, String.append_empty]
      exact .valueEmpty
    next => cases h
  next hname =>
    cases h
    exact .valueNotTaken hlong hcut (setting?_eq_none_iff.mp hname)

theorem complaint_of_bareHead {name : String} {m : Misuse}
    (hinline : "--".toList <+: name.toList → '=' ∉ name.toList)
    (h : bareHead name = .invalid m) : Complaint name m.message := by
  unfold bareHead at h
  split at h
  next => cases h
  next => cases h
  next hname _ =>
    cases h
    exact .unknownFlag (setting?_eq_none_iff.mp hname) hinline

theorem complaint_of_head {argument : String} {m : Misuse} (h : head argument = .invalid m) :
    Complaint argument m.message := by
  unfold head at h
  split at h
  case isFalse => cases h
  case isTrue =>
    split at h
    next name value hinline =>
      obtain ⟨hlong, hcut, rfl⟩ := inlineValue?_eq_some_iff.mp hinline
      exact complaint_of_inlineHead hlong hcut h
    next hinline => exact complaint_of_bareHead (inlineValue?_eq_none_iff.mp hinline) h

/-- The text of the report, by what the argument is cut into. -/
def complaintOn (argument : String) : String :=
  match inlineValue? argument with
  | some (name, _) =>
    if (setting? name).isSome then name ++ " requires a value"
    else name ++ " does not take a value"
  | none =>
    if (setting? argument).isSome then argument ++ " requires a value"
    else "unknown flag: " ++ argument

theorem Complaint.eq_complaintOn {argument report : String} (h : Complaint argument report) :
    report = complaintOn argument := by
  unfold complaintOn
  cases h with
  | valueRequired hname =>
    have hnone := inlineValue?_eq_none_iff.mpr fun _ => equals_notMem_of_names hname
    simp [hnone, setting?_eq_some_iff.mpr hname]
  | @valueEmpty s =>
    have hinline : inlineValue? (s.longName ++ "=" ++ "") = some (s.longName, "") :=
      inlineValue?_append s.long_longName (equals_notMem_of_names s.longName_mem)
    rw [String.append_empty] at hinline
    simp only [hinline, setting?_eq_some_iff.mpr s.longName_mem, Option.isSome_some, ↓reduceIte]
  | valueNotTaken hlong hcut hname =>
    simp [inlineValue?_append hlong hcut, setting?_eq_none_iff.mpr hname]
  | unknownFlag hname hinline =>
    simp [inlineValue?_eq_none_iff.mpr hinline, setting?_eq_none_iff.mpr hname]

theorem Form.head_of_isPrefix {f : Form} {first : String} {rest : List String}
    (h : f.arguments <+: first :: rest) : head first = f.firstHead := by
  obtain ⟨argument, later, hf, hhead⟩ := f.exists_first
  rw [hf] at h
  rw [← (List.cons_prefix_cons.mp h).1, hhead]

theorem Form.firstHead_ne_invalid (f : Form) (m : Misuse) : f.firstHead ≠ .invalid m := by
  cases f <;> exact nofun

/-- A form that starts with the name of a setting goes on with its value. -/
theorem Form.exists_value {f : Form} {first : String} {rest : List String} {s : Setting}
    (h : f.arguments <+: first :: rest) (hhead : head first = .expectsValue s) :
    ∃ value later, rest = value :: later ∧ isSeparateValue value = true := by
  rw [f.head_of_isPrefix h] at hhead
  cases f with
  | positional argument hplain => cases hhead
  | switch s name hname => cases hhead
  | inline s value hvalue => cases hhead
  | separate s name value hname hvalue hdash =>
    obtain ⟨-, later, rfl⟩ := List.cons_prefix_cons.mp h
    exact ⟨value, later, rfl, by simp [isSeparateValue, hvalue, hdash]⟩

/-- The scan stops at the first argument where no form begins. -/
theorem exists_stop_of_tokens {arguments : List String} {m : Misuse}
    (h : tokens arguments = .error m) :
    ∃ fs stop rest, arguments = argumentsOf fs ++ stop :: rest ∧ BeginsNoForm (stop :: rest) ∧
      Complaint stop m.message := by
  fun_induction tokens arguments with
  | case1 => cases h
  | case2 argument rest m' hhead =>
    cases h
    refine ⟨[], argument, rest, rfl, fun f hf => ?_, complaint_of_head hhead⟩
    exact f.firstHead_ne_invalid m ((f.head_of_isPrefix hf).symm.trans hhead)
  | case3 argument rest t hhead ih =>
    obtain ⟨f, -, hf⟩ := (spelledBy_of_head hhead).exists_form
    obtain ⟨fs, stop, more, rfl, hstop, hreport⟩ := ih (map_eq_error_iff.mp h)
    exact ⟨f :: fs, stop, more, by simp [argumentsOf, hf], hstop, hreport⟩
  | case4 argument s hhead =>
    cases h
    refine ⟨[], argument, [], rfl, fun f hf => ?_,
      .valueRequired (setting?_eq_some_iff.mp (setting?_of_head hhead))⟩
    obtain ⟨value, later, hrest, -⟩ := f.exists_value hf hhead
    cases hrest
  | case5 argument s hhead value rest hvalue ih =>
    obtain ⟨f, -, hf⟩ :=
      (Token.SpelledBy.separate (setting?_of_head hhead) hvalue).exists_form
    obtain ⟨fs, stop, more, rfl, hstop, hreport⟩ := ih (map_eq_error_iff.mp h)
    exact ⟨f :: fs, stop, more, by simp [argumentsOf, hf], hstop, hreport⟩
  | case6 argument s hhead value rest hvalue =>
    cases h
    refine ⟨[], argument, value :: rest, rfl, fun f hf => ?_,
      .valueRequired (setting?_eq_some_iff.mp (setting?_of_head hhead))⟩
    obtain ⟨_, later, hrest, hvalue'⟩ := f.exists_value hf hhead
    obtain ⟨rfl, -⟩ := List.cons.inj hrest
    exact hvalue hvalue'

theorem BeginsNoForm.forms_eq_nil {arguments rest : List String} {fs : List Form}
    (h : BeginsNoForm arguments) (hcut : arguments = argumentsOf fs ++ rest) : fs = [] := by
  cases fs with
  | nil => rfl
  | cons f fs =>
    refine absurd ⟨argumentsOf fs ++ rest, ?_⟩ (h f)
    rw [hcut, argumentsOf, argumentsOf, List.flatMap_cons, List.append_assoc]

theorem tokens_of_stop {stop report : String} {rest : List String} (fs : List Form)
    (hstop : BeginsNoForm (stop :: rest)) (hreport : Complaint stop report) :
    ∃ m, tokens (argumentsOf fs ++ stop :: rest) = .error m ∧ m.message = report := by
  rw [(cuts_argumentsOf fs).tokens_append]
  cases htokens : tokens (stop :: rest) with
  | ok ts =>
    obtain ⟨gs, hgs, -⟩ := (tokens_eq_ok_iff.mp htokens).exists_forms
    obtain rfl := hstop.forms_eq_nil (hgs.symm.trans (List.append_nil _).symm)
    cases hgs
  | error m =>
    obtain ⟨gs, stop', rest', hcut, -, hmessage⟩ := exists_stop_of_tokens htokens
    obtain rfl := hstop.forms_eq_nil hcut
    obtain ⟨rfl, -⟩ := List.cons.inj hcut
    exact ⟨m, rfl, hmessage.eq_complaintOn.trans hreport.eq_complaintOn.symm⟩

/-! ### Tokens that may not stand together -/

/-- The tokens name the source of the listing once, or ask for help. -/
structure Admissible (ts : List Token) : Prop where
  single : (ts.filterMap Token.positional?).length ≤ 1
  source : Token.switch .help ∈ ts ∨ (∃ argument, Token.positional argument ∈ ts) ∨
    ∃ path, Token.setting .input path ∈ ts
  oneSource : (∀ argument, Token.positional argument ∉ ts) ∨
    ∀ path, Token.setting .input path ∉ ts

/-- The value of the last token for a setting, if there is one. -/
inductive LastValue (s : Setting) (ts : List Token) : Option String → Prop where
  | unset (hnone : ∀ value, Token.setting s value ∉ ts) : LastValue s ts none
  | set {before after : List Token} {value : String}
      (hts : ts = before ++ .setting s value :: after)
      (hlast : ∀ value', Token.setting s value' ∉ after) : LastValue s ts (some value)

/-- The options say what the tokens say. -/
structure Options.Collects (ts : List Token) (o : Options) : Prop where
  objFile : ∀ argument, o.objFile = some argument ↔ Token.positional argument ∈ ts
  executable : LastValue .executable ts o.executable
  out : LastValue .out ts o.out
  input : LastValue .input ts o.input
  operands : o.operands = true ↔ Token.switch .operands ∈ ts
  comments : o.comments = true ↔ Token.switch .comments ∈ ts
  hash : o.hash = true ↔ Token.switch .hash ∈ ts
  help : o.help = true ↔ Token.switch .help ∈ ts

/-- The report on tokens that may not stand together. -/
inductive Unsuited (ts : List Token) : String → Prop where
  | second {first second : String} {more : List String}
      (hpositionals : ts.filterMap Token.positional? = first :: second :: more) :
      Unsuited ts ("unexpected argument: " ++ second)
  | missing (hpositional : ∀ argument, Token.positional argument ∉ ts)
      (hinput : ∀ path, Token.setting .input path ∉ ts) (hhelp : Token.switch .help ∉ ts) :
      Unsuited ts "missing <OBJ-FILE>"
  | twice {argument path : String} (hpositionals : ts.filterMap Token.positional? = [argument])
      (hinput : Token.setting .input path ∈ ts) :
      Unsuited ts "<OBJ-FILE> and --input are mutually exclusive"

variable {ts : List Token} {o o' : Options}

theorem mem_positionals_iff {argument : String} :
    argument ∈ ts.filterMap Token.positional? ↔ Token.positional argument ∈ ts := by
  simp only [List.mem_filterMap, Token.positional?_eq_some_iff, exists_eq_right]

theorem lastValue_iff {s : Setting} {value : Option String} :
    LastValue s ts value ↔ lastValue? s ts = value := by
  constructor
  · rintro (hnone | ⟨rfl, hlast⟩)
    · exact lastValue?_eq_none_iff.mpr hnone
    · rw [← lastValue?_eq_none_iff, lastValue?, List.getLast?_eq_none_iff] at hlast
      simp [lastValue?, hlast, Token.valueOf?]
  · rintro rfl
    cases h : lastValue? s ts with
    | none => exact .unset (lastValue?_eq_none_iff.mp h)
    | some value =>
      obtain ⟨before, after, hts, hlast⟩ := exists_last_of_lastValue? h
      exact .set hts hlast

theorem Options.objFile_gather (ts : List Token) :
    (gather ts).objFile = (ts.filterMap Token.positional?).head? := by
  rw [gather_eq]

theorem Options.objFile_gather_eq_none_iff :
    (gather ts).objFile = none ↔ ∀ argument, Token.positional argument ∉ ts := by
  simp only [objFile_gather, List.head?_eq_none_iff, List.eq_nil_iff_forall_not_mem,
    mem_positionals_iff]

theorem Options.input_gather_eq_none_iff :
    (gather ts).input = none ↔ ∀ path, Token.setting .input path ∉ ts := by
  rw [gather_eq]
  exact lastValue?_eq_none_iff

theorem Options.help_gather_iff : (gather ts).help = true ↔ Token.switch .help ∈ ts := by
  rw [gather_eq]
  exact List.contains_iff_mem

theorem Options.collects_gather (h : (ts.filterMap Token.positional?).length ≤ 1) :
    (gather ts).Collects ts where
  objFile := by
    intro argument
    rw [objFile_gather, ← mem_positionals_iff]
    match ts.filterMap Token.positional?, h with
    | [], _ => simp
    | [first], _ => simp [eq_comm]
  executable := by rw [lastValue_iff, gather_eq]
  out := by rw [lastValue_iff, gather_eq]
  input := by rw [lastValue_iff, gather_eq]
  operands := by rw [gather_eq]; exact List.contains_iff_mem
  comments := by rw [gather_eq]; exact List.contains_iff_mem
  hash := by rw [gather_eq]; exact List.contains_iff_mem
  help := help_gather_iff

theorem Options.Collects.unique (h : o.Collects ts) (h' : o'.Collects ts) : o = o' := by
  have hobjFile : o.objFile = o'.objFile :=
    Option.ext fun argument => (h.objFile argument).trans (h'.objFile argument).symm
  have hexecutable := (lastValue_iff.mp h.executable).symm.trans (lastValue_iff.mp h'.executable)
  have hout := (lastValue_iff.mp h.out).symm.trans (lastValue_iff.mp h'.out)
  have hinput := (lastValue_iff.mp h.input).symm.trans (lastValue_iff.mp h'.input)
  have hoperands := Bool.eq_iff_iff.mpr (h.operands.trans h'.operands.symm)
  have hcomments := Bool.eq_iff_iff.mpr (h.comments.trans h'.comments.symm)
  have hhash := Bool.eq_iff_iff.mpr (h.hash.trans h'.hash.symm)
  have hhelp := Bool.eq_iff_iff.mpr (h.help.trans h'.help.symm)
  cases o
  cases o'
  simp_all

theorem admissible_iff : Admissible ts ↔
    (ts.filterMap Token.positional?)[1]? = none ∧ (Options.gather ts).Sourced := by
  have hpositional : (Options.gather ts).objFile ≠ none ↔
      ∃ argument, Token.positional argument ∈ ts := by
    simp [ne_eq, Options.objFile_gather_eq_none_iff]
  have hinput : (Options.gather ts).input ≠ none ↔ ∃ path, Token.setting .input path ∈ ts := by
    simp [ne_eq, Options.input_gather_eq_none_iff]
  rw [List.getElem?_eq_none_iff, Options.Sourced, hpositional, hinput,
    Options.help_gather_iff, Options.objFile_gather_eq_none_iff,
    Options.input_gather_eq_none_iff]
  exact ⟨fun h => ⟨h.single, h.source, h.oneSource⟩, fun h => ⟨h.1, h.2.1, h.2.2⟩⟩

theorem admissible_or_unsuited (ts : List Token) :
    Admissible ts ∨ ∃ report, Unsuited ts report := by
  match hpositionals : ts.filterMap Token.positional? with
  | first :: second :: more => exact .inr ⟨_, .second hpositionals⟩
  | [argument] =>
    have hmem : Token.positional argument ∈ ts :=
      mem_positionals_iff.mp (hpositionals ▸ List.mem_singleton_self argument)
    by_cases hinput : ∃ path, Token.setting .input path ∈ ts
    · obtain ⟨path, hinput⟩ := hinput
      exact .inr ⟨_, .twice hpositionals hinput⟩
    · exact .inl ⟨hpositionals ▸ Nat.le_refl 1, .inr (.inl ⟨argument, hmem⟩),
        .inr (not_exists.mp hinput)⟩
  | [] =>
    have hnone : ∀ argument, Token.positional argument ∉ ts := by
      simpa only [List.eq_nil_iff_forall_not_mem, mem_positionals_iff] using hpositionals
    by_cases hhelp : Token.switch .help ∈ ts
    · exact .inl ⟨hpositionals ▸ Nat.zero_le 1, .inl hhelp, .inl hnone⟩
    · by_cases hinput : ∃ path, Token.setting .input path ∈ ts
      · exact .inl ⟨hpositionals ▸ Nat.zero_le 1, .inr (.inr hinput), .inl hnone⟩
      · exact .inr ⟨_, .missing hnone (not_exists.mp hinput) hhelp⟩

theorem Unsuited.exists_misuse {report : String} (h : Unsuited ts report) :
    ∃ m, Options.ofTokens? ts = .error m ∧ m.message = report := by
  rw [Options.ofTokens?_eq]
  cases h with
  | second hpositionals =>
    refine ⟨.unexpectedArgument _, ?_, rfl⟩
    rw [hpositionals]
    rfl
  | missing hpositional hinput hhelp =>
    refine ⟨.objectFileMissing, ?_, rfl⟩
    have hpositionals : ts.filterMap Token.positional? = [] := by
      simpa only [List.eq_nil_iff_forall_not_mem, mem_positionals_iff] using hpositional
    rw [← Options.help_gather_iff, Bool.not_eq_true] at hhelp
    simp [hpositionals, hhelp, Options.objFile_gather_eq_none_iff.mpr hpositional,
      Options.input_gather_eq_none_iff.mpr hinput]
  | twice hpositionals hinput =>
    refine ⟨.twoSources, ?_, rfl⟩
    have hobjFile := Options.objFile_gather ts
    rw [hpositionals, List.head?_cons] at hobjFile
    have hsome : (Options.gather ts).input.isSome = true := by
      rw [Option.isSome_iff_ne_none, ne_eq, Options.input_gather_eq_none_iff]
      exact fun hnone => hnone _ hinput
    simp [hpositionals, hobjFile, hsome]

/-- The report names the only thing that can be wrong, because admissible tokens are accepted. -/
theorem unsuited_of_ofTokens? {m : Misuse} (h : Options.ofTokens? ts = .error m) :
    Unsuited ts m.message := by
  rcases admissible_or_unsuited ts with hadmissible | ⟨report, hreport⟩
  · obtain ⟨hsingle, hsourced⟩ := admissible_iff.mp hadmissible
    rw [Options.ofTokens?_eq_ok_iff.mpr ⟨hsingle, hsourced, rfl⟩] at h
    cases h
  · obtain ⟨m', hm', rfl⟩ := hreport.exists_misuse
    cases hm'.symm.trans h
    exact hreport

/-! ### The whole argument list -/

/-- The report on an argument list. -/
inductive Reported (arguments : List String) : String → Prop where
  | stop {fs : List Form} {stop report : String} {rest : List String}
      (hcut : arguments = argumentsOf fs ++ stop :: rest) (hstop : BeginsNoForm (stop :: rest))
      (hreport : Complaint stop report) : Reported arguments report
  | tokens {fs : List Form} {report : String} (hcut : arguments = argumentsOf fs)
      (hreport : Unsuited (fs.map Form.token) report) : Reported arguments report

/-- The options are what the forms of the arguments say; if they say nothing, there is a report. -/
theorem Options.read_iff_forms (arguments : List String) :
    (∀ o, read arguments = .ok o ↔ ∃ fs, arguments = argumentsOf fs ∧
      Admissible (fs.map Form.token) ∧ o.Collects (fs.map Form.token)) ∧
    ∀ report, (∃ m, read arguments = .error m ∧ m.message = report) ↔
      Reported arguments report := by
  constructor
  · intro o
    rw [read_eq_ok_iff]
    constructor
    · rintro ⟨ts, hcuts, hsingle, hsourced, rfl⟩
      obtain ⟨fs, rfl, rfl⟩ := hcuts.exists_forms
      have hadmissible := admissible_iff.mpr ⟨hsingle, hsourced⟩
      exact ⟨fs, rfl, hadmissible, collects_gather hadmissible.single⟩
    · rintro ⟨fs, rfl, hadmissible, hcollects⟩
      obtain ⟨hsingle, hsourced⟩ := admissible_iff.mp hadmissible
      exact ⟨_, cuts_argumentsOf fs, hsingle, hsourced,
        (collects_gather hadmissible.single).unique hcollects⟩
  · intro report
    unfold read
    constructor
    · rintro ⟨m, hread, rfl⟩
      cases htokens : tokens arguments with
      | error m' =>
        rw [htokens] at hread
        cases hread
        obtain ⟨fs, stop, rest, hcut, hstop, hreport⟩ := exists_stop_of_tokens htokens
        exact .stop hcut hstop hreport
      | ok ts =>
        rw [htokens] at hread
        obtain ⟨fs, hcut, rfl⟩ := (tokens_eq_ok_iff.mp htokens).exists_forms
        exact .tokens hcut.symm (unsuited_of_ofTokens? hread)
    · rintro (⟨rfl, hstop, hreport⟩ | ⟨rfl, hreport⟩)
      · obtain ⟨m, htokens, hmessage⟩ := tokens_of_stop _ hstop hreport
        exact ⟨m, by rw [htokens], hmessage⟩
      · rw [tokens_eq_ok_iff.mpr (cuts_argumentsOf _)]
        exact hreport.exists_misuse

end Command
end CanonicalListing
