import CanonicalListing.Proofs.ArgumentGrammar

/-!
# The forms of a token

A token can be written in several ways: a setting with its short or its long name and the
value behind it, or with the long name, an equals sign and the value in one argument; help
by two names. A form is one of these ways. An argument list that is covered by tokens is a
list of forms written one behind the other, and it is written by no other list of forms,
because the first argument of a form already tells which one it is, or that its value
follows.
-/

namespace CanonicalListing
namespace Command

def Setting.shortName : Setting → String
  | .executable => "-e"
  | .out => "-o"
  | .input => "-i"

def Setting.longName : Setting → String
  | .executable => "--executable"
  | .out => "--out"
  | .input => "--input"

def Setting.names (s : Setting) : List String := [s.shortName, s.longName]

def Switch.names : Switch → List String
  | .operands => ["--operands"]
  | .comments => ["--comments"]
  | .hash => ["--hash"]
  | .help => ["-h", "--help"]

theorem setting?_eq_some_iff {name : String} {s : Setting} :
    setting? name = some s ↔ name ∈ s.names := by
  constructor
  · intro h
    unfold setting? at h
    split at h <;> cases h <;> decide
  · intro h
    cases s <;> obtain rfl | rfl := List.mem_pair.mp h <;> rfl

theorem setting?_eq_none_iff {name : String} :
    setting? name = none ↔ ∀ s : Setting, name ∉ s.names := by
  simp only [Option.eq_none_iff_forall_ne_some, ne_eq, setting?_eq_some_iff]

theorem switch?_eq_some_iff {name : String} {s : Switch} :
    switch? name = some s ↔ name ∈ s.names := by
  constructor
  · intro h
    unfold switch? at h
    split at h <;> cases h <;> decide
  · intro h
    cases s with
    | help => obtain rfl | rfl := List.mem_pair.mp h <;> rfl
    | operands | comments | hash => obtain rfl := List.mem_singleton.mp h; rfl

theorem Setting.longName_mem (s : Setting) : s.longName ∈ s.names := by
  simp [names]

theorem Setting.long_longName (s : Setting) : "--".toList <+: s.longName.toList := by
  cases s <;> decide

theorem Setting.eq_longName {s : Setting} {name : String} (h : name ∈ s.names)
    (hlong : "--".toList <+: name.toList) : name = s.longName := by
  obtain rfl | rfl := List.mem_pair.mp h
  · cases s <;> exact absurd hlong (by decide)
  · rfl

/-- A way to write a token. A lone dash is written as a positional argument, but it is no value
that stands alone. -/
inductive Form where
  | positional (argument : String) (hplain : argument = "-" ∨ startsWithDash argument = false)
  | switch (s : Switch) (name : String) (hname : name ∈ s.names)
  | inline (s : Setting) (value : String) (hvalue : value ≠ "")
  | separate (s : Setting) (name value : String) (hname : name ∈ s.names) (hvalue : value ≠ "")
    (hdash : startsWithDash value = false)

namespace Form

def token : Form → Token
  | positional argument _ => .positional argument
  | switch s _ _ => .switch s
  | inline s value _ => .setting s value
  | separate s _ value _ _ _ => .setting s value

def arguments : Form → List String
  | positional argument _ => [argument]
  | switch _ name _ => [name]
  | inline s value _ => [s.longName ++ "=" ++ value]
  | separate _ name value _ _ _ => [name, value]

theorem spelledBy (f : Form) : f.token.SpelledBy f.arguments := by
  cases f with
  | positional argument hplain => exact .positional (isFlag_eq_false_iff.mpr hplain)
  | switch s name hname => exact .switch (switch?_eq_some_iff.mpr hname)
  | inline s value hvalue =>
    exact .inline (setting?_eq_some_iff.mpr s.longName_mem) s.long_longName hvalue
  | separate s name value hname hvalue hdash =>
    exact .separate (setting?_eq_some_iff.mpr hname) (by simp [isSeparateValue, hvalue, hdash])

/-- What the first argument of the form is taken for. -/
def firstHead : Form → Head
  | separate s _ _ _ _ _ => .expectsValue s
  | f => .complete f.token

theorem exists_first (f : Form) :
    ∃ first rest, f.arguments = first :: rest ∧ head first = f.firstHead := by
  cases f with
  | positional argument hplain =>
    exact ⟨_, _, rfl, head_of_positional (isFlag_eq_false_iff.mpr hplain)⟩
  | switch s name hname => exact ⟨_, _, rfl, head_of_switch (switch?_eq_some_iff.mpr hname)⟩
  | inline s value hvalue =>
    exact ⟨_, _, rfl,
      head_of_inline (setting?_eq_some_iff.mpr s.longName_mem) s.long_longName hvalue⟩
  | separate s name value hname hvalue hdash =>
    exact ⟨_, _, rfl, head_of_setting (setting?_eq_some_iff.mpr hname)⟩

theorem arguments_append_inj {f g : Form} {xs ys : List String}
    (h : f.arguments ++ xs = g.arguments ++ ys) : f = g ∧ xs = ys := by
  have hhead : f.firstHead = g.firstHead := by
    obtain ⟨a, rest, hf, hfirst⟩ := f.exists_first
    obtain ⟨b, rest', hg, hfirst'⟩ := g.exists_first
    rw [hf, hg, List.cons_append, List.cons_append] at h
    rw [← hfirst, ← hfirst', (List.cons.inj h).1]
  cases f <;> cases g <;> simp_all [firstHead, token, arguments]

end Form

theorem Token.SpelledBy.exists_form {t : Token} {spelling : List String}
    (h : t.SpelledBy spelling) : ∃ f : Form, f.token = t ∧ f.arguments = spelling := by
  cases h with
  | positional hplain => exact ⟨.positional _ (isFlag_eq_false_iff.mp hplain), rfl, rfl⟩
  | switch hname => exact ⟨.switch _ _ (switch?_eq_some_iff.mp hname), rfl, rfl⟩
  | @inline name value s hname hlong hvalue =>
    obtain rfl := Setting.eq_longName (setting?_eq_some_iff.mp hname) hlong
    exact ⟨.inline s value hvalue, rfl, rfl⟩
  | @separate name value s hname hvalue =>
    obtain ⟨hne, hdash⟩ : value ≠ "" ∧ startsWithDash value = false := by
      simpa [isSeparateValue] using hvalue
    exact ⟨.separate s name value (setting?_eq_some_iff.mp hname) hne hdash, rfl, rfl⟩

/-- The arguments that the forms make up. -/
def argumentsOf (fs : List Form) : List String := fs.flatMap Form.arguments

theorem cuts_argumentsOf (fs : List Form) : Cuts (argumentsOf fs) (fs.map Form.token) := by
  induction fs with
  | nil => exact .nil
  | cons f fs ih => exact .cons f.spelledBy ih

theorem Cuts.exists_forms {arguments : List String} {ts : List Token}
    (h : Cuts arguments ts) : ∃ fs, argumentsOf fs = arguments ∧ fs.map Form.token = ts := by
  induction h with
  | nil => exact ⟨[], rfl, rfl⟩
  | cons ht _ ih =>
    obtain ⟨f, rfl, rfl⟩ := ht.exists_form
    obtain ⟨fs, rfl, rfl⟩ := ih
    exact ⟨f :: fs, rfl, rfl⟩

theorem argumentsOf_inj {fs gs : List Form} (h : argumentsOf fs = argumentsOf gs) : fs = gs := by
  have hne : ∀ (f : Form) (fs : List Form), argumentsOf (f :: fs) ≠ [] := by
    intro f fs hnil
    obtain ⟨first, rest, hf, -⟩ := f.exists_first
    simp [argumentsOf, hf] at hnil
  induction fs generalizing gs with
  | nil =>
    cases gs with
    | nil => rfl
    | cons g gs => exact absurd h.symm (hne g gs)
  | cons f fs ih =>
    cases gs with
    | nil => exact absurd h (hne f fs)
    | cons g gs =>
      rw [argumentsOf, argumentsOf, List.flatMap_cons, List.flatMap_cons] at h
      obtain ⟨rfl, hrest⟩ := Form.arguments_append_inj h
      rw [ih hrest]

end Command
end CanonicalListing
