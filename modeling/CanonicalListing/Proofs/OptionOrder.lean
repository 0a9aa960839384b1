import Mathlib.Logic.Relation
import CanonicalListing.Proofs.ArgumentForms
import CanonicalListing.Proofs.OptionTokens

/-!
# Rewriting an argument list

The options depend on the positional arguments, on the last value of every setting, and on
which switches occur. So the forms of an accepted argument list may change places as long
as those of one setting keep their order, the value of a setting may be moved behind an
equals sign, and a switch may be given again. Each of these steps keeps what the options
depend on, and so does every sequence of them.
-/

namespace CanonicalListing
namespace Command

variable {arguments : List String} {o : Options} {ts us : List Token} {fs gs : List Form}

/-- The options are the same for both lists of tokens. -/
structure SayAlike (ts us : List Token) : Prop where
  positionals : us.filterMap Token.positional? = ts.filterMap Token.positional?
  values : ∀ s, us.filterMap (Token.valueOf? s) = ts.filterMap (Token.valueOf? s)
  switches : ∀ s, Token.switch s ∈ us ↔ Token.switch s ∈ ts

theorem SayAlike.ofTokens?_eq (h : SayAlike ts us) :
    Options.ofTokens? us = Options.ofTokens? ts := by
  have hcontains : ∀ s, us.contains (Token.switch s) = ts.contains (Token.switch s) := by
    intro s
    rw [Bool.eq_iff_iff, List.contains_iff_mem, List.contains_iff_mem]
    exact h.switches s
  have hgather : Options.gather us = Options.gather ts := by
    simp only [Options.gather_eq, lastValue?, h.positionals, h.values, hcontains]
  rw [Options.ofTokens?_eq, Options.ofTokens?_eq, h.positionals, hgather]

/-- The form gives the setting a value. -/
def Form.sets (s : Setting) (f : Form) : Bool := (f.token.valueOf? s).isSome

theorem filterMap_valueOf?_eq (s : Setting) (fs : List Form) :
    (fs.map Form.token).filterMap (Token.valueOf? s) =
      (fs.filter (Form.sets s)).filterMap fun f => f.token.valueOf? s := by
  rw [List.filterMap_map, List.filterMap_filter]
  congr 1
  funext f
  cases h : f.token.valueOf? s <;> simp [Form.sets, h]

/-- One change to a list of forms: they change places, but those of one setting keep their order;
or a value is moved behind the long name; or a switch that is on is given again. -/
inductive Rewrites : List Form → List Form → Prop where
  | reorder {fs gs : List Form} (hperm : gs.Perm fs)
      (horder : ∀ s, gs.filter (Form.sets s) = fs.filter (Form.sets s)) : Rewrites fs gs
  | inline {front back : List Form} {s : Setting} {name value : String} (hname : name ∈ s.names)
      (hvalue : value ≠ "") (hdash : startsWithDash value = false) :
      Rewrites (front ++ .separate s name value hname hvalue hdash :: back)
        (front ++ .inline s value hvalue :: back)
  | again {front back : List Form} {s : Switch} {name name' : String} {hname : name ∈ s.names}
      (hname' : name' ∈ s.names) (hmem : Form.switch s name hname ∈ front ++ back) :
      Rewrites (front ++ back) (front ++ .switch s name' hname' :: back)

theorem SayAlike.of_perm (hsingle : (ts.filterMap Token.positional?).length ≤ 1)
    (hperm : us.Perm ts)
    (hvalues : ∀ s, us.filterMap (Token.valueOf? s) = ts.filterMap (Token.valueOf? s)) :
    SayAlike ts us where
  positionals := by
    have hpositionals := hperm.filterMap Token.positional?
    match h : ts.filterMap Token.positional?, hsingle with
    | [], _ => exact (h ▸ hpositionals).eq_nil
    | [argument], _ => exact List.perm_singleton.mp (h ▸ hpositionals)
  values := hvalues
  switches := fun _ => hperm.mem_iff

/-- A switch that is on stays on. -/
theorem SayAlike.insert_switch {front back : List Token} {s : Switch}
    (hmem : Token.switch s ∈ front ++ back) :
    SayAlike (front ++ back) (front ++ .switch s :: back) where
  positionals := by simp [List.filterMap_cons, Token.positional?]
  values := by simp [List.filterMap_cons, Token.valueOf?]
  switches := by
    intro s'
    rw [List.perm_middle.mem_iff, List.mem_cons, or_iff_right_iff_imp]
    intro hs
    exact hs ▸ hmem

theorem Rewrites.sayAlike (h : Rewrites fs gs)
    (hsingle : ((fs.map Form.token).filterMap Token.positional?).length ≤ 1) :
    SayAlike (fs.map Form.token) (gs.map Form.token) := by
  cases h with
  | reorder hperm horder =>
    refine SayAlike.of_perm hsingle (hperm.map Form.token) fun s => ?_
    rw [filterMap_valueOf?_eq, filterMap_valueOf?_eq, horder]
  | inline hname hvalue hdash =>
    simp only [List.map_append, List.map_cons, Form.token]
    exact ⟨rfl, fun _ => rfl, fun _ => Iff.rfl⟩
  | again hname' hmem =>
    have htoken := List.mem_map_of_mem (f := Form.token) hmem
    simp only [List.map_append, List.map_cons, Form.token] at htoken ⊢
    exact .insert_switch htoken

theorem Options.read_argumentsOf (fs : List Form) :
    read (argumentsOf fs) = ofTokens? (fs.map Form.token) := by
  rw [read, tokens_eq_ok_iff.mpr (cuts_argumentsOf fs)]

theorem Rewrites.read_eq (h : Rewrites fs gs) (hread : Options.read (argumentsOf fs) = .ok o) :
    Options.read (argumentsOf gs) = .ok o := by
  rw [Options.read_argumentsOf] at hread ⊢
  have hsingle := List.getElem?_eq_none_iff.mp (Options.ofTokens?_eq_ok_iff.mp hread).1
  rw [(h.sayAlike hsingle).ofTokens?_eq, hread]

theorem read_of_rewrites (h : Relation.ReflTransGen Rewrites fs gs)
    (hread : Options.read (argumentsOf fs) = .ok o) :
    Options.read (argumentsOf gs) = .ok o := by
  induction h with
  | refl => exact hread
  | tail _ hstep ih => exact hstep.read_eq ih

/-- An accepted argument list is made up of forms in one way, and may be rewritten form by form. -/
theorem Options.exists_rewritable_forms (h : read arguments = .ok o) :
    ∃ fs, argumentsOf fs = arguments ∧ (∀ fs', argumentsOf fs' = arguments → fs' = fs) ∧
      ∀ gs, Relation.ReflTransGen Rewrites fs gs → read (argumentsOf gs) = .ok o := by
  obtain ⟨ts, hcuts, -⟩ := read_eq_ok_iff.mp h
  obtain ⟨fs, rfl, -⟩ := hcuts.exists_forms
  exact ⟨fs, rfl, fun fs' hfs' => argumentsOf_inj hfs', fun gs hgs => read_of_rewrites hgs h⟩

/-! ### An output that is given twice -/

namespace Twice

def forms : List Form :=
  [.separate .out "-o" "a" (by decide) (by decide) (by decide), .positional "prog.o" (by decide),
    .inline .out "b" (by decide), .switch .hash "--hash" (by decide)]

/-- The switch in front, the object file behind both outputs. -/
def reordered : List Form :=
  [.switch .hash "--hash" (by decide),
    .separate .out "-o" "a" (by decide) (by decide) (by decide), .inline .out "b" (by decide),
    .positional "prog.o" (by decide)]

/-- Both outputs behind the long name. -/
def inlined : List Form :=
  [.switch .hash "--hash" (by decide), .inline .out "a" (by decide), .inline .out "b" (by decide),
    .positional "prog.o" (by decide)]

def rewritten : List Form := inlined ++ [.switch .hash "--hash" (by decide)]

theorem forms_rewrites_rewritten : Relation.ReflTransGen Rewrites forms rewritten := by
  have hperm : reordered.Perm forms :=
    (@List.perm_append_comm _ [_] _).trans ((List.Perm.swap _ _ _).cons _)
  have hreorder : Rewrites forms reordered := .reorder hperm fun s => by cases s <;> rfl
  have hinline : Rewrites reordered inlined :=
    @Rewrites.inline [.switch .hash "--hash" (by decide)] _ .out "-o" "a" (by decide) (by decide)
      (by decide)
  have hagain : Rewrites inlined rewritten :=
    @Rewrites.again inlined [] .hash "--hash" "--hash" (by decide) (by decide) List.mem_cons_self
  exact ((Relation.ReflTransGen.single hreorder).tail hinline).tail hagain

end Twice

theorem Options.exists_rewritable_forms_twice :
    read ["-o", "a", "prog.o", "--out=b", "--hash"] =
        .ok { objFile := some "prog.o", out := some "b", hash := true } ∧
      ∃ fs, argumentsOf fs = ["-o", "a", "prog.o", "--out=b", "--hash"] ∧
        (∀ fs', argumentsOf fs' = ["-o", "a", "prog.o", "--out=b", "--hash"] → fs' = fs) ∧
        (∀ gs, Relation.ReflTransGen Rewrites fs gs → read (argumentsOf gs) =
          .ok { objFile := some "prog.o", out := some "b", hash := true }) ∧
        Relation.ReflTransGen Rewrites fs Twice.rewritten ∧
        read ["--hash", "--out=a", "--out=b", "prog.o", "--hash"] =
          .ok { objFile := some "prog.o", out := some "b", hash := true } := by
  have hread : read ["-o", "a", "prog.o", "--out=b", "--hash"] =
      .ok { objFile := some "prog.o", out := some "b", hash := true } := by decide +kernel
  obtain ⟨fs, hfs, hunique, hall⟩ := exists_rewritable_forms hread
  obtain rfl : Twice.forms = fs := hunique Twice.forms (by decide)
  have harguments : argumentsOf Twice.rewritten =
      ["--hash", "--out=a", "--out=b", "prog.o", "--hash"] := by decide
  have hrewrites := Twice.forms_rewrites_rewritten
  exact ⟨hread, _, hfs, hunique, hall, hrewrites, harguments ▸ hall _ hrewrites⟩

end Command
end CanonicalListing
