import Mathlib.Data.List.Induction
import CanonicalListing.Proofs.ArgumentGrammar

/-!
# Options, token by token

The options of an argument list are gathered by taking up its tokens one after the other.
Tokens that only say what is kept of a listing and where it goes leave its source alone,
and they may stand before or behind the token of the source.
-/

namespace CanonicalListing
namespace Command

/-- What one more token changes: the first positional argument counts, and of a setting the last
value. -/
def Options.add (o : Options) : Token → Options
  | .positional argument => { o with objFile := o.objFile <|> some argument }
  | .switch .operands => { o with operands := true }
  | .switch .comments => { o with comments := true }
  | .switch .hash => { o with hash := true }
  | .switch .help => { o with help := true }
  | .setting .executable value => { o with executable := some value }
  | .setting .out value => { o with out := some value }
  | .setting .input value => { o with input := some value }

/-- What the tokens set, whether or not they may stand together. -/
def Options.gather (ts : List Token) : Options := ts.foldl Options.add {}

theorem Options.gather_append (ts us : List Token) :
    gather (ts ++ us) = us.foldl add (gather ts) := by
  simp [gather]

theorem lastValue?_concat (s : Setting) (ts : List Token) (t : Token) :
    lastValue? s (ts ++ [t]) = (t.valueOf? s).or (lastValue? s ts) := by
  rw [lastValue?, List.filterMap_append, List.getLast?_append]
  cases h : t.valueOf? s <;> simp [h, lastValue?]

theorem Token.positional?_eq_some_iff {t : Token} {argument : String} :
    t.positional? = some argument ↔ t = .positional argument := by
  cases t <;> simp [positional?]

theorem Token.valueOf?_eq_some_iff {s : Setting} {t : Token} {value : String} :
    t.valueOf? s = some value ↔ t = .setting s value := by
  cases t with
  | positional argument => simp [valueOf?]
  | switch switch => simp [valueOf?]
  | setting s' value' =>
    simp only [valueOf?, Option.ite_none_right_eq_some, Option.some.injEq, setting.injEq]
    exact and_congr_left' eq_comm

theorem lastValue?_eq_none_iff {s : Setting} {ts : List Token} :
    lastValue? s ts = none ↔ ∀ value, Token.setting s value ∉ ts := by
  rw [lastValue?, List.getLast?_eq_none_iff, List.filterMap_eq_nil_iff]
  simp only [Option.eq_none_iff_forall_ne_some, ne_eq, Token.valueOf?_eq_some_iff]
  exact ⟨fun h value hmem => h _ hmem value rfl, fun h t ht value heq => h value (heq ▸ ht)⟩

/-- No later token of the setting takes the value back. -/
theorem exists_last_of_lastValue? {s : Setting} {ts : List Token} {value : String}
    (h : lastValue? s ts = some value) : ∃ before after, ts = before ++ .setting s value :: after ∧
      ∀ value', Token.setting s value' ∉ after := by
  induction ts using List.reverseRecOn with
  | nil => cases h
  | append_singleton ts t ih =>
    rw [lastValue?_concat] at h
    cases ht : t.valueOf? s with
    | some value' =>
      obtain rfl : value' = value := by simpa [ht] using h
      obtain rfl := Token.valueOf?_eq_some_iff.mp ht
      exact ⟨ts, [], rfl, fun _ => List.not_mem_nil⟩
    | none =>
      rw [ht, Option.none_or] at h
      obtain ⟨before, after, rfl, hafter⟩ := ih h
      refine ⟨before, after ++ [t], by simp, fun value' hmem => ?_⟩
      rcases List.mem_append.mp hmem with hmem | hmem
      · exact hafter value' hmem
      · have hvalue := Token.valueOf?_eq_some_iff.mpr (List.mem_singleton.mp hmem).symm
        simp [ht] at hvalue

theorem Options.gather_eq (ts : List Token) :
    gather ts =
      { objFile := (ts.filterMap Token.positional?).head?
        executable := lastValue? .executable ts
        out := lastValue? .out ts
        input := lastValue? .input ts
        operands := ts.contains (.switch .operands)
        comments := ts.contains (.switch .comments)
        hash := ts.contains (.switch .hash)
        help := ts.contains (.switch .help) } := by
  induction ts using List.reverseRecOn with
  | nil => rfl
  | append_singleton ts t ih =>
    rw [gather_append, ih]
    simp only [lastValue?_concat, List.filterMap_append, List.head?_append, List.contains_append]
    cases t with
    | positional argument => simp [add, Token.positional?, Token.valueOf?]
    | switch s => cases s <;> simp [add, Token.positional?, Token.valueOf?]
    | setting s value => cases s <;> simp [add, Token.positional?, Token.valueOf?]

/-- The source of the listing is told, unless there is help instead, and it is not told twice. -/
def Options.Sourced (o : Options) : Prop :=
  (o.help = true ∨ o.objFile ≠ none ∨ o.input ≠ none) ∧ (o.objFile = none ∨ o.input = none)

theorem Options.sourced_iff {o : Options} :
    o.Sourced ↔ ¬ (!o.help && o.objFile.isNone && o.input.isNone) = true ∧
      ¬ (o.objFile.isSome && o.input.isSome) = true := by
  unfold Sourced
  cases o.help <;> cases o.objFile <;> cases o.input <;> simp

theorem Options.ofTokens?_eq (ts : List Token) :
    ofTokens? ts =
      match (ts.filterMap Token.positional?)[1]? with
      | some extra => .error (.unexpectedArgument extra)
      | none =>
        if !(gather ts).help && (gather ts).objFile.isNone && (gather ts).input.isNone then
          .error .objectFileMissing
        else if (gather ts).objFile.isSome && (gather ts).input.isSome then .error .twoSources
        else .ok (gather ts) := by
  rw [gather_eq]
  rfl

theorem Options.ofTokens?_eq_ok_iff {ts : List Token} {o : Options} :
    ofTokens? ts = .ok o ↔
      (ts.filterMap Token.positional?)[1]? = none ∧ (gather ts).Sourced ∧ gather ts = o := by
  rw [ofTokens?_eq]
  cases (ts.filterMap Token.positional?)[1]? with
  | some extra => simp
  | none =>
    simp only [sourced_iff]
    split_ifs with hmissing htwice
    · simp [hmissing]
    · simp [hmissing, htwice]
    · simp [hmissing, htwice]

theorem Options.read_eq_ok_iff {arguments : List String} {o : Options} :
    read arguments = .ok o ↔ ∃ ts, Cuts arguments ts ∧
      (ts.filterMap Token.positional?)[1]? = none ∧ (gather ts).Sourced ∧ gather ts = o := by
  simp only [← ofTokens?_eq_ok_iff, ← tokens_eq_ok_iff, read]
  cases tokens arguments <;> simp

theorem Options.sourced_of_read {arguments : List String} {o : Options}
    (h : read arguments = .ok o) : o.Sourced := by
  obtain ⟨ts, -, -, hsourced, rfl⟩ := read_eq_ok_iff.mp h
  exact hsourced

theorem Cuts.append {front back : List String} {ts us : List Token} (hfront : Cuts front ts)
    (hback : Cuts back us) : Cuts (front ++ back) (ts ++ us) := by
  rw [← tokens_eq_ok_iff] at hback ⊢
  rw [hfront.tokens_append, hback]
  rfl

/-- The tokens that say what is delivered and where to. -/
def Token.isOutput : Token → Bool
  | .switch .operands => true
  | .switch .comments => true
  | .switch .hash => true
  | .setting .out _ => true
  | _ => false

/-- Both say the same about where the listing comes from, and about help. -/
structure Options.SameSource (o o' : Options) : Prop where
  objFile : o'.objFile = o.objFile
  executable : o'.executable = o.executable
  input : o'.input = o.input
  help : o'.help = o.help

theorem Token.positional?_of_isOutput {t : Token} (h : t.isOutput = true) :
    t.positional? = none := by
  cases t with
  | positional argument => cases h
  | switch s => rfl
  | setting s value => rfl

theorem filterMap_positional?_of_isOutput {ts : List Token}
    (h : ∀ t ∈ ts, t.isOutput = true) : ts.filterMap Token.positional? = [] :=
  List.filterMap_eq_nil_iff.mpr fun t ht => Token.positional?_of_isOutput (h t ht)

namespace Options

variable {o o' : Options}

theorem SameSource.trans {o'' : Options} (h : o.SameSource o') (h' : o'.SameSource o'') :
    o.SameSource o'' where
  objFile := h'.objFile.trans h.objFile
  executable := h'.executable.trans h.executable
  input := h'.input.trans h.input
  help := h'.help.trans h.help

theorem SameSource.sourced (h : o.SameSource o') (hsourced : o.Sourced) : o'.Sourced := by
  unfold Sourced at hsourced ⊢
  rwa [h.objFile, h.input, h.help]

theorem sameSource_add {t : Token} (h : t.isOutput = true) : o.SameSource (o.add t) := by
  cases t with
  | positional argument => cases h
  | switch s =>
    cases s with
    | help => cases h
    | operands | comments | hash => exact ⟨rfl, rfl, rfl, rfl⟩
  | setting s value =>
    cases s with
    | executable | input => cases h
    | out => exact ⟨rfl, rfl, rfl, rfl⟩

theorem sameSource_foldl {ts : List Token} (h : ∀ t ∈ ts, t.isOutput = true) (o : Options) :
    o.SameSource (ts.foldl add o) := by
  induction ts generalizing o with
  | nil => exact ⟨rfl, rfl, rfl, rfl⟩
  | cons t ts ih =>
    have hstep : o.SameSource (o.add t) := sameSource_add (h t List.mem_cons_self)
    exact hstep.trans (ih (fun u hu => h u (List.mem_cons_of_mem t hu)) (o.add t))

theorem add_right_comm {t u : Token} (ht : t.isOutput = false) (hu : u.isOutput = true)
    (o : Options) : (o.add t).add u = (o.add u).add t := by
  cases u with
  | positional argument => cases hu
  | switch s =>
    cases s with
    | help => cases hu
    | operands | comments | hash =>
      rcases t with argument | s | ⟨s, value⟩
      · rfl
      · cases s <;> rfl
      · cases s <;> rfl
  | setting s value =>
    cases s with
    | executable | input => cases hu
    | out =>
      rcases t with argument | s | ⟨s, value'⟩
      · rfl
      · cases s <;> rfl
      · cases s with
        | out => cases ht
        | executable | input => rfl

theorem foldl_add_comm {t : Token} {ts : List Token} (ht : t.isOutput = false)
    (hts : ∀ u ∈ ts, u.isOutput = true) (o : Options) :
    ts.foldl add (o.add t) = (ts.foldl add o).add t := by
  induction ts generalizing o with
  | nil => rfl
  | cons u ts ih =>
    rw [List.foldl_cons, List.foldl_cons, add_right_comm ht (hts u List.mem_cons_self),
      ih fun v hv => hts v (List.mem_cons_of_mem u hv)]

/-- A token that is no output may as well come last. -/
theorem gather_append_cons {front back : List Token} {t : Token} (ht : t.isOutput = false)
    (hback : ∀ u ∈ back, u.isOutput = true) :
    gather (front ++ t :: back) = (gather (front ++ back)).add t := by
  rw [gather_append, List.foldl_cons, foldl_add_comm ht hback, gather_append]

/-- Output arguments that are added at the end are taken up as such. -/
theorem read_append {arguments extra : List String} {us : List Token}
    (hread : read arguments = .ok o) (hextra : Cuts extra us)
    (hus : ∀ u ∈ us, u.isOutput = true) : read (arguments ++ extra) = .ok (us.foldl add o) := by
  obtain ⟨ts, hcuts, hsingle, hsourced, rfl⟩ := read_eq_ok_iff.mp hread
  refine read_eq_ok_iff.mpr ⟨ts ++ us, hcuts.append hextra, ?_, ?_, gather_append ts us⟩
  · rwa [List.filterMap_append, filterMap_positional?_of_isOutput hus, List.append_nil]
  · rw [gather_append]
    exact (sameSource_foldl hus _).sourced hsourced

end Options

end Command
end CanonicalListing
