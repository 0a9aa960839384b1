import CanonicalListing.Command.Options
import CanonicalListing.Proofs.Trimming

/-!
# The grammar of arguments

Every token is spelled by one argument or, if it is a setting with a separate value, by
two. The scan from left to right finds the one way of cutting an argument list into such
spellings, if there is one. No spelling looks at what comes behind it, so arguments that
are added at the end are read as if they stood alone.
-/

namespace CanonicalListing
namespace Command

inductive Token.SpelledBy : Token → List String → Prop where
  | positional {argument : String} (hplain : isFlag argument = false) :
      SpelledBy (.positional argument) [argument]
  | switch {name : String} {s : Switch} (hname : switch? name = some s) :
      SpelledBy (.switch s) [name]
  | inline {name value : String} {s : Setting} (hname : setting? name = some s)
      (hlong : "--".toList <+: name.toList) (hvalue : value ≠ "") :
      SpelledBy (.setting s value) [name ++ "=" ++ value]
  | separate {name value : String} {s : Setting} (hname : setting? name = some s)
      (hvalue : isSeparateValue value = true) : SpelledBy (.setting s value) [name, value]

/-- The arguments are the spellings of the tokens, one behind the other. -/
inductive Cuts : List String → List Token → Prop where
  | nil : Cuts [] []
  | cons {t : Token} {ts : List Token} {spelling rest : List String} (ht : t.SpelledBy spelling)
      (hts : Cuts rest ts) : Cuts (spelling ++ rest) (t :: ts)

theorem Token.SpelledBy.cuts {t : Token} {spelling : List String} (h : t.SpelledBy spelling) :
    Cuts spelling [t] := by
  simpa using Cuts.cons h .nil

theorem isFlag_eq_false_iff {argument : String} :
    isFlag argument = false ↔ argument = "-" ∨ startsWithDash argument = false := by
  unfold isFlag
  cases startsWithDash argument <;> simp

theorem head_of_positional {argument : String} (h : isFlag argument = false) :
    head argument = .complete (.positional argument) := by
  simp [head, h]

theorem head_of_switch {name : String} {s : Switch} (h : switch? name = some s) :
    head name = .complete (.switch s) := by
  unfold switch? at h
  split at h <;> cases h <;> decide

theorem head_of_setting {name : String} {s : Setting} (h : setting? name = some s) :
    head name = .expectsValue s := by
  unfold setting? at h
  split at h <;> cases h <;> decide

theorem equals_notMem_of_setting {name : String} {s : Setting} (h : setting? name = some s) :
    '=' ∉ name.toList := by
  unfold setting? at h
  split at h <;> cases h <;> decide

theorem inlineValue?_append {name value : String} (hlong : "--".toList <+: name.toList)
    (hname : '=' ∉ name.toList) : inlineValue? (name ++ "=" ++ value) = some (name, value) := by
  have hprefix : "--".toList.isPrefixOf (name ++ "=" ++ value).toList = true := by
    rw [List.isPrefixOf_iff_prefix, String.append_assoc, String.toList_append]
    exact hlong.trans (List.prefix_append _ _)
  have hspan : (name ++ "=" ++ value).toList.span (· ≠ '=') =
      (name.toList, '=' :: value.toList) := by
    rw [String.append_assoc, String.toList_append, String.toList_append]
    exact Text.span_ne_append hname value.toList
  simp only [inlineValue?, if_pos hprefix, hspan, String.ofList_toList]

theorem inlineValue?_eq_some_iff {argument name value : String} :
    inlineValue? argument = some (name, value) ↔
      "--".toList <+: name.toList ∧ '=' ∉ name.toList ∧ argument = name ++ "=" ++ value := by
  refine ⟨fun h => ?_, fun ⟨hlong, hname, hcut⟩ => hcut ▸ inlineValue?_append hlong hname⟩
  unfold inlineValue? at h
  split at h
  case isFalse => cases h
  case isTrue hlong =>
    rw [List.isPrefixOf_iff_prefix] at hlong
    by_cases hmem : '=' ∈ argument.toList
    · obtain ⟨front, back, hcut, hfront⟩ := List.eq_append_cons_of_mem hmem
      rw [hcut, Text.span_ne_append hfront] at h
      obtain ⟨rfl, rfl⟩ : String.ofList front = name ∧ String.ofList back = value := by
        simpa using h
      have hlead : "--".toList <+: front :=
        prefix_of_prefix_append_cons (hcut ▸ hlong) (by decide)
      have hchars : (String.ofList front).toList = front := String.toList_ofList
      refine ⟨hchars.symm ▸ hlead, hchars.symm ▸ hfront, ?_⟩
      rw [← String.toList_inj, hcut]
      simp
    · rw [Text.span_ne_of_notMem hmem] at h
      cases h

theorem isFlag_of_long {argument : String} (h : "--".toList <+: argument.toList) :
    isFlag argument = true := by
  obtain ⟨rest, hrest⟩ := h
  have hchars : argument.toList = '-' :: '-' :: rest := hrest.symm
  have hne : argument ≠ "-" := by
    rintro rfl
    exact absurd hchars (by simp)
  simp [isFlag, startsWithDash, hchars, hne]

theorem head_of_inline {name value : String} {s : Setting} (h : setting? name = some s)
    (hlong : "--".toList <+: name.toList) (hvalue : value ≠ "") :
    head (name ++ "=" ++ value) = .complete (.setting s value) := by
  have hinline : inlineValue? (name ++ "=" ++ value) = some (name, value) :=
    inlineValue?_append hlong (equals_notMem_of_setting h)
  have hflag : isFlag (name ++ "=" ++ value) = true := by
    refine isFlag_of_long (hlong.trans ?_)
    rw [String.append_assoc, String.toList_append]
    exact List.prefix_append _ _
  simp [head, hflag, hinline, inlineHead, h, hvalue]

/-- What is known of an argument once its head is. -/
theorem head_spec (argument : String) :
    match head argument with
    | .complete t => t.SpelledBy [argument]
    | .expectsValue s => setting? argument = some s
    | .invalid _ => True := by
  unfold head
  cases hflag : isFlag argument with
  | false => exact .positional hflag
  | true =>
    cases hinline : inlineValue? argument with
    | some cut =>
      obtain ⟨name, value⟩ := cut
      obtain ⟨hlong, -, rfl⟩ := inlineValue?_eq_some_iff.mp hinline
      simp only [↓reduceIte, inlineHead]
      cases hname : setting? name with
      | none => trivial
      | some s =>
        by_cases hvalue : value = ""
        · simp [hvalue]
        · simpa [hvalue] using Token.SpelledBy.inline hname hlong hvalue
    | none =>
      simp only [↓reduceIte, bareHead]
      cases hsetting : setting? argument with
      | some s => rfl
      | none =>
        cases hswitch : switch? argument with
        | none => trivial
        | some s => exact .switch hswitch

theorem spelledBy_of_head {argument : String} {t : Token} (h : head argument = .complete t) :
    t.SpelledBy [argument] := by
  simpa only [h] using head_spec argument

theorem setting?_of_head {argument : String} {s : Setting} (h : head argument = .expectsValue s) :
    setting? argument = some s := by
  simpa only [h] using head_spec argument

theorem Token.SpelledBy.tokens_append {t : Token} {spelling : List String}
    (h : t.SpelledBy spelling) (rest : List String) :
    tokens (spelling ++ rest) = (tokens rest).map (t :: ·) := by
  cases h with
  | positional hplain => simp [tokens, head_of_positional hplain]
  | switch hname => simp [tokens, head_of_switch hname]
  | inline hname hlong hvalue => simp [tokens, head_of_inline hname hlong hvalue]
  | separate hname hvalue => simp [tokens, head_of_setting hname, hvalue]

/-- Also when the arguments behind are wrong: then they are what is reported. -/
theorem Cuts.tokens_append {front : List String} {ts : List Token} (h : Cuts front ts)
    (back : List String) : tokens (front ++ back) = (tokens back).map (ts ++ ·) := by
  induction h with
  | nil => cases hback : tokens back <;> simp [hback, Except.map]
  | cons ht hts ih =>
    rw [List.append_assoc, ht.tokens_append, ih]
    cases tokens back <;> rfl

theorem cuts_of_tokens {arguments : List String} {ts : List Token}
    (h : tokens arguments = .ok ts) : Cuts arguments ts := by
  fun_induction tokens arguments generalizing ts with
  | case1 =>
    cases h
    exact .nil
  | case2 argument rest m hhead => cases h
  | case3 argument rest t hhead ih =>
    obtain ⟨us, hrest, rfl⟩ := map_eq_ok_iff.mp h
    exact .cons (spelledBy_of_head hhead) (ih hrest)
  | case4 argument s hhead => cases h
  | case5 argument s hhead value rest hvalue ih =>
    obtain ⟨us, hrest, rfl⟩ := map_eq_ok_iff.mp h
    exact .cons (.separate (setting?_of_head hhead) hvalue) (ih hrest)
  | case6 argument s hhead value rest hvalue => cases h

theorem tokens_eq_ok_iff {arguments : List String} {ts : List Token} :
    tokens arguments = .ok ts ↔ Cuts arguments ts := by
  refine ⟨cuts_of_tokens, fun h => ?_⟩
  have hall := h.tokens_append []
  rw [List.append_nil] at hall
  rw [hall]
  simp [tokens, Except.map]

theorem Cuts.unique {arguments : List String} {ts us : List Token} (h : Cuts arguments ts)
    (h' : Cuts arguments us) : us = ts := by
  rw [← tokens_eq_ok_iff] at h h'
  exact Except.ok.inj (h'.symm.trans h)

end Command
end CanonicalListing
