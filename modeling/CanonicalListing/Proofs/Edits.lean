import CanonicalListing.Listing.Edit
import CanonicalListing.Proofs.StableOrder

/-!
# Runs of edits

An edit at a place that is there does one of five things: it only looks, it puts sections
or symbols into another order, it adds a symbol at the end of a section, it adds an
instruction at the end of a symbol, or it is refused because the section has no symbol to
add an instruction to. A run takes its steps one after the other, each on the listing that
the steps before it leave.
-/

namespace CanonicalListing

theorem Section.addInstruction_of_last {s : Section} {before : List Symbol} {symbol : Symbol}
    (h : s.symbols = before ++ [symbol]) (i : Instruction) :
    s.addInstruction i = .ok { s with symbols := before ++ [symbol.addInstruction i] } := by
  simp [addInstruction, openSymbol?, h]

theorem Section.addInstruction_of_nil {s : Section} (h : s.symbols = []) (i : Instruction) :
    s.addInstruction i = .error Fault.missingSymbol := by
  simp [addInstruction, openSymbol?, h]

namespace Listing

variable {l : Listing} {step : Step} {front back : List Section} {s : Section}

/-! ### What a step does -/

def Step.looks : Step → Bool
  | .openSymbol _ | .tally | .render _ _ => true
  | _ => false

def Step.sorts : Step → Bool
  | .sortSymbols _ | .sort => true
  | _ => false

def Step.addsSymbol : Step → Bool
  | .addSymbol _ _ => true
  | _ => false

def Step.addsInstruction : Step → Bool
  | .addInstruction _ _ | .addInstructionTo _ _ _ => true
  | _ => false

def Answer.isRefused : Answer → Bool
  | .refused _ => true
  | _ => false

def hasSection (l : Listing) (i : Nat) : Bool := i < l.sections.length

def hasSymbol (l : Listing) (i j : Nat) : Bool :=
  l.sections[i]?.any fun s => j < s.symbols.length

def Target.fits (l : Listing) : Target → Bool
  | .all => true
  | .sectionAt i => l.hasSection i
  | .symbolAt i j => l.hasSymbol i j

/-- The places that a step names are there. -/
def Step.fits (l : Listing) : Step → Bool
  | .addSymbol i _ | .addInstruction i _ | .sortSymbols i | .openSymbol i => l.hasSection i
  | .addInstructionTo i j _ => l.hasSymbol i j
  | .sort | .tally => true
  | .render target _ => target.fits l

theorem exists_of_hasSection {i : Nat} (h : l.hasSection i = true) :
    ∃ front s back, l.sections = front ++ s :: back ∧ front.length = i := by
  obtain ⟨front, s, back, hsections, hlength, -⟩ := List.exists_of_modify id (of_decide_eq_true h)
  exact ⟨front, s, back, hsections, hlength⟩

theorem exists_of_hasSymbol {i j : Nat} (h : l.hasSymbol i j = true) :
    ∃ front s back before symbol behind, l.sections = front ++ s :: back ∧ front.length = i ∧
      s.symbols = before ++ symbol :: behind ∧ before.length = j := by
  obtain ⟨s, hs, hj⟩ := (Option.any_eq_true _ _).mp h
  have hi : l.hasSection i = true := decide_eq_true (List.getElem?_eq_some_iff.mp hs).1
  obtain ⟨front, t, back, hsections, rfl⟩ := exists_of_hasSection hi
  obtain rfl : t = s := by simpa [hsections] using hs
  obtain ⟨before, symbol, behind, hsymbols, hlength, -⟩ :=
    List.exists_of_modify id (of_decide_eq_true hj)
  exact ⟨front, t, back, before, symbol, behind, hsections, rfl, hsymbols, hlength⟩

theorem modifySection_of_sections_eq (h : l.sections = front ++ s :: back)
    (f : Section → Section) :
    l.modifySection front.length f = { l with sections := front ++ f s :: back } := by
  rw [modifySection, h, modify_append_cons]

theorem addInstructionAt_of_sections_eq (h : l.sections = front ++ s :: back) (i : Instruction) :
    l.addInstructionAt front.length i = (s.addInstruction i).map fun s' =>
      { l with sections := front ++ s' :: back } := by
  have hget : l.sections[front.length]? = some s := by simp [h]
  simp only [addInstructionAt, hget, modifySection_of_sections_eq h]

/-- A refused addition leaves its section as it is. -/
theorem apply_addInstruction (l : Listing) (i : Nat) (instruction : Instruction) :
    (l.apply (.addInstruction i instruction)).1 =
      l.modifySection i fun s => (s.addInstruction instruction).toOption.getD s := by
  by_cases h : l.hasSection i = true
  · obtain ⟨front, s, back, hsections, rfl⟩ := exists_of_hasSection h
    rw [modifySection_of_sections_eq hsections, apply, addInstructionAt_of_sections_eq hsections]
    cases s.addInstruction instruction with
    | ok s' => rfl
    | error fault => simp [Except.map, Except.toOption, ← hsections]
  · have hlength : l.sections.length ≤ i := by simpa [hasSection] using h
    simp [apply, addInstructionAt, modifySection, List.getElem?_eq_none hlength,
      List.modify_eq_self hlength]

/-- What becomes of a listing and what is answered, by what the step does. -/
inductive Effect (l : Listing) : Step → Listing → Answer → Prop where
  | looks {step : Step} {answer : Answer} (hlooks : step.looks = true)
      (hanswer : answer.isRefused = false) : Effect l step l answer
  | rearranges {step : Step} {l' : Listing} (hsorts : step.sorts = true)
      (hrearranges : l.Rearranges l') : Effect l step l' .done
  | addsSymbol {front back : List Section} {s : Section} {name : String}
      (hsections : l.sections = front ++ s :: back) :
      Effect l (.addSymbol front.length name)
        { l with sections := front ++ s.addSymbol (Symbol.named name) :: back } .done
  | addsInstruction {step : Step} {front back : List Section} {s : Section}
      {before behind : List Symbol} {symbol : Symbol} {i : Instruction}
      (hsections : l.sections = front ++ s :: back)
      (hsymbols : s.symbols = before ++ symbol :: behind)
      (hstep : step = .addInstructionTo front.length before.length i ∨
        behind = [] ∧ step = .addInstruction front.length i) :
      Effect l step
        { l with
          sections := front ++
            { s with symbols := before ++ symbol.addInstruction i :: behind } :: back } .done
  | refuses {front back : List Section} {s : Section} {i : Instruction}
      (hsections : l.sections = front ++ s :: back) (hnone : s.symbols = []) :
      Effect l (.addInstruction front.length i) l (.refused Fault.missingSymbol)

theorem rearranges_of_section {s' : Section} (hsections : l.sections = front ++ s :: back)
    (h : s.Rearranges s') : l.Rearranges { l with sections := front ++ s' :: back } := by
  refine ⟨rfl, rfl, front ++ s' :: back, ?_, List.Perm.refl _⟩
  have hothers (ss : List Section) : List.Forall₂ Section.Rearranges ss ss :=
    List.forall₂_same.mpr fun s _ => Section.Rearranges.refl s
  rw [hsections]
  exact List.rel_append (hothers front) (.cons h (hothers back))

theorem rearranges_apply (h : step.fits l = true) (hsorts : step.sorts = true) :
    l.Rearranges (l.apply step).1 := by
  cases step with
  | sortSymbols i =>
    obtain ⟨front, s, back, hsections, rfl⟩ := exists_of_hasSection h
    simp only [apply, modifySection_of_sections_eq hsections]
    exact rearranges_of_section hsections s.rearranges_sortSymbols
  | sort => exact l.rearranges_sort
  | _ => cases hsorts

/-- All that a step at places that are there can do. -/
theorem effect_apply (h : step.fits l = true) :
    Effect l step (l.apply step).1 (l.apply step).2 := by
  cases step with
  | addSymbol i name =>
    obtain ⟨front, s, back, hsections, rfl⟩ := exists_of_hasSection h
    simp only [apply, modifySection_of_sections_eq hsections]
    exact .addsSymbol hsections
  | addInstruction i instruction =>
    obtain ⟨front, s, back, hsections, rfl⟩ := exists_of_hasSection h
    simp only [apply, addInstructionAt_of_sections_eq hsections]
    rcases List.eq_nil_or_concat' s.symbols with hnone | ⟨before, symbol, hlast⟩
    · rw [Section.addInstruction_of_nil hnone]
      exact .refuses hsections hnone
    · rw [Section.addInstruction_of_last hlast]
      exact .addsInstruction hsections hlast (.inr ⟨rfl, rfl⟩)
  | addInstructionTo i j instruction =>
    obtain ⟨front, s, back, before, symbol, behind, hsections, rfl, hsymbols, rfl⟩ :=
      exists_of_hasSymbol h
    simp only [apply, modifySection_of_sections_eq hsections, hsymbols, modify_append_cons]
    exact .addsInstruction hsections hsymbols (.inl rfl)
  | sortSymbols i => exact .rearranges rfl (rearranges_apply h rfl)
  | sort => exact .rearranges rfl (rearranges_apply h rfl)
  | openSymbol i => exact .looks rfl rfl
  | tally => exact .looks rfl rfl
  | render target options => exact .looks rfl rfl

theorem apply_of_looks (h : step.looks = true) : (l.apply step).1 = l := by
  cases step with
  | openSymbol i => rfl
  | tally => rfl
  | render target options => rfl
  | _ => cases h

theorem isRefused_apply_iff (h : step.fits l = true) :
    (l.apply step).2.isRefused = true ↔
      ∃ i instruction s, step = .addInstruction i instruction ∧ l.sections[i]? = some s ∧
        s.symbols = [] := by
  constructor
  · intro hrefused
    have heffect := effect_apply h
    generalize (l.apply step).1 = l', (l.apply step).2 = answer at hrefused heffect
    cases heffect with
    | refuses hsections hnone => exact ⟨_, _, _, rfl, by simp [hsections], hnone⟩
    | looks _ hanswer => simp [hanswer] at hrefused
    | _ => cases hrefused
  · rintro ⟨i, instruction, s, rfl, hget, hnone⟩
    simp only [apply, addInstructionAt, hget, Section.addInstruction_of_nil hnone]
    rfl

theorem apply_of_isRefused (h : step.fits l = true) (hrefused : (l.apply step).2.isRefused = true) :
    l.apply step = (l, .refused Fault.missingSymbol) := by
  obtain ⟨i, instruction, s, rfl, hget, hnone⟩ := (isRefused_apply_iff h).mp hrefused
  simp only [apply, addInstructionAt, hget, Section.addInstruction_of_nil hnone]
  rfl

/-! ### Runs -/

/-- The listing that a run leaves. -/
def after (l : Listing) (steps : List Step) : Listing :=
  steps.foldl (fun l step => (l.apply step).1) l

/-- Every step of a run names places that are there when its turn comes. -/
def admits (l : Listing) : List Step → Bool
  | [] => true
  | step :: rest => step.fits l && (l.apply step).1.admits rest

/-- The steps of a run that were not refused. -/
def carriedOut (l : Listing) (steps : List Step) : List Step :=
  ((steps.zip (l.applyAll steps)).filter fun entry => !entry.2.2.isRefused).map Prod.fst

theorem after_concat (l : Listing) (steps : List Step) (step : Step) :
    l.after (steps ++ [step]) = ((l.after steps).apply step).1 := by
  simp [after]

theorem admits_concat (l : Listing) (steps : List Step) (step : Step) :
    l.admits (steps ++ [step]) = (l.admits steps && step.fits (l.after steps)) := by
  induction steps generalizing l with
  | nil => simp [admits, after]
  | cons first rest ih => simp [admits, after, ih, Bool.and_assoc]

theorem applyAll_concat (l : Listing) (steps : List Step) (step : Step) :
    l.applyAll (steps ++ [step]) = l.applyAll steps ++ [(l.after steps).apply step] := by
  induction steps generalizing l with
  | nil => rfl
  | cons first rest ih => simp [applyAll, after, ih]

theorem carriedOut_concat (l : Listing) (steps : List Step) (step : Step) :
    l.carriedOut (steps ++ [step]) = l.carriedOut steps ++
      if ((l.after steps).apply step).2.isRefused then [] else [step] := by
  rw [carriedOut, applyAll_concat, List.zip_append (length_applyAll l steps).symm]
  cases hrefused : ((l.after steps).apply step).2.isRefused <;> simp [carriedOut, hrefused]

end Listing
end CanonicalListing
