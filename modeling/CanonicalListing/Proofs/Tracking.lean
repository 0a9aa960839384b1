import CanonicalListing.Proofs.Edits
import Mathlib.Data.List.Induction

/-!
# Telling entries apart

Sorting moves sections and symbols, and a name may occur more than once, so neither a place
nor a name says which symbol is meant. In a register every section has a number, every
symbol has the number of its addition to its section, and every section keeps the history
of what was done to it. The content that a section starts with counts as added in the order
in which it stands. A register is edited like a listing. The numbers move with their
entries and decide nothing, so forgetting them gives the edits of the listing itself.
-/

namespace CanonicalListing

structure TrackedSymbol where
  number : Nat
  symbol : Symbol
  deriving DecidableEq, Repr

/-- What is done to a section; a symbol is meant by its number. -/
inductive Deed where
  | symbolAdded (name : String)
  | instructionAdded (number : Nat) (i : Instruction)
  | sorted
  deriving DecidableEq, Repr

structure TrackedSection where
  number : Nat
  name : String
  symbols : List TrackedSymbol := []
  history : List Deed := []
  deriving DecidableEq, Repr

structure Register where
  fileName : String
  fileFormat : String
  sections : List TrackedSection
  deriving DecidableEq, Repr

def TrackedSymbol.name (x : TrackedSymbol) : String := x.symbol.name

def TrackedSymbol.addInstruction (x : TrackedSymbol) (i : Instruction) : TrackedSymbol :=
  { x with symbol := x.symbol.addInstruction i }

namespace TrackedSection

def addSymbol (s : TrackedSection) (symbol : Symbol) : TrackedSection :=
  { s with
    symbols := s.symbols ++ [⟨s.symbols.length, symbol⟩]
    history := s.history ++ .symbolAdded symbol.name ::
      symbol.instructions.map (.instructionAdded s.symbols.length) }

def addInstructionTo (s : TrackedSection) (j : Nat) (i : Instruction) : TrackedSection :=
  match s.symbols[j]? with
  | none => s
  | some x =>
    { s with
      symbols := s.symbols.modify j fun x => x.addInstruction i
      history := s.history ++ [.instructionAdded x.number i] }

def addInstruction (s : TrackedSection) (i : Instruction) : TrackedSection :=
  s.addInstructionTo (s.symbols.length - 1) i

def sortSymbols (s : TrackedSection) : TrackedSection :=
  { s with
    symbols := s.symbols.mergeSort fun x y => Text.nameLE x.name y.name
    history := s.history ++ [.sorted] }

/-- The section with its number and its symbols, before anything else is done to it. -/
def ofSection (number : Nat) (s : Section) : TrackedSection :=
  s.symbols.foldl addSymbol { number, name := s.name }

def forget (s : TrackedSection) : Section := ⟨s.name, s.symbols.map TrackedSymbol.symbol⟩

theorem forget_addSymbol (s : TrackedSection) (symbol : Symbol) :
    (s.addSymbol symbol).forget = s.forget.addSymbol symbol := by
  simp [forget, addSymbol, Section.addSymbol]

theorem forget_foldl_addSymbol (s : TrackedSection) (symbols : List Symbol) :
    (symbols.foldl addSymbol s).forget =
      { s.forget with symbols := s.forget.symbols ++ symbols } := by
  induction symbols generalizing s with
  | nil => simp
  | cons symbol rest ih => simp [ih, forget_addSymbol, Section.addSymbol]

theorem forget_ofSection (number : Nat) (s : Section) : (ofSection number s).forget = s := by
  rw [ofSection, forget_foldl_addSymbol]
  rfl

theorem forget_sortSymbols (s : TrackedSection) : s.sortSymbols.forget = s.forget.sortSymbols := by
  have hname : ∀ x ∈ s.symbols, ∀ y ∈ s.symbols,
      Text.nameLE x.name y.name = Symbol.nameLE x.symbol y.symbol := fun _ _ _ _ => rfl
  simp only [forget, sortSymbols, Section.sortSymbols, List.map_mergeSort hname]

theorem forget_addInstructionTo (s : TrackedSection) (j : Nat) (i : Instruction) :
    (s.addInstructionTo j i).forget =
      { s.forget with
        symbols := s.forget.symbols.modify j fun symbol => symbol.addInstruction i } := by
  have hmap : (s.symbols.modify j fun x => x.addInstruction i).map TrackedSymbol.symbol =
      (s.symbols.map TrackedSymbol.symbol).modify j fun symbol => symbol.addInstruction i :=
    map_modify_of_comm (h := TrackedSymbol.symbol) (fun _ => rfl) _ _
  unfold addInstructionTo
  split
  next hnone =>
    have hlength : s.forget.symbols.length ≤ j := by
      simpa [forget] using List.getElem?_eq_none_iff.mp hnone
    rw [List.modify_eq_self hlength]
  next => simp only [forget, hmap]

/-- An instruction for a section goes to its open symbol, if there is one. -/
theorem addInstruction_forget (s : TrackedSection) (i : Instruction) :
    (s.forget.addInstruction i).toOption.getD s.forget = (s.addInstruction i).forget := by
  rcases List.eq_nil_or_concat' s.symbols with hnone | ⟨before, x, hlast⟩
  · have hforget : s.forget.symbols = [] := by simp [forget, hnone]
    rw [Section.addInstruction_of_nil hforget]
    simp [addInstruction, addInstructionTo, hnone, Except.toOption]
  · have hforget : s.forget.symbols = before.map TrackedSymbol.symbol ++ [x.symbol] := by
      simp [forget, hlast]
    have hlength : s.symbols.length - 1 = (before.map TrackedSymbol.symbol).length := by
      simp [hlast]
    rw [Section.addInstruction_of_last hforget, addInstruction, forget_addInstructionTo, hforget,
      hlength, modify_append_cons]
    rfl

/-- What one step makes of one section, wherever it moves it. -/
inductive Becomes (s : TrackedSection) : TrackedSection → Prop where
  | same : Becomes s s
  | addsSymbol (symbol : Symbol) : Becomes s (s.addSymbol symbol)
  | addsInstruction {before behind : List TrackedSymbol} {x : TrackedSymbol}
      (hsymbols : s.symbols = before ++ x :: behind) (i : Instruction) :
      Becomes s
        { s with
          symbols := before ++ x.addInstruction i :: behind
          history := s.history ++ [.instructionAdded x.number i] }
  | sorts : Becomes s s.sortSymbols

theorem addInstructionTo_of_symbols_eq {s : TrackedSection} {before behind : List TrackedSymbol}
    {x : TrackedSymbol} (h : s.symbols = before ++ x :: behind) (i : Instruction) :
    s.addInstructionTo before.length i =
      { s with
        symbols := before ++ x.addInstruction i :: behind
        history := s.history ++ [.instructionAdded x.number i] } := by
  have hget : s.symbols[before.length]? = some x := by simp [h]
  rw [addInstructionTo, hget, h]
  simp only [modify_append_cons]

/-- An instruction is added at a place where there is a symbol; elsewhere nothing happens. -/
theorem becomes_addInstructionTo (s : TrackedSection) (j : Nat) (i : Instruction) :
    s.Becomes (s.addInstructionTo j i) := by
  by_cases h : j < s.symbols.length
  · obtain ⟨before, x, behind, hsymbols, rfl, -⟩ := List.exists_of_modify id h
    rw [addInstructionTo_of_symbols_eq hsymbols]
    exact .addsInstruction hsymbols i
  · have hget : s.symbols[j]? = none := List.getElem?_eq_none (Nat.le_of_not_lt h)
    simp only [addInstructionTo, hget]
    exact .same

theorem forall₂_becomes_modify {f : TrackedSection → TrackedSection} (hf : ∀ s, Becomes s (f s))
    (ss : List TrackedSection) (i : Nat) : List.Forall₂ Becomes ss (ss.modify i f) := by
  induction ss generalizing i with
  | nil => simp
  | cons s ss ih =>
    cases i with
    | zero => exact .cons (hf s) (List.forall₂_same.mpr fun s _ => .same)
    | succ i => exact .cons .same (ih i)

end TrackedSection

namespace Register

variable {r : Register}

def modifySection (r : Register) (i : Nat) (f : TrackedSection → TrackedSection) : Register :=
  { r with sections := r.sections.modify i f }

def sort (r : Register) : Register :=
  { r with
    sections := (r.sections.map TrackedSection.sortSymbols).mergeSort fun s t =>
      Text.nameLE s.name t.name }

def apply (r : Register) : Listing.Step → Register
  | .addSymbol i name => r.modifySection i fun s => s.addSymbol (Symbol.named name)
  | .addInstruction i instruction => r.modifySection i fun s => s.addInstruction instruction
  | .addInstructionTo i j instruction =>
    r.modifySection i fun s => s.addInstructionTo j instruction
  | .sortSymbols i => r.modifySection i TrackedSection.sortSymbols
  | .sort => r.sort
  | .openSymbol _ | .tally | .render _ _ => r

def after (r : Register) (steps : List Listing.Step) : Register := steps.foldl apply r

def ofListing (l : Listing) : Register where
  fileName := l.fileName
  fileFormat := l.fileFormat
  sections := l.sections.zipIdx.map fun (s, number) => TrackedSection.ofSection number s

def listing (r : Register) : Listing :=
  ⟨r.fileName, r.fileFormat, r.sections.map TrackedSection.forget⟩

theorem after_concat (r : Register) (steps : List Listing.Step) (step : Listing.Step) :
    r.after (steps ++ [step]) = (r.after steps).apply step := by
  simp [after]

theorem listing_ofListing (l : Listing) : (ofListing l).listing = l := by
  have hforget : (fun entry : Section × Nat =>
      (TrackedSection.ofSection entry.2 entry.1).forget) = Prod.fst :=
    funext fun entry => TrackedSection.forget_ofSection entry.2 entry.1
  simp [ofListing, listing, Function.comp_def, hforget, List.zipIdx_map_fst]

theorem listing_modifySection {f : TrackedSection → TrackedSection} {g : Section → Section}
    (h : ∀ s, (f s).forget = g s.forget) (i : Nat) :
    (r.modifySection i f).listing = r.listing.modifySection i g := by
  simp only [listing, modifySection, Listing.modifySection,
    map_modify_of_comm h]

theorem listing_sort (r : Register) : r.sort.listing = r.listing.sort := by
  have hname : ∀ s ∈ r.sections.map TrackedSection.sortSymbols,
      ∀ t ∈ r.sections.map TrackedSection.sortSymbols,
        Text.nameLE s.name t.name = Section.nameLE s.forget t.forget := fun _ _ _ _ => rfl
  have hinner : (r.sections.map TrackedSection.sortSymbols).map TrackedSection.forget =
      (r.sections.map TrackedSection.forget).map Section.sortSymbols := by
    simp [Function.comp_def, TrackedSection.forget_sortSymbols]
  simp only [listing, sort, Listing.sort, List.map_mergeSort hname, hinner]

/-- Forgetting the numbers and the histories gives the edits of the listing. -/
theorem listing_apply (r : Register) (step : Listing.Step) :
    (r.apply step).listing = (r.listing.apply step).1 := by
  cases step with
  | addSymbol i name => exact listing_modifySection (fun s => s.forget_addSymbol _) i
  | addInstruction i instruction =>
    rw [Listing.apply_addInstruction]
    exact listing_modifySection (fun s => (s.addInstruction_forget instruction).symm) i
  | addInstructionTo i j instruction =>
    exact listing_modifySection (fun s => s.forget_addInstructionTo j instruction) i
  | sortSymbols i => exact listing_modifySection TrackedSection.forget_sortSymbols i
  | sort => exact r.listing_sort
  | openSymbol i => rfl
  | tally => rfl
  | render target options => rfl

theorem listing_after (r : Register) (steps : List Listing.Step) :
    (r.after steps).listing = r.listing.after steps := by
  induction steps generalizing r with
  | nil => rfl
  | cons step rest ih => exact (ih (r.apply step)).trans (by rw [listing_apply]; rfl)

/-! ### One step, seen from its sections -/

theorem perm_sort (r : Register) :
    r.sort.sections.Perm (r.sections.map TrackedSection.sortSymbols) :=
  List.mergeSort_perm _ _

theorem exists_becomes (r : Register) (step : Listing.Step) :
    ∃ inner, List.Forall₂ TrackedSection.Becomes r.sections inner ∧
      (r.apply step).sections.Perm inner := by
  have hmodify {f : TrackedSection → TrackedSection} (hf : ∀ s : TrackedSection, s.Becomes (f s))
      (i : Nat) :
      ∃ inner, List.Forall₂ TrackedSection.Becomes r.sections inner ∧
        (r.modifySection i f).sections.Perm inner :=
    ⟨_, TrackedSection.forall₂_becomes_modify hf r.sections i, List.Perm.refl _⟩
  have hsame : ∃ inner, List.Forall₂ TrackedSection.Becomes r.sections inner ∧
      r.sections.Perm inner :=
    ⟨_, List.forall₂_same.mpr fun s _ => .same, List.Perm.refl _⟩
  cases step with
  | addSymbol i name => exact hmodify (fun s => .addsSymbol _) i
  | addInstruction i instruction =>
    exact hmodify (fun s => s.becomes_addInstructionTo _ instruction) i
  | addInstructionTo i j instruction =>
    exact hmodify (fun s => s.becomes_addInstructionTo j instruction) i
  | sortSymbols i => exact hmodify (fun s => .sorts) i
  | sort =>
    refine ⟨r.sections.map TrackedSection.sortSymbols, ?_, r.perm_sort⟩
    rw [List.forall₂_map_right_iff, List.forall₂_same]
    exact fun s _ => .sorts
  | openSymbol i => exact hsame
  | tally => exact hsame
  | render target options => exact hsame

/-- A property that a new section has and that every step keeps holds of all sections of a run. -/
theorem forall_sections_after {P : TrackedSection → Prop}
    (hnew : ∀ number name, P { number, name }) (hstep : ∀ s t, s.Becomes t → P s → P t)
    (l : Listing) (steps : List Listing.Step) :
    ∀ s ∈ ((ofListing l).after steps).sections, P s := by
  induction steps using List.reverseRecOn with
  | nil =>
    intro t ht
    obtain ⟨⟨s, number⟩, -, rfl⟩ := List.mem_map.mp ht
    -- What a section starts with is added symbol by symbol.
    have hfold (symbols : List Symbol) :
        ∀ s, P s → P (symbols.foldl TrackedSection.addSymbol s) := by
      induction symbols with
      | nil => exact fun s hs => hs
      | cons symbol rest ih => exact fun s hs => ih _ (hstep s _ (.addsSymbol symbol) hs)
    exact hfold s.symbols _ (hnew number s.name)
  | append_singleton steps step ih =>
    rw [after_concat]
    intro t ht
    obtain ⟨inner, hinner, hperm⟩ := ((ofListing l).after steps).exists_becomes step
    obtain ⟨s, hs, hbecomes⟩ := (exists_of_mem_forall₂ hinner).2 t (hperm.mem_iff.mp ht)
    exact hstep s t hbecomes (ih s hs)

end Register
end CanonicalListing
