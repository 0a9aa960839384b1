import CanonicalListing.Proofs.Blocks
import CanonicalListing.Proofs.Tracking
import Mathlib.Data.List.Nodup

/-!
# What edits conserve

In every register of a run a section is what its history says: the symbols that were added
to it are in it, each once and under its name, and the instructions of a symbol are those
that were added to it, in this order. One step extends the history of a section and keeps
its number and its name, so nothing that was added is ever taken back. The tally grows by
one for every addition that is carried out.
-/

namespace CanonicalListing

namespace Deed

def name? : Deed → Option String
  | .symbolAdded name => some name
  | _ => none

def instructionTo? (number : Nat) : Deed → Option Instruction
  | .instructionAdded n i => if n = number then some i else none
  | _ => none

/-- What a step does to the section at one place. -/
def ofStep? (k : Nat) (s : TrackedSection) : Listing.Step → Option Deed
  | .addSymbol i name => if i = k then some (.symbolAdded (Text.trim name)) else none
  | .addInstruction i instruction =>
    if i = k then s.symbols.getLast?.map (.instructionAdded ·.number instruction) else none
  | .addInstructionTo i j instruction =>
    if i = k then s.symbols[j]?.map (.instructionAdded ·.number instruction) else none
  | .sortSymbols i => if i = k then some .sorted else none
  | .sort => some .sorted
  | .openSymbol _ | .tally | .render _ _ => none

/-- The names of all symbols that were added. -/
def names (history : List Deed) : List String := history.filterMap name?

/-- All instructions that were added to one symbol. -/
def instructionsTo (number : Nat) (history : List Deed) : List Instruction :=
  history.filterMap (instructionTo? number)

theorem names_symbolAdded (history : List Deed) (number : Nat) (symbol : Symbol) :
    names (history ++ .symbolAdded symbol.name ::
      symbol.instructions.map (.instructionAdded number)) = names history ++ [symbol.name] := by
  simp [names, name?, List.filterMap_map, Function.comp_def]

theorem instructionsTo_symbolAdded (history : List Deed) (number other : Nat) (symbol : Symbol) :
    instructionsTo other (history ++ .symbolAdded symbol.name ::
      symbol.instructions.map (.instructionAdded number)) =
        instructionsTo other history ++ if number = other then symbol.instructions else [] := by
  have hdeeds : instructionTo? other ∘ instructionAdded number =
      fun i => if number = other then some i else none := rfl
  rw [instructionsTo, List.filterMap_append, List.filterMap_cons_none rfl, List.filterMap_map,
    hdeeds]
  by_cases h : number = other <;> simp [instructionsTo, h]

theorem names_instructionAdded (history : List Deed) (number : Nat) (i : Instruction) :
    names (history ++ [.instructionAdded number i]) = names history := by
  simp [names, name?]

theorem instructionsTo_instructionAdded (history : List Deed) (number other : Nat)
    (i : Instruction) : instructionsTo other (history ++ [.instructionAdded number i]) =
      instructionsTo other history ++ if number = other then [i] else [] := by
  by_cases h : number = other <;> simp [instructionsTo, instructionTo?, h]

theorem names_sorted (history : List Deed) : names (history ++ [.sorted]) = names history := by
  simp [names, name?]

theorem instructionsTo_sorted (history : List Deed) (number : Nat) :
    instructionsTo number (history ++ [.sorted]) = instructionsTo number history := by
  simp [instructionsTo, instructionTo?]

end Deed

namespace TrackedSymbol

/-- The symbol after an instruction is added to the symbol of one number. -/
def receive (number : Nat) (i : Instruction) (x : TrackedSymbol) : TrackedSymbol :=
  if x.number = number then x.addInstruction i else x

theorem number_receive (number : Nat) (i : Instruction) (x : TrackedSymbol) :
    (x.receive number i).number = x.number := by
  unfold receive
  split <;> rfl

theorem name_receive (number : Nat) (i : Instruction) (x : TrackedSymbol) :
    (x.receive number i).name = x.name := by
  unfold receive
  split <;> rfl

/-- The same symbol later on. -/
structure Continues (x y : TrackedSymbol) : Prop where
  number : y.number = x.number
  name : y.name = x.name
  instructions : x.symbol.instructions <+: y.symbol.instructions

end TrackedSymbol

namespace TrackedSection

variable {s t : TrackedSection}

/-- A section is what its history says. -/
structure Faithful (s : TrackedSection) : Prop where
  symbols : (s.symbols.map fun x => (x.name, x.number)).Perm (Deed.names s.history).zipIdx
  instructions : ∀ x ∈ s.symbols, x.symbol.instructions = Deed.instructionsTo x.number s.history
  unknown : ∀ number, s.symbols.length ≤ number → Deed.instructionsTo number s.history = []

theorem Faithful.length_names (h : s.Faithful) :
    (Deed.names s.history).length = s.symbols.length := by
  simpa using h.symbols.length_eq.symm

theorem Faithful.perm_numbers (h : s.Faithful) :
    (s.symbols.map TrackedSymbol.number).Perm (List.range s.symbols.length) := by
  have hnumbers := h.symbols.map Prod.snd
  rwa [List.map_map, List.zipIdx_map_snd, h.length_names, ← List.range_eq_range'] at hnumbers

theorem Faithful.number_lt (h : s.Faithful) {x : TrackedSymbol} (hx : x ∈ s.symbols) :
    x.number < s.symbols.length :=
  List.mem_range.mp (h.perm_numbers.mem_iff.mp (List.mem_map_of_mem hx))

theorem Faithful.nodup_numbers (h : s.Faithful) : (s.symbols.map TrackedSymbol.number).Nodup :=
  h.perm_numbers.nodup_iff.mpr List.nodup_range

/-- Numbers are not repeated, so an instruction goes to one symbol and to no other. -/
theorem Faithful.symbols_addInstruction (h : s.Faithful) {before behind : List TrackedSymbol}
    {x : TrackedSymbol} (hsymbols : s.symbols = before ++ x :: behind) (i : Instruction) :
    before ++ x.addInstruction i :: behind =
      s.symbols.map (TrackedSymbol.receive x.number i) := by
  have hperm : s.symbols.Perm (x :: (before ++ behind)) := hsymbols ▸ List.perm_middle
  have hnodup := (hperm.map TrackedSymbol.number).nodup_iff.mp h.nodup_numbers
  have hothers : ∀ y ∈ before ++ behind, y.receive x.number i = y := by
    intro y hy
    refine if_neg fun heq => ?_
    exact (List.nodup_cons.mp hnodup).1 (heq ▸ List.mem_map_of_mem hy)
  have hsame (ys : List TrackedSymbol) (hys : ∀ y ∈ ys, y.receive x.number i = y) :
      ys.map (TrackedSymbol.receive x.number i) = ys :=
    (List.map_congr_left hys).trans (List.map_id' ys)
  rw [List.forall_mem_append] at hothers
  rw [hsymbols, List.map_append, List.map_cons, hsame before hothers.1, hsame behind hothers.2,
    TrackedSymbol.receive, if_pos rfl]

theorem faithful_new (number : Nat) (name : String) : Faithful { number, name } where
  symbols := List.Perm.refl []
  instructions := fun _ hx => absurd hx List.not_mem_nil
  unknown := fun _ _ => rfl

theorem Faithful.addSymbol (h : s.Faithful) (symbol : Symbol) : (s.addSymbol symbol).Faithful where
  symbols := by
    simp only [TrackedSection.addSymbol]
    rw [Deed.names_symbolAdded, List.zipIdx_append, h.length_names, List.map_append, Nat.zero_add]
    exact h.symbols.append_right _
  instructions := by
    intro x hx
    simp only [TrackedSection.addSymbol, Deed.instructionsTo_symbolAdded]
    rcases List.mem_append.mp hx with hx | hx
    · rw [if_neg (h.number_lt hx).ne', List.append_nil, h.instructions x hx]
    · obtain rfl := List.mem_singleton.mp hx
      rw [if_pos rfl, h.unknown _ le_rfl, List.nil_append]
  unknown := by
    intro number hnumber
    have hbeyond : s.symbols.length < number := by
      simpa [TrackedSection.addSymbol, Nat.add_one_le_iff] using hnumber
    simp only [TrackedSection.addSymbol, Deed.instructionsTo_symbolAdded]
    rw [if_neg hbeyond.ne, h.unknown _ hbeyond.le, List.append_nil]

theorem Faithful.addInstruction (h : s.Faithful) {before behind : List TrackedSymbol}
    {x : TrackedSymbol} (hsymbols : s.symbols = before ++ x :: behind) (i : Instruction) :
    Faithful
      { s with
        symbols := before ++ x.addInstruction i :: behind
        history := s.history ++ [.instructionAdded x.number i] } := by
  rw [h.symbols_addInstruction hsymbols]
  refine ⟨?_, ?_, ?_⟩
  · simpa [Function.comp_def, TrackedSymbol.number_receive, TrackedSymbol.name_receive,
      Deed.names_instructionAdded] using h.symbols
  · intro y hy
    obtain ⟨z, hz, rfl⟩ := List.mem_map.mp hy
    rw [z.number_receive, Deed.instructionsTo_instructionAdded, ← h.instructions z hz,
      TrackedSymbol.receive]
    by_cases heq : z.number = x.number
    · rw [if_pos heq, if_pos heq.symm]
      rfl
    · rw [if_neg heq, if_neg (Ne.symm heq), List.append_nil]
  · intro number hbeyond
    rw [List.length_map] at hbeyond
    have hx : x.number < number := (h.number_lt (by simp [hsymbols])).trans_le hbeyond
    rw [Deed.instructionsTo_instructionAdded, h.unknown number hbeyond, if_neg hx.ne,
      List.append_nil]

theorem Faithful.sortSymbols (h : s.Faithful) : s.sortSymbols.Faithful := by
  have hperm : s.sortSymbols.symbols.Perm s.symbols := List.mergeSort_perm _ _
  refine ⟨?_, ?_, ?_⟩
  · simp only [TrackedSection.sortSymbols, Deed.names_sorted]
    exact (hperm.map _).trans h.symbols
  · intro x hx
    simp only [TrackedSection.sortSymbols, Deed.instructionsTo_sorted]
    exact h.instructions x (hperm.mem_iff.mp hx)
  · intro number hnumber
    simp only [TrackedSection.sortSymbols, Deed.instructionsTo_sorted]
    exact h.unknown number (hperm.length_eq ▸ hnumber)

theorem Becomes.faithful (h : s.Becomes t) (hs : s.Faithful) : t.Faithful := by
  cases h with
  | same => exact hs
  | addsSymbol symbol => exact hs.addSymbol symbol
  | addsInstruction hsymbols i => exact hs.addInstruction hsymbols i
  | sorts => exact hs.sortSymbols

/-- The same section later on. -/
structure Continues (s t : TrackedSection) : Prop where
  number : t.number = s.number
  name : t.name = s.name
  history : s.history <+: t.history

theorem Continues.refl (s : TrackedSection) : s.Continues s := ⟨rfl, rfl, List.prefix_rfl⟩

theorem Continues.trans {u : TrackedSection} (h : s.Continues t) (h' : t.Continues u) :
    s.Continues u :=
  ⟨h'.number.trans h.number, h'.name.trans h.name, h.history.trans h'.history⟩

theorem Becomes.continues (h : s.Becomes t) : s.Continues t := by
  cases h with
  | same => exact .refl s
  | addsSymbol symbol => exact ⟨rfl, rfl, List.prefix_append _ _⟩
  | addsInstruction hsymbols i => exact ⟨rfl, rfl, List.prefix_append _ _⟩
  | sorts => exact ⟨rfl, rfl, List.prefix_append _ _⟩

theorem addInstructionTo_recorded (s : TrackedSection) (j : Nat) (i : Instruction) :
    (s.addInstructionTo j i).number = s.number ∧
      (s.addInstructionTo j i).history =
        s.history ++ (s.symbols[j]?.map (.instructionAdded ·.number i)).toList := by
  unfold addInstructionTo
  split
  next hnone => simp [hnone]
  next x hsome => simp [hsome]

theorem continues_foldl_addSymbol (s : TrackedSection) (symbols : List Symbol) :
    s.Continues (symbols.foldl addSymbol s) := by
  induction symbols generalizing s with
  | nil => exact .refl s
  | cons symbol rest ih => exact (Becomes.addsSymbol symbol).continues.trans (ih _)

/-- A symbol is found again by its number, and only once. -/
theorem Continues.exists_symbol (h : s.Continues t) (hs : s.Faithful) (ht : t.Faithful)
    {x : TrackedSymbol} (hx : x ∈ s.symbols) :
    ∃ y, x.Continues y ∧ ∀ z, z ∈ t.symbols ∧ z.number = x.number ↔ z = y := by
  have hadded : (x.name, x.number) ∈ (Deed.names s.history).zipIdx :=
    hs.symbols.mem_iff.mp (List.mem_map_of_mem hx)
  have hlasts : (x.name, x.number) ∈ (Deed.names t.history).zipIdx := by
    obtain ⟨rest, hrest⟩ : Deed.names s.history <+: Deed.names t.history :=
      h.history.filterMap Deed.name?
    rw [← hrest, List.zipIdx_append]
    exact List.mem_append_left _ hadded
  obtain ⟨y, hy, heq⟩ := List.mem_map.mp (ht.symbols.mem_iff.mpr hlasts)
  obtain ⟨hname, hnumber⟩ := Prod.mk.inj heq
  refine ⟨y, ⟨hnumber, hname, ?_⟩, fun z => ⟨?_, ?_⟩⟩
  · rw [hs.instructions x hx, ht.instructions y hy, hnumber]
    exact h.history.filterMap _
  · rintro ⟨hz, hsame⟩
    exact List.inj_on_of_nodup_map ht.nodup_numbers hz hy (hsame.trans hnumber.symm)
  · rintro rfl
    exact ⟨hy, hnumber⟩

end TrackedSection

namespace Register

theorem faithful_after (l : Listing) (steps : List Listing.Step) :
    ∀ s ∈ ((ofListing l).after steps).sections, s.Faithful :=
  forall_sections_after TrackedSection.faithful_new (fun _ _ h hs => h.faithful hs) l steps

/-- Every section goes on, with all that was done to it. -/
theorem exists_continues (r : Register) (steps : List Listing.Step) :
    ∀ s ∈ r.sections, ∃ t ∈ (r.after steps).sections, s.Continues t := by
  induction steps generalizing r with
  | nil => exact fun s hs => ⟨s, hs, .refl s⟩
  | cons step rest ih =>
    intro s hs
    obtain ⟨inner, hinner, hperm⟩ := r.exists_becomes step
    obtain ⟨t, ht, hbecomes⟩ := (exists_of_mem_forall₂ hinner).1 s hs
    obtain ⟨u, hu, hcontinues⟩ := ih (r.apply step) t (hperm.mem_iff.mpr ht)
    exact ⟨u, hu, hbecomes.continues.trans hcontinues⟩

theorem after_append (r : Register) (steps rest : List Listing.Step) :
    r.after (steps ++ rest) = (r.after steps).after rest := by
  simp [after]

/-- A section lasts with all its symbols, and these with all their instructions. -/
theorem exists_lasting (l : Listing) (steps rest : List Listing.Step) :
    ∀ s ∈ ((ofListing l).after steps).sections,
      ∃ t ∈ ((ofListing l).after (steps ++ rest)).sections, s.Continues t ∧
        ∀ x ∈ s.symbols, ∃ y, x.Continues y ∧
          ∀ z, z ∈ t.symbols ∧ z.number = x.number ↔ z = y := by
  intro s hs
  obtain ⟨t, ht, hcontinues⟩ := exists_continues _ rest s hs
  rw [← after_append] at ht
  have hsfaithful := faithful_after l steps s hs
  have htfaithful := faithful_after l (steps ++ rest) t ht
  exact ⟨t, ht, hcontinues, fun x hx => hcontinues.exists_symbol hsfaithful htfaithful hx⟩

theorem exists_recorded {r : Register} {k : Nat} {s : TrackedSection}
    (hk : r.sections[k]? = some s) (step : Listing.Step) :
    ∃ t ∈ (r.apply step).sections, t.number = s.number ∧
      t.history = s.history ++ (Deed.ofStep? k s step).toList := by
  have hmodify (i : Nat) (f : TrackedSection → TrackedSection) :
      (if i = k then f s else s) ∈ (r.modifySection i f).sections := by
    apply List.mem_of_getElem? (i := k)
    rw [modifySection, List.getElem?_modify, hk]
    split <;> rfl
  have hsame : ∃ t ∈ r.sections, t.number = s.number ∧ t.history = s.history ++ [] :=
    ⟨s, List.mem_of_getElem? hk, rfl, (List.append_nil _).symm⟩
  cases step with
  | addSymbol i name =>
    refine ⟨_, hmodify i _, ?_⟩
    by_cases hi : i = k <;> simp [Deed.ofStep?, hi, TrackedSection.addSymbol, Symbol.named]
  | addInstruction i instruction =>
    refine ⟨_, hmodify i _, ?_⟩
    by_cases hi : i = k
    · simp only [Deed.ofStep?, if_pos hi, List.getLast?_eq_getElem?]
      exact s.addInstructionTo_recorded _ instruction
    · simp [Deed.ofStep?, hi]
  | addInstructionTo i j instruction =>
    refine ⟨_, hmodify i _, ?_⟩
    by_cases hi : i = k
    · simp only [Deed.ofStep?, if_pos hi]
      exact s.addInstructionTo_recorded j instruction
    · simp [Deed.ofStep?, hi]
  | sortSymbols i =>
    refine ⟨_, hmodify i _, ?_⟩
    by_cases hi : i = k <;> simp [Deed.ofStep?, hi, TrackedSection.sortSymbols]
  | sort =>
    have hsorted : s.sortSymbols ∈ r.sections.map TrackedSection.sortSymbols :=
      List.mem_map_of_mem (List.mem_of_getElem? hk)
    exact ⟨_, r.perm_sort.mem_iff.mpr hsorted, rfl, rfl⟩
  | openSymbol i => exact hsame
  | tally => exact hsame
  | render target options => exact hsame

/-- The sections by name and number. -/
def roll (r : Register) : List (String × Nat) := r.sections.map fun s => (s.name, s.number)

theorem roll_ofListing (l : Listing) :
    (ofListing l).roll = (l.sections.map Section.name).zipIdx := by
  have hkey (entry : Section × Nat) :
      ((TrackedSection.ofSection entry.2 entry.1).name,
        (TrackedSection.ofSection entry.2 entry.1).number) = Prod.map Section.name id entry := by
    have h := TrackedSection.continues_foldl_addSymbol
      { number := entry.2, name := entry.1.name } entry.1.symbols
    exact Prod.ext h.name h.number
  simp only [roll, ofListing, List.map_map, Function.comp_def, hkey, List.zipIdx_map]

theorem perm_roll_apply (r : Register) (step : Listing.Step) :
    (r.apply step).roll.Perm r.roll := by
  obtain ⟨inner, hinner, hperm⟩ := r.exists_becomes step
  have hroll : r.roll = inner.map fun s => (s.name, s.number) :=
    map_eq_of_forall₂ hinner fun _ _ h => Prod.ext h.continues.name.symm h.continues.number.symm
  exact hroll ▸ hperm.map _

theorem perm_roll_after (r : Register) (steps : List Listing.Step) :
    (r.after steps).roll.Perm r.roll := by
  induction steps generalizing r with
  | nil => exact List.Perm.refl _
  | cons step rest ih => exact (ih (r.apply step)).trans (r.perm_roll_apply step)

end Register

/-! ### Counting -/

/-- What some steps add if they are carried out. -/
def Tally.added (steps : List Listing.Step) : Tally where
  sections := 0
  symbols := steps.countP Listing.Step.addsSymbol
  instructions := steps.countP Listing.Step.addsInstruction

theorem Tally.added_append (steps rest : List Listing.Step) :
    Tally.added (steps ++ rest) = Tally.added steps + Tally.added rest := by
  simp only [added, List.countP_append, Tally.add_def]

namespace Listing

variable {l l' : Listing} {step : Step} {answer : Answer} {before : List Step}

theorem Effect.tally_eq (h : Effect l step l' answer) :
    l'.tally = l.tally + Tally.added (if answer.isRefused then [] else [step]) := by
  cases h with
  | looks hlooks hanswer =>
    have hnone : step.addsSymbol = false ∧ step.addsInstruction = false := by
      cases step <;> simp_all [Step.looks, Step.addsSymbol, Step.addsInstruction]
    simp [hanswer, Tally.added, Tally.add_def, hnone]
  | rearranges hsorts hrearranges =>
    have hnone : step.addsSymbol = false ∧ step.addsInstruction = false := by
      cases step <;> simp_all [Step.sorts, Step.addsSymbol, Step.addsInstruction]
    simp [Answer.isRefused, Tally.added, Tally.add_def, hnone, hrearranges.tally_eq]
  | addsSymbol hsections =>
    simp +arith [Answer.isRefused, Tally.added, Tally.add_def, Step.addsSymbol,
      Step.addsInstruction, tally, symbols, instructions, hsections, Section.addSymbol,
      Symbol.named]
  | addsInstruction hsections hsymbols hstep =>
    have hadds : step.addsSymbol = false ∧ step.addsInstruction = true := by
      rcases hstep with rfl | ⟨-, rfl⟩ <;> exact ⟨rfl, rfl⟩
    simp +arith [Answer.isRefused, Tally.added, Tally.add_def, hadds, tally, symbols,
      instructions, hsections, hsymbols, Symbol.addInstruction]
  | refuses hsections hnone => simp [Answer.isRefused, Tally.added, Tally.add_def]

theorem tally_after {steps : List Step} (h : l.admits steps = true) :
    (l.after steps).tally = l.tally + Tally.added (l.carriedOut steps) := by
  induction steps using List.reverseRecOn with
  | nil => rfl
  | append_singleton steps step ih =>
    rw [admits_concat, Bool.and_eq_true] at h
    rw [after_concat, (effect_apply h.2).tally_eq, ih h.1, carriedOut_concat, Tally.added_append]
    simp only [Tally.add_def, Nat.add_assoc]

/-! ### A step of a run -/

/-- What holds after a step of a run that starts from the listing. -/
structure Conserves (l : Listing) (before : List Step) (step : Step) (l' : Listing)
    (answer : Answer) : Prop where
  listing : ((Register.ofListing l).after (before ++ [step])).listing = l'
  sections : ((Register.ofListing l).after (before ++ [step])).roll.Perm
    (l.sections.map Section.name).zipIdx
  faithful : ∀ s ∈ ((Register.ofListing l).after (before ++ [step])).sections, s.Faithful
  recorded : ∀ k s, ((Register.ofListing l).after before).sections[k]? = some s →
    ∃ t ∈ ((Register.ofListing l).after (before ++ [step])).sections,
      t.number = s.number ∧ t.history = s.history ++ (Deed.ofStep? k s step).toList
  lasting : ∀ earlier rest, before ++ [step] = earlier ++ rest →
    ∀ s ∈ ((Register.ofListing l).after earlier).sections,
      ∃ t ∈ ((Register.ofListing l).after (before ++ [step])).sections, s.Continues t ∧
        ∀ x ∈ s.symbols, ∃ y, x.Continues y ∧ ∀ z, z ∈ t.symbols ∧ z.number = x.number ↔ z = y
  rearranges : step.sorts = true → (l.after before).Rearranges l'
  looks : step.looks = true → l' = l.after before
  refused_iff : answer.isRefused = true ↔
    ∃ i instruction s, step = .addInstruction i instruction ∧
      (l.after before).sections[i]? = some s ∧ s.symbols = []
  refused : answer.isRefused = true → answer = .refused Fault.missingSymbol ∧ l' = l.after before
  tally : l'.tally = l.tally + Tally.added (l.carriedOut (before ++ [step]))

theorem conserves_apply (h : l.admits (before ++ [step]) = true) :
    l.Conserves before step ((l.after before).apply step).1 ((l.after before).apply step).2 := by
  have hfits : step.fits (l.after before) = true := by
    rw [admits_concat, Bool.and_eq_true] at h
    exact h.2
  refine
    { listing := ?_
      sections := ?_
      faithful := Register.faithful_after l _
      recorded := ?_
      lasting := ?_
      rearranges := rearranges_apply hfits
      looks := apply_of_looks
      refused_iff := isRefused_apply_iff hfits
      refused := ?_
      tally := ?_ }
  · rw [Register.listing_after, Register.listing_ofListing, after_concat]
  · exact Register.roll_ofListing l ▸ Register.perm_roll_after _ _
  · intro k s hk
    rw [Register.after_concat]
    exact Register.exists_recorded hk step
  · intro earlier rest hrun
    rw [hrun]
    exact Register.exists_lasting l earlier rest
  · intro hrefused
    rw [apply_of_isRefused hfits hrefused]
    exact ⟨rfl, rfl⟩
  · rw [← after_concat]
    exact tally_after h

/-! ### A run in which places change -/

namespace Moved

def first : Listing := ⟨"a.o", "elf", [⟨".text", []⟩, ⟨".init", []⟩]⟩

/-- A symbol is added twice, and an instruction before there is a symbol. -/
def building : List Step :=
  [.addInstruction 0 ⟨"nop", "", ""⟩, .addSymbol 0 "<f>", .addSymbol 0 " <f>", .addSymbol 0 "<e>",
    .addInstructionTo 0 1 ⟨"ret", "", ""⟩]

def built : Listing :=
  ⟨"a.o", "elf",
    [⟨".text", [⟨"<f>", []⟩, ⟨"<f>", [⟨"ret", "", ""⟩]⟩, ⟨"<e>", []⟩]⟩, ⟨".init", []⟩]⟩

def arranged : Listing :=
  ⟨"a.o", "elf",
    [⟨".init", []⟩, ⟨".text", [⟨"<e>", []⟩, ⟨"<f>", []⟩, ⟨"<f>", [⟨"ret", "", ""⟩]⟩]⟩]⟩

def last : Listing :=
  ⟨"a.o", "elf",
    [⟨".init", []⟩,
      ⟨".text", [⟨"<e>", []⟩, ⟨"<f>", []⟩, ⟨"<f>", [⟨"ret", "", ""⟩, ⟨"nop", "", ""⟩]⟩]⟩]⟩

theorem after_building : first.after building = built := by decide +kernel

theorem sort_built : built.sort = arranged := by
  have hsections : Text.nameLE ".text" ".init" = false := by decide +kernel
  have hsymbols : Text.nameLE "<f>" "<e>" = false := by decide +kernel
  simp [built, arranged, sort, Section.sortSymbols, List.mergeSort, Section.nameLE,
    Symbol.nameLE, Text.nameLE_self, hsections, hsymbols]

end Moved

theorem conserves_moved :
    Moved.first.admits ((Moved.building ++ [.sort]) ++ [.addInstruction 1 ⟨"nop", "", ""⟩]) = true ∧
      Moved.first.Conserves (Moved.building ++ [.sort]) (.addInstruction 1 ⟨"nop", "", ""⟩)
        Moved.last .done := by
  have hafter : Moved.first.after (Moved.building ++ [.sort]) = Moved.arranged := by
    rw [after_concat, Moved.after_building]
    exact Moved.sort_built
  have hadmits :
      Moved.first.admits ((Moved.building ++ [.sort]) ++ [.addInstruction 1 ⟨"nop", "", ""⟩]) =
        true := by
    rw [admits_concat, admits_concat, hafter]
    decide +kernel
  have hconserves := conserves_apply hadmits
  rw [hafter] at hconserves
  exact ⟨hadmits, hconserves⟩

end Listing
end CanonicalListing
