import CanonicalListing.Proofs.Conservation

/-!
# Which symbol is open

The open symbol of a section is found by its place, the last one. Adding a symbol puts it
there, so as long as nothing is sorted the open symbol is the one added last. Sorting puts
the greatest name there, and of that name the symbol added last, and this symbol stays open
until a symbol is added. So two things about a section matter: whether it has been sorted
since its last symbol was added, and that symbols of one name stand in the order of their
numbers, which sorting respects because it is stable.
-/

namespace CanonicalListing

/-- Two entries of one name stand in the order they had. -/
theorem Reorders.pair_sublist {α : Type} {name : α → String} {xs ys : List α} {x y : α}
    (h : Reorders name xs ys) (hpair : [x, y].Sublist ys) (hname : name x = name y) :
    [x, y].Sublist xs := by
  have hkept : [x, y].Sublist (ys.filter fun z => name z = name y) := by
    have hfiltered := hpair.filter fun z => decide (name z = name y)
    simpa [hname] using hfiltered
  rw [h.stable] at hkept
  exact hkept.trans List.filter_sublist

namespace Deed

def moves : Deed → Bool
  | .instructionAdded _ _ => false
  | _ => true

/-- No symbol was added after the section was sorted. -/
def endsSorted (history : List Deed) : Bool :=
  (history.filter moves).getLast? = some .sorted

theorem endsSorted_symbolAdded (history : List Deed) (number : Nat) (symbol : Symbol) :
    endsSorted (history ++ .symbolAdded symbol.name ::
      symbol.instructions.map (.instructionAdded number)) = false := by
  have hquiet : (symbol.instructions.map (instructionAdded number)).filter moves = [] := by
    simp [List.filter_map, Function.comp_def, moves]
  rw [endsSorted, List.filter_append, List.filter_cons_of_pos rfl, hquiet,
    List.getLast?_concat]
  rfl

theorem endsSorted_instructionAdded (history : List Deed) (number : Nat) (i : Instruction) :
    endsSorted (history ++ [.instructionAdded number i]) = endsSorted history := by
  simp [endsSorted, moves]

theorem endsSorted_sorted (history : List Deed) : endsSorted (history ++ [.sorted]) = true := by
  simp [endsSorted, moves]

end Deed

namespace TrackedSection

variable {s t : TrackedSection}

/-- How the symbols of a section stand. -/
structure InPlace (s : TrackedSection) : Prop extends s.Faithful where
  stable : s.symbols.Pairwise fun x y => x.name = y.name → x.number < y.number
  sorted : Deed.endsSorted s.history = true →
    s.symbols.Pairwise fun x y => Text.nameLE x.name y.name = true
  added : Deed.endsSorted s.history = false →
    ∀ x, s.symbols.getLast? = some x → x.number + 1 = s.symbols.length

theorem inPlace_new (number : Nat) (name : String) : InPlace { number, name } where
  toFaithful := faithful_new number name
  stable := .nil
  sorted := fun _ => .nil
  added := fun _ _ hx => nomatch hx

theorem InPlace.addSymbol (h : s.InPlace) (symbol : Symbol) : (s.addSymbol symbol).InPlace where
  toFaithful := h.toFaithful.addSymbol symbol
  stable := by
    refine List.pairwise_append.mpr ⟨h.stable, List.pairwise_singleton _ _, ?_⟩
    intro x hx y hy _
    obtain rfl := List.mem_singleton.mp hy
    exact h.number_lt hx
  sorted := by
    intro hsorted
    simp [TrackedSection.addSymbol, Deed.endsSorted_symbolAdded] at hsorted
  added := by
    intro _ x hx
    obtain rfl : ⟨s.symbols.length, symbol⟩ = x := by
      simpa [TrackedSection.addSymbol] using hx
    simp [TrackedSection.addSymbol]

theorem InPlace.addInstruction (h : s.InPlace) {before behind : List TrackedSymbol}
    {x : TrackedSymbol} (hsymbols : s.symbols = before ++ x :: behind) (i : Instruction) :
    InPlace
      { s with
        symbols := before ++ x.addInstruction i :: behind
        history := s.history ++ [.instructionAdded x.number i] } := by
  refine { toFaithful := h.toFaithful.addInstruction hsymbols i, stable := ?_, sorted := ?_,
           added := ?_ }
  all_goals
    simp only [h.symbols_addInstruction hsymbols, Deed.endsSorted_instructionAdded,
      List.pairwise_map, TrackedSymbol.name_receive, TrackedSymbol.number_receive]
  · exact h.stable
  · exact h.sorted
  · intro hsorted y hy
    rw [List.getLast?_map, Option.map_eq_some_iff] at hy
    obtain ⟨z, hz, rfl⟩ := hy
    rw [z.number_receive, List.length_map]
    exact h.added hsorted z hz

theorem InPlace.sortSymbols (h : s.InPlace) : s.sortSymbols.InPlace where
  toFaithful := h.toFaithful.sortSymbols
  stable := by
    rw [List.pairwise_iff_forall_sublist]
    intro x y hpair hname
    have hreorders := (stablySorts_mergeSort TrackedSymbol.name s.symbols).toReorders
    have hkept := hreorders.pair_sublist hpair hname
    exact List.pairwise_iff_forall_sublist.mp h.stable hkept hname
  sorted := fun _ => (stablySorts_mergeSort TrackedSymbol.name s.symbols).sorted
  added := by
    intro hsorted
    simp [TrackedSection.sortSymbols, Deed.endsSorted_sorted] at hsorted

theorem Becomes.inPlace (h : s.Becomes t) (hs : s.InPlace) : t.InPlace := by
  cases h with
  | same => exact hs
  | addsSymbol symbol => exact hs.addSymbol symbol
  | addsInstruction hsymbols i => exact hs.addInstruction hsymbols i
  | sorts => exact hs.sortSymbols

/-- Which symbol of a section is open, and when it is the one added last. -/
structure IsOpen (s : TrackedSection) (x : TrackedSymbol) : Prop where
  mem : x ∈ s.symbols
  added : Deed.endsSorted s.history = false → x.number + 1 = s.symbols.length
  sorted : Deed.endsSorted s.history = true → ∀ y ∈ s.symbols, y.number ≠ x.number →
    Text.nameLE y.name x.name = true ∧ (y.name = x.name → y.number < x.number)
  added_iff : x.number + 1 = s.symbols.length ↔
    (Deed.endsSorted s.history = true → ∀ z ∈ s.symbols, z.number + 1 = s.symbols.length →
      ∀ y ∈ s.symbols, Text.nameLE y.name z.name = true)

theorem Faithful.exists_last (h : s.Faithful) (hsymbols : s.symbols ≠ []) :
    ∃ z ∈ s.symbols, z.number + 1 = s.symbols.length := by
  have hlength : 0 < s.symbols.length := List.length_pos_iff.mpr hsymbols
  have hlast : s.symbols.length - 1 ∈ s.symbols.map TrackedSymbol.number :=
    h.perm_numbers.mem_iff.mpr (List.mem_range.mpr (Nat.sub_one_lt_of_lt hlength))
  obtain ⟨z, hz, hnumber⟩ := List.mem_map.mp hlast
  exact ⟨z, hz, by omega⟩

theorem InPlace.precedes_last (h : s.InPlace) (hends : Deed.endsSorted s.history = true)
    {x y : TrackedSymbol} (hx : s.symbols.getLast? = some x) (hy : y ∈ s.symbols)
    (hnumber : y.number ≠ x.number) :
    Text.nameLE y.name x.name = true ∧ (y.name = x.name → y.number < x.number) := by
  obtain ⟨before, hbefore⟩ := List.getLast?_eq_some_iff.mp hx
  have hnames := h.sorted hends
  have hnumbers := h.stable
  rw [hbefore, List.pairwise_append] at hnames hnumbers
  rw [hbefore, List.mem_append, List.mem_singleton] at hy
  have hybefore : y ∈ before := hy.resolve_right fun heq => hnumber (heq ▸ rfl)
  exact ⟨hnames.2.2 y hybefore x (by simp), hnumbers.2.2 y hybefore x (by simp)⟩

/-- Sorting leaves the symbol that was added last at the end if no other name is greater. -/
theorem InPlace.last_added_iff (h : s.InPlace) {x : TrackedSymbol}
    (hx : s.symbols.getLast? = some x) :
    x.number + 1 = s.symbols.length ↔
      (Deed.endsSorted s.history = true → ∀ z ∈ s.symbols, z.number + 1 = s.symbols.length →
        ∀ y ∈ s.symbols, Text.nameLE y.name z.name = true) := by
  have hmem : x ∈ s.symbols := List.mem_of_getLast? hx
  constructor
  · intro hlast hends z hz hzlast y hy
    obtain rfl : z = x := List.inj_on_of_nodup_map h.nodup_numbers hz hmem (by omega)
    by_cases hnumber : y.number = z.number
    · obtain rfl : y = z := List.inj_on_of_nodup_map h.nodup_numbers hy hz hnumber
      exact Text.nameLE_self y.name
    · exact (h.precedes_last hends hx hy hnumber).1
  · intro hgreatest
    cases hends : Deed.endsSorted s.history with
    | false => exact h.added hends x hx
    | true =>
      obtain ⟨z, hz, hzlast⟩ := h.exists_last (List.ne_nil_of_mem hmem)
      by_contra hlast
      -- The symbol that was added last stands before another one of the same name.
      have hnumber : z.number ≠ x.number := by omega
      obtain ⟨hle, hlt⟩ := h.precedes_last hends hx hz hnumber
      have hname := Text.nameLE_antisymm hle (hgreatest hends z hz hzlast x hmem)
      have hless := hlt hname
      have hbound := h.number_lt hmem
      omega

theorem InPlace.isOpen (h : s.InPlace) {x : TrackedSymbol} (hx : s.symbols.getLast? = some x) :
    s.IsOpen x where
  mem := List.mem_of_getLast? hx
  added := fun hends => h.added hends x hx
  sorted := fun hends _ hy hnumber => h.precedes_last hends hx hy hnumber
  added_iff := h.last_added_iff hx

end TrackedSection

theorem Register.inPlace_after (l : Listing) (steps : List Listing.Step) :
    ∀ s ∈ ((ofListing l).after steps).sections, s.InPlace :=
  forall_sections_after TrackedSection.inPlace_new (fun _ _ h hs => h.inPlace hs) l steps

namespace Listing

variable {l : Listing} {steps : List Step} {i : Nat} {s : TrackedSection}

theorem getElem?_sections_after
    (hget : ((Register.ofListing l).after steps).sections[i]? = some s) :
    (l.after steps).sections[i]? = some s.forget := by
  have hlisting := Register.listing_after (Register.ofListing l) steps
  rw [Register.listing_ofListing] at hlisting
  rw [← hlisting, Register.listing, List.getElem?_map, hget, Option.map_some]

/-- The open symbol of a section, at the end of a run; it and no other symbol gets the next
instruction for the section. -/
theorem exists_open_symbol (hget : ((Register.ofListing l).after steps).sections[i]? = some s)
    (hsymbols : s.symbols ≠ []) :
    ∃ x, s.IsOpen x ∧
      (l.after steps).sections[i]?.bind Section.openSymbol? = some x.symbol ∧
      ∀ instruction, (l.after steps).apply (.addInstruction i instruction) =
        ((l.after steps).modifySection i fun _ =>
          ⟨s.name, s.symbols.map fun y => (y.receive x.number instruction).symbol⟩, .done) := by
  have hinPlace : s.InPlace := Register.inPlace_after l steps s (List.mem_of_getElem? hget)
  obtain ⟨before, x, hlast⟩ := (List.eq_nil_or_concat' s.symbols).resolve_left hsymbols
  have hx : s.symbols.getLast? = some x := by rw [hlast, List.getLast?_concat]
  have hforget : s.forget.symbols = before.map TrackedSymbol.symbol ++ [x.symbol] := by
    simp [TrackedSection.forget, hlast]
  have hsection := getElem?_sections_after hget
  refine ⟨x, hinPlace.isOpen hx, ?_, fun instruction => ?_⟩
  · rw [hsection, Option.bind_some, Section.openSymbol?, hforget, List.getLast?_concat]
  · have hreceived := congrArg (List.map TrackedSymbol.symbol)
      (hinPlace.symbols_addInstruction hlast instruction)
    rw [List.map_append, List.map_cons, List.map_nil, List.map_map] at hreceived
    simp only [apply, addInstructionAt, hsection, Section.addInstruction_of_last hforget]
    exact congrArg (fun symbols => ((l.after steps).modifySection i fun _ => ⟨s.name, symbols⟩,
      Answer.done)) hreceived

/-! ### A symbol that is not open although it was added last -/

namespace Overtaken

def first : Listing := ⟨"a.o", "elf", [⟨".text", []⟩]⟩

def edits : List Step := [.addSymbol 0 "<b>", .addSymbol 0 "<a>", .sortSymbols 0]

def text : TrackedSection where
  number := 0
  name := ".text"
  symbols := [⟨1, ⟨"<a>", []⟩⟩, ⟨0, ⟨"<b>", []⟩⟩]
  history := [.symbolAdded "<b>", .symbolAdded "<a>", .sorted]

theorem sections_after : ((Register.ofListing first).after edits).sections = [text] := by
  have ha : Text.trim "<a>" = "<a>" := by decide +kernel
  have hb : Text.trim "<b>" = "<b>" := by decide +kernel
  have hle : Text.nameLE "<b>" "<a>" = false := by decide +kernel
  simp [first, edits, text, Register.ofListing, Register.after, Register.apply,
    Register.modifySection, TrackedSection.ofSection, TrackedSection.addSymbol,
    TrackedSection.sortSymbols, TrackedSymbol.name, Symbol.named, List.mergeSort, ha, hb, hle]

theorem section_after : ((Register.ofListing first).after edits).sections[0]? = some text := by
  rw [sections_after]
  rfl

end Overtaken

theorem exists_open_symbol_overtaken :
    ((Register.ofListing Overtaken.first).after Overtaken.edits).sections[0]? =
        some Overtaken.text ∧ Overtaken.text.symbols ≠ [] ∧
      ∃ x, Overtaken.text.IsOpen x ∧
        (Overtaken.first.after Overtaken.edits).sections[0]?.bind Section.openSymbol? =
          some x.symbol ∧
        ∀ instruction,
          (Overtaken.first.after Overtaken.edits).apply (.addInstruction 0 instruction) =
            ((Overtaken.first.after Overtaken.edits).modifySection 0 fun _ =>
              ⟨".text", Overtaken.text.symbols.map fun y =>
                (y.receive x.number instruction).symbol⟩, .done) :=
  ⟨Overtaken.section_after, List.cons_ne_nil _ _,
    exists_open_symbol Overtaken.section_after (List.cons_ne_nil _ _)⟩

/-- After sorting `<b>` is open, although `<a>` was added last. -/
theorem not_always_last_added_open :
    ¬ ∀ (l : Listing) (steps : List Step) (i : Nat) (s : TrackedSection) (x : TrackedSymbol),
      (∀ t ∈ l.sections, t.symbols = []) →
        ((Register.ofListing l).after steps).sections[i]? = some s → x ∈ s.symbols →
          x.number + 1 = s.symbols.length →
            (l.after steps).sections[i]?.bind Section.openSymbol? = some x.symbol := by
  intro h
  have hempty : ∀ t ∈ Overtaken.first.sections, t.symbols = [] := by decide
  have hopen := h Overtaken.first Overtaken.edits 0 Overtaken.text ⟨1, ⟨"<a>", []⟩⟩ hempty
    Overtaken.section_after List.mem_cons_self rfl
  rw [Listing.getElem?_sections_after Overtaken.section_after] at hopen
  exact absurd hopen (by decide)

end Listing
end CanonicalListing
