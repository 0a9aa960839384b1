import CanonicalListing.Proofs.FlatRendering

/-!
# Nested indentation

Every level of a rendering is indented by a pass over the whole text below it. If no name and
no part of an instruction holds a line feed, the passes meet the lines one by one: a line that
is empty stays empty at every level, and any other gets one margin a level. So the rendering can
also be written from the outside in, each line behind the margin of its level.
-/

namespace CanonicalListing

open Text

/-! ### Texts without line feeds -/

structure Instruction.Unbroken (i : Instruction) : Prop where
  opcode : '\n' ∉ i.opcode.toList
  operands : '\n' ∉ i.operands.toList
  comment : '\n' ∉ i.comment.toList

structure Symbol.Unbroken (s : Symbol) : Prop where
  name : '\n' ∉ s.name.toList
  instructions : ∀ i ∈ s.instructions, i.Unbroken

structure Section.Unbroken (s : Section) : Prop where
  name : '\n' ∉ s.name.toList
  symbols : ∀ symbol ∈ s.symbols, symbol.Unbroken

/-- No section of the listing holds a line feed; its file name and format are not rendered. -/
def Listing.Unbroken (l : Listing) : Prop := ∀ s ∈ l.sections, s.Unbroken

instance (i : Instruction) : Decidable i.Unbroken :=
  decidable_of_iff ('\n' ∉ i.opcode.toList ∧ '\n' ∉ i.operands.toList ∧ '\n' ∉ i.comment.toList)
    ⟨fun h => ⟨h.1, h.2.1, h.2.2⟩, fun h => ⟨h.opcode, h.operands, h.comment⟩⟩

instance (s : Symbol) : Decidable s.Unbroken :=
  decidable_of_iff ('\n' ∉ s.name.toList ∧ ∀ i ∈ s.instructions, i.Unbroken)
    ⟨fun h => ⟨h.1, h.2⟩, fun h => ⟨h.name, h.instructions⟩⟩

instance (s : Section) : Decidable s.Unbroken :=
  decidable_of_iff ('\n' ∉ s.name.toList ∧ ∀ symbol ∈ s.symbols, symbol.Unbroken)
    ⟨fun h => ⟨h.1, h.2⟩, fun h => ⟨h.name, h.symbols⟩⟩

instance (l : Listing) : Decidable l.Unbroken :=
  inferInstanceAs (Decidable (∀ s ∈ l.sections, s.Unbroken))

namespace Text

/-- The only line feed of the text is its last character. -/
def EndsOnce (text : String) : Prop := ∃ front : String, text = front ++ "\n" ∧ '\n' ∉ front.toList

theorem IsLine.endsOnce {text : String} (h : IsLine text) : EndsOnce text := by
  obtain ⟨front, htext, -, hline⟩ := h
  exact ⟨front, htext, hline⟩

theorem EndsOnce.isLine {text : String} (h : EndsOnce text) (hne : text ≠ "\n") : IsLine text := by
  obtain ⟨front, rfl, hline⟩ := h
  exact ⟨front, rfl, fun hempty => hne (by rw [hempty]; rfl), hline⟩

theorem EndsOnce.closed {text : String} (h : EndsOnce text) : Closed text := by
  obtain ⟨front, htext, -⟩ := h
  exact ⟨front, htext⟩

theorem EndsOnce.count {text : String} (h : EndsOnce text) : text.toList.count '\n' = 1 := by
  obtain ⟨front, rfl, hline⟩ := h
  simp [List.count_eq_zero_of_not_mem hline]

theorem count_join {lines : List String} (h : ∀ line ∈ lines, EndsOnce line) :
    (String.join lines).toList.count '\n' = lines.length := by
  induction lines with
  | nil => rfl
  | cons line lines ih =>
    obtain ⟨hline, hlines⟩ := List.forall_mem_cons.mp h
    rw [String.join_cons, String.toList_append, List.count_append, hline.count, ih hlines,
      List.length_cons, Nat.add_comm]

theorem closed_join {lines : List String} (hne : lines ≠ []) (h : ∀ line ∈ lines, Closed line) :
    Closed (String.join lines) := by
  obtain ⟨front, last, rfl⟩ := (List.eq_nil_or_concat' lines).resolve_left hne
  rw [String.join_append, String.join_cons, String.join_nil, String.append_empty]
  exact Closed.append _ (h last (by simp))

end Text

/-- Whatever is kept, the rendering ends with its only line feed. -/
theorem Instruction.Unbroken.endsOnce_render {i : Instruction} (h : i.Unbroken)
    (options : RenderOptions) : EndsOnce (i.render options) := by
  refine ⟨_, rfl, ?_⟩
  rw [String.toList_append, String.toList_append, List.mem_append, List.mem_append, not_or, not_or]
  exact ⟨⟨h.opcode, notMem_keptPart _ (by decide) h.operands⟩,
    notMem_keptPart _ (by decide) h.comment⟩

/-! ### The flat lines -/

/-- An instruction stands two levels deep, but a rendering that is empty up to its line feed
stays at the edge. -/
def Instruction.flatLine (i : Instruction) (options : RenderOptions) : String :=
  if i.render options = "\n" then "\n" else "        " ++ i.render options

def Symbol.flatLines (s : Symbol) (options : RenderOptions) : List String :=
  ("    " ++ heading s.name) :: s.instructions.map fun i => i.flatLine options

def Section.flatLines (s : Section) (options : RenderOptions) : List String :=
  heading s.name :: s.symbols.flatMap fun symbol => symbol.flatLines options

/-- The lines of a rendering in the order of the tree, with their line feeds. -/
def Listing.flatLines (l : Listing) (options : RenderOptions) : List String :=
  l.sections.flatMap fun s => s.flatLines options

theorem Instruction.Unbroken.indent_indent_render {i : Instruction} (h : i.Unbroken)
    (options : RenderOptions) : indent (indent (i.render options)) = i.flatLine options := by
  unfold flatLine
  split_ifs with hempty
  · rw [hempty]
    rfl
  · have hline := (h.endsOnce_render options).isLine hempty
    have hmargins : "    " ++ "    " = "        " := rfl
    rw [hline.indent.indent_eq, hline.indent_eq, ← String.append_assoc, hmargins]

theorem Symbol.Unbroken.map_indent_renderedLines {s : Symbol} (h : s.Unbroken)
    (options : RenderOptions) :
    ((s.renderedLines options).map fun line => indent line) = s.flatLines options := by
  have hinner : ((s.innerLines options).map fun line => indent line) =
      s.instructions.map fun i => i.flatLine options := by
    rw [innerLines, List.map_map]
    exact List.map_congr_left fun i hi => (h.instructions i hi).indent_indent_render options
  rw [renderedLines, List.map_cons, (isLine_heading h.name).indent_eq, hinner, flatLines]

theorem Section.Unbroken.renderedLines_eq {s : Section} (h : s.Unbroken)
    (options : RenderOptions) : s.renderedLines options = s.flatLines options := by
  have hinner : s.innerLines options = s.symbols.flatMap fun symbol => symbol.flatLines options :=
    List.flatMap_congr fun symbol hsymbol =>
      (h.symbols symbol hsymbol).map_indent_renderedLines options
  rw [renderedLines, hinner, flatLines]

theorem Listing.Unbroken.renderedLines_eq {l : Listing} (h : l.Unbroken)
    (options : RenderOptions) : l.renderedLines options = l.flatLines options :=
  List.flatMap_congr fun s hs => (h s hs).renderedLines_eq options

/-! ### How many lines there are -/

theorem Instruction.Unbroken.endsOnce_flatLine {i : Instruction} (h : i.Unbroken)
    (options : RenderOptions) : EndsOnce (i.flatLine options) := by
  rw [← h.indent_indent_render]
  by_cases hempty : i.render options = "\n"
  · rw [hempty]
    exact ⟨"", rfl, by simp⟩
  · exact ((h.endsOnce_render options).isLine hempty).indent.indent.endsOnce

theorem Symbol.Unbroken.endsOnce_of_mem {s : Symbol} (h : s.Unbroken) (options : RenderOptions) :
    ∀ line ∈ s.flatLines options, EndsOnce line := by
  intro line hline
  rcases List.mem_cons.mp hline with rfl | hline
  · have hheading := isLine_heading h.name
    rw [← hheading.indent_eq]
    exact hheading.indent.endsOnce
  · obtain ⟨i, hi, rfl⟩ := List.mem_map.mp hline
    exact (h.instructions i hi).endsOnce_flatLine options

theorem Listing.Unbroken.endsOnce_of_mem {l : Listing} (h : l.Unbroken) (options : RenderOptions) :
    ∀ line ∈ l.flatLines options, EndsOnce line := by
  intro line hline
  obtain ⟨s, hs, hline⟩ := List.mem_flatMap.mp hline
  rcases List.mem_cons.mp hline with rfl | hline
  · exact (isLine_heading (h s hs).name).endsOnce
  · obtain ⟨symbol, hsymbol, hline⟩ := List.mem_flatMap.mp hline
    exact ((h s hs).symbols symbol hsymbol).endsOnce_of_mem options line hline

/-- A line for every section, every symbol and every instruction. -/
theorem Listing.length_flatLines (l : Listing) (options : RenderOptions) :
    (l.flatLines options).length = l.tally.sections + l.tally.symbols + l.tally.instructions := by
  have hinstructions : l.symbols.flatMap (fun symbol =>
      symbol.instructions.map fun i => i.flatLine options) =
        l.instructions.map fun i => i.flatLine options := List.map_flatMap.symm
  have hsymbols : (l.sections.flatMap fun s => s.symbols.flatMap fun symbol =>
      symbol.flatLines options) = l.symbols.flatMap fun symbol => symbol.flatLines options :=
    List.flatMap_assoc.symm
  have hsections := length_flatMap_cons (fun s : Section => heading s.name)
    (fun s => s.symbols.flatMap fun symbol => symbol.flatLines options) l.sections
  have hbelow := length_flatMap_cons (fun symbol : Symbol => "    " ++ heading symbol.name)
    (fun symbol => symbol.instructions.map fun i => i.flatLine options) l.symbols
  rw [hsymbols] at hsections
  rw [hinstructions, List.length_map] at hbelow
  exact hsections.trans (by rw [Nat.add_assoc]; exact congrArg _ hbelow)

theorem Listing.flatLines_eq_nil_iff {l : Listing} {options : RenderOptions} :
    l.flatLines options = [] ↔ l.sections = [] := by
  rw [flatLines, List.flatMap_eq_nil_iff, List.eq_nil_iff_forall_not_mem]
  exact forall₂_congr fun s _ => iff_of_false (List.cons_ne_nil _ _) not_false

/-- A rendering of texts without line feeds is the list of its flat lines. It has a line feed for
each of them, and it ends with one unless there is no section. -/
theorem render_eq_join_flatLines {l : Listing} (h : l.Unbroken) (options : RenderOptions) :
    l.render options = String.join (l.flatLines options) ∧
      (l.render options).toList.count '\n' =
        l.tally.sections + l.tally.symbols + l.tally.instructions ∧
      (Closed (l.render options) ↔ l.sections ≠ []) := by
  have hflat : l.render options = String.join (l.flatLines options) := by
    rw [Listing.render_eq_join, h.renderedLines_eq]
  have hends := h.endsOnce_of_mem options
  refine ⟨hflat, ?_, ?_⟩
  · rw [hflat, count_join hends, l.length_flatLines]
  · have hnil : l.flatLines options = [] ↔ l.sections = [] := Listing.flatLines_eq_nil_iff
    rw [hflat, ne_eq, ← hnil]
    constructor
    · rintro ⟨front, hfront⟩ hnil
      rw [hnil] at hfront
      simp at hfront
    · exact fun hne => closed_join hne fun line hline => (hends line hline).closed

/-! ### A listing without names -/

namespace Nameless

/-- The first instruction has no part at all, and the second one only operands. -/
def instructions : List Instruction := [⟨"", "", ""⟩, ⟨"", "%rax", ""⟩, ⟨"ret", "", "# 8"⟩]

def listing : Listing := ⟨"", "", [⟨"", [⟨"", instructions⟩, ⟨"<f>", []⟩]⟩, ⟨".data", []⟩]⟩

theorem unbroken_listing : listing.Unbroken := by decide

end Nameless

theorem render_eq_join_flatLines_nameless :
    Nameless.listing.Unbroken ∧
      Nameless.listing.render { operands := true } =
        ":\n    :\n\n         %rax\n        ret\n    <f>:\n.data:\n" ∧
      (Nameless.listing.render { operands := true }).toList.count '\n' = 7 ∧
      Closed (Nameless.listing.render { operands := true }) := by
  obtain ⟨hflat, hcount, hclosed⟩ :=
    render_eq_join_flatLines Nameless.unbroken_listing { operands := true }
  exact ⟨Nameless.unbroken_listing, hflat.trans (by decide), hcount, hclosed.mpr (by decide)⟩

end CanonicalListing
