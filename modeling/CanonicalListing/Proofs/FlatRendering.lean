import CanonicalListing.Listing.Render
import CanonicalListing.Proofs.LineBreaks

/-!
# Flat rendering

Blocks are indented inside out, each level by a pass over the whole text below it. Since
every rendered entry ends with a line feed, a pass over joined entries is a pass over each
of them. So a rendering is a flat list of lines: a heading for every section, one level
deeper a heading for every symbol, and two levels deeper the instructions.
-/

namespace CanonicalListing
namespace Text

/-- A line feed stays where it is, and separates what is indented. -/
theorem indentChars_append_newline (margin xs ys : List Char) :
    indentChars margin (xs ++ '\n' :: ys) =
      indentChars margin xs ++ '\n' :: indentChars margin ys := by
  have hne : ∀ cs : List Char, (cs.splitOn '\n').map (indentPiece margin) ≠ [] := by
    intro cs
    simp
  rw [indentChars, List.splitOn_append_cons_self, List.map_append,
    intercalate_append (hne xs) (hne ys)]
  simp [indentChars]

/-- A text that ends with a line feed. -/
def Closed (text : String) : Prop := ∃ front : String, text = front ++ "\n"

theorem Closed.append (a : String) {b : String} (hb : Closed b) : Closed (a ++ b) := by
  obtain ⟨front, rfl⟩ := hb
  exact ⟨a ++ front, String.append_assoc.symm⟩

@[simp] theorem indent_empty : indent "" = "" := rfl

theorem indent_append_newline (front text : String) :
    indent (front ++ "\n" ++ text) = indent front ++ "\n" ++ indent text := by
  rw [← String.toList_inj]
  have hchars := indentChars_append_newline "    ".toList front.toList text.toList
  simpa using hchars

theorem indent_newline (front : String) : indent (front ++ "\n") = indent front ++ "\n" := by
  have hfront := indent_append_newline front ""
  rwa [String.append_empty, indent_empty, String.append_empty] at hfront

theorem Closed.indent_append {a : String} (ha : Closed a) (b : String) :
    indent (a ++ b) = indent a ++ indent b := by
  obtain ⟨front, rfl⟩ := ha
  rw [indent_append_newline, indent_newline]

theorem Closed.indent {text : String} (h : Closed text) : Closed (indent text) := by
  obtain ⟨front, rfl⟩ := h
  exact ⟨_, indent_newline front⟩

theorem indent_join {parts : List String} (h : ∀ part ∈ parts, Closed part) :
    Text.indent (String.join parts) = String.join (parts.map fun part => Text.indent part) := by
  induction parts with
  | nil => rfl
  | cons part parts ih =>
    obtain ⟨hpart, hparts⟩ := List.forall_mem_cons.mp h
    rw [String.join_cons, hpart.indent_append, ih hparts, List.map_cons, String.join_cons]

/-- A single line that is not empty, with its line feed. -/
def IsLine (text : String) : Prop :=
  ∃ front : String, text = front ++ "\n" ∧ front ≠ "" ∧ '\n' ∉ front.toList

theorem IsLine.indent_eq {text : String} (h : IsLine text) : Text.indent text = "    " ++ text := by
  obtain ⟨front, rfl, hne, hline⟩ := h
  have hfront : Text.indent front = "    " ++ front := by
    rw [← String.toList_inj, toList_indent, indentChars, List.splitOn_eq_singleton hline]
    simp [indentPiece, hne]
  rw [indent_newline, hfront, String.append_assoc]

theorem IsLine.indent {text : String} (h : IsLine text) : IsLine (Text.indent text) := by
  have heq := h.indent_eq
  obtain ⟨front, rfl, hne, hline⟩ := h
  refine ⟨"    " ++ front, heq.trans String.append_assoc.symm, by simp, ?_⟩
  rw [String.toList_append, List.mem_append, not_or]
  exact ⟨by decide, hline⟩

theorem IsLine.indent_inj {text text' : String} (h : IsLine text) (h' : IsLine text')
    (heq : Text.indent text = Text.indent text') : text = text' := by
  rw [h.indent_eq, h'.indent_eq] at heq
  exact String.append_right_inj _ |>.mp heq

theorem map_indent_inj {texts texts' : List String} (h : ∀ text ∈ texts, IsLine text)
    (h' : ∀ text ∈ texts', IsLine text)
    (heq : (texts.map fun text => indent text) = texts'.map fun text => indent text) :
    texts = texts' := by
  rw [List.map_congr_left fun text htext => (h text htext).indent_eq,
    List.map_congr_left fun text htext => (h' text htext).indent_eq] at heq
  apply List.map_injective_iff.mpr _ heq
  exact fun text text' => (String.append_right_inj _).mp

/-- A text is cut into its lines in one way. -/
theorem join_inj {texts texts' : List String} (h : ∀ text ∈ texts, IsLine text)
    (h' : ∀ text ∈ texts', IsLine text) (heq : String.join texts = String.join texts') :
    texts = texts' := by
  have hcut : ∀ {front : String} (texts : List String), '\n' ∉ front.toList →
      (String.join ((front ++ "\n") :: texts)).toList.span (· ≠ '\n') =
        (front.toList, '\n' :: (String.join texts).toList) := by
    intro front texts hline
    have hlist : (String.join ((front ++ "\n") :: texts)).toList =
        front.toList ++ '\n' :: (String.join texts).toList := by
      simp
    rw [hlist, span_ne_append hline]
  have hne : ∀ {front : String} (texts : List String),
      String.join ((front ++ "\n") :: texts) ≠ "" := by
    simp
  induction texts generalizing texts' with
  | nil =>
    cases texts' with
    | nil => rfl
    | cons text' texts' =>
      obtain ⟨front', rfl, -⟩ := h' _ List.mem_cons_self
      exact absurd heq.symm (hne texts')
  | cons text texts ih =>
    obtain ⟨htext, htexts⟩ := List.forall_mem_cons.mp h
    obtain ⟨front, rfl, -, hline⟩ := htext
    cases texts' with
    | nil => exact absurd heq (hne texts)
    | cons text' texts' =>
      obtain ⟨htext', htexts'⟩ := List.forall_mem_cons.mp h'
      obtain ⟨front', rfl, -, hline'⟩ := htext'
      have hspan := hcut texts hline
      rw [heq, hcut texts' hline'] at hspan
      obtain ⟨hfront, hrest⟩ := Prod.mk.inj hspan
      obtain rfl := String.toList_inj.mp hfront
      have hjoin := String.toList_inj.mp (List.cons.inj hrest).2
      rw [ih htexts htexts' hjoin.symm]

end Text

open Text

theorem join_flatMap {α : Type} (f : α → List String) (xs : List α) :
    String.join (xs.flatMap f) = String.join (xs.map fun x => String.join (f x)) := by
  induction xs with
  | nil => rfl
  | cons x xs ih => rw [List.flatMap_cons, String.join_append, ih, List.map_cons, String.join_cons]

def heading (name : String) : String := name ++ ":\n"

theorem closed_heading (name : String) : Closed (heading name) :=
  Closed.append name ⟨":", rfl⟩

theorem isLine_heading {name : String} (h : '\n' ∉ name.toList) : IsLine (heading name) := by
  refine ⟨name ++ ":", by rw [heading, String.append_assoc]; rfl, by simp, ?_⟩
  simp [h]

/-- A block is its heading and its entries, each indented. -/
theorem renderBlock_eq_join (name : String) {entries : List String}
    (h : ∀ entry ∈ entries, Closed entry) : renderBlock name entries =
      String.join (heading name :: entries.map fun entry => indent entry) := by
  rw [renderBlock, indent_join h, String.join_cons, heading]

/-- A kept part holds only what its lead and its text hold. -/
theorem Instruction.notMem_keptPart {c : Char} {lead part : String} (keep : Bool)
    (hlead : c ∉ lead.toList) (hpart : c ∉ part.toList) :
    c ∉ (keptPart keep lead part).toList := by
  unfold keptPart
  split_ifs
  · rw [String.toList_append, List.mem_append, not_or]
    exact ⟨hlead, hpart⟩
  · exact List.not_mem_nil

theorem Instruction.closed_render (i : Instruction) (options : RenderOptions) :
    Closed (i.render options) :=
  ⟨_, rfl⟩

/-- The lines of a symbol below its heading, with their line feeds. -/
def Symbol.innerLines (s : Symbol) (options : RenderOptions) : List String :=
  s.instructions.map fun i => indent (i.render options)

def Symbol.renderedLines (s : Symbol) (options : RenderOptions) : List String :=
  heading s.name :: s.innerLines options

/-- The lines of a section below its heading. -/
def Section.innerLines (s : Section) (options : RenderOptions) : List String :=
  s.symbols.flatMap fun symbol => (symbol.renderedLines options).map fun line => indent line

def Section.renderedLines (s : Section) (options : RenderOptions) : List String :=
  heading s.name :: s.innerLines options

def Listing.renderedLines (l : Listing) (options : RenderOptions) : List String :=
  l.sections.flatMap fun s => s.renderedLines options

theorem Symbol.closed_of_mem_renderedLines {s : Symbol} {options : RenderOptions} :
    ∀ line ∈ s.renderedLines options, Closed line := by
  intro line hline
  rcases List.mem_cons.mp hline with rfl | hline
  · exact closed_heading s.name
  · obtain ⟨i, -, rfl⟩ := List.mem_map.mp hline
    exact (i.closed_render options).indent

theorem Symbol.render_eq_join (s : Symbol) (options : RenderOptions) :
    s.render options = String.join (s.renderedLines options) := by
  rw [render, renderBlock_eq_join s.name, renderedLines, innerLines, List.map_map,
    Function.comp_def]
  intro entry hentry
  obtain ⟨i, -, rfl⟩ := List.mem_map.mp hentry
  exact i.closed_render options

theorem Section.render_eq_join (s : Section) (options : RenderOptions) :
    s.render options = String.join (s.renderedLines options) := by
  have hsymbols : String.join (s.symbols.map fun symbol => symbol.render options) =
      String.join (s.symbols.flatMap fun symbol => symbol.renderedLines options) := by
    simp only [Symbol.render_eq_join, join_flatMap]
  have hclosed : ∀ line ∈ s.symbols.flatMap (fun symbol => symbol.renderedLines options),
      Closed line := by
    intro line hline
    obtain ⟨symbol, -, hmem⟩ := List.mem_flatMap.mp hline
    exact Symbol.closed_of_mem_renderedLines line hmem
  rw [render, renderBlock, hsymbols, indent_join hclosed, renderedLines, innerLines,
    String.join_cons, heading, List.map_flatMap]

/-- A rendering is the flat list of its lines. -/
theorem Listing.render_eq_join (l : Listing) (options : RenderOptions) :
    l.render options = String.join (l.renderedLines options) := by
  rw [render, renderedLines, join_flatMap]
  simp only [Section.render_eq_join]

end CanonicalListing
