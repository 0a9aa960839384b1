import CanonicalListing.Proofs.Blocks
import CanonicalListing.Proofs.LineBreaks
import CanonicalListing.Proofs.WellFormed

/-!
# Printing and reading back

A listing is printed with its header, a marker for every section and symbol, and a line
for every instruction. What is printed is read back, sorted, exactly if the listing is
well-formed, and the listings that can be read from texts at all are those that are
well-formed and sorted.
-/

namespace CanonicalListing

open Text

/-! ### Printing -/

def Symbol.printLines (s : Symbol) : List String :=
  s.markerLine :: s.instructions.map Instruction.print

def Section.printLines (s : Section) : List String :=
  s.markerLine :: s.symbols.flatMap Symbol.printLines

def Listing.printLines (l : Listing) : List String :=
  l.headerLine :: l.sections.flatMap Section.printLines

def Listing.print (l : Listing) : String := "\n".intercalate l.printLines

theorem Symbol.WellFormed.exists_block {s : Symbol} (h : s.WellFormed) :
    ∃ b : SymbolBlock, b.lines = s.printLines ∧ b.toSymbol = s := by
  obtain ⟨entries, htexts, hvalues⟩ : ∃ entries : List InstructionEntry,
      entries.map InstructionEntry.text = s.instructions.map Instruction.print ∧
        entries.map InstructionEntry.instruction = s.instructions := by
    apply exists_map_eq
    intro i hi
    exact ⟨⟨i.print, i, (h.instructions i hi).instructionLine⟩, rfl, rfl⟩
  refine ⟨⟨s.markerLine, s.name, h.marks, entries⟩, ?_, ?_⟩
  · rw [SymbolBlock.lines, htexts, printLines]
  · rw [SymbolBlock.toSymbol, hvalues]

theorem Section.WellFormed.exists_block {s : Section} (h : s.WellFormed) :
    ∃ b : SectionBlock, b.lines = s.printLines ∧ b.toSection = s := by
  obtain ⟨symbols, htexts, hvalues⟩ :=
    exists_map_eq SymbolBlock.lines SymbolBlock.toSymbol Symbol.printLines
      fun symbol hsymbol => (h.symbols symbol hsymbol).exists_block
  refine ⟨⟨s.markerLine, s.name, h.marks, symbols⟩, ?_, ?_⟩
  · rw [SectionBlock.lines, List.flatMap_def, htexts, ← List.flatMap_def, printLines]
  · rw [SectionBlock.toSection, hvalues]

theorem Listing.WellFormed.exists_source {l : Listing} (h : l.WellFormed) :
    ∃ source : SourceTree, source.lines = l.printLines ∧ source.toListing = l := by
  obtain ⟨sections, htexts, hvalues⟩ :=
    exists_map_eq SectionBlock.lines SectionBlock.toSection Section.printLines
      fun s hs => (h.sections s hs).exists_block
  refine ⟨⟨l.headerLine, ⟨l.fileName, l.fileFormat⟩, h.states, sections⟩, ?_, ?_⟩
  · rw [SourceTree.lines, List.flatMap_def, htexts, ← List.flatMap_def, printLines]
  · rw [SourceTree.toListing, hvalues]

theorem Instruction.WellFormed.oneLine_print {i : Instruction} (h : i.WellFormed) :
    OneLine i.print := by
  have hhash : OneLine ("\t" ++ i.opcode ++ keptPart true " " i.operands ++ " #") :=
    OneLine.append h.newline_notMem_code ⟨by decide, [' '], '#', rfl, by decide⟩
  by_cases hcomment : i.comment = ""
  · rwa [print, hcomment, keptPart_empty, String.append_empty]
  · have hlast := OneLine.of_trimmed hcomment h.commentTrimmed h.commentLine
    rw [print, keptPart_of_ne hcomment]
    exact OneLine.append hhash.newline (OneLine.append (by decide) hlast)

theorem Symbol.WellFormed.oneLine_printLines {s : Symbol} (h : s.WellFormed) :
    ∀ line ∈ s.printLines, OneLine line := by
  intro line hline
  rcases List.mem_cons.mp hline with rfl | hline
  · have hname : '\n' ∉ s.name.toList := fun hmem => absurd (h.oneLine _ hmem) (by decide)
    exact OneLine.append hname ⟨by decide, [], ':', rfl, by decide⟩
  · obtain ⟨i, hi, rfl⟩ := List.mem_map.mp hline
    exact (h.instructions i hi).oneLine_print

theorem Section.WellFormed.oneLine_printLines {s : Section} (h : s.WellFormed) :
    ∀ line ∈ s.printLines, OneLine line := by
  intro line hline
  rcases List.mem_cons.mp hline with rfl | hline
  · have hname : '\n' ∉ s.name.toList := fun hmem => absurd (h.chars _ hmem) (by decide)
    have hfront : '\n' ∉ ("Disassembly of section " ++ s.name).toList := by
      rw [String.toList_append, List.mem_append, not_or]
      exact ⟨by decide, hname⟩
    exact OneLine.append hfront ⟨by decide, [], ':', rfl, by decide⟩
  · obtain ⟨symbol, hsymbol, hmem⟩ := List.mem_flatMap.mp hline
    exact (h.symbols symbol hsymbol).oneLine_printLines line hmem

/-- Every printed line stays one line. -/
theorem Listing.WellFormed.oneLine_printLines {l : Listing} (h : l.WellFormed) :
    ∀ line ∈ l.printLines, OneLine line := by
  intro line hline
  rcases List.mem_cons.mp hline with rfl | hline
  · have hfront : '\n' ∉ (l.fileName ++ ": file format ").toList := by
      rw [String.toList_append, List.mem_append, not_or]
      exact ⟨h.nameLine, by decide⟩
    exact OneLine.append hfront (OneLine.of_trimmed h.formatNonempty h.formatTrimmed h.formatLine)
  · obtain ⟨s, hs, hmem⟩ := List.mem_flatMap.mp hline
    exact (h.sections s hs).oneLine_printLines line hmem

/-- A well-formed listing is read back in order. -/
theorem Listing.WellFormed.exists_read {l : Listing} (h : l.WellFormed) :
    ∃ l', (Listing.read l.print).outcome = .ok l' ∧ l.Arranges l' := by
  obtain ⟨source, hlines, rfl⟩ := h.exists_source
  have hcut : lines source.toListing.print = source.toListing.printLines :=
    lines_intercalate (List.cons_ne_nil _ _) h.oneLine_printLines
  have hkept : keptLines source.toListing.printLines = source.toListing.printLines :=
    keptLines_eq_self fun line hline => (h.oneLine_printLines line hline).not_isBlank
  refine ⟨source.toListing.sort, ?_, Listing.arranges_iff.mpr rfl⟩
  rw [Listing.read, hcut, readLines_eq_ok_iff_blocks]
  exact ⟨source, by rw [hlines, hkept], Listing.arranges_iff.mpr rfl⟩

/-! ### What can be read -/

theorem SymbolBlock.wellFormed (b : SymbolBlock) (h : ∀ line ∈ b.lines, '\n' ∉ line.toList) :
    b.toSymbol.WellFormed := by
  apply Symbol.WellFormed.of_marks b.marks
  intro i hi
  obtain ⟨entry, hentry, rfl⟩ := List.mem_map.mp hi
  refine Instruction.wellFormed_of_instructionLine entry.reads (h _ ?_)
  exact List.mem_cons_of_mem _ (List.mem_map_of_mem hentry)

theorem SectionBlock.wellFormed (b : SectionBlock) (h : ∀ line ∈ b.lines, '\n' ∉ line.toList) :
    b.toSection.WellFormed := by
  apply Section.WellFormed.of_marks b.marks
  intro symbol hsymbol
  obtain ⟨block, hblock, rfl⟩ := List.mem_map.mp hsymbol
  apply block.wellFormed
  intro line hline
  apply h
  exact List.mem_cons_of_mem _ (List.mem_flatMap.mpr ⟨block, hblock, hline⟩)

theorem SourceTree.wellFormed (t : SourceTree) (h : ∀ line ∈ t.lines, '\n' ∉ line.toList) :
    t.toListing.WellFormed := by
  apply Listing.WellFormed.of_states t.states (h _ List.mem_cons_self)
  intro s hs
  obtain ⟨block, hblock, rfl⟩ := List.mem_map.mp hs
  apply block.wellFormed
  intro line hline
  apply h
  exact List.mem_cons_of_mem _ (List.mem_flatMap.mpr ⟨block, hblock, hline⟩)

theorem Section.wellFormed_sortSymbols_iff {s : Section} :
    s.sortSymbols.WellFormed ↔ s.WellFormed := by
  constructor
  · intro h
    refine ⟨h.nonempty, h.chars, ?_⟩
    exact fun symbol hmem => h.symbols symbol (s.perm_sortSymbols.mem_iff.mpr hmem)
  · intro h
    refine ⟨h.nonempty, h.chars, ?_⟩
    exact fun symbol hmem => h.symbols symbol (s.perm_sortSymbols.mem_iff.mp hmem)

/-- Order is no part of well-formedness. -/
theorem Listing.wellFormed_sort_iff {l : Listing} : l.sort.WellFormed ↔ l.WellFormed := by
  have hsections : (∀ s ∈ l.sort.sections, s.WellFormed) ↔ ∀ s ∈ l.sections, s.WellFormed := by
    simp only [l.perm_sort.mem_iff, List.forall_mem_map, Section.wellFormed_sortSymbols_iff]
  constructor
  · intro h
    exact { h with sections := hsections.mp h.sections }
  · intro h
    exact { h with sections := hsections.mpr h.sections }

theorem Listing.wellFormed_of_read {text : String} {l : Listing}
    (h : (Listing.read text).outcome = .ok l) : l.WellFormed := by
  obtain ⟨source, hlines, harranges⟩ := readLines_eq_ok_iff_blocks.mp h
  rw [Listing.arranges_iff.mp harranges, wellFormed_sort_iff]
  apply source.wellFormed
  intro line hline
  rw [hlines] at hline
  exact newline_notMem_of_mem_lines (List.mem_filter.mp hline).1

/-- A listing is read back from its print exactly if it is well-formed, and the listings that are
read from some text are the well-formed ones in order. -/
theorem read_print_iff_wellFormed :
    (∀ l : Listing,
      (∃ l', (Listing.read l.print).outcome = .ok l' ∧ l.Arranges l') ↔ l.WellFormed) ∧
    ∀ l : Listing,
      (∃ text, (Listing.read text).outcome = .ok l) ↔ l.WellFormed ∧ l.Arranges l := by
  constructor
  · intro l
    constructor
    · rintro ⟨l', hread, harranges⟩
      rw [← Listing.wellFormed_sort_iff, ← Listing.arranges_iff.mp harranges]
      exact Listing.wellFormed_of_read hread
    · exact Listing.WellFormed.exists_read
  · intro l
    constructor
    · rintro ⟨text, hread⟩
      obtain ⟨source, -, harranges⟩ := readLines_eq_ok_iff_blocks.mp hread
      exact ⟨Listing.wellFormed_of_read hread, harranges.self⟩
    · rintro ⟨hl, hself⟩
      obtain ⟨l', hread, harranges⟩ := hl.exists_read
      have heq : l' = l :=
        (Listing.arranges_iff.mp harranges).trans (Listing.arranges_iff.mp hself).symm
      subst heq
      exact ⟨_, hread⟩

example : Listing.print ⟨"a.o", "elf", [⟨".text", [⟨"<f>", [⟨"rep stos", "", "# 8"⟩,
    ⟨"jmp", "*>:", ""⟩]⟩]⟩, ⟨".init", []⟩]⟩ =
      "a.o: file format elf\nDisassembly of section .text:\n<f>:\n\trep stos # # 8\n" ++
        "\tjmp *>: #\nDisassembly of section .init:" := by
  decide

end CanonicalListing
