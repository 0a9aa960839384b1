import CanonicalListing.Proofs.Numbering
import CanonicalListing.Proofs.StableOrder

/-!
# Listings cut into blocks

The kept lines of a listing are its header and its section blocks; a section block is a
section marker and its symbol blocks, a symbol block a symbol marker and its instruction
lines. Since a line has one kind, a block ends right before the next marker of its rank.
Reading accepts exactly the listings that are cut like this, and returns the tree of the
blocks in the stable order by name.
-/

namespace CanonicalListing

/-- An instruction line, with its reading. -/
structure InstructionEntry where
  text : String
  instruction : Instruction
  reads : InstructionLine text instruction

/-- A symbol marker and the lines up to the next marker. -/
structure SymbolBlock where
  marker : String
  name : String
  marks : SymbolMarker marker name
  entries : List InstructionEntry

/-- A section marker and the blocks up to the next section marker. -/
structure SectionBlock where
  marker : String
  name : String
  marks : SectionMarker marker name
  symbols : List SymbolBlock

/-- A listing in source order. -/
structure SourceTree where
  headerLine : String
  header : Header
  states : HeaderLine headerLine header
  sections : List SectionBlock

namespace SymbolBlock

def lines (b : SymbolBlock) : List String := b.marker :: b.entries.map InstructionEntry.text

def toSymbol (b : SymbolBlock) : Symbol :=
  ⟨b.name, b.entries.map InstructionEntry.instruction⟩

end SymbolBlock

namespace SectionBlock

def lines (b : SectionBlock) : List String := b.marker :: b.symbols.flatMap SymbolBlock.lines

def toSection (b : SectionBlock) : Section := ⟨b.name, b.symbols.map SymbolBlock.toSymbol⟩

end SectionBlock

namespace SourceTree

def lines (t : SourceTree) : List String := t.headerLine :: t.sections.flatMap SectionBlock.lines

def toListing (t : SourceTree) : Listing :=
  ⟨t.header.fileName, t.header.fileFormat, t.sections.map SectionBlock.toSection⟩

end SourceTree

/-! ### There is one way to cut -/

/-- Blocks that open with a marker and hold no other marker are determined by their lines. -/
theorem flatMap_marked_inj {β : Type} {marker : β → String} {inner : β → List String}
    {p : String → Bool} (hmarker : ∀ b, p (marker b) = true)
    (hinner : ∀ b, ∀ text ∈ inner b, p text = false)
    (hinj : ∀ b b', marker b = marker b' → inner b = inner b' → b = b') {bs bs' : List β}
    (h : (bs.flatMap fun b => marker b :: inner b) = bs'.flatMap fun b => marker b :: inner b) :
    bs = bs' := by
  have hpairs := forall₂_of_flatMap_marked (fun b _ => ⟨hmarker b, hinner b⟩)
    (fun b _ => ⟨hmarker b, hinner b⟩) h
  rw [← List.forall₂_eq_eq_eq]
  exact hpairs.imp fun b b' hb => hinj b b' hb.1 hb.2

theorem SectionMarker.name_eq {text name name' : String} (h : SectionMarker text name)
    (h' : SectionMarker text name') : name = name' := by
  have hlist := (sectionMarker_iff.mp h).symm.trans (sectionMarker_iff.mp h')
  exact String.toList_inj.mp (Option.some.inj hlist)

theorem SymbolMarker.name_eq {text name name' : String} (h : SymbolMarker text name)
    (h' : SymbolMarker text name') : name = name' := by
  have hlist := (symbolMarker_iff.mp h).symm.trans (symbolMarker_iff.mp h')
  exact String.toList_inj.mp (Option.some.inj hlist)

theorem InstructionEntry.text_injective : Function.Injective InstructionEntry.text := by
  rintro ⟨text, i, hreads⟩ ⟨text', i', hreads'⟩ (rfl : text = text')
  obtain rfl := Option.some.inj (hreads.reads.symm.trans hreads'.reads)
  rfl

theorem SymbolBlock.isInstructionLine_of_mem (b : SymbolBlock) :
    ∀ text ∈ b.entries.map InstructionEntry.text, IsInstructionLine text := by
  intro text htext
  obtain ⟨entry, -, rfl⟩ := List.mem_map.mp htext
  exact ⟨entry.instruction, entry.reads⟩

theorem SymbolBlock.flatMap_lines_inj {bs bs' : List SymbolBlock}
    (h : bs.flatMap SymbolBlock.lines = bs'.flatMap SymbolBlock.lines) : bs = bs' := by
  refine flatMap_marked_inj (p := fun text => decide (IsSymbolMarker text)) ?_ ?_ ?_ h
  · exact fun b => decide_eq_true ⟨b.name, b.marks⟩
  · intro b text htext
    exact decide_eq_false (b.isInstructionLine_of_mem text htext).not_isSymbolMarker
  · rintro ⟨marker, name, hmarks, entries⟩ ⟨marker', name', hmarks', entries'⟩ hmarker hentries
    simp only at hmarker hentries
    subst hmarker
    obtain rfl := hmarks.name_eq hmarks'
    obtain rfl := InstructionEntry.text_injective.list_map hentries
    rfl

theorem SectionBlock.not_isSectionMarker_of_mem (b : SectionBlock) :
    ∀ text ∈ b.symbols.flatMap SymbolBlock.lines, ¬ IsSectionMarker text := by
  intro text htext
  obtain ⟨symbol, -, hmem⟩ := List.mem_flatMap.mp htext
  rcases List.mem_cons.mp hmem with rfl | hmem
  · exact IsSymbolMarker.not_isSectionMarker ⟨symbol.name, symbol.marks⟩
  · exact (symbol.isInstructionLine_of_mem text hmem).not_isSectionMarker

theorem SectionBlock.flatMap_lines_inj {bs bs' : List SectionBlock}
    (h : bs.flatMap SectionBlock.lines = bs'.flatMap SectionBlock.lines) : bs = bs' := by
  refine flatMap_marked_inj (p := fun text => decide (IsSectionMarker text)) ?_ ?_ ?_ h
  · exact fun b => decide_eq_true ⟨b.name, b.marks⟩
  · exact fun b text htext => decide_eq_false (b.not_isSectionMarker_of_mem text htext)
  · rintro ⟨marker, name, hmarks, symbols⟩ ⟨marker', name', hmarks', symbols'⟩ hmarker hsymbols
    simp only at hmarker hsymbols
    subst hmarker
    obtain rfl := hmarks.name_eq hmarks'
    obtain rfl := SymbolBlock.flatMap_lines_inj hsymbols
    rfl

/-- The blocks of a listing are determined by its lines. -/
theorem SourceTree.lines_injective : Function.Injective SourceTree.lines := by
  rintro ⟨first, header, hstates, sections⟩ ⟨first', header', hstates', sections'⟩ h
  obtain ⟨rfl, hsections⟩ := List.cons.inj h
  have hheader := (Header.read?_eq_some_iff.mpr hstates).symm.trans
    (Header.read?_eq_some_iff.mpr hstates')
  obtain rfl := Option.some.inj hheader
  obtain rfl := SectionBlock.flatMap_lines_inj hsections
  rfl

/-! ### Blocks grow line by line -/

theorem grown_entries {lines : List String} {ss : List Section} {s : Section} {symbol : Symbol}
    (h : Grown lines (ss ++ [s.addSymbol symbol])) (entries : List InstructionEntry) :
    Grown (lines ++ entries.map InstructionEntry.text) (ss ++ [s.addSymbol
      ⟨symbol.name, symbol.instructions ++ entries.map InstructionEntry.instruction⟩]) := by
  induction entries generalizing lines symbol with
  | nil => simpa using h
  | cons entry entries ih =>
    have hnext := ih (Grown.step h (Grows.addsInstruction entry.reads))
    simpa [Symbol.addInstruction] using hnext

theorem grown_symbols {lines : List String} {ss : List Section} {s : Section}
    (h : Grown lines (ss ++ [s])) (symbols : List SymbolBlock) :
    Grown (lines ++ symbols.flatMap SymbolBlock.lines)
      (ss ++ [⟨s.name, s.symbols ++ symbols.map SymbolBlock.toSymbol⟩]) := by
  induction symbols generalizing lines s with
  | nil => simpa using h
  | cons b symbols ih =>
    have hblock := grown_entries (Grown.step h (Grows.opensSymbol b.marks)) b.entries
    have hnext := ih hblock
    simpa [SymbolBlock.lines, SymbolBlock.toSymbol, Section.addSymbol] using hnext

theorem grown_sections {lines : List String} {ss : List Section} (h : Grown lines ss)
    (sections : List SectionBlock) : Grown (lines ++ sections.flatMap SectionBlock.lines)
      (ss ++ sections.map SectionBlock.toSection) := by
  induction sections generalizing lines ss with
  | nil => simpa using h
  | cons b sections ih =>
    have hblock := grown_symbols (Grown.step h (Grows.opensSection b.marks)) b.symbols
    have hnext := ih hblock
    simpa [SectionBlock.lines, SectionBlock.toSection] using hnext

/-- Whatever grew is cut into blocks: each step opens a block or adds to the last one. -/
theorem exists_blocks_of_grown {lines : List String} {ss : List Section} (h : Grown lines ss) :
    ∃ sections : List SectionBlock, sections.flatMap SectionBlock.lines = lines ∧
      sections.map SectionBlock.toSection = ss := by
  induction h with
  | start => exact ⟨[], rfl, rfl⟩
  | @step lines ss text ss' _ hgrows ih =>
    obtain ⟨sections, rfl, hss⟩ := ih
    cases hgrows with
    | opensSection hmark =>
      refine ⟨sections ++ [⟨text, _, hmark, []⟩], ?_, ?_⟩
      · simp [SectionBlock.lines]
      · simp [SectionBlock.toSection, hss]
    | opensSymbol hmark =>
      obtain ⟨front, last, rfl, rfl, hlast⟩ := List.map_eq_append_iff.mp hss
      obtain ⟨b, rfl, rfl⟩ := List.map_eq_singleton_iff.mp hlast
      refine ⟨front ++ [{ b with symbols := b.symbols ++ [⟨text, _, hmark, []⟩] }], ?_, ?_⟩
      · simp [SectionBlock.lines, SymbolBlock.lines]
      · simp [SectionBlock.toSection, SymbolBlock.toSymbol, Section.addSymbol]
    | addsInstruction hline =>
      obtain ⟨front, last, rfl, rfl, hlast⟩ := List.map_eq_append_iff.mp hss
      obtain ⟨b, rfl, hb⟩ := List.map_eq_singleton_iff.mp hlast
      simp only [SectionBlock.toSection, Section.addSymbol, Section.mk.injEq] at hb
      obtain ⟨hname, hsymbols⟩ := hb
      obtain ⟨earlier, latest, hb, hearlier, hlatest⟩ := List.map_eq_append_iff.mp hsymbols
      obtain ⟨y, rfl, rfl⟩ := List.map_eq_singleton_iff.mp hlatest
      refine ⟨front ++ [{ b with
        symbols := earlier ++ [{ y with entries := y.entries ++ [⟨text, _, hline⟩] }] }], ?_, ?_⟩
      · simp [SectionBlock.lines, SymbolBlock.lines, hb]
      · simp [SectionBlock.toSection, SymbolBlock.toSymbol, Section.addSymbol,
          Symbol.addInstruction, hname, hearlier]

/-! ### Counting lines -/

def Tally.total (t : Tally) : Nat := t.sections + t.symbols + t.instructions

instance : Add Tally where
  add t t' := ⟨t.sections + t'.sections, t.symbols + t'.symbols, t.instructions + t'.instructions⟩

theorem Tally.add_def (t t' : Tally) : t + t' =
    ⟨t.sections + t'.sections, t.symbols + t'.symbols, t.instructions + t'.instructions⟩ := rfl

theorem Tally.total_add (t t' : Tally) : (t + t').total = t.total + t'.total := by
  simp only [Tally.add_def, total]
  omega

/-- How many lines there are of each kind. -/
def tallyLines (lines : List String) : Tally where
  sections := lines.countP (IsSectionMarker ·)
  symbols := lines.countP (IsSymbolMarker ·)
  instructions := lines.countP (IsInstructionLine ·)

theorem tallyLines_append (lines lines' : List String) :
    tallyLines (lines ++ lines') = tallyLines lines + tallyLines lines' := by
  simp only [tallyLines, List.countP_append, Tally.add_def]

theorem SectionMarker.tallyLines_eq {text name : String} (h : SectionMarker text name) :
    tallyLines [text] = ⟨1, 0, 0⟩ := by
  have hsection : IsSectionMarker text := ⟨name, h⟩
  have hsymbol : ¬ IsSymbolMarker text := fun h => h.not_isSectionMarker hsection
  have hinstruction : ¬ IsInstructionLine text := fun h => h.not_isSectionMarker hsection
  simp [tallyLines, hsection, hsymbol, hinstruction]

theorem SymbolMarker.tallyLines_eq {text name : String} (h : SymbolMarker text name) :
    tallyLines [text] = ⟨0, 1, 0⟩ := by
  have hsymbol : IsSymbolMarker text := ⟨name, h⟩
  have hinstruction : ¬ IsInstructionLine text := fun h => h.not_isSymbolMarker hsymbol
  simp [tallyLines, hsymbol.not_isSectionMarker, hsymbol, hinstruction]

theorem InstructionLine.tallyLines_eq {text : String} {i : Instruction}
    (h : InstructionLine text i) : tallyLines [text] = ⟨0, 0, 1⟩ := by
  have hinstruction : IsInstructionLine text := ⟨i, h⟩
  simp [tallyLines, hinstruction.not_isSectionMarker, hinstruction.not_isSymbolMarker, hinstruction]

/-- A step adds one entry, of the kind of its line. -/
theorem Grows.tally {ss ss' : List Section} {text : String} (h : Grows ss text ss')
    (fileName fileFormat : String) : (Listing.mk fileName fileFormat ss').tally =
      (Listing.mk fileName fileFormat ss).tally + tallyLines [text] := by
  simp only [Listing.tally, Listing.symbols, Listing.instructions, Tally.add_def]
  cases h with
  | opensSection hmark =>
    rw [hmark.tallyLines_eq]
    simp
  | opensSymbol hmark =>
    rw [hmark.tallyLines_eq]
    simp [Section.addSymbol, Nat.add_assoc]
  | addsInstruction hline =>
    rw [hline.tallyLines_eq]
    simp [Section.addSymbol, Symbol.addInstruction, Nat.add_assoc]

theorem Grows.total {ss ss' : List Section} {text : String} (h : Grows ss text ss') :
    (tallyLines [text]).total = 1 := by
  cases h with
  | opensSection hmark => rw [hmark.tallyLines_eq]; rfl
  | opensSymbol hmark => rw [hmark.tallyLines_eq]; rfl
  | addsInstruction hline => rw [hline.tallyLines_eq]; rfl

theorem Grown.tally {lines : List String} {ss : List Section} (h : Grown lines ss)
    (fileName fileFormat : String) :
    (Listing.mk fileName fileFormat ss).tally = tallyLines lines := by
  induction h with
  | start => rfl
  | step _ hgrows ih => rw [hgrows.tally, ih, tallyLines_append]

theorem Grown.total {lines : List String} {ss : List Section} (h : Grown lines ss) :
    (tallyLines lines).total = lines.length := by
  induction h with
  | start => rfl
  | step _ hgrows ih =>
    rw [tallyLines_append, Tally.total_add, ih, hgrows.total, List.length_append,
      List.length_singleton]

/-! ### What is read -/

theorem readLines_eq_ok_iff_blocks {texts : List String} {l : Listing} :
    (Listing.readLines texts).outcome = .ok l ↔
      ∃ source : SourceTree, source.lines = keptLines texts ∧ source.toListing.Arranges l := by
  simp only [Listing.arranges_iff, Listing.readLines_eq_ok_iff]
  constructor
  · rintro ⟨first, body, header, ss, hkept, hheader, hgrown, rfl⟩
    obtain ⟨sections, rfl, rfl⟩ := exists_blocks_of_grown hgrown
    exact ⟨⟨first, header, hheader, sections⟩, hkept.symm, rfl⟩
  · rintro ⟨source, hlines, rfl⟩
    have hgrown := grown_sections Grown.start source.sections
    exact ⟨_, _, source.header, _, hlines.symm, source.states, hgrown, rfl⟩

/-- The lines of the body are counted in the tree, each once. -/
theorem tally_of_readLines {texts : List String} {l : Listing}
    (h : (Listing.readLines texts).outcome = .ok l) :
    l.tally = tallyLines (keptLines texts).tail ∧ l.tally.total + 1 = (keptLines texts).length := by
  obtain ⟨first, body, header, ss, hkept, -, hgrown, rfl⟩ := Listing.readLines_eq_ok_iff.mp h
  rw [hkept, Listing.tally_sort, hgrown.tally, hgrown.total]
  exact ⟨rfl, rfl⟩

/-- The listing that lines stand for: they are cut into blocks in one way, the tree of the blocks
is arranged by name, and every line behind the header is counted once and under its kind. -/
structure StandsFor (texts : List String) (l : Listing) : Prop where
  blocks : ∃! source : SourceTree, source.lines = keptLines texts ∧ source.toListing.Arranges l
  tally : l.tally = tallyLines (keptLines texts).tail
  total : l.tally.total + 1 = (keptLines texts).length

/-- Lines, and texts cut into lines, are read as what they stand for, and nothing else is read. -/
theorem read_iff_standsFor :
    (∀ texts l, (Listing.readLines texts).outcome = .ok l ↔ StandsFor texts l) ∧
      ∀ text l, (Listing.read text).outcome = .ok l ↔ StandsFor (Text.lines text) l := by
  have hlines : ∀ texts l, (Listing.readLines texts).outcome = .ok l ↔ StandsFor texts l := by
    intro texts l
    constructor
    · intro h
      obtain ⟨source, hlines, harranges⟩ := readLines_eq_ok_iff_blocks.mp h
      obtain ⟨htally, htotal⟩ := tally_of_readLines h
      refine ⟨⟨source, ⟨hlines, harranges⟩, ?_⟩, htally, htotal⟩
      intro source' hsource'
      exact SourceTree.lines_injective (hsource'.1.trans hlines.symm)
    · intro h
      exact readLines_eq_ok_iff_blocks.mpr h.blocks.exists
  exact ⟨hlines, fun text l => hlines (Text.lines text) l⟩

end CanonicalListing
