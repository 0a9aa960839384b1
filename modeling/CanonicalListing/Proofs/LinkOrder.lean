import CanonicalListing.Fingerprint
import CanonicalListing.Listing.Render
import CanonicalListing.Proofs.Blocks

/-!
# Independence of the link order

A linker may emit the sections of a program, and the symbols of a section, in any order.
Two listings that differ only in this way are read as the same tree, provided that blocks
of one name stay in their order: the stable arrangement by name cannot tell the two apart.
-/

namespace CanonicalListing

/-- The symbol blocks of a section in another order; those of one name keep theirs. -/
structure SectionBlock.Relinks (b b' : SectionBlock) : Prop where
  marker : b'.marker = b.marker
  symbols : Reorders SymbolBlock.name b.symbols b'.symbols

/-- First the symbol blocks inside the sections are moved, and then the section blocks. Nothing is
said about the headers. -/
def SourceTree.Relinks (t t' : SourceTree) : Prop :=
  ∃ inner, List.Forall₂ SectionBlock.Relinks t.sections inner ∧
    Reorders SectionBlock.name inner t'.sections

/-- Lines whose blocks are those of the other lines in another order. -/
def Relinked (texts texts' : List String) : Prop :=
  ∃ source source' : SourceTree, source.lines = keptLines texts ∧
    source'.lines = keptLines texts' ∧ source.Relinks source'

namespace SectionBlock

theorem Relinks.name_eq {b b' : SectionBlock} (h : b.Relinks b') : b'.name = b.name := by
  have hmarks := b'.marks
  rw [h.marker] at hmarks
  exact hmarks.name_eq b.marks

/-- The section with its symbols in order. -/
def arranged (b : SectionBlock) : Section := b.toSection.sortSymbols

theorem arranged_name (b : SectionBlock) : b.arranged.name = b.name := rfl

theorem Relinks.arranged_eq {b b' : SectionBlock} (h : b.Relinks b') :
    b'.arranged = b.arranged := by
  have hsymbols : Reorders Symbol.name b.toSection.symbols b'.toSection.symbols :=
    h.symbols.map SymbolBlock.toSymbol fun _ => rfl
  have harranges := Section.arranges_iff.mpr (rfl : b'.arranged = b'.toSection.sortSymbols)
  refine Section.arranges_iff.mp ⟨?_, harranges.symbols.of_reorders hsymbols⟩
  exact harranges.name.trans h.name_eq

theorem map_arranged_eq {bs bs' : List SectionBlock} (h : List.Forall₂ Relinks bs bs') :
    bs'.map arranged = bs.map arranged := by
  induction h with
  | nil => rfl
  | cons hb _ ih => rw [List.map_cons, List.map_cons, hb.arranged_eq, ih]

end SectionBlock

theorem SourceTree.arranges_toListing {t : SourceTree} {l : Listing} (h : t.toListing.Arranges l) :
    StablySorts Section.name (t.sections.map SectionBlock.arranged) l.sections := by
  obtain ⟨inner, hinner, hsorts⟩ := h.sections
  rw [forall₂_arranges_iff] at hinner
  subst hinner
  rwa [toListing, List.map_map] at hsorts

theorem SourceTree.Relinks.sections_eq {t t' : SourceTree} (h : t.Relinks t') {l l' : Listing}
    (hl : t.toListing.Arranges l) (hl' : t'.toListing.Arranges l') : l'.sections = l.sections := by
  obtain ⟨inner, hinner, hmoved⟩ := h
  have hsorts := arranges_toListing hl
  rw [← SectionBlock.map_arranged_eq hinner] at hsorts
  have hsorts' := arranges_toListing hl'
  have hmoved' := hmoved.map SectionBlock.arranged SectionBlock.arranged_name
  exact (hsorts'.of_reorders hmoved').unique hsorts

/-- Listings that differ in their headers and in the order of their blocks are both read. They have
the same tree, the same renderings and the same fingerprints. -/
theorem exists_readings_of_relinked {texts texts' : List String} (h : Relinked texts texts') :
    ∃ l l', (Listing.readLines texts).outcome = .ok l ∧
      (Listing.readLines texts').outcome = .ok l' ∧ l'.sections = l.sections ∧
        ∀ options, l'.render options = l.render options ∧
          Fingerprint.ofText (l'.render options) = Fingerprint.ofText (l.render options) := by
  obtain ⟨source, source', hlines, hlines', hrelinks⟩ := h
  have hl : source.toListing.Arranges source.toListing.sort := Listing.arranges_iff.mpr rfl
  have hl' : source'.toListing.Arranges source'.toListing.sort := Listing.arranges_iff.mpr rfl
  have hsections := hrelinks.sections_eq hl hl'
  refine ⟨_, _, readLines_eq_ok_iff_blocks.mpr ⟨source, hlines, hl⟩,
    readLines_eq_ok_iff_blocks.mpr ⟨source', hlines', hl'⟩, hsections, ?_⟩
  intro options
  have hrender := Listing.render_congr hsections options
  exact ⟨hrender, congrArg Fingerprint.ofText hrender⟩

/-! ### Three sections, linked in two ways -/

namespace Linked

def pushes : SymbolBlock :=
  ⟨"<f>:", "<f>", by decide, [⟨"\tpush %rbx", ⟨"push", "%rbx", ""⟩, by decide⟩]⟩

def returns : SymbolBlock := ⟨"<g>:", "<g>", by decide, [⟨"\tret", ⟨"ret", "", ""⟩, by decide⟩]⟩

def bare : SymbolBlock := ⟨"<f>:", "<f>", by decide, []⟩

def code (symbols : List SymbolBlock) : SectionBlock :=
  ⟨"Disassembly of section .text:", ".text", by decide, symbols⟩

def init : SectionBlock := ⟨"Disassembly of section .init:", ".init", by decide, [bare]⟩

/-- The code comes first, and `<g>` before `<f>`. -/
def codeFirst : SourceTree :=
  ⟨"a.o:     file format elf64-x86-64", ⟨"a.o", "elf64-x86-64"⟩, by decide,
    [code [returns, pushes], init, code [bare]]⟩

/-- Another file, with both pairs the other way round. -/
def initFirst : SourceTree :=
  ⟨"b.o: file format elf32-i386", ⟨"b.o", "elf32-i386"⟩, by decide,
    [init, code [pushes, returns], code [bare]]⟩

theorem codeFirst_relinks_initFirst : codeFirst.Relinks initFirst := by
  have hsymbols : (code [returns, pushes]).Relinks (code [pushes, returns]) :=
    ⟨rfl, Reorders.swap (by decide) []⟩
  have hsame : ∀ b : SectionBlock, b.Relinks b := fun b => ⟨rfl, Reorders.refl _ _⟩
  exact ⟨_, .cons hsymbols (.cons (hsame init) (.cons (hsame (code [bare])) .nil)),
    Reorders.swap (by decide) [code [bare]]⟩

end Linked

/-- Sections and symbols of one name stay in their order here, and both pairs that are linked the
other way round have different names. -/
theorem exists_readings_initFirst :
    Relinked Linked.codeFirst.lines Linked.initFirst.lines ∧
      ∃ l l', (Listing.readLines Linked.codeFirst.lines).outcome = .ok l ∧
        (Listing.readLines Linked.initFirst.lines).outcome = .ok l' ∧ l'.sections = l.sections ∧
          ∀ options, l'.render options = l.render options ∧
            Fingerprint.ofText (l'.render options) = Fingerprint.ofText (l.render options) := by
  have h : Relinked Linked.codeFirst.lines Linked.initFirst.lines :=
    ⟨Linked.codeFirst, Linked.initFirst, by decide, by decide, Linked.codeFirst_relinks_initFirst⟩
  exact ⟨h, exists_readings_of_relinked h⟩

end CanonicalListing
