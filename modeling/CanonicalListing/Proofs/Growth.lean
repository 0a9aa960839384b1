import CanonicalListing.Listing.Reader
import CanonicalListing.Proofs.LineKinds
import Mathlib.Data.List.Induction

/-!
# How the sections grow

A draft holds everything latest first. Seen in source order, a line that is accepted adds
at the end: a section marker a section, a symbol marker a symbol of the last section, an
instruction line an instruction of the last symbol of the last section. These three steps
are all that reading does, so what it reaches is given by induction on them.
-/

namespace CanonicalListing

open Text

theorem isBlankChar_of_isSectionNameChar {c : Char} (h : Line.isSectionNameChar c = true) :
    isBlankChar c = false := by
  have hrange : ∀ {lo hi : UInt32}, lo ≤ c.val → c.val ≤ hi → 0x20 < lo.toNat →
      hi.toNat < 0xA0 → isBlankChar c = false := by
    intro lo hi hlo hhi hfirst hlast
    exact isBlankChar_eq_false_of_range (Nat.lt_of_lt_of_le hfirst (UInt32.le_iff_toNat_le.mp hlo))
      (Nat.lt_of_le_of_lt (UInt32.le_iff_toNat_le.mp hhi) hlast)
  rcases (Bool.or_eq_true _ _).mp h with halphanum | hdot
  · rcases (Bool.or_eq_true _ _).mp halphanum with halpha | hdigit
    · rcases (Bool.or_eq_true _ _).mp halpha with hupper | hlower
      · obtain ⟨hlo, hhi⟩ := of_decide_eq_true hupper
        exact hrange hlo hhi (by decide) (by decide)
      · obtain ⟨hlo, hhi⟩ := (Bool.and_eq_true _ _).mp hlower
        exact hrange (of_decide_eq_true hlo) (of_decide_eq_true hhi) (by decide) (by decide)
    · obtain ⟨hlo, hhi⟩ := (Bool.and_eq_true _ _).mp hdigit
      exact hrange (of_decide_eq_true hlo) (of_decide_eq_true hhi) (by decide) (by decide)
  · obtain rfl := eq_of_beq hdot
    decide

/-- Names are kept as they stand, since they are trimmed already. -/
theorem SectionMarker.named {text name : String} (h : SectionMarker text name) :
    Section.named name = ⟨name, []⟩ := by
  have hbare : BareEnds name.toList :=
    ⟨fun c hc => isBlankChar_of_isSectionNameChar (h.chars c (List.mem_of_mem_head? hc)),
      fun c hc => isBlankChar_of_isSectionNameChar (h.chars c (List.mem_of_mem_getLast? hc))⟩
  rw [Section.named, trim_eq_self_iff.mpr hbare]

theorem SymbolMarker.named {text name : String} (h : SymbolMarker text name) :
    Symbol.named name = ⟨name, []⟩ := by
  have hbare : BareEnds name.toList := by
    obtain ⟨rest, hopened⟩ := h.opened
    obtain ⟨front, hclosed⟩ := h.closed
    constructor
    · intro c hc
      obtain rfl : '<' = c := by simpa [← hopened] using hc
      decide
    · intro c hc
      obtain rfl : '>' = c := by simpa [← hclosed] using hc
      decide
  rw [Symbol.named, trim_eq_self_iff.mpr hbare]

namespace Draft

theorem sections_cons (s : Section) (earlier : List Section) :
    (Draft.mk (s :: earlier)).sections = (Draft.mk earlier).sections ++ [forwardSection s] := by
  simp [sections]

theorem forwardSection_addSymbol (s : Section) (symbol : Symbol) :
    forwardSection { s with symbols := symbol :: s.symbols } =
      (forwardSection s).addSymbol (forwardSymbol symbol) := by
  simp [forwardSection, Section.addSymbol]

theorem forwardSymbol_addInstruction (symbol : Symbol) (i : Instruction) :
    forwardSymbol { symbol with instructions := i :: symbol.instructions } =
      (forwardSymbol symbol).addInstruction i := by
  simp [forwardSymbol, Symbol.addInstruction]

theorem sections_eq_nil_iff {d : Draft} : d.sections = [] ↔ d.latest = [] := by
  simp [sections]

/-- The last section in source order is the latest one. -/
theorem exists_latest {d : Draft} {ss : List Section} {s : Section} (h : d.sections = ss ++ [s]) :
    ∃ current earlier, d = ⟨current :: earlier⟩ ∧ forwardSection current = s ∧
      (Draft.mk earlier).sections = ss := by
  obtain ⟨latest⟩ := d
  cases latest with
  | nil => simp [sections] at h
  | cons current earlier =>
    rw [sections_cons] at h
    obtain ⟨hss, hs⟩ := List.append_inj' h rfl
    exact ⟨current, earlier, rfl, (List.cons.inj hs).1, hss⟩

theorem exists_latest_symbol {s s' : Section} {symbol : Symbol}
    (h : forwardSection s' = s.addSymbol symbol) :
    ∃ current others, s' = ⟨s.name, current :: others⟩ ∧ forwardSymbol current = symbol ∧
      forwardSection ⟨s.name, others⟩ = s := by
  obtain ⟨name, symbols⟩ := s'
  cases symbols with
  | nil => simp [forwardSection, Section.addSymbol] at h
  | cons current others =>
    have hcut := forwardSection_addSymbol ⟨name, others⟩ current
    rw [h] at hcut
    simp only [Section.addSymbol, Section.mk.injEq] at hcut
    obtain ⟨hname, hsymbols⟩ := hcut
    obtain ⟨hothers, hlast⟩ := List.append_inj' hsymbols rfl
    cases s
    simp only [forwardSection] at hname hothers
    subst hname
    exact ⟨current, others, rfl, (List.cons.inj hlast).1.symm, by simp [forwardSection, hothers]⟩

end Draft

/-- A line adds to the sections that come before it. -/
inductive Grows : List Section → String → List Section → Prop
  | opensSection {ss text name} : SectionMarker text name → Grows ss text (ss ++ [⟨name, []⟩])
  | opensSymbol {ss} {s : Section} {text name} : SymbolMarker text name →
      Grows (ss ++ [s]) text (ss ++ [s.addSymbol ⟨name, []⟩])
  | addsInstruction {ss} {s : Section} {symbol : Symbol} {text i} : InstructionLine text i →
      Grows (ss ++ [s.addSymbol symbol]) text (ss ++ [s.addSymbol (symbol.addInstruction i)])

/-- What the lines behind a header grow to. -/
inductive Grown : List String → List Section → Prop
  | start : Grown [] []
  | step {lines ss text ss'} : Grown lines ss → Grows ss text ss' → Grown (lines ++ [text]) ss'

theorem Grown.of_concat {lines : List String} {text : String} {us : List Section}
    (h : Grown (lines ++ [text]) us) : ∃ ss, Grown lines ss ∧ Grows ss text us := by
  generalize hall : lines ++ [text] = all at h
  cases h with
  | start => simp at hall
  | step hgrown hgrows =>
    obtain ⟨rfl, hlast⟩ := List.append_inj' hall rfl
    obtain rfl := (List.cons.inj hlast).1
    exact ⟨_, hgrown, hgrows⟩

namespace Listing

/-- One line of the body; a fault gets the position of its line. -/
def takeLine (d : Draft) (source : SourceLine) : Except Fault Draft :=
  (advance d source (Line.read source.text)).mapError fun fault =>
    fault.locate source.text source.number

/-- The outcome does not depend on the journal. -/
theorem readBody_outcome (written : List Journal.Entry) (d : Draft) (sources : List SourceLine) :
    (readBody written d sources).2 = sources.foldlM takeLine d := by
  induction sources generalizing written d with
  | nil => rfl
  | cons source rest ih =>
    rw [List.foldlM_cons, takeLine, readBody]
    cases h : advance d source (Line.read source.text) with
    | ok next => exact ih _ next
    | error fault => rfl

theorem takeLine_of_grows {d : Draft} {source : SourceLine} {ss : List Section}
    (h : Grows d.sections source.text ss) :
    ∃ d', takeLine d source = .ok d' ∧ d'.sections = ss := by
  generalize hsections : d.sections = before at h
  unfold takeLine
  cases h with
  | opensSection hmark =>
    refine ⟨d.openSection _, by rw [Line.read_of_sectionMarker hmark]; rfl, ?_⟩
    rw [Draft.sections_openSection, hmark.named, hsections]
  | opensSymbol hmark =>
    obtain ⟨current, earlier, rfl, rfl, rfl⟩ := Draft.exists_latest hsections
    refine ⟨_, by rw [Line.read_of_symbolMarker hmark]; rfl, ?_⟩
    rw [Draft.sections_cons, Draft.forwardSection_addSymbol, hmark.named]
    rfl
  | @addsInstruction _ s _ _ i hline =>
    obtain ⟨current, earlier, rfl, hcurrent, rfl⟩ := Draft.exists_latest hsections
    obtain ⟨symbol, others, rfl, rfl, hrest⟩ := Draft.exists_latest_symbol hcurrent
    refine ⟨_, by rw [Line.read_of_instructionLine hline]; rfl, ?_⟩
    have hadd := Draft.forwardSection_addSymbol ⟨s.name, others⟩
      { symbol with instructions := i :: symbol.instructions }
    rw [hrest, Draft.forwardSymbol_addInstruction] at hadd
    rw [Draft.sections_cons, ← hadd]

theorem grows_of_advance {d d' : Draft} {source : SourceLine}
    (h : advance d source (Line.read source.text) = .ok d') :
    Grows d.sections source.text d'.sections := by
  rcases kinds_exhaust source.text with ⟨name, hmark⟩ | ⟨name, hmark⟩ | ⟨i, hline⟩ | hnone
  · rw [Line.read_of_sectionMarker hmark] at h
    obtain rfl := Except.ok.inj h
    rw [Draft.sections_openSection, hmark.named]
    exact Grows.opensSection hmark
  · rw [Line.read_of_symbolMarker hmark] at h
    obtain ⟨latest⟩ := d
    cases latest with
    | nil => exact absurd h (by simp [advance, Draft.openSymbol])
    | cons s earlier =>
      obtain rfl := Except.ok.inj h
      rw [Draft.sections_cons, Draft.sections_cons, Draft.forwardSection_addSymbol, hmark.named]
      exact Grows.opensSymbol hmark
  · rw [Line.read_of_instructionLine hline] at h
    obtain ⟨latest⟩ := d
    cases latest with
    | nil => exact absurd h (by simp [advance, Draft.addInstruction])
    | cons s earlier =>
      obtain ⟨name, symbols⟩ := s
      cases symbols with
      | nil => exact absurd h (by simp [advance, Draft.addInstruction])
      | cons symbol others =>
        obtain rfl := Except.ok.inj h
        have hbefore := Draft.forwardSection_addSymbol ⟨name, others⟩ symbol
        have hafter := Draft.forwardSection_addSymbol ⟨name, others⟩
          { symbol with instructions := i :: symbol.instructions }
        rw [Draft.forwardSymbol_addInstruction] at hafter
        rw [Draft.sections_cons, Draft.sections_cons, hbefore, hafter]
        exact Grows.addsInstruction hline
  · rw [Line.read_of_unclassifiable hnone] at h
    exact absurd h (by simp [advance])

theorem grows_of_takeLine {d d' : Draft} {source : SourceLine} (h : takeLine d source = .ok d') :
    Grows d.sections source.text d'.sections := by
  unfold takeLine at h
  cases hadvance : advance d source (Line.read source.text) with
  | error fault =>
    rw [hadvance] at h
    exact absurd h (by simp [Except.mapError])
  | ok next =>
    rw [hadvance] at h
    obtain rfl := Except.ok.inj h
    exact grows_of_advance hadvance

theorem grown_of_foldlM {sources : List SourceLine} {d : Draft}
    (h : sources.foldlM takeLine {} = .ok d) : Grown (sources.map SourceLine.text) d.sections := by
  induction sources using List.reverseRecOn generalizing d with
  | nil =>
    obtain rfl := Except.ok.inj h
    exact Grown.start
  | append_singleton sources source ih =>
    obtain ⟨before, hrun, hlast⟩ := foldlM_concat_eq_ok_iff.mp h
    rw [List.map_append]
    exact Grown.step (ih hrun) (grows_of_takeLine hlast)

theorem exists_foldlM_of_grown {sources : List SourceLine} {ss : List Section}
    (h : Grown (sources.map SourceLine.text) ss) :
    ∃ d, sources.foldlM takeLine {} = .ok d ∧ d.sections = ss := by
  generalize hlines : sources.map SourceLine.text = lines at h
  induction h generalizing sources with
  | start =>
    rw [List.map_eq_nil_iff] at hlines
    subst hlines
    exact ⟨{}, rfl, rfl⟩
  | step _ hgrows ih =>
    obtain ⟨front, last, rfl, hfront, hlast⟩ := List.map_eq_append_iff.mp hlines
    obtain ⟨source, rfl, rfl⟩ := List.map_eq_singleton_iff.mp hlast
    obtain ⟨before, hrun, hbefore⟩ := ih hfront
    obtain ⟨d, htake, hd⟩ := takeLine_of_grows (hbefore ▸ hgrows)
    exact ⟨d, foldlM_concat_eq_ok_iff.mpr ⟨before, hrun, htake⟩, hd⟩

end Listing
end CanonicalListing
