import CanonicalListing.Proofs.Numbering

/-!
# The verdict on a listing

Whether lines are read, and what is reported if they are not, is settled by looking at
prefixes alone: the first line that does not fit the lines before it is reported, with its
text and its number, whatever comes after it. No draft is needed to say which line that
is. Behind a prefix that fits, the draft has no section as long as no section marker came,
and its open section has no symbol as long as no symbol marker came after the last section
marker.
-/

namespace CanonicalListing

open Text

/-- What is told about a reading that fails. -/
structure Report where
  kind : Cause.Kind
  message : String
  line : Option String
  lineNumber : Option Int
  deriving DecidableEq, Repr

def Fault.report (f : Fault) : Report := ⟨f.kind, f.message, f.line, f.lineNumber⟩

/-- Nothing is told about a reading that succeeds. -/
def Listing.Reading.report? (r : Reading) : Option Report :=
  match r.outcome with
  | .ok _ => none
  | .error fault => some fault.report

/-! ### What stands before a line -/

def OutsideSections (before : List String) : Prop := ∀ text ∈ before, ¬ IsSectionMarker text

/-- There is a section marker, and no symbol marker after the last one. -/
def InEmptySection (before : List String) : Prop :=
  ∃ earlier marker since, before = earlier ++ marker :: since ∧ IsSectionMarker marker ∧
    ∀ text ∈ since, ¬ IsSectionMarker text ∧ ¬ IsSymbolMarker text

/-- Why a line does not fit the lines before it. -/
inductive Offends (before : List String) (text : String) : Cause.Kind → String → Prop
  | unrecognized : Unclassifiable text → Offends before text .unrecognizedLine
      ("unrecognized format for the following line: '" ++ text ++ "'")
  | symbolOutside : IsSymbolMarker text → OutsideSections before →
      Offends before text .missingSection
        "attempted to add a symbol without first defining a section"
  | instructionOutside : IsInstructionLine text → OutsideSections before →
      Offends before text .missingSection
        "attempted to add an instruction without first defining a section"
  | noSymbol : IsInstructionLine text → InEmptySection before →
      Offends before text .missingSymbol
        "attempted to add an instruction without first defining a symbol"

/-- Each line that is not blank fits the lines before it. -/
def Fits (lines : List String) : Prop :=
  ∀ before text after, lines = before ++ text :: after → isBlank text = false →
    ∀ kind message, ¬ Offends before text kind message

/-- What is reported of a sequence of lines; numbers count from one, and blank lines as well. -/
inductive Verdict : List String → Option Report → Prop
  | empty {texts} : (∀ text ∈ texts, isBlank text = true) →
      Verdict texts (some ⟨.emptyInput, "the input does not contain any text", none, none⟩)
  | malformedHeader {blanks first body} : (∀ blank ∈ blanks, isBlank blank = true) →
      isBlank first = false → (∀ header, ¬ HeaderLine first header) →
      Verdict (blanks ++ first :: body) (some ⟨.malformedHeader,
        "incorrect format for the first line: '" ++ first ++ "'", some first,
        some ↑(blanks.length + 1)⟩)
  | offending {blanks first header before text after kind message} :
      (∀ blank ∈ blanks, isBlank blank = true) → isBlank first = false →
      HeaderLine first header → Fits before → isBlank text = false →
      Offends before text kind message →
      Verdict (blanks ++ first :: (before ++ text :: after)) (some ⟨kind, message, some text,
        some ↑(blanks.length + 1 + before.length + 1)⟩)
  | accepted {blanks first header body} : (∀ blank ∈ blanks, isBlank blank = true) →
      isBlank first = false → HeaderLine first header → Fits body →
      Verdict (blanks ++ first :: body) none

theorem Unclassifiable.of_isBlank {text : String} (h : isBlank text = true) :
    Unclassifiable text := by
  have hnil : trimChars text.toList = [] := by
    rw [isBlank_eq_true, ← String.toList_inj, toList_trim] at h
    exact h
  refine ⟨?_, ?_, ?_⟩
  · rintro ⟨name, hmark⟩
    exact absurd hmark.head (by simp [hnil])
  · rintro ⟨name, hmark⟩
    exact absurd hmark.head (by simp [hnil])
  · rintro ⟨i, hline⟩
    obtain ⟨c, hhead, -⟩ := hline.head
    exact absurd hhead (by simp [hnil])

theorem outsideSections_concat_iff {before : List String} {text : String} :
    OutsideSections (before ++ [text]) ↔ OutsideSections before ∧ ¬ IsSectionMarker text := by
  simp only [OutsideSections, List.forall_mem_append, List.forall_mem_singleton]

theorem inEmptySection_concat_iff {before : List String} {text : String} :
    InEmptySection (before ++ [text]) ↔
      IsSectionMarker text ∨ (InEmptySection before ∧ ¬ IsSymbolMarker text) := by
  constructor
  · rintro ⟨earlier, marker, since, hcut, hmarker, hsince⟩
    rcases List.eq_nil_or_concat' since with rfl | ⟨front, last, rfl⟩
    · obtain ⟨rfl, hlast⟩ := List.append_inj' hcut rfl
      obtain rfl := (List.cons.inj hlast).1
      exact Or.inl hmarker
    · rw [← List.cons_append, ← List.append_assoc] at hcut
      obtain ⟨rfl, hlast⟩ := List.append_inj' hcut rfl
      obtain rfl := (List.cons.inj hlast).1
      rw [List.forall_mem_append, List.forall_mem_singleton] at hsince
      exact Or.inr ⟨⟨earlier, marker, front, rfl, hmarker, hsince.1⟩, hsince.2.2⟩
  · rintro (hmarker | ⟨⟨earlier, marker, since, rfl, hmarker, hsince⟩, hsymbol⟩)
    · exact ⟨before, text, [], rfl, hmarker, by simp⟩
    · by_cases hsection : IsSectionMarker text
      · exact ⟨_, text, [], rfl, hsection, by simp⟩
      · refine ⟨earlier, marker, since ++ [text], by simp, hmarker, ?_⟩
        rw [List.forall_mem_append, List.forall_mem_singleton]
        exact ⟨hsince, hsection, hsymbol⟩

/-- Blank lines are no markers. -/
theorem outsideSections_keptLines {before : List String} :
    OutsideSections (keptLines before) ↔ OutsideSections before := by
  constructor
  · intro h text htext hmarker
    cases hblank : isBlank text with
    | true => exact (Unclassifiable.of_isBlank hblank).1 hmarker
    | false => exact h text (List.mem_filter.mpr ⟨htext, by simp [hblank]⟩) hmarker
  · exact fun h text htext => h text (List.mem_filter.mp htext).1

theorem keptLines_concat (before : List String) (text : String) :
    keptLines (before ++ [text]) =
      if isBlank text = true then keptLines before else keptLines before ++ [text] := by
  rw [keptLines_append]
  split_ifs with h
  · simp [keptLines, h]
  · simp [keptLines, h]

theorem inEmptySection_keptLines {before : List String} :
    InEmptySection (keptLines before) ↔ InEmptySection before := by
  induction before using List.reverseRecOn with
  | nil => exact Iff.rfl
  | append_singleton before text ih =>
    rw [keptLines_concat, inEmptySection_concat_iff]
    split_ifs with hblank
    · obtain ⟨hsection, hsymbol, -⟩ := Unclassifiable.of_isBlank hblank
      simp [ih, hsection, hsymbol]
    · rw [inEmptySection_concat_iff, ih]

/-! ### What the sections say about the lines they grew from -/

theorem Grown.eq_nil_iff {lines : List String} {ss : List Section} (h : Grown lines ss) :
    ss = [] ↔ OutsideSections lines := by
  induction h with
  | start => simp [OutsideSections]
  | step _ hgrows ih =>
    rw [outsideSections_concat_iff, ← ih]
    cases hgrows with
    | opensSection hmark => simp [IsSectionMarker, Exists.intro _ hmark]
    | opensSymbol _ => simp
    | addsInstruction _ => simp

/-- The last section has no symbol yet. -/
def LastIsEmpty (ss : List Section) : Prop := ∃ earlier s, ss = earlier ++ [s] ∧ s.symbols = []

theorem lastIsEmpty_concat_iff {ss : List Section} {s : Section} :
    LastIsEmpty (ss ++ [s]) ↔ s.symbols = [] := by
  constructor
  · rintro ⟨earlier, s', hcut, hempty⟩
    obtain ⟨-, hlast⟩ := List.append_inj' hcut rfl
    obtain rfl := (List.cons.inj hlast).1
    exact hempty
  · exact fun h => ⟨ss, s, rfl, h⟩

theorem Grown.lastIsEmpty_iff {lines : List String} {ss : List Section} (h : Grown lines ss) :
    LastIsEmpty ss ↔ InEmptySection lines := by
  induction h with
  | start => simp [LastIsEmpty, InEmptySection]
  | step _ hgrows ih =>
    rw [inEmptySection_concat_iff, ← ih]
    cases hgrows with
    | opensSection hmark =>
      rw [lastIsEmpty_concat_iff]
      exact iff_of_true rfl (Or.inl ⟨_, hmark⟩)
    | opensSymbol hmark =>
      have hsymbol : IsSymbolMarker _ := ⟨_, hmark⟩
      rw [lastIsEmpty_concat_iff]
      simp [Section.addSymbol, hsymbol, hsymbol.not_isSectionMarker]
    | addsInstruction hline =>
      have hinstruction : IsInstructionLine _ := ⟨_, hline⟩
      rw [lastIsEmpty_concat_iff, lastIsEmpty_concat_iff]
      simp [Section.addSymbol, hinstruction.not_isSectionMarker]

/-! ### A line that fits, and one that does not -/

theorem exists_grows_of_fitting {before : List String} {ss : List Section}
    (hgrown : Grown (keptLines before) ss) {text : String}
    (h : ∀ kind message, ¬ Offends before text kind message) : ∃ ss', Grows ss text ss' := by
  have hinside : ¬ OutsideSections before → ∃ earlier s, ss = earlier ++ [s] := by
    intro hout
    rw [← outsideSections_keptLines, ← hgrown.eq_nil_iff] at hout
    exact (List.eq_nil_or_concat' ss).resolve_left hout
  rcases kinds_exhaust text with ⟨name, hmark⟩ | ⟨name, hmark⟩ | ⟨i, hline⟩ | hnone
  · exact ⟨_, Grows.opensSection hmark⟩
  · obtain ⟨earlier, s, rfl⟩ := hinside fun hout =>
      h _ _ (Offends.symbolOutside ⟨name, hmark⟩ hout)
    exact ⟨_, Grows.opensSymbol hmark⟩
  · obtain ⟨earlier, s, rfl⟩ := hinside fun hout =>
      h _ _ (Offends.instructionOutside ⟨i, hline⟩ hout)
    have hsymbols : s.symbols ≠ [] := by
      intro hempty
      have hinner := hgrown.lastIsEmpty_iff.mp (lastIsEmpty_concat_iff.mpr hempty)
      exact h _ _ (Offends.noSymbol ⟨i, hline⟩ (inEmptySection_keptLines.mp hinner))
    obtain ⟨others, symbol, hlast⟩ := (List.eq_nil_or_concat' s.symbols).resolve_left hsymbols
    have hs : s = (Section.mk s.name others).addSymbol symbol := by
      rw [Section.addSymbol, ← hlast]
    rw [hs]
    exact ⟨_, Grows.addsInstruction hline⟩
  · exact absurd (Offends.unrecognized hnone) (h _ _)

theorem fits_concat_iff {lines : List String} {text : String} :
    Fits (lines ++ [text]) ↔ Fits lines ∧
      (isBlank text = false → ∀ kind message, ¬ Offends lines text kind message) := by
  constructor
  · intro h
    refine ⟨?_, h lines text [] rfl⟩
    rintro before text' after rfl
    exact h before text' (after ++ [text]) (by simp)
  · rintro ⟨hlines, htext⟩ before text' after hcut
    rcases List.eq_nil_or_concat' after with rfl | ⟨front, last, rfl⟩
    · obtain ⟨rfl, hlast⟩ := List.append_inj' hcut rfl
      obtain rfl := (List.cons.inj hlast).1
      exact htext
    · rw [← List.cons_append, ← List.append_assoc] at hcut
      obtain ⟨hbefore, -⟩ := List.append_inj' hcut rfl
      exact hlines before text' front hbefore

theorem exists_grown_of_fits {lines : List String} (h : Fits lines) :
    ∃ ss, Grown (keptLines lines) ss := by
  induction lines using List.reverseRecOn with
  | nil => exact ⟨[], Grown.start⟩
  | append_singleton lines text ih =>
    obtain ⟨hlines, htext⟩ := fits_concat_iff.mp h
    obtain ⟨ss, hgrown⟩ := ih hlines
    rw [keptLines_concat]
    split_ifs with hblank
    · exact ⟨ss, hgrown⟩
    · obtain ⟨ss', hgrows⟩ := exists_grows_of_fitting hgrown (htext (by simpa using hblank))
      exact ⟨ss', Grown.step hgrown hgrows⟩

/-- The search for the first line that does not fit. -/
theorem fits_or_exists_first (lines : List String) :
    Fits lines ∨ ∃ before text after kind message, lines = before ++ text :: after ∧
      Fits before ∧ isBlank text = false ∧ Offends before text kind message := by
  induction lines using List.reverseRecOn with
  | nil => exact Or.inl (by intro before text after hcut; simp at hcut)
  | append_singleton lines text ih =>
    rcases ih with hlines | ⟨before, text', after, kind, message, rfl, hfirst⟩
    · by_cases htext : isBlank text = false ∧ ∃ kind message, Offends lines text kind message
      · obtain ⟨hblank, kind, message, hoffends⟩ := htext
        exact Or.inr ⟨lines, text, [], kind, message, rfl, hlines, hblank, hoffends⟩
      · refine Or.inl (fits_concat_iff.mpr ⟨hlines, ?_⟩)
        intro hblank kind message hoffends
        exact htext ⟨hblank, kind, message, hoffends⟩
    · exact Or.inr ⟨before, text', after ++ [text], kind, message, by simp, hfirst⟩

namespace Listing

/-- The fault at a line that does not fit says why, and gets the position of the line. -/
theorem takeLine_of_offends {before : List String} {d : Draft} {kind : Cause.Kind}
    {message : String} (hgrown : Grown (keptLines before) d.sections) (source : SourceLine)
    (h : Offends before source.text kind message) :
    ∃ fault, takeLine d source = .error fault ∧
      fault.report = ⟨kind, message, some source.text, some source.number⟩ := by
  have hlatest : OutsideSections before → d = ⟨[]⟩ := by
    intro hout
    rw [← outsideSections_keptLines, ← hgrown.eq_nil_iff, Draft.sections_eq_nil_iff] at hout
    cases d
    exact congrArg Draft.mk hout
  unfold takeLine
  cases h with
  | unrecognized hnone =>
    rw [Line.read_of_unclassifiable hnone]
    exact ⟨_, rfl, rfl⟩
  | symbolOutside hsymbol hout =>
    obtain ⟨name, hmark⟩ := hsymbol
    obtain rfl := hlatest hout
    rw [Line.read_of_symbolMarker hmark]
    exact ⟨_, rfl, rfl⟩
  | instructionOutside hinstruction hout =>
    obtain ⟨i, hline⟩ := hinstruction
    obtain rfl := hlatest hout
    rw [Line.read_of_instructionLine hline]
    exact ⟨_, rfl, rfl⟩
  | noSymbol hinstruction hinner =>
    obtain ⟨i, hline⟩ := hinstruction
    rw [← inEmptySection_keptLines, ← hgrown.lastIsEmpty_iff] at hinner
    obtain ⟨earlier, s, hsections, hempty⟩ := hinner
    obtain ⟨⟨name, symbols⟩, others, rfl, rfl, -⟩ := Draft.exists_latest hsections
    obtain rfl : symbols = [] := by simpa [Draft.forwardSection] using hempty
    rw [Line.read_of_instructionLine hline]
    exact ⟨_, rfl, rfl⟩

theorem report?_of_outcome {r : Reading} {fault : Fault} (h : r.outcome = .error fault) :
    r.report? = some fault.report := by
  rw [Reading.report?, h]

theorem report?_of_stop {first : SourceLine} {header : Header} {body : List SourceLine}
    {fault : Fault} (hheader : HeaderLine first.text header)
    (hstop : body.foldlM takeLine {} = .error fault) :
    (readSource (first :: body)).report? = some fault.report := by
  apply report?_of_outcome
  rw [readSource_outcome (Header.read?_eq_some_iff.mpr hheader), hstop]
  rfl

/-- The header and the lines behind it, with the number of each. -/
theorem ofTexts_append_cons {blanks : List String} {first : String}
    (hblanks : ∀ blank ∈ blanks, isBlank blank = true) (hfirst : isBlank first = false)
    (body : List String) : SourceLine.ofTexts (blanks ++ first :: body) =
      ⟨first, blanks.length + 1⟩ :: SourceLine.numberedFrom (blanks.length + 1 + 1) body := by
  rw [SourceLine.ofTexts_eq, SourceLine.numberedFrom_append_cons hblanks hfirst,
    Nat.add_comm 1 blanks.length]

theorem exists_run_of_fits {lines : List String} (h : Fits lines) (n : Nat) :
    ∃ d, (SourceLine.numberedFrom n lines).foldlM takeLine {} = .ok d ∧
      Grown (keptLines lines) d.sections := by
  obtain ⟨ss, hgrown⟩ := exists_grown_of_fits h
  rw [← SourceLine.map_text_numberedFrom n lines] at hgrown
  obtain ⟨d, hrun, rfl⟩ := exists_foldlM_of_grown hgrown
  rw [SourceLine.map_text_numberedFrom] at hgrown
  exact ⟨d, hrun, hgrown⟩

end Listing

theorem Verdict.report?_eq {texts : List String} {report : Option Report}
    (h : Verdict texts report) : (Listing.readLines texts).report? = report := by
  cases h with
  | empty hblank =>
    rw [Listing.readLines, SourceLine.ofTexts_eq, SourceLine.numberedFrom_of_blank hblank]
    rfl
  | @malformedHeader blanks first body hblanks hfirst hheader =>
    have hnone : Header.read? (SourceLine.mk first (blanks.length + 1)).text = none :=
      Option.eq_none_iff_forall_ne_some.mpr fun header hread =>
        hheader header (Header.read?_eq_some_iff.mp hread)
    have houtcome := Listing.readSource_of_malformed hnone
      (SourceLine.numberedFrom (blanks.length + 1 + 1) body)
    rw [Listing.readLines, Listing.ofTexts_append_cons hblanks hfirst,
      Listing.report?_of_outcome houtcome]
    rfl
  | @offending blanks first header before text after kind message hblanks hfirst hheader hfits
      htext hoffends =>
    obtain ⟨d, hrun, hgrown⟩ := Listing.exists_run_of_fits hfits (blanks.length + 1 + 1)
    obtain ⟨fault, htake, hreport⟩ := Listing.takeLine_of_offends hgrown
      ⟨text, blanks.length + 1 + 1 + before.length⟩ hoffends
    have hstop := foldlM_append_eq_error hrun htake
      (SourceLine.numberedFrom (blanks.length + 1 + 1 + before.length + 1) after)
    rw [Listing.readLines, Listing.ofTexts_append_cons hblanks hfirst,
      SourceLine.numberedFrom_append, SourceLine.numberedFrom_cons_kept htext]
    rw [Listing.report?_of_stop hheader hstop, hreport, Nat.add_right_comm]
  | @accepted blanks first header body hblanks hfirst hheader hfits =>
    obtain ⟨d, hrun, -⟩ := Listing.exists_run_of_fits hfits (blanks.length + 1 + 1)
    rw [Listing.readLines, Listing.ofTexts_append_cons hblanks hfirst, Listing.Reading.report?,
      Listing.readSource_outcome (Header.read?_eq_some_iff.mpr hheader), hrun]
    rfl

/-- The search for the first line that is not blank. -/
theorem blank_or_exists_first (texts : List String) :
    (∀ text ∈ texts, isBlank text = true) ∨ ∃ blanks first body,
      texts = blanks ++ first :: body ∧ (∀ blank ∈ blanks, isBlank blank = true) ∧
        isBlank first = false := by
  induction texts with
  | nil => exact Or.inl (by simp)
  | cons text texts ih =>
    cases htext : isBlank text with
    | false => exact Or.inr ⟨[], text, texts, rfl, by simp, htext⟩
    | true =>
      rcases ih with hall | ⟨blanks, first, body, rfl, hblanks, hfirst⟩
      · exact Or.inl (List.forall_mem_cons.mpr ⟨htext, hall⟩)
      · exact Or.inr ⟨text :: blanks, first, body, rfl,
          List.forall_mem_cons.mpr ⟨htext, hblanks⟩, hfirst⟩

theorem exists_verdict (texts : List String) : ∃ report, Verdict texts report := by
  rcases blank_or_exists_first texts with hall | ⟨blanks, first, body, rfl, hblanks, hfirst⟩
  · exact ⟨_, Verdict.empty hall⟩
  · by_cases hheader : ∃ header, HeaderLine first header
    · obtain ⟨header, hheader⟩ := hheader
      rcases fits_or_exists_first body with hfits | ⟨_, _, _, _, _, rfl, hfits, htext, hoffends⟩
      · exact ⟨_, Verdict.accepted hblanks hfirst hheader hfits⟩
      · exact ⟨_, Verdict.offending hblanks hfirst hheader hfits htext hoffends⟩
    · exact ⟨_, Verdict.malformedHeader hblanks hfirst fun header h => hheader ⟨header, h⟩⟩

/-- Reading succeeds, or fails with a report, exactly as the verdict on its lines says. -/
theorem verdict_iff_report {texts : List String} {report : Option Report} :
    Verdict texts report ↔ (Listing.readLines texts).report? = report := by
  constructor
  · exact Verdict.report?_eq
  · rintro rfl
    obtain ⟨report, hverdict⟩ := exists_verdict texts
    rw [hverdict.report?_eq]
    exact hverdict

/-- The second section marker closes the symbol, and the blank line counts. -/
example : (Listing.readLines ["a.o: file format elf", "Disassembly of section .text:", "<f>:",
    "", "Disassembly of section .init:", "\tret", "<f"]).report? =
      some ⟨.missingSymbol, "attempted to add an instruction without first defining a symbol",
        some "\tret", some 6⟩ := by
  decide

end CanonicalListing
