import CanonicalListing.Proofs.Blocks
import CanonicalListing.Proofs.TraceLimit
import CanonicalListing.Proofs.Verdict

/-!
# The journal of a reading

A reading that writes its journal as it goes comes to the same as one that collects its
entries first: the journal is looked at nowhere. What it says is settled by the verdict on
the lines. A header that is not there or not understood leaves the journal empty. Behind
any other header there is a remark on every marker up to the line that does not fit, that
line included, with the numbers that the lines have in the input; the remarks are limited,
and only a reading that goes through to the end closes with its tally.
-/

namespace CanonicalListing

open Text Journal

namespace Listing

/-! ### Writing the journal while reading -/

/-- The remaining lines, with a journal that is written line by line. -/
def noteBody (policy : Policy) (p : Page) (d : Draft) : List SourceLine → Page × Except Fault Draft
  | [] => (p, .ok d)
  | source :: rest =>
    let line := Line.read source.text
    let p := p.putAll policy (traces source.number line)
    match advance d source line with
    | .ok next => noteBody policy p next rest
    | .error fault => (p, .error (fault.locate source.text source.number))

def noteSource (policy : Policy) (p : Page) : List SourceLine → Page × Except Fault Listing
  | [] => (p, .error Fault.emptyInput)
  | first :: body =>
    match Header.read? first.text with
    | none => (p, .error (Fault.malformedHeader first.text (some first.number)))
    | some header =>
      match noteBody policy (p.put policy (opening header)) {} body with
      | (p, .error fault) => (p, .error fault)
      | (p, .ok draft) =>
        let listing := Listing.sort ⟨header.fileName, header.fileFormat, draft.sections⟩
        (p.put policy (closing listing.tally), .ok listing)

/-- The reading of a sequence of lines that continues a journal. -/
def noteLines (policy : Policy) (p : Page) (texts : List String) : Page × Except Fault Listing :=
  noteSource policy p (SourceLine.ofTexts texts)

theorem reverse_traces (number : Nat) (line : Line) :
    (traces number line).reverse = traces number line := by
  cases line <;> rfl

/-- Whatever is written already, latest first, and goes on to be written. -/
theorem noteBody_eq (policy : Policy) (p : Page) (written : List Entry) (d : Draft)
    (sources : List SourceLine) :
    noteBody policy (p.putAll policy written.reverse) d sources =
      (p.putAll policy (readBody written d sources).1.reverse, (readBody written d sources).2) := by
  induction sources generalizing written d with
  | nil => rfl
  | cons source rest ih =>
    have hput : (p.putAll policy written.reverse).putAll policy
        (traces source.number (Line.read source.text)) =
          p.putAll policy (traces source.number (Line.read source.text) ++ written).reverse := by
      rw [List.reverse_append, reverse_traces, Page.putAll_append]
    simp only [noteBody, readBody, hput]
    cases advance d source (Line.read source.text) with
    | ok next => exact ih _ next
    | error fault => rfl

theorem noteSource_eq (policy : Policy) (p : Page) (sources : List SourceLine) :
    noteSource policy p sources =
      (p.putAll policy (readSource sources).entries, (readSource sources).outcome) := by
  cases sources with
  | nil => rfl
  | cons first body =>
    cases hheader : Header.read? first.text with
    | none => simp only [noteSource, readSource, hheader]; rfl
    | some header =>
      have hbody := noteBody_eq policy p [opening header] {} body
      have hopening :
          p.putAll policy [opening header].reverse = p.put policy (opening header) := rfl
      simp only [noteSource, readSource, hheader, ← hopening, hbody]
      cases readBody [opening header] {} body with
      | mk written outcome =>
        cases outcome with
        | error fault => rfl
        | ok draft => simp only [List.reverse_cons, Page.putAll_append]; rfl

theorem noteLines_eq (policy : Policy) (p : Page) (texts : List String) :
    noteLines policy p texts =
      (p.putAll policy (readLines texts).entries, (readLines texts).outcome) :=
  noteSource_eq policy p (SourceLine.ofTexts texts)

end Listing

/-! ### The remarks on lines -/

/-- What is remarked on a line with its number: something on a marker, nothing on any other. -/
inductive Remarked (number : Nat) (text : String) : List String → Prop
  | sectionMarker {name} : SectionMarker text name →
      Remarked number text [toString number ++ ": section " ++ name]
  | symbolMarker {name} : SymbolMarker text name →
      Remarked number text [toString number ++ ": symbol " ++ name]
  | other : ¬ IsSectionMarker text → ¬ IsSymbolMarker text → Remarked number text []

/-- The remarks on successive lines, the first of which has the given number. -/
inductive RemarkedFrom : Nat → List String → List String → Prop
  | nil {number} : RemarkedFrom number [] []
  | cons {number text texts remarks later} : Remarked number text remarks →
      RemarkedFrom (number + 1) texts later →
      RemarkedFrom number (text :: texts) (remarks ++ later)

theorem exists_remarked (number : Nat) (text : String) :
    ∃ remarks, Remarked number text remarks := by
  by_cases hsection : IsSectionMarker text
  · obtain ⟨name, hmark⟩ := hsection
    exact ⟨_, .sectionMarker hmark⟩
  · by_cases hsymbol : IsSymbolMarker text
    · obtain ⟨name, hmark⟩ := hsymbol
      exact ⟨_, .symbolMarker hmark⟩
    · exact ⟨_, .other hsection hsymbol⟩

theorem exists_remarkedFrom (number : Nat) (texts : List String) :
    ∃ remarks, RemarkedFrom number texts remarks := by
  induction texts generalizing number with
  | nil => exact ⟨[], .nil⟩
  | cons text texts ih =>
    obtain ⟨remarks, hremarks⟩ := exists_remarked number text
    obtain ⟨later, hlater⟩ := ih (number + 1)
    exact ⟨remarks ++ later, .cons hremarks hlater⟩

namespace Listing

def tracesOn (source : SourceLine) : List Entry := traces source.number (Line.read source.text)

end Listing

theorem Remarked.tracesOn_eq {number : Nat} {text : String} {remarks : List String}
    (h : Remarked number text remarks) :
    Listing.tracesOn ⟨text, number⟩ = remarks.map (trace Listing.journalTag) := by
  unfold Listing.tracesOn
  cases h with
  | sectionMarker hmark => rw [Line.read_of_sectionMarker hmark]; rfl
  | symbolMarker hmark => rw [Line.read_of_symbolMarker hmark]; rfl
  | other hsection hsymbol =>
    rcases kinds_exhaust text with hmark | hmark | ⟨i, hline⟩ | hnone
    · exact absurd hmark hsection
    · exact absurd hmark hsymbol
    · rw [Line.read_of_instructionLine hline]; rfl
    · rw [Line.read_of_unclassifiable hnone]; rfl

theorem Remarked.eq_nil_of_isBlank {number : Nat} {text : String} {remarks : List String}
    (h : Remarked number text remarks) (hblank : isBlank text = true) : remarks = [] := by
  obtain ⟨hsection, hsymbol, -⟩ := Unclassifiable.of_isBlank hblank
  cases h with
  | sectionMarker hmark => exact absurd ⟨_, hmark⟩ hsection
  | symbolMarker hmark => exact absurd ⟨_, hmark⟩ hsymbol
  | other _ _ => rfl

/-- Blank lines count for the numbers, and nothing is said of them. -/
theorem RemarkedFrom.flatMap_tracesOn {number : Nat} {texts remarks : List String}
    (h : RemarkedFrom number texts remarks) :
    (SourceLine.numberedFrom number texts).flatMap Listing.tracesOn =
      remarks.map (trace Listing.journalTag) := by
  induction h with
  | nil => rfl
  | @cons number text texts remarks later hremarks _ ih =>
    cases hblank : isBlank text with
    | true =>
      rw [SourceLine.numberedFrom_cons_blank hblank, ih, hremarks.eq_nil_of_isBlank hblank,
        List.nil_append]
    | false =>
      rw [SourceLine.numberedFrom_cons_kept hblank, List.flatMap_cons, ih, hremarks.tracesOn_eq,
        List.map_append]

/-! ### What the journal says -/

/-- What a reading comes to, and the lines of its journal when this many traces are allowed. -/
inductive Chronicle (limit : Int) : List String → Except Report Listing → List String → Prop
  | empty {texts} : (∀ text ∈ texts, isBlank text = true) →
      Chronicle limit texts
        (.error ⟨.emptyInput, "the input does not contain any text", none, none⟩) []
  | malformedHeader {blanks first body} : (∀ blank ∈ blanks, isBlank blank = true) →
      isBlank first = false → (∀ header, ¬ HeaderLine first header) →
      Chronicle limit (blanks ++ first :: body)
        (.error ⟨.malformedHeader, "incorrect format for the first line: '" ++ first ++ "'",
          some first, some ↑(blanks.length + 1)⟩) []
  | offending {blanks first header before text after kind message remarks} :
      (∀ blank ∈ blanks, isBlank blank = true) → isBlank first = false →
      HeaderLine first header → Fits before → isBlank text = false →
      Offends before text kind message →
      RemarkedFrom (blanks.length + 2) (before ++ [text]) remarks →
      Chronicle limit (blanks ++ first :: (before ++ text :: after))
        (.error ⟨kind, message, some text, some ↑(blanks.length + 1 + before.length + 1)⟩)
        (("[PARSE] file=" ++ header.fileName ++ " format=" ++ header.fileFormat) ::
          limitedLines limit "PARSE" remarks)
  | accepted {blanks first header body remarks l} {source : SourceTree} :
      (∀ blank ∈ blanks, isBlank blank = true) → isBlank first = false →
      HeaderLine first header → Fits body → RemarkedFrom (blanks.length + 2) body remarks →
      source.lines = keptLines (blanks ++ first :: body) → source.toListing.Arranges l →
      Chronicle limit (blanks ++ first :: body) (.ok l)
        (("[PARSE] file=" ++ header.fileName ++ " format=" ++ header.fileFormat) ::
          (limitedLines limit "PARSE" remarks ++
            ["[PARSE] done: " ++ toString l.tally.sections ++ " sections, " ++
              toString l.tally.symbols ++ " symbols, " ++ toString l.tally.instructions ++
              " instructions"]))

namespace Listing

/-- The listing, or what is reported. -/
def Reading.told (r : Reading) : Except Report Listing := r.outcome.mapError Fault.report

theorem told_of_report? {r : Reading} {report : Report} (h : r.report? = some report) :
    r.told = .error report := by
  unfold Reading.report? at h
  cases houtcome : r.outcome with
  | ok l => simp [houtcome] at h
  | error fault =>
    obtain rfl : fault.report = report := by simpa [houtcome] using h
    simp [Reading.told, houtcome, Except.mapError]

theorem exists_outcome_of_report? {r : Reading} (h : r.report? = none) :
    ∃ l, r.outcome = .ok l := by
  unfold Reading.report? at h
  cases houtcome : r.outcome with
  | ok l => exact ⟨l, rfl⟩
  | error fault => simp [houtcome] at h

theorem told_of_outcome {r : Reading} {l : Listing} (h : r.outcome = .ok l) : r.told = .ok l := by
  rw [Reading.told, h]
  rfl

/-- Lines that are taken leave their traces, latest first. -/
theorem readBody_append {xs : List SourceLine} {d d' : Draft} (h : xs.foldlM takeLine d = .ok d')
    (written : List Entry) (ys : List SourceLine) :
    readBody written d (xs ++ ys) =
      readBody ((xs.flatMap tracesOn).reverse ++ written) d' ys := by
  induction xs generalizing d written with
  | nil =>
    obtain rfl := Except.ok.inj h
    rfl
  | cons source xs ih =>
    rw [List.foldlM_cons, takeLine] at h
    rw [List.cons_append, readBody]
    cases hadvance : advance d source (Line.read source.text) with
    | error fault =>
      rw [hadvance] at h
      cases h
    | ok next =>
      rw [hadvance] at h
      have hrest := ih h (traces source.number (Line.read source.text) ++ written)
      simpa [tracesOn, reverse_traces] using hrest

variable {first : SourceLine} {header : Header} {body : List SourceLine}

theorem entries_of_accepted {d : Draft} (hheader : HeaderLine first.text header)
    (hrun : body.foldlM takeLine {} = .ok d) :
    ∃ l, (readSource (first :: body)).outcome = .ok l ∧
      (readSource (first :: body)).entries =
        opening header :: (body.flatMap tracesOn ++ [closing l.tally]) := by
  have hbody := readBody_append hrun [opening header] []
  rw [List.append_nil, readBody] at hbody
  simp only [readSource, Header.read?_eq_some_iff.mpr hheader, hbody]
  exact ⟨_, rfl, by simp⟩

/-- The line that does not fit leaves its trace as well. -/
theorem entries_of_stop {d : Draft} {xs ys : List SourceLine} {source : SourceLine} {fault : Fault}
    (hheader : HeaderLine first.text header) (hrun : xs.foldlM takeLine {} = .ok d)
    (hstop : takeLine d source = .error fault) :
    (readSource (first :: (xs ++ source :: ys))).entries =
      opening header :: (xs ++ [source]).flatMap tracesOn := by
  have hbody := readBody_append hrun [opening header] (source :: ys)
  unfold takeLine at hstop
  cases hadvance : advance d source (Line.read source.text) with
  | ok next =>
    rw [hadvance] at hstop
    cases hstop
  | error fault' =>
    simp only [readBody, hadvance] at hbody
    simp only [readSource, Header.read?_eq_some_iff.mpr hheader, hbody]
    simp [tracesOn, reverse_traces]

end Listing

variable {limit : Int} {texts lines : List String} {told : Except Report Listing}

theorem Chronicle.told_eq (h : Chronicle limit texts told lines) :
    (Listing.readLines texts).told = told := by
  cases h with
  | empty hblank => exact Listing.told_of_report? (Verdict.empty hblank).report?_eq
  | malformedHeader hblanks hfirst hheader =>
    exact Listing.told_of_report? (Verdict.malformedHeader hblanks hfirst hheader).report?_eq
  | offending hblanks hfirst hheader hfits htext hoffends _ =>
    exact Listing.told_of_report?
      (Verdict.offending hblanks hfirst hheader hfits htext hoffends).report?_eq
  | accepted _ _ _ _ _ hlines harranges =>
    exact Listing.told_of_outcome (readLines_eq_ok_iff_blocks.mpr ⟨_, hlines, harranges⟩)

theorem tagged_file_eq (header : Header) :
    tagged "PARSE" ("file=" ++ header.fileName ++ " format=" ++ header.fileFormat) =
      "[PARSE] file=" ++ header.fileName ++ " format=" ++ header.fileFormat := by
  have hlead : tagged "PARSE" "file=" = "[PARSE] file=" := by decide
  rw [tagged_append, tagged_append, tagged_append, hlead]

theorem tagged_done_eq (t : Tally) :
    tagged "PARSE" ("done: " ++ toString t.sections ++ " sections, " ++ toString t.symbols ++
        " symbols, " ++ toString t.instructions ++ " instructions") =
      "[PARSE] done: " ++ toString t.sections ++ " sections, " ++ toString t.symbols ++
        " symbols, " ++ toString t.instructions ++ " instructions" := by
  have hlead : tagged "PARSE" "done: " = "[PARSE] done: " := by decide
  simp only [tagged_append, hlead]

theorem write_opening (header : Header) (limit : Int) (remarks : List String) :
    write ⟨true, limit⟩ (Listing.opening header :: remarks.map (trace Listing.journalTag)) =
      ("[PARSE] file=" ++ header.fileName ++ " format=" ++ header.fileFormat) ::
        limitedLines limit "PARSE" remarks := by
  rw [← tagged_file_eq]
  exact write_info_traces limit Listing.journalTag _ remarks

theorem Chronicle.write_eq (h : Chronicle limit texts told lines) :
    write ⟨true, limit⟩ (Listing.readLines texts).entries = lines := by
  cases h with
  | empty hblank =>
    rw [Listing.readLines, SourceLine.ofTexts_eq, SourceLine.numberedFrom_of_blank hblank]
    rfl
  | @malformedHeader blanks first body hblanks hfirst hheader =>
    have hnone : Header.read? first = none :=
      Option.eq_none_iff_forall_ne_some.mpr fun header hread =>
        hheader header (Header.read?_eq_some_iff.mp hread)
    rw [Listing.readLines, Listing.ofTexts_append_cons hblanks hfirst]
    simp only [Listing.readSource, hnone]
    rfl
  | @offending blanks first header before text after kind message remarks hblanks hfirst hheader
      hfits htext hoffends hremarks =>
    obtain ⟨d, hrun, hgrown⟩ := Listing.exists_run_of_fits hfits (blanks.length + 2)
    obtain ⟨fault, hstop, -⟩ := Listing.takeLine_of_offends hgrown
      ⟨text, blanks.length + 2 + before.length⟩ hoffends
    have htraces := hremarks.flatMap_tracesOn
    rw [SourceLine.numberedFrom_append, SourceLine.numberedFrom_cons_kept htext,
      SourceLine.numberedFrom_nil] at htraces
    rw [Listing.readLines, Listing.ofTexts_append_cons hblanks hfirst,
      SourceLine.numberedFrom_append, SourceLine.numberedFrom_cons_kept htext,
      Listing.entries_of_stop hheader hrun hstop, htraces]
    exact write_opening header limit remarks
  | @accepted blanks first header body remarks l source hblanks hfirst hheader hfits hremarks
      hsource harranges =>
    obtain ⟨d, hrun, -⟩ := Listing.exists_run_of_fits hfits (blanks.length + 2)
    obtain ⟨l', houtcome, hentries⟩ :=
      @Listing.entries_of_accepted ⟨first, blanks.length + 1⟩ header _ d hheader hrun
    have hlines : Listing.readLines (blanks ++ first :: body) =
        Listing.readSource (⟨first, blanks.length + 1⟩ ::
          SourceLine.numberedFrom (blanks.length + 2) body) := by
      rw [Listing.readLines, Listing.ofTexts_append_cons hblanks hfirst]
    have hread := readLines_eq_ok_iff_blocks.mpr ⟨source, hsource, harranges⟩
    rw [hlines, houtcome] at hread
    obtain rfl := Except.ok.inj hread
    rw [hlines, hentries, hremarks.flatMap_tracesOn, ← List.cons_append, Listing.closing,
      write_append_info, write_opening, Listing.journalTag, tagged_done_eq]
    rfl

theorem exists_chronicle (limit : Int) (texts : List String) :
    ∃ told lines, Chronicle limit texts told lines := by
  rcases blank_or_exists_first texts with hall | ⟨blanks, first, body, rfl, hblanks, hfirst⟩
  · exact ⟨_, _, .empty hall⟩
  · by_cases hheader : ∃ header, HeaderLine first header
    · obtain ⟨header, hheader⟩ := hheader
      rcases fits_or_exists_first body with hfits | ⟨_, _, _, _, _, rfl, hfits, htext, hoffends⟩
      · obtain ⟨remarks, hremarks⟩ := exists_remarkedFrom (blanks.length + 2) body
        have hnone := (Verdict.accepted hblanks hfirst hheader hfits).report?_eq
        obtain ⟨l, hread⟩ := Listing.exists_outcome_of_report? hnone
        obtain ⟨source, hlines, harranges⟩ := readLines_eq_ok_iff_blocks.mp hread
        exact ⟨_, _, .accepted hblanks hfirst hheader hfits hremarks hlines harranges⟩
      · obtain ⟨remarks, hremarks⟩ := exists_remarkedFrom (blanks.length + 2) _
        exact ⟨_, _, .offending hblanks hfirst hheader hfits htext hoffends hremarks⟩
    · exact ⟨_, _, .malformedHeader hblanks hfirst fun header h => hheader ⟨header, h⟩⟩

/-- A reading comes to the same whatever journal it writes, and the journal that it writes has the
entries of the reading. Of a new journal the lines are determined by the lines that are read. -/
theorem noteLines_iff_chronicle :
    (∀ policy page texts,
      (Listing.noteLines policy page texts).2 = (Listing.readLines texts).outcome) ∧
    (∀ policy texts, (Listing.noteLines policy {} texts).1.lines =
      write policy (Listing.readLines texts).entries) ∧
    ∀ limit texts told lines, Chronicle limit texts told lines ↔
      (Listing.noteLines ⟨true, limit⟩ {} texts).2.mapError Fault.report = told ∧
        (Listing.noteLines ⟨true, limit⟩ {} texts).1.lines = lines := by
  have hlines : ∀ policy texts, (Listing.noteLines policy {} texts).1.lines =
      write policy (Listing.readLines texts).entries := by
    intro policy texts
    rw [Listing.noteLines_eq]
    exact Page.lines_putAll_new _
  have houtcome : ∀ policy page texts,
      (Listing.noteLines policy page texts).2 = (Listing.readLines texts).outcome := by
    intro policy page texts
    rw [Listing.noteLines_eq]
  refine ⟨houtcome, hlines, ?_⟩
  intro limit texts told lines
  rw [houtcome, hlines]
  constructor
  · exact fun h => ⟨h.told_eq, h.write_eq⟩
  · rintro ⟨rfl, rfl⟩
    obtain ⟨told, lines, h⟩ := exists_chronicle limit texts
    rw [← h.told_eq, ← h.write_eq] at h
    exact h

/-- The marker outside a section is traced, and the limit falls on it. -/
example : (Listing.noteLines ⟨true, 1⟩ {} ["a.o: file format elf", "", "<f>:", "\tret"]).1.lines =
    ["[PARSE] file=a.o format=elf", "[PARSE] 3: symbol <f>",
      "[PARSE] trace limit of 1 lines reached"] := by
  decide +kernel

end CanonicalListing
