import CanonicalListing.Proofs.Verdict

/-!
# Inserted blank lines

Blank lines decide nothing: a line fits the lines before it exactly if it fits those of them that
are not blank. So blank lines may be put in front of any line of a listing that is not read, and
behind the last one. The same line is reported for the same reason, and its number is greater by
as many as were put before it.
-/

namespace CanonicalListing

open Text

/-! ### Fitting and offending lines -/

theorem Offends.of_keptLines_eq {before before' : List String} {text : String} {kind : Cause.Kind}
    {message : String} (h : Offends before text kind message)
    (heq : keptLines before' = keptLines before) : Offends before' text kind message := by
  have hout : OutsideSections before → OutsideSections before' := by
    rw [← outsideSections_keptLines, ← heq, outsideSections_keptLines]
    exact id
  have hinner : InEmptySection before → InEmptySection before' := by
    rw [← inEmptySection_keptLines, ← heq, inEmptySection_keptLines]
    exact id
  cases h with
  | unrecognized hnone => exact .unrecognized hnone
  | symbolOutside hsymbol h => exact .symbolOutside hsymbol (hout h)
  | instructionOutside hinstruction h => exact .instructionOutside hinstruction (hout h)
  | noSymbol hinstruction h => exact .noSymbol hinstruction (hinner h)

theorem offends_keptLines_iff {before : List String} {text : String} {kind : Cause.Kind}
    {message : String} :
    Offends (keptLines before) text kind message ↔ Offends before text kind message := by
  have hself : keptLines (keptLines before) = keptLines before := by simp [keptLines]
  exact ⟨fun h => h.of_keptLines_eq hself.symm, fun h => h.of_keptLines_eq hself⟩

theorem fits_keptLines_iff {lines : List String} : Fits (keptLines lines) ↔ Fits lines := by
  induction lines using List.reverseRecOn with
  | nil => exact Iff.rfl
  | append_singleton lines text ih =>
    rw [keptLines_concat, fits_concat_iff]
    split_ifs with hblank
    · simp [ih, hblank]
    · simp only [fits_concat_iff, ih, offends_keptLines_iff]

/-- Whether lines fit depends on the kept ones. -/
theorem Fits.of_keptLines_eq {lines lines' : List String} (h : Fits lines)
    (heq : keptLines lines' = keptLines lines) : Fits lines' := by
  rw [← fits_keptLines_iff, heq]
  exact fits_keptLines_iff.mpr h

theorem Offends.kind_ne {before : List String} {text : String} {kind : Cause.Kind}
    {message : String} (h : Offends before text kind message) : kind ≠ .emptyInput := by
  cases h <;> simp

/-! ### Padded lines -/

/-- A line and the blank lines that are put in front of it. -/
structure PaddedLine where
  blanks : List String
  text : String
  blank : ∀ text ∈ blanks, isBlank text = true

def PaddedLine.lines (e : PaddedLine) : List String := e.blanks ++ [e.text]

namespace Padding

def lines (es : List PaddedLine) : List String := es.flatMap PaddedLine.lines

/-- How many blank lines are put in. -/
def inserted (es : List PaddedLine) : Nat := (es.flatMap PaddedLine.blanks).length

@[simp] theorem lines_append (es fs : List PaddedLine) : lines (es ++ fs) = lines es ++ lines fs :=
  List.flatMap_append

@[simp] theorem lines_cons (e : PaddedLine) (es : List PaddedLine) :
    lines (e :: es) = e.blanks ++ e.text :: lines es := by
  simp [lines, PaddedLine.lines]

@[simp] theorem inserted_nil : inserted [] = 0 := rfl

@[simp] theorem inserted_append (es fs : List PaddedLine) :
    inserted (es ++ fs) = inserted es + inserted fs := by
  simp [inserted]

@[simp] theorem inserted_cons (e : PaddedLine) (es : List PaddedLine) :
    inserted (e :: es) = e.blanks.length + inserted es := by
  simp [inserted]

theorem length_lines (es : List PaddedLine) : (lines es).length = es.length + inserted es := by
  induction es with
  | nil => rfl
  | cons e es ih =>
    simp only [lines_cons, inserted_cons, List.length_append, List.length_cons, ih]
    omega

theorem keptLines_lines (es : List PaddedLine) :
    keptLines (lines es) = keptLines (es.map PaddedLine.text) := by
  induction es with
  | nil => rfl
  | cons e es ih =>
    have hblanks : keptLines e.blanks = [] := keptLines_eq_nil_iff.mpr e.blank
    rw [lines_cons, keptLines_append, hblanks, List.nil_append, List.map_cons,
      ← List.singleton_append, keptLines_append, ih, ← keptLines_append, List.singleton_append]

end Padding

/-- Blank lines that are put between the lines of a listing, and behind its last line. -/
structure Padding where
  entries : List PaddedLine
  final : List String
  blank : ∀ text ∈ final, isBlank text = true

namespace Padding

/-- The lines without what is put in. -/
def texts (p : Padding) : List String := p.entries.map PaddedLine.text

def padded (p : Padding) : List String := lines p.entries ++ p.final

/-- What is told about the padded lines: the same about the same line, with its new number. -/
structure Moves (p : Padding) (r r' : Report) : Prop where
  kind : r'.kind = r.kind
  message : r'.message = r.message
  line : r'.line = r.line
  number : (r.kind = .emptyInput ∧ r.lineNumber = none ∧ r'.lineNumber = none) ∨
    (r.kind ≠ .emptyInput ∧ ∃ (before : List PaddedLine) (e : PaddedLine) (after : List PaddedLine),
      p.entries = before ++ e :: after ∧ r.line = some e.text ∧
        r.lineNumber = some ↑(before.length + 1) ∧
        r'.lineNumber = some ↑(before.length + 1 + inserted (before ++ [e])))

/-- The blank lines in front of a line, and the lines before it. -/
def upTo (before : List PaddedLine) (e : PaddedLine) : List String := lines before ++ e.blanks

theorem keptLines_upTo (before : List PaddedLine) (e : PaddedLine) :
    keptLines (upTo before e) = keptLines (before.map PaddedLine.text) := by
  have hblanks : keptLines e.blanks = [] := keptLines_eq_nil_iff.mpr e.blank
  rw [upTo, keptLines_append, hblanks, List.append_nil, keptLines_lines]

theorem length_upTo (before : List PaddedLine) (e : PaddedLine) :
    (upTo before e).length = before.length + inserted (before ++ [e]) := by
  rw [upTo, List.length_append, length_lines, inserted_append, inserted_cons]
  simp [Nat.add_assoc]

theorem blank_upTo {before : List PaddedLine} (h : ∀ e ∈ before, isBlank e.text = true)
    (e : PaddedLine) : ∀ text ∈ upTo before e, isBlank text = true := by
  rw [← keptLines_eq_nil_iff, keptLines_upTo, keptLines_eq_nil_iff]
  exact List.forall_mem_map.mpr h

theorem padded_eq {p : Padding} {before after : List PaddedLine} {e : PaddedLine}
    (h : p.entries = before ++ e :: after) :
    p.padded = upTo before e ++ e.text :: (lines after ++ p.final) := by
  rw [padded, h, lines_append, lines_cons, upTo]
  simp

theorem exists_entries {es : List PaddedLine} {front back : List String} {text : String}
    (h : es.map PaddedLine.text = front ++ text :: back) : ∃ before e after,
      es = before ++ e :: after ∧ before.map PaddedLine.text = front ∧ e.text = text ∧
        after.map PaddedLine.text = back := by
  obtain ⟨before, rest, rfl, hfront, hrest⟩ := List.map_eq_append_iff.mp h
  obtain ⟨e, after, rfl, htext, hback⟩ := List.map_eq_cons_iff.mp hrest
  exact ⟨before, e, after, rfl, hfront, htext, hback⟩

/-- The verdict on the padded lines, case by case. -/
theorem exists_moved_of_verdict {p : Padding} {r : Report} (h : Verdict p.texts (some r)) :
    ∃ r', Verdict p.padded (some r') ∧ p.Moves r r' := by
  generalize htexts : p.texts = texts at h
  generalize hreport : some r = report at h
  cases h with
  | empty hblank =>
    obtain rfl := Option.some.inj hreport
    have hkept : keptLines p.padded = [] := by
      rw [padded, keptLines_append, keptLines_lines, keptLines_eq_nil_iff.mpr p.blank,
        List.append_nil, keptLines_eq_nil_iff]
      rwa [← htexts] at hblank
    exact ⟨_, .empty (keptLines_eq_nil_iff.mp hkept), rfl, rfl, rfl, .inl ⟨rfl, rfl, rfl⟩⟩
  | malformedHeader hblanks hfirst hheader =>
    obtain rfl := Option.some.inj hreport
    obtain ⟨before, e, after, hentries, rfl, rfl, rfl⟩ := exists_entries htexts
    rw [padded_eq hentries]
    refine ⟨_, .malformedHeader (blank_upTo (List.forall_mem_map.mp hblanks) e) hfirst hheader, rfl,
      rfl, rfl, .inr ⟨by simp, before, e, after, hentries, rfl, ?_, ?_⟩⟩
    · rw [List.length_map]
    · rw [length_upTo, Nat.add_right_comm]
  | offending hblanks hfirst hheader hfits htext hoffends =>
    obtain rfl := Option.some.inj hreport
    obtain ⟨before, e, rest, hentries, rfl, rfl, hrest⟩ := exists_entries htexts
    obtain ⟨mid, o, after, rfl, rfl, rfl, rfl⟩ := exists_entries hrest
    have hkept := keptLines_upTo mid o
    have hentries' : p.entries = (before ++ e :: mid) ++ o :: after := by simp [hentries]
    have hnumber : (upTo before e).length + 1 + (upTo mid o).length + 1 =
        (before ++ e :: mid).length + 1 + inserted ((before ++ e :: mid) ++ [o]) := by
      simp only [length_upTo, inserted_append, inserted_cons, inserted_nil, List.length_append,
        List.length_cons]
      omega
    have hpadded : p.padded = upTo before e ++ e.text :: (upTo mid o ++ o.text ::
        (lines after ++ p.final)) := by
      rw [padded_eq hentries, lines_append, lines_cons, upTo, upTo]
      simp
    rw [hpadded]
    refine ⟨_, .offending (blank_upTo (List.forall_mem_map.mp hblanks) e) hfirst hheader
      (hfits.of_keptLines_eq hkept) htext (hoffends.of_keptLines_eq hkept), rfl, rfl, rfl,
      .inr ⟨hoffends.kind_ne, _, o, after, hentries', rfl, ?_, ?_⟩⟩
    · simp only [List.length_map, List.length_append, List.length_cons, Nat.add_assoc,
        Nat.add_comm 1]
    · rw [hnumber]
  | accepted => cases hreport

theorem exists_moved {p : Padding} {r : Report} (h : (Listing.readLines p.texts).report? = some r) :
    ∃ r', (Listing.readLines p.padded).report? = some r' ∧ p.Moves r r' := by
  obtain ⟨report, hverdict⟩ := exists_verdict p.texts
  obtain rfl : report = some r := hverdict.report?_eq.symm.trans h
  obtain ⟨r', hpadded, hmoves⟩ := exists_moved_of_verdict hverdict
  exact ⟨r', hpadded.report?_eq, hmoves⟩

end Padding
end CanonicalListing
