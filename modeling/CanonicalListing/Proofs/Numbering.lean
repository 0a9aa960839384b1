import CanonicalListing.Proofs.Growth

/-!
# Kept lines and their numbers

Blank lines are dropped before anything else is looked at, but they count for the line
numbers. The outcome of a reading is that of the kept lines, taken one by one behind the
header.
-/

namespace CanonicalListing

open Text

/-- The lines that are not blank. -/
def keptLines (texts : List String) : List String := texts.filter fun text => !isBlank text

theorem keptLines_append (texts texts' : List String) :
    keptLines (texts ++ texts') = keptLines texts ++ keptLines texts' :=
  List.filter_append texts texts'

theorem keptLines_cons {text : String} (h : isBlank text = false) (texts : List String) :
    keptLines (text :: texts) = text :: keptLines texts := by
  rw [keptLines, List.filter_cons_of_pos (by simp [h]), keptLines]

theorem keptLines_cons_blank {text : String} (h : isBlank text = true) (texts : List String) :
    keptLines (text :: texts) = keptLines texts := by
  rw [keptLines, List.filter_cons_of_neg (by simp [h]), keptLines]

theorem keptLines_eq_nil_iff {texts : List String} :
    keptLines texts = [] ↔ ∀ text ∈ texts, isBlank text = true := by
  simp [keptLines, List.filter_eq_nil_iff]

/-- The header, if there is one, and the kept lines behind it. -/
theorem exists_keptLines_eq_cons {texts : List String} (h : ∃ text ∈ texts, isBlank text = false) :
    ∃ first rest, keptLines texts = first :: rest := by
  apply List.exists_cons_of_ne_nil
  rw [ne_eq, keptLines_eq_nil_iff]
  obtain ⟨text, hmem, htext⟩ := h
  exact fun hall => Bool.false_ne_true (htext.symm.trans (hall text hmem))

theorem keptLines_eq_self {texts : List String} (h : ∀ text ∈ texts, isBlank text = false) :
    keptLines texts = texts := by
  rw [keptLines, List.filter_eq_self]
  intro text htext
  simp [h text htext]

namespace SourceLine

/-- The kept lines with their numbers, when the first line has the number `n`. -/
def numberedFrom (n : Nat) (texts : List String) : List SourceLine :=
  ((texts.zipIdx n).map fun (text, number) => ⟨text, number⟩).filter fun line => !isBlank line.text

theorem ofTexts_eq (texts : List String) : ofTexts texts = numberedFrom 1 texts := rfl

@[simp] theorem numberedFrom_nil (n : Nat) : numberedFrom n [] = [] := rfl

theorem numberedFrom_cons_blank {text : String} (h : isBlank text = true) (n : Nat)
    (texts : List String) : numberedFrom n (text :: texts) = numberedFrom (n + 1) texts := by
  simp [numberedFrom, h]

theorem numberedFrom_cons_kept {text : String} (h : isBlank text = false) (n : Nat)
    (texts : List String) :
    numberedFrom n (text :: texts) = ⟨text, n⟩ :: numberedFrom (n + 1) texts := by
  simp [numberedFrom, h]

theorem numberedFrom_append (n : Nat) (texts texts' : List String) :
    numberedFrom n (texts ++ texts') =
      numberedFrom n texts ++ numberedFrom (n + texts.length) texts' := by
  simp [numberedFrom, List.zipIdx_append]

theorem numberedFrom_of_blank {texts : List String} (h : ∀ text ∈ texts, isBlank text = true)
    (n : Nat) : numberedFrom n texts = [] := by
  induction texts generalizing n with
  | nil => rfl
  | cons text texts ih =>
    obtain ⟨htext, htexts⟩ := List.forall_mem_cons.mp h
    rw [numberedFrom_cons_blank htext, ih htexts]

/-- Behind blank lines, the first kept line comes with its number. -/
theorem numberedFrom_append_cons {blanks : List String} {text : String}
    (hblanks : ∀ blank ∈ blanks, isBlank blank = true) (htext : isBlank text = false) (n : Nat)
    (texts : List String) : numberedFrom n (blanks ++ text :: texts) =
      ⟨text, n + blanks.length⟩ :: numberedFrom (n + blanks.length + 1) texts := by
  rw [numberedFrom_append, numberedFrom_of_blank hblanks, numberedFrom_cons_kept htext,
    List.nil_append]

@[simp] theorem map_text_numberedFrom (n : Nat) (texts : List String) :
    (numberedFrom n texts).map text = keptLines texts := by
  induction texts generalizing n with
  | nil => rfl
  | cons text texts ih =>
    cases h : isBlank text with
    | true =>
      rw [numberedFrom_cons_blank h, ih, keptLines_cons_blank h]
    | false =>
      rw [numberedFrom_cons_kept h, List.map_cons, ih, keptLines_cons h]

end SourceLine

namespace Listing

theorem readSource_outcome {first : SourceLine} {header : Header}
    (h : Header.read? first.text = some header) (body : List SourceLine) :
    (readSource (first :: body)).outcome = (body.foldlM takeLine {}).map fun draft =>
      Listing.sort ⟨header.fileName, header.fileFormat, draft.sections⟩ := by
  rw [← readBody_outcome [opening header]]
  unfold readSource
  simp only [h]
  cases readBody [opening header] {} body with
  | mk written outcome => cases outcome <;> rfl

theorem readSource_of_malformed {first : SourceLine} (h : Header.read? first.text = none)
    (body : List SourceLine) : (readSource (first :: body)).outcome =
      .error (Fault.malformedHeader first.text (some first.number)) := by
  unfold readSource
  simp only [h]

theorem readSource_eq_ok_iff {first : SourceLine} {body : List SourceLine} {l : Listing} :
    (readSource (first :: body)).outcome = .ok l ↔ ∃ header ss,
      HeaderLine first.text header ∧ Grown (body.map SourceLine.text) ss ∧
        l = Listing.sort ⟨header.fileName, header.fileFormat, ss⟩ := by
  constructor
  · intro h
    cases hheader : Header.read? first.text with
    | none =>
      rw [readSource_of_malformed hheader] at h
      exact absurd h (by simp)
    | some header =>
      rw [readSource_outcome hheader, map_eq_ok_iff] at h
      obtain ⟨draft, hrun, rfl⟩ := h
      exact ⟨header, draft.sections, Header.read?_eq_some_iff.mp hheader, grown_of_foldlM hrun, rfl⟩
  · rintro ⟨header, ss, hheader, hgrown, rfl⟩
    obtain ⟨draft, hrun, rfl⟩ := exists_foldlM_of_grown hgrown
    rw [readSource_outcome (Header.read?_eq_some_iff.mpr hheader), hrun]
    rfl

/-- A reading succeeds on a header with lines behind it that fit one after the other. -/
theorem readLines_eq_ok_iff {texts : List String} {l : Listing} :
    (readLines texts).outcome = .ok l ↔ ∃ first body header ss,
      keptLines texts = first :: body ∧ HeaderLine first header ∧ Grown body ss ∧
        l = Listing.sort ⟨header.fileName, header.fileFormat, ss⟩ := by
  rw [readLines, SourceLine.ofTexts_eq, ← SourceLine.map_text_numberedFrom 1 texts]
  cases SourceLine.numberedFrom 1 texts with
  | nil =>
    constructor
    · intro h
      exact absurd h (by simp [readSource])
    · rintro ⟨first, body, -, -, hkept, -⟩
      exact absurd hkept (by simp)
  | cons source sources =>
    rw [readSource_eq_ok_iff]
    constructor
    · rintro ⟨header, ss, h⟩
      exact ⟨source.text, sources.map SourceLine.text, header, ss, rfl, h⟩
    · rintro ⟨first, body, header, ss, hkept, h⟩
      obtain ⟨rfl, rfl⟩ := List.cons.inj hkept
      exact ⟨header, ss, h⟩

end Listing
end CanonicalListing
