import CanonicalListing.Proofs.LineBreaks
import CanonicalListing.Proofs.Verdict

/-!
# Line endings

Lines are joined to a text by line feeds, with or without a carriage return in front, and each
boundary has its own choice. Cutting the text gives the lines back, and an ending behind the
last line gives one more line, which is empty. Blank lines at the end are not seen by a reading,
neither in its tree nor in a fault or an entry of its journal, so the text is read as the lines
are. A carriage return that stands alone belongs to the line it is in.
-/

namespace CanonicalListing
namespace Text

inductive LineBreak where
  | feed
  | returnFeed
  deriving DecidableEq, Repr

def LineBreak.text : LineBreak → String
  | feed => "\n"
  | returnFeed => "\r\n"

/-- A text that is kept as one line when a line break is written behind it. -/
structure Plain (text : String) : Prop where
  newline : '\n' ∉ text.toList
  last : text.toList.getLast? ≠ some '\r'

instance (text : String) : Decidable (Plain text) :=
  decidable_of_iff ('\n' ∉ text.toList ∧ text.toList.getLast? ≠ some '\r')
    ⟨fun h => ⟨h.1, h.2⟩, fun h => ⟨h.newline, h.last⟩⟩

/-- The texts with a line break at every boundary; the boundaries are counted from zero. -/
def joinLines (breaks : Nat → LineBreak) : List String → String
  | [] => ""
  | [text] => text
  | text :: next :: rest =>
    text ++ (breaks 0).text ++ joinLines (fun k => breaks (k + 1)) (next :: rest)

/-! ### Cutting what was joined -/

theorem lines_of_newline_notMem {text : String} (h : '\n' ∉ text.toList) : lines text = [text] := by
  rw [lines, List.splitOn_eq_singleton h]
  simp [closePieces]

theorem closePieces_cons {piece : List Char} {pieces : List (List Char)} (h : pieces ≠ []) :
    closePieces (piece :: pieces) = dropReturn piece :: closePieces pieces := by
  obtain ⟨next, rest, rfl⟩ := List.exists_cons_of_ne_nil h
  rfl

theorem lines_append_newline {front : String} (h : '\n' ∉ front.toList) (text : String) :
    lines (front ++ "\n" ++ text) = String.ofList (dropReturn front.toList) :: lines text := by
  have hsplit : (front ++ "\n" ++ text).toList.splitOn '\n' =
      front.toList :: text.toList.splitOn '\n' := by
    have hlist : (front ++ "\n" ++ text).toList = front.toList ++ '\n' :: text.toList := by simp
    rw [hlist, List.splitOn_append_cons_self, List.splitOn_eq_singleton h, List.singleton_append]
  rw [lines, hsplit, closePieces_cons (List.splitOn_ne_nil _ _), List.map_cons, lines]

/-- Either line break ends the line before it, and is no part of it. -/
theorem Plain.lines_append {front : String} (h : Plain front) (lineBreak : LineBreak)
    (text : String) : lines (front ++ lineBreak.text ++ text) = front :: lines text := by
  cases lineBreak with
  | feed =>
    rw [LineBreak.text, lines_append_newline h.newline, dropReturn, if_neg h.last,
      String.ofList_toList]
  | returnFeed =>
    have hreturn : front ++ "\r\n" ++ text = front ++ "\r" ++ "\n" ++ text := by
      rw [← String.toList_inj]
      simp
    have hnewline : '\n' ∉ (front ++ "\r").toList := by simpa using h.newline
    have hdrop : dropReturn (front ++ "\r").toList = front.toList := by simp [dropReturn]
    rw [LineBreak.text, hreturn, lines_append_newline hnewline, hdrop, String.ofList_toList]

theorem lines_joinLines {texts : List String} (hne : texts ≠ []) (h : ∀ text ∈ texts, Plain text)
    (breaks : Nat → LineBreak) : lines (joinLines breaks texts) = texts := by
  fun_induction joinLines breaks texts with
  | case1 => exact absurd rfl hne
  | case2 breaks text => exact lines_of_newline_notMem (h text List.mem_cons_self).newline
  | case3 breaks text next rest ih =>
    obtain ⟨htext, hrest⟩ := List.forall_mem_cons.mp h
    rw [htext.lines_append, ih (List.cons_ne_nil _ _) hrest]

/-- A line break behind the last line opens an empty line. -/
theorem lines_joinLines_append {texts : List String} (hne : texts ≠ [])
    (h : ∀ text ∈ texts, Plain text) (breaks : Nat → LineBreak) (last : LineBreak) :
    lines (joinLines breaks texts ++ last.text) = texts ++ [""] := by
  fun_induction joinLines breaks texts with
  | case1 => exact absurd rfl hne
  | case2 breaks text =>
    have hplain := (h text List.mem_cons_self).lines_append last ""
    rwa [String.append_empty] at hplain
  | case3 breaks text next rest ih =>
    obtain ⟨htext, hrest⟩ := List.forall_mem_cons.mp h
    rw [String.append_assoc, htext.lines_append, ih (List.cons_ne_nil _ _) hrest]
    rfl

/-- Whatever the line breaks, only blank lines are added, and they stand at the end. -/
theorem exists_lines_joinLines {texts : List String} (h : ∀ text ∈ texts, Plain text)
    (breaks : Nat → LineBreak) (last : Option LineBreak) :
    ∃ blanks, (∀ blank ∈ blanks, isBlank blank = true) ∧
      lines (joinLines breaks texts ++ last.elim "" LineBreak.text) = texts ++ blanks := by
  have hempty : ∀ blank ∈ [""], isBlank blank = true := by decide
  by_cases hne : texts = []
  · -- nothing to join: the text is that of one empty line
    subst hne
    have hplain : ∀ text ∈ [""], Plain text := by decide
    have hone := List.cons_ne_nil "" []
    cases last with
    | none => exact ⟨[""], hempty, lines_joinLines hone hplain breaks⟩
    | some last => exact ⟨["", ""], by decide, lines_joinLines_append hone hplain breaks last⟩
  · cases last with
    | none =>
      refine ⟨[], by simp, ?_⟩
      rw [Option.elim_none, String.append_empty, lines_joinLines hne h, List.append_nil]
    | some last => exact ⟨[""], hempty, lines_joinLines_append hne h breaks last⟩

/-! ### Carriage returns that stand alone -/

theorem exists_splitOn_append (a : Char) (xs ys : List Char) :
    ∃ front last first back, xs.splitOn a = front ++ [last] ∧ ys.splitOn a = first :: back ∧
      (xs ++ ys).splitOn a = front ++ (last ++ first) :: back := by
  obtain ⟨first, back, hys⟩ := List.exists_cons_of_ne_nil (List.splitOn_ne_nil a ys)
  induction xs with
  | nil => exact ⟨[], [], first, back, List.splitOn_nil a, hys, hys⟩
  | cons c xs ih =>
    obtain ⟨front, last, first', back', hxs, hys', hall⟩ := ih
    rw [List.cons_append, List.splitOn_cons_eq_if_modifyHead, List.splitOn_cons_eq_if_modifyHead,
      hxs, hall]
    split_ifs with hc
    · exact ⟨[] :: front, last, first', back', rfl, hys', rfl⟩
    · cases front with
      | nil => exact ⟨[], c :: last, first', back', rfl, hys', rfl⟩
      | cons piece front => exact ⟨(c :: piece) :: front, last, first', back', rfl, hys', rfl⟩

theorem closePieces_append_cons (front : List (List Char)) (piece : List Char)
    (back : List (List Char)) : closePieces (front ++ piece :: back) =
      front.map dropReturn ++ closePieces (piece :: back) := by
  induction front with
  | nil => rfl
  | cons first front ih =>
    rw [List.cons_append, closePieces_cons (by simp), ih, List.map_cons, List.cons_append]

/-- What is taken off at the end of a text is taken off at the end of its last part. -/
theorem dropReturn_append {piece : List Char} (hne : piece ≠ []) (front : List Char) :
    dropReturn (front ++ piece) = front ++ dropReturn piece := by
  unfold dropReturn
  rw [List.getLast?_append_of_ne_nil _ hne, List.dropLast_append_of_ne_nil hne]
  split_ifs <;> rfl

theorem head?_of_splitOn_eq_nil_cons {a : Char} {cs next : List Char} {rest : List (List Char)}
    (h : cs.splitOn a = [] :: next :: rest) : cs.head? = some a := by
  have hjoin : [a].intercalate (cs.splitOn a) = cs := List.intercalate_splitOn a
  rw [h, List.intercalate_cons_of_ne_nil (List.cons_ne_nil _ _)] at hjoin
  rw [← hjoin]
  rfl

/-- A piece that is longer in front is closed at its end as before. -/
theorem exists_closePieces_append {first : List Char} {rest : List (List Char)}
    (h : rest ≠ [] → first ≠ []) (front : List Char) : ∃ line after,
      closePieces (first :: rest) = line :: after ∧
        closePieces ((front ++ first) :: rest) = (front ++ line) :: after := by
  cases rest with
  | nil => exact ⟨first, [], rfl, rfl⟩
  | cons next rest =>
    refine ⟨dropReturn first, closePieces (next :: rest), rfl, ?_⟩
    rw [closePieces_cons (List.cons_ne_nil _ _), dropReturn_append (h (List.cons_ne_nil _ _))]

/-- A carriage return that no line feed follows joins the lines on its two sides. -/
theorem exists_lines_append_return (front back : String) (h : back.toList.head? ≠ some '\n') :
    ∃ before last first after, lines front = before ++ [last] ∧ lines back = first :: after ∧
      lines (front ++ "\r" ++ back) = before ++ (last ++ "\r" ++ first) :: after := by
  obtain ⟨pieces, last, _, _, hfront, hbehind, hall⟩ :=
    exists_splitOn_append '\n' front.toList ('\r' :: back.toList)
  obtain ⟨first, rest, hback⟩ := List.exists_cons_of_ne_nil (List.splitOn_ne_nil '\n' back.toList)
  rw [List.splitOn_cons_eq_if_modifyHead, hback, if_neg (by decide),
    List.modifyHead_cons] at hbehind
  obtain ⟨rfl, rfl⟩ := List.cons.inj hbehind
  have hne : rest ≠ [] → first ≠ [] := by
    rintro hrest rfl
    obtain ⟨next, rest, rfl⟩ := List.exists_cons_of_ne_nil hrest
    exact h (head?_of_splitOn_eq_nil_cons hback)
  obtain ⟨line, after, hclose, hclose'⟩ := exists_closePieces_append hne (last ++ ['\r'])
  have hlist : (front ++ "\r" ++ back).toList = front.toList ++ '\r' :: back.toList := by simp
  refine ⟨(pieces.map dropReturn).map String.ofList, String.ofList last, String.ofList line,
    after.map String.ofList, ?_, ?_, ?_⟩
  · rw [lines, hfront, closePieces_append_cons, List.map_append]
    rfl
  · rw [lines, hback, hclose, List.map_cons]
  · have hjoined : String.ofList last ++ "\r" ++ String.ofList line =
        String.ofList (last ++ ['\r'] ++ line) := by
      rw [← String.toList_inj]
      simp
    rw [List.append_assoc, List.singleton_append] at hclose'
    rw [lines, hlist, hall, closePieces_append_cons, hclose', List.map_append, List.map_cons,
      hjoined]

end Text

open Text

/-- Blank lines at the end of a listing make no difference, not even in the journal. -/
theorem Listing.readLines_append_of_blank (texts : List String) {blanks : List String}
    (h : ∀ blank ∈ blanks, isBlank blank = true) :
    readLines (texts ++ blanks) = readLines texts := by
  rw [readLines, readLines, SourceLine.ofTexts_eq, SourceLine.ofTexts_eq,
    SourceLine.numberedFrom_append, SourceLine.numberedFrom_of_blank h, List.append_nil]

/-- A text is read as its lines are, whatever their line breaks and with or without one at the end;
and a carriage return that no line feed follows breaks no line. -/
theorem read_joinLines :
    (∀ (texts : List String) (breaks : Nat → LineBreak) (last : Option LineBreak),
      (∀ text ∈ texts, Plain text) →
      Listing.read (joinLines breaks texts ++ last.elim "" LineBreak.text) =
        Listing.readLines texts) ∧
    ∀ front back : String, back.toList.head? ≠ some '\n' → ∃ before last first after,
      lines front = before ++ [last] ∧ lines back = first :: after ∧
        lines (front ++ "\r" ++ back) = before ++ (last ++ "\r" ++ first) :: after := by
  refine ⟨?_, exists_lines_append_return⟩
  intro texts breaks last h
  obtain ⟨blanks, hblanks, hlines⟩ := exists_lines_joinLines h breaks last
  rw [Listing.read, hlines, Listing.readLines_append_of_blank texts hblanks]

/-! ### A text with both line breaks -/

namespace Mixed

/-- The line breaks take turns. -/
def breaks (k : Nat) : LineBreak := if k % 2 = 0 then .returnFeed else .feed

/-- Two lines hold a carriage return, and the instruction comes before any symbol. -/
def texts : List String :=
  ["a\rb.o: file format elf", "", "\rDisassembly of section .text:", "\tret"]

end Mixed

/-- The fault is found in the same line, and the return that stands alone breaks none. -/
theorem read_joinLines_mixed :
    (∀ text ∈ Mixed.texts, Plain text) ∧
      Listing.read ("a\rb.o: file format elf\r\n" ++ "\n" ++
          "\rDisassembly of section .text:\r\n" ++ "\tret" ++ "\r\n") =
        Listing.readLines Mixed.texts ∧
      (Listing.read ("a\rb.o: file format elf\r\n" ++ "\n" ++
          "\rDisassembly of section .text:\r\n" ++ "\tret" ++ "\r\n")).report? =
        some ⟨.missingSymbol,
          "attempted to add an instruction without first defining a symbol", some "\tret", some 4⟩ ∧
      ∃ before last first after, lines "a\n<f" = before ++ [last] ∧ lines "x\ny" = first :: after ∧
        lines ("a\n<f" ++ "\r" ++ "x\ny") = before ++ (last ++ "\r" ++ first) :: after := by
  have hplain : ∀ text ∈ Mixed.texts, Plain text := by decide
  have hread := read_joinLines.1 Mixed.texts Mixed.breaks (some .returnFeed) hplain
  have hjoin : joinLines Mixed.breaks Mixed.texts = "a\rb.o: file format elf\r\n" ++ "\n" ++
      "\rDisassembly of section .text:\r\n" ++ "\tret" := by decide
  rw [hjoin] at hread
  have hfault : (Listing.readLines Mixed.texts).report? = some ⟨.missingSymbol,
      "attempted to add an instruction without first defining a symbol", some "\tret",
      some 4⟩ := by
    decide
  exact ⟨hplain, hread, (congrArg Listing.Reading.report? hread).trans hfault,
    read_joinLines.2 "a\n<f" "x\ny" (by decide)⟩

end CanonicalListing
