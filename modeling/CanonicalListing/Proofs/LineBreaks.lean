import CanonicalListing.Text.Lines
import CanonicalListing.Proofs.Trimming

/-!
# Joining and cutting lines

A text that is cut at its line feeds has no line feed in any line. Lines that hold none are
joined by line feeds and cut apart again, as long as none of them ends with a carriage
return, which would be taken for a part of the line break.
-/

namespace CanonicalListing
namespace Text

theorem notMem_of_mem_splitOn {a : Char} {cs piece : List Char} (h : piece ∈ cs.splitOn a) :
    a ∉ piece := by
  induction cs generalizing piece with
  | nil =>
    rw [List.splitOn_nil, List.mem_singleton] at h
    simp [h]
  | cons c cs ih =>
    rw [List.splitOn_cons_eq_if_modifyHead] at h
    split_ifs at h with hc
    · rcases List.mem_cons.mp h with rfl | h
      · simp
      · exact ih h
    · cases hsplit : cs.splitOn a with
      | nil => exact absurd hsplit (List.splitOn_ne_nil a cs)
      | cons first rest =>
        rw [hsplit, List.modifyHead_cons] at h
        rcases List.mem_cons.mp h with rfl | h
        · have hfirst := ih (hsplit ▸ List.mem_cons_self)
          have hne : a ≠ c := fun heq => hc (by simp [heq])
          simp [hne, hfirst]
        · exact ih (hsplit ▸ List.mem_cons_of_mem _ h)

/-- Closing takes characters off at the ends only. -/
theorem exists_of_mem_closePieces {pieces : List (List Char)} {line : List Char}
    (h : line ∈ closePieces pieces) : ∃ piece ∈ pieces, line <+: piece := by
  fun_induction closePieces pieces with
  | case1 => simp at h
  | case2 last => exact ⟨line, h, List.prefix_rfl⟩
  | case3 piece next rest ih =>
    rcases List.mem_cons.mp h with rfl | h
    · refine ⟨piece, List.mem_cons_self, ?_⟩
      unfold dropReturn
      split_ifs
      · exact List.dropLast_prefix piece
      · exact List.prefix_rfl
    · obtain ⟨piece', hmem, hpart⟩ := ih h
      exact ⟨piece', List.mem_cons_of_mem _ hmem, hpart⟩

theorem newline_notMem_of_mem_lines {text line : String} (h : line ∈ lines text) :
    '\n' ∉ line.toList := by
  obtain ⟨cs, hcs, rfl⟩ := List.mem_map.mp h
  obtain ⟨piece, hpiece, hpart⟩ := exists_of_mem_closePieces hcs
  rw [String.toList_ofList]
  exact fun hmem => notMem_of_mem_splitOn hpiece (hpart.subset hmem)

theorem closePieces_eq_self {pieces : List (List Char)}
    (h : ∀ piece ∈ pieces, piece.getLast? ≠ some '\r') : closePieces pieces = pieces := by
  fun_induction closePieces pieces with
  | case1 => rfl
  | case2 => rfl
  | case3 piece next rest ih =>
    obtain ⟨hpiece, hrest⟩ := List.forall_mem_cons.mp h
    rw [ih hrest, dropReturn, if_neg hpiece]

/-- A text that is written on one line, and does not end with a blank. -/
structure OneLine (text : String) : Prop where
  newline : '\n' ∉ text.toList
  last : ∃ front c, text.toList = front ++ [c] ∧ isBlankChar c = false

theorem OneLine.not_isBlank {text : String} (h : OneLine text) : isBlank text = false := by
  obtain ⟨front, c, htext, hc⟩ := h.last
  rw [isBlank, htext, List.all_eq_false]
  exact ⟨c, by simp, by simp [hc]⟩

theorem OneLine.append {front text : String} (hfront : '\n' ∉ front.toList) (h : OneLine text) :
    OneLine (front ++ text) := by
  obtain ⟨init, c, htext, hc⟩ := h.last
  refine ⟨?_, front.toList ++ init, c, ?_, hc⟩
  · rw [String.toList_append, List.mem_append, not_or]
    exact ⟨hfront, h.newline⟩
  · rw [String.toList_append, htext, List.append_assoc]

theorem OneLine.of_trimmed {text : String} (hne : text ≠ "") (htrim : trim text = text)
    (hline : '\n' ∉ text.toList) : OneLine text := by
  refine ⟨hline, ?_⟩
  obtain ⟨front, c, hcut⟩ := (List.eq_nil_or_concat' text.toList).resolve_left (by simpa using hne)
  have hlast := (trim_eq_self_iff.mp htrim).last
  rw [hcut, List.getLast?_concat] at hlast
  exact ⟨front, c, hcut, hlast c rfl⟩

/-- Lines that are joined are cut apart again. -/
theorem lines_intercalate {texts : List String} (hne : texts ≠ [])
    (h : ∀ text ∈ texts, OneLine text) : lines ("\n".intercalate texts) = texts := by
  have hnewline : ∀ cs ∈ texts.map String.toList, '\n' ∉ cs := by
    intro cs hcs
    obtain ⟨text, htext, rfl⟩ := List.mem_map.mp hcs
    exact (h text htext).newline
  have hreturn : ∀ cs ∈ texts.map String.toList, cs.getLast? ≠ some '\r' := by
    intro cs hcs hlast
    obtain ⟨text, htext, rfl⟩ := List.mem_map.mp hcs
    obtain ⟨front, c, hcut, hc⟩ := (h text htext).last
    rw [hcut, List.getLast?_concat] at hlast
    obtain rfl := Option.some.inj hlast
    exact absurd hc (by decide)
  have hsplit : ("\n".intercalate texts).toList.splitOn '\n' = texts.map String.toList := by
    rw [String.toList_intercalate]
    exact List.splitOn_intercalate '\n' hnewline (by simpa using hne)
  rw [lines, hsplit, closePieces_eq_self hreturn, List.map_map]
  simp [Function.comp_def]

end Text

end CanonicalListing
