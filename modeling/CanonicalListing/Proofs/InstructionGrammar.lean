import CanonicalListing.Instruction.Reader
import CanonicalListing.Proofs.Trimming

/-!
# The grammar of instruction lines

A mnemonic is a sequence of words with gaps of blanks between them. The body of an
instruction line is a mnemonic alone, or a mnemonic on one line, a gap, and an operand
text that is no word. The two forms exclude one another because the last word of a
mnemonic is a word. The reader accepts exactly the lines with such a body.
-/

namespace CanonicalListing
namespace Instruction

open Text

structure IsWord (w : List Char) : Prop where
  nonempty : w ≠ []
  chars : ∀ c ∈ w, isMnemonicChar c = true

structure IsGap (gap : List Char) : Prop where
  nonempty : gap ≠ []
  chars : ∀ c ∈ gap, isBlankChar c = true

/-- A text without blanks. -/
structure IsToken (o : List Char) : Prop where
  nonempty : o ≠ []
  chars : ∀ c ∈ o, isBlankChar c = false

instance (w : List Char) : Decidable (IsWord w) :=
  decidable_of_iff (w ≠ [] ∧ w.all isMnemonicChar = true)
    ⟨fun h => ⟨h.1, List.all_eq_true.mp h.2⟩, fun h => ⟨h.nonempty, List.all_eq_true.mpr h.chars⟩⟩

instance (gap : List Char) : Decidable (IsGap gap) :=
  decidable_of_iff (gap ≠ [] ∧ gap.all isBlankChar = true)
    ⟨fun h => ⟨h.1, List.all_eq_true.mp h.2⟩, fun h => ⟨h.nonempty, List.all_eq_true.mpr h.chars⟩⟩

instance (o : List Char) : Decidable (IsToken o) :=
  decidable_of_iff (o ≠ [] ∧ o.any isBlankChar = false)
    ⟨fun h => ⟨h.1, by simpa using h.2⟩, fun h => ⟨h.nonempty, by simpa using h.chars⟩⟩

/-- Words with gaps between them. -/
inductive Mnemonic : List Char → Prop
  | word {w} : IsWord w → Mnemonic w
  | more {w gap rest} : IsWord w → IsGap gap → Mnemonic rest → Mnemonic (w ++ gap ++ rest)

theorem isBlankChar_of_isMnemonicChar {c : Char} (h : isMnemonicChar c = true) :
    isBlankChar c = false := by
  simp only [isMnemonicChar, Bool.or_eq_true, Bool.and_eq_true, decide_eq_true_eq] at h
  rcases h with ⟨h, h'⟩ | ⟨h, h'⟩
  · exact isBlankChar_eq_false_of_range (Nat.lt_of_lt_of_le (by decide) (Char.le_def.mp h))
      (Nat.lt_of_le_of_lt (Char.le_def.mp h') (by decide))
  · exact isBlankChar_eq_false_of_range (Nat.lt_of_lt_of_le (by decide) (Char.le_def.mp h))
      (Nat.lt_of_le_of_lt (Char.le_def.mp h') (by decide))

namespace Mnemonic

theorem chars {cs : List Char} (h : Mnemonic cs) :
    ∀ c ∈ cs, isMnemonicChar c = true ∨ isBlankChar c = true := by
  induction h with
  | word hw => exact fun c hc => Or.inl (hw.chars c hc)
  | more hw hgap _ ih =>
    intro c hc
    rcases List.mem_append.mp hc with hc | hc
    · rcases List.mem_append.mp hc with hc | hc
      · exact Or.inl (hw.chars c hc)
      · exact Or.inr (hgap.chars c hc)
    · exact ih c hc

theorem head {cs : List Char} (h : Mnemonic cs) :
    ∃ c rest, cs = c :: rest ∧ isMnemonicChar c = true := by
  cases h with
  | word hw =>
    obtain ⟨c, rest, rfl⟩ := List.exists_cons_of_ne_nil hw.nonempty
    exact ⟨c, rest, rfl, hw.chars c List.mem_cons_self⟩
  | more hw _ _ =>
    obtain ⟨c, rest, rfl⟩ := List.exists_cons_of_ne_nil hw.nonempty
    exact ⟨c, _, rfl, hw.chars c List.mem_cons_self⟩

theorem last {cs : List Char} (h : Mnemonic cs) :
    ∃ front c, cs = front ++ [c] ∧ isMnemonicChar c = true := by
  induction h with
  | word hw =>
    obtain ⟨front, c, rfl⟩ := List.eq_nil_or_concat' _ |>.resolve_left hw.nonempty
    exact ⟨front, c, rfl, hw.chars c (by simp)⟩
  | more _ _ _ ih =>
    obtain ⟨front, c, rfl, hc⟩ := ih
    exact ⟨_, c, (List.append_assoc _ _ _).symm, hc⟩

theorem ne_nil {cs : List Char} (h : Mnemonic cs) : cs ≠ [] := by
  obtain ⟨c, rest, rfl, -⟩ := h.head
  exact List.cons_ne_nil c rest

theorem bareEnds {cs : List Char} (h : Mnemonic cs) : BareEnds cs := by
  constructor
  · obtain ⟨c, rest, rfl, hc⟩ := h.head
    simpa using isBlankChar_of_isMnemonicChar hc
  · obtain ⟨front, c, rfl, hc⟩ := h.last
    simpa using isBlankChar_of_isMnemonicChar hc

/-- The first word of a text, up to the first character that is not mnemonic. -/
theorem exists_word_append {cs : List Char} (hhead : ∀ c ∈ cs.head?, isMnemonicChar c = true)
    (hne : cs ≠ []) : ∃ w rest, IsWord w ∧ cs = w ++ rest ∧
      ∀ c ∈ rest.head?, isMnemonicChar c = false := by
  refine ⟨cs.takeWhile isMnemonicChar, cs.dropWhile isMnemonicChar,
    ⟨?_, List.all_eq_true.mp List.all_takeWhile⟩, List.takeWhile_append_dropWhile.symm, ?_⟩
  · obtain ⟨c, rest, rfl⟩ := List.exists_cons_of_ne_nil hne
    rw [List.takeWhile_cons_of_pos (hhead c rfl)]
    exact List.cons_ne_nil _ _
  · intro c hc
    have hstop := List.head?_dropWhile_not isMnemonicChar cs
    rw [hc] at hstop
    simpa using hstop

/-- The first gap of a text that starts with a blank and does not end with one. -/
theorem exists_gap_append {cs : List Char} (hhead : ∀ c ∈ cs.head?, isBlankChar c = true)
    (hne : cs ≠ []) (hlast : ∀ c ∈ cs.getLast?, isBlankChar c = false) :
    ∃ gap rest, IsGap gap ∧ cs = gap ++ rest ∧ rest ≠ [] ∧
      ∀ c ∈ rest.head?, isBlankChar c = false := by
  obtain ⟨gap, hgap, hcut⟩ := exists_trimStart cs
  refine ⟨gap, trimStart cs, ⟨?_, hgap⟩, hcut, ?_, ?_⟩
  · rintro rfl
    obtain ⟨c, rest, rfl⟩ := List.exists_cons_of_ne_nil hne
    have hbare := not_isBlankChar_head hcut.symm
    rw [hhead c rfl] at hbare
    exact Bool.noConfusion hbare
  · intro hnil
    have hblank := trimStart_eq_nil.mp hnil (cs.getLast hne) (List.getLast_mem hne)
    rw [hlast _ (List.getLast?_eq_some_getLast hne)] at hblank
    exact Bool.noConfusion hblank
  · intro c hc
    obtain ⟨rest, hrest⟩ := List.head?_eq_some_iff.mp hc
    exact not_isBlankChar_head hrest

/-- The characters and the two ends make a mnemonic: without its first word and the gap behind
it, the text still ends as before. -/
theorem of_chars (cs : List Char)
    (hchars : ∀ c ∈ cs, isMnemonicChar c = true ∨ isBlankChar c = true)
    (hhead : ∀ c ∈ cs.head?, isMnemonicChar c = true) (hne : cs ≠ [])
    (hlast : ∀ c ∈ cs.getLast?, isBlankChar c = false) : Mnemonic cs := by
  obtain ⟨w, rest, hw, hcut, hstop⟩ := exists_word_append hhead hne
  by_cases hrest : rest = []
  · rw [hcut, hrest, List.append_nil]
    exact Mnemonic.word hw
  · have hmem : ∀ c ∈ rest, c ∈ cs := fun c hc => hcut ▸ List.mem_append_right _ hc
    have hblank : ∀ c ∈ rest.head?, isBlankChar c = true := by
      intro c hc
      apply (hchars c (hmem c (List.mem_of_mem_head? hc))).resolve_left
      simp [hstop c hc]
    have hend : ∀ c ∈ rest.getLast?, isBlankChar c = false := by
      rwa [hcut, List.getLast?_append_of_ne_nil _ hrest] at hlast
    obtain ⟨gap, later, hgap, hcut', hlater, hbare⟩ := exists_gap_append hblank hrest hend
    have hmem' : ∀ c ∈ later, c ∈ cs := fun c hc => hmem c (hcut' ▸ List.mem_append_right _ hc)
    have hshorter : later.length < cs.length := by
      have hword := List.length_pos_of_ne_nil hw.nonempty
      rw [hcut, hcut', List.length_append, List.length_append]
      omega
    have hmore : Mnemonic later := by
      apply of_chars later fun c hc => hchars c (hmem' c hc)
      · intro c hc
        apply (hchars c (hmem' c (List.mem_of_mem_head? hc))).resolve_right
        simp [hbare c hc]
      · exact hlater
      · rwa [hcut', List.getLast?_append_of_ne_nil _ hlater] at hend
    rw [hcut, hcut', ← List.append_assoc]
    exact Mnemonic.more hw hgap hmore
termination_by cs.length
decreasing_by exact hshorter

end Mnemonic

theorem isMnemonic_iff {cs : List Char} : isMnemonic cs = true ↔ Mnemonic cs := by
  simp only [isMnemonic, Bool.and_eq_true, List.all_eq_true, Bool.or_eq_true, Option.any_eq_true]
  constructor
  · rintro ⟨⟨hchars, c, hhead, hc⟩, d, hlast, hd⟩
    apply Mnemonic.of_chars cs hchars
    · intro c' hc'
      rw [hhead] at hc'
      exact Option.some.inj hc' ▸ hc
    · rintro rfl
      simp at hhead
    · intro d' hd'
      rw [hlast] at hd'
      exact Option.some.inj hd' ▸ isBlankChar_of_isMnemonicChar hd
  · intro h
    refine ⟨⟨h.chars, ?_⟩, ?_⟩
    · obtain ⟨c, rest, rfl, hc⟩ := h.head
      exact ⟨c, rfl, hc⟩
    · obtain ⟨front, c, rfl, hc⟩ := h.last
      exact ⟨c, List.getLast?_concat, hc⟩

/-- The body of an instruction line, with its mnemonic and its operand text. -/
inductive Body : List Char → List Char → List Char → Prop
  | bare {opcode} : Mnemonic opcode → Body opcode opcode []
  | operands {opcode gap operands} : Mnemonic opcode →
      (∀ c ∈ opcode, isLineTerminator c = false) → IsGap gap → IsToken operands →
      ¬ IsWord operands → Body (opcode ++ gap ++ operands) opcode operands

/-- The text before the first `#`, and the trimmed text behind it. -/
inductive Commented : List Char → List Char → List Char → Prop
  | plain {code} : '#' ∉ code → Commented code code []
  | comment {code rest} : '#' ∉ code → Commented (code ++ '#' :: rest) code (trimChars rest)

theorem Commented.splitComment_eq {cs code comment : List Char} (h : Commented cs code comment) :
    splitComment cs = (code, comment) := by
  unfold splitComment
  cases h with
  | plain hcode =>
    rw [span_ne_of_notMem hcode]
    rfl
  | comment hcode =>
    rw [span_ne_append hcode]
    rfl

theorem commented_splitComment (cs : List Char) :
    Commented cs (splitComment cs).1 (splitComment cs).2 := by
  by_cases h : '#' ∈ cs
  · obtain ⟨code, rest, rfl, hcode⟩ := List.eq_append_cons_of_mem h
    have hcommented : Commented (code ++ '#' :: rest) code (trimChars rest) :=
      Commented.comment hcode
    rwa [hcommented.splitComment_eq]
  · have hcommented := Commented.plain h
    rwa [hcommented.splitComment_eq]

/-- A mnemonic ends in a word. -/
theorem Mnemonic.isWord_of_append {front gap last : List Char} (h : Mnemonic (front ++ gap ++ last))
    (hlast : IsToken last) : IsWord last := by
  refine ⟨hlast.nonempty, ?_⟩
  intro c hc
  have hchar := h.chars c (List.mem_append_right _ hc)
  apply hchar.resolve_right
  simp [hlast.chars c hc]

theorem Mnemonic.append_isWord {front gap last : List Char} (h : Mnemonic front) (hgap : IsGap gap)
    (hlast : IsWord last) : Mnemonic (front ++ gap ++ last) := by
  induction h with
  | word hw => exact Mnemonic.more hw hgap (Mnemonic.word hlast)
  | more hw hgap' _ ih =>
    have hmore := Mnemonic.more hw hgap' ih
    simpa only [List.append_assoc] using hmore

/-- The last token of a body, behind the text in front of the gap before it. -/
theorem splitLast_append {front gap last : List Char} (hfront : BareEnds front) (hgap : IsGap gap)
    (hlast : IsToken last) : splitLast (front ++ gap ++ last) = (front, last) := by
  have htoken : ∀ c ∈ last.reverse, (!isBlankChar c) = true := by
    simpa using hlast.chars
  have hstop : ∀ c ∈ (front ++ gap).reverse.head?, (!isBlankChar c) = false := by
    intro c hc
    rw [List.head?_reverse, List.getLast?_append_of_ne_nil _ hgap.nonempty] at hc
    simp [hgap.chars c (List.mem_of_mem_getLast? hc)]
  unfold splitLast
  rw [List.reverse_append, span_append htoken hstop]
  simp only [List.reverse_reverse]
  rw [trimEnd_append_of_blank hgap.chars, trimEnd_eq_self hfront.last]

/-- Whatever is cut, the parts make up the body, and a front is cut off at a gap. -/
theorem exists_gap_of_splitLast {body front last : List Char} (h : splitLast body = (front, last)) :
    ∃ gap, (∀ c ∈ gap, isBlankChar c = true) ∧ (∀ c ∈ last, isBlankChar c = false) ∧
      body = front ++ gap ++ last ∧ (front ≠ [] → gap ≠ []) := by
  unfold splitLast at h
  rw [List.span_eq_takeWhile_dropWhile] at h
  obtain ⟨hfront, hlast⟩ := Prod.mk.inj h
  obtain ⟨gap, hgap, hcut⟩ :=
    exists_trimEnd (body.reverse.dropWhile fun c => !isBlankChar c).reverse
  rw [hfront] at hcut
  refine ⟨gap, hgap, ?_, ?_, ?_⟩
  · intro c hc
    rw [← hlast, List.mem_reverse] at hc
    have hnot := List.all_eq_true.mp List.all_takeWhile c hc
    simpa using hnot
  · rw [← hcut, ← hlast, ← List.reverse_append, List.takeWhile_append_dropWhile,
      List.reverse_reverse]
  · rintro hne rfl
    rw [List.append_nil] at hcut
    obtain ⟨init, c, rfl⟩ := List.eq_nil_or_concat' front |>.resolve_left hne
    have hbare : isBlankChar c = false := not_isBlankChar_last c (hfront ▸ List.getLast?_concat)
    have hstop := List.head?_dropWhile_not (fun c => !isBlankChar c) body.reverse
    rw [← List.getLast?_reverse, hcut, List.getLast?_concat] at hstop
    simp [hbare] at hstop

/-- The mnemonic, the gap and the operand text are determined by the body. -/
theorem Body.ofBody?_eq {body opcode operands : List Char} (h : Body body opcode operands)
    (comment : List Char) : ofBody? body comment =
      some ⟨String.ofList opcode, String.ofList operands, String.ofList comment⟩ := by
  cases h with
  | bare hopcode =>
    unfold ofBody?
    rw [if_pos (isMnemonic_iff.mpr hopcode)]
  | @operands _ gap _ hopcode hline hgap htoken hword =>
    have hnot : ¬ isMnemonic (opcode ++ gap ++ operands) = true := fun hall =>
      hword ((isMnemonic_iff.mp hall).isWord_of_append htoken)
    have hterminators : (opcode.any isLineTerminator) = false := by
      rw [List.any_eq_false]
      intro c hc
      simp [hline c hc]
    unfold ofBody?
    rw [if_neg hnot, splitLast_append hopcode.bareEnds hgap htoken]
    simp [isMnemonic_iff.mpr hopcode, hterminators]

/-- What is read from a trimmed body has its form. -/
theorem body_of_ofBody? {body comment : List Char} {i : Instruction} (hbody : BareEnds body)
    (h : ofBody? body comment = some i) :
    Body body i.opcode.toList i.operands.toList ∧ i.comment = String.ofList comment := by
  unfold ofBody? at h
  split_ifs at h with hall
  · obtain rfl := Option.some.inj h
    simpa using Body.bare (isMnemonic_iff.mp hall)
  · cases hcut : splitLast body with
    | mk opcode operands =>
      rw [hcut] at h
      simp only [Bool.and_eq_true, Bool.not_eq_true', Option.ite_none_right_eq_some,
        Option.some.injEq] at h
      obtain ⟨⟨hmnemonic, hterminators⟩, rfl⟩ := h
      have hopcode := isMnemonic_iff.mp hmnemonic
      obtain ⟨gap, hgap, htoken, rfl, hgapne⟩ := exists_gap_of_splitLast hcut
      have hgap' : IsGap gap := ⟨hgapne hopcode.ne_nil, hgap⟩
      have htoken' : IsToken operands := by
        refine ⟨?_, htoken⟩
        rintro rfl
        have hlast := hbody.last
        rw [List.append_nil, List.getLast?_append_of_ne_nil _ hgap'.nonempty] at hlast
        have hblank := hgap (gap.getLast hgap'.nonempty) (List.getLast_mem _)
        have hbare := hlast _ (List.getLast?_eq_some_getLast hgap'.nonempty)
        simp [hblank] at hbare
      have hword : ¬ IsWord operands := fun hw =>
        hall (isMnemonic_iff.mpr (hopcode.append_isWord hgap' hw))
      have hline : ∀ c ∈ opcode, isLineTerminator c = false := by
        intro c hc
        simpa using List.any_eq_false.mp hterminators c hc
      simpa using Body.operands hopcode hline hgap' htoken' hword

/-- An instruction line: a blank in front, and a body before the comment. -/
structure Reads (text : String) (i : Instruction) : Prop where
  indented : ∃ c ∈ text.toList.head?, isBlankChar c = true
  parts : ∃ code comment, Commented text.toList code comment ∧
    Body (trimChars code) i.opcode.toList i.operands.toList ∧ i.comment = String.ofList comment

/-- Exactly the instruction lines are read. -/
theorem read?_eq_some_iff {text : String} {i : Instruction} :
    Instruction.read? text = some i ↔ Reads text i := by
  unfold Instruction.read?
  constructor
  · intro h
    split_ifs at h with hindent
    · refine ⟨by simpa [Option.any_eq_true] using hindent, ?_⟩
      obtain ⟨hbody, hcomment⟩ := body_of_ofBody? (bareEnds_trimChars _) h
      exact ⟨_, _, commented_splitComment text.toList, hbody, hcomment⟩
  · rintro ⟨⟨c, hc, hblank⟩, code, comment, hcommented, hbody, hcomment⟩
    have hindent : text.toList.head?.any isBlankChar = true :=
      (Option.any_eq_true _ _).mpr ⟨c, hc, hblank⟩
    rw [if_pos hindent, hcommented.splitComment_eq]
    cases i
    simp only at hcomment hbody
    subst hcomment
    simpa using hbody.ofBody?_eq comment

theorem Body.mnemonic {body opcode operands : List Char} (h : Body body opcode operands) :
    Mnemonic opcode := by
  cases h with
  | bare hopcode => exact hopcode
  | operands hopcode => exact hopcode

/-- The body starts with its mnemonic. -/
theorem Body.exists_eq_append {body opcode operands : List Char} (h : Body body opcode operands) :
    ∃ rest, body = opcode ++ rest := by
  cases h with
  | bare _ => exact ⟨[], (List.append_nil _).symm⟩
  | operands => exact ⟨_, List.append_assoc _ _ _⟩

theorem Commented.exists_eq_append {cs code comment : List Char} (h : Commented cs code comment) :
    ∃ rest, cs = code ++ rest := by
  cases h with
  | plain _ => exact ⟨[], (List.append_nil _).symm⟩
  | comment _ => exact ⟨_, rfl⟩

/-- The first character that is not blank belongs to the mnemonic. -/
theorem Reads.exists_head {text : String} {i : Instruction} (h : Reads text i) :
    ∃ c rest, trimStart text.toList = c :: rest ∧ isMnemonicChar c = true := by
  obtain ⟨code, comment, hcommented, hbody, -⟩ := h.parts
  obtain ⟨more, htext⟩ := hcommented.exists_eq_append
  obtain ⟨lead, tail, hlead, -, hcode⟩ := exists_trimChars code
  obtain ⟨rest, hopcode⟩ := hbody.exists_eq_append
  obtain ⟨c, later, hhead, hc⟩ := hbody.mnemonic.head
  refine ⟨c, later ++ rest ++ tail ++ more, ?_, hc⟩
  have hsplit : text.toList = lead ++ (c :: (later ++ rest ++ tail ++ more)) := by
    rw [htext, hcode, hopcode, hhead]
    simp only [List.cons_append, List.append_assoc]
  rw [hsplit, trimStart_append_of_blank hlead, trimStart_eq_self]
  intro d hd
  simp only [List.head?_cons, Option.mem_def, Option.some.injEq] at hd
  exact hd ▸ isBlankChar_of_isMnemonicChar hc

end Instruction
end CanonicalListing
