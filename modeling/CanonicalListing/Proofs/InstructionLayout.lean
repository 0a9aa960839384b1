import CanonicalListing.Proofs.InstructionGrammar

/-!
# The parts of an instruction line

A line is cut at the first `#`, and the body in front of it into the mnemonic, the gap and
the operand text. None of these cuts is a choice. The operand text holds no blank and
stands behind one, so it is the last run without blanks; the mnemonic ends with a word, so
the gap is the whole run of blanks before the operand text; and a body of words alone
leaves no operand text, because its last run is a word.
-/

namespace CanonicalListing
namespace Instruction

open Text

/-- The code of a line, the text behind the first `#` if there is one, and the parts of the code
without the blanks at its ends. -/
structure Layout where
  code : List Char
  note : Option (List Char)
  opcode : List Char
  gap : List Char
  operands : List Char
  deriving DecidableEq, Repr

namespace Layout

variable {p q : Layout} {text : String}

/-- What follows the code, with the `#` in front. -/
def margin (p : Layout) : List Char := p.note.elim [] ('#' :: ·)

def comment (p : Layout) : List Char := trimChars (p.note.getD [])

def instruction (p : Layout) : Instruction :=
  ⟨String.ofList p.opcode, String.ofList p.operands, String.ofList p.comment⟩

/-- The mnemonic is the whole body. -/
structure IsBare (p : Layout) : Prop where
  gap : p.gap = []
  operands : p.operands = []

/-- The mnemonic stands on one line, and the operand text is no word. -/
structure HasOperands (p : Layout) : Prop where
  oneLine : ∀ c ∈ p.opcode, isLineTerminator c = false
  gap : IsGap p.gap
  token : IsToken p.operands
  noWord : ¬ IsWord p.operands

/-- The line has these parts. -/
structure Describes (p : Layout) (text : String) : Prop where
  indented : ∃ c ∈ text.toList.head?, isBlankChar c = true
  line : text.toList = p.code ++ p.margin
  code : '#' ∉ p.code
  body : trimChars p.code = p.opcode ++ p.gap ++ p.operands
  mnemonic : Mnemonic p.opcode
  form : p.IsBare ∨ p.HasOperands

theorem Describes.commented (h : p.Describes text) : Commented text.toList p.code p.comment := by
  rw [h.line, margin, comment]
  cases p.note with
  | none =>
    rw [Option.elim_none, List.append_nil]
    exact .plain h.code
  | some rest => exact .comment h.code

theorem Describes.bodyForm (h : p.Describes text) :
    Body (trimChars p.code) p.opcode p.operands := by
  rw [h.body]
  rcases h.form with hbare | hoperands
  · rw [hbare.gap, hbare.operands, List.append_nil, List.append_nil]
    exact .bare h.mnemonic
  · exact .operands h.mnemonic hoperands.oneLine hoperands.gap hoperands.token hoperands.noWord

theorem Describes.reads (h : p.Describes text) : Reads text p.instruction where
  indented := h.indented
  parts := ⟨p.code, p.comment, h.commented, by simpa [instruction] using h.bodyForm, rfl⟩

end Layout

/-- The text behind the `#` before it is trimmed. -/
theorem Commented.exists_note {cs code comment : List Char} (h : Commented cs code comment) :
    ∃ note : Option (List Char), cs = code ++ note.elim [] ('#' :: ·) ∧
      trimChars (note.getD []) = comment ∧ '#' ∉ code := by
  cases h with
  | plain hcode => exact ⟨none, (List.append_nil _).symm, rfl, hcode⟩
  | comment hcode => exact ⟨some _, rfl, rfl, hcode⟩

/-- The blanks between the mnemonic and the operand text. -/
theorem Body.exists_gap {body opcode operands : List Char} (h : Body body opcode operands) :
    ∃ gap, body = opcode ++ gap ++ operands ∧
      ∀ code note, Layout.IsBare ⟨code, note, opcode, gap, operands⟩ ∨
        Layout.HasOperands ⟨code, note, opcode, gap, operands⟩ := by
  cases h with
  | bare hopcode => exact ⟨[], by simp, fun code note => .inl ⟨rfl, rfl⟩⟩
  | operands hopcode hline hgap htoken hword =>
    exact ⟨_, rfl, fun code note => .inr ⟨hline, hgap, htoken, hword⟩⟩

theorem Reads.exists_layout {text : String} {i : Instruction} (h : Reads text i) :
    ∃ p : Layout, p.Describes text ∧ p.instruction = i := by
  obtain ⟨code, comment, hcommented, hbody, hcomment⟩ := h.parts
  obtain ⟨note, hline, hnote, hcode⟩ := hcommented.exists_note
  obtain ⟨gap, hcut, hform⟩ := hbody.exists_gap
  refine ⟨⟨code, note, i.opcode.toList, gap, i.operands.toList⟩,
    ⟨h.indented, hline, hcode, hcut, hbody.mnemonic, hform code note⟩, ?_⟩
  cases i
  simp only at hcomment
  simp [Layout.instruction, Layout.comment, hnote, hcomment]

namespace Layout

variable {p q : Layout} {text : String}

theorem Describes.span_eq (h : p.Describes text) :
    text.toList.span (· ≠ '#') = (p.code, p.margin) := by
  rw [h.line, margin]
  cases p.note with
  | none => simpa using span_ne_of_notMem h.code
  | some rest => exact span_ne_append h.code rest

theorem margin_inj (h : p.margin = q.margin) : p.note = q.note := by
  unfold margin at h
  cases hp : p.note <;> cases hq : q.note <;> simp_all

theorem Describes.not_isBare (hp : p.Describes text) (hq : q.Describes text)
    (hcode : p.code = q.code) (hoperands : q.HasOperands) : ¬ p.IsBare := by
  intro hbare
  have hbody := hp.body
  rw [hbare.gap, hbare.operands, List.append_nil, List.append_nil, hcode, hq.body] at hbody
  exact hoperands.noWord ((hbody ▸ hp.mnemonic).isWord_of_append hoperands.token)

theorem Describes.parts_eq (hp : p.Describes text) (hq : q.Describes text)
    (hcode : p.code = q.code) :
    p.opcode = q.opcode ∧ p.gap = q.gap ∧ p.operands = q.operands := by
  have hbody : p.opcode ++ p.gap ++ p.operands = q.opcode ++ q.gap ++ q.operands := by
    rw [← hp.body, hcode, hq.body]
  rcases hp.form with hpbare | hpoperands
  · rcases hq.form with hqbare | hqoperands
    · rw [hpbare.gap, hpbare.operands, hqbare.gap, hqbare.operands] at hbody ⊢
      simpa using hbody
    · exact absurd hpbare (hp.not_isBare hq hcode hqoperands)
  · rcases hq.form with hqbare | hqoperands
    · exact absurd hqbare (hq.not_isBare hp hcode.symm hpoperands)
    · have hcut := splitLast_append hp.mnemonic.bareEnds hpoperands.gap hpoperands.token
      rw [hbody, splitLast_append hq.mnemonic.bareEnds hqoperands.gap hqoperands.token] at hcut
      obtain ⟨hopcode, hoperands⟩ := Prod.mk.inj hcut
      rw [hopcode, hoperands] at hbody
      have hgap := List.append_cancel_left (List.append_cancel_right hbody)
      exact ⟨hopcode.symm, hgap, hoperands.symm⟩

/-- A line is cut into its parts in one way. -/
theorem Describes.unique (hp : p.Describes text) (hq : q.Describes text) : p = q := by
  obtain ⟨hcode, hmargin⟩ := Prod.mk.inj (hp.span_eq.symm.trans hq.span_eq)
  obtain ⟨hopcode, hgap, hoperands⟩ := hp.parts_eq hq hcode
  have hnote := margin_inj hmargin
  cases p
  cases q
  simp only [mk.injEq]
  exact ⟨hcode, hnote, hopcode, hgap, hoperands⟩

end Layout

/-- A line is read as the instruction that its parts make up, and not at all if it has no such
parts. -/
theorem read?_iff_layout (text : String) :
    (∀ i, read? text = some i ↔ ∃ p : Layout, p.Describes text ∧ p.instruction = i) ∧
      (read? text = none ↔ ∀ p : Layout, ¬ p.Describes text) ∧
      ∀ p q : Layout, p.Describes text → q.Describes text → p = q := by
  have hsome : ∀ i, read? text = some i ↔
      ∃ p : Layout, p.Describes text ∧ p.instruction = i := by
    intro i
    rw [read?_eq_some_iff]
    constructor
    · exact Reads.exists_layout
    · rintro ⟨p, hp, rfl⟩
      exact hp.reads
  refine ⟨hsome, ?_, fun p q => Layout.Describes.unique⟩
  rw [Option.eq_none_iff_forall_ne_some]
  constructor
  · intro hnone p hp
    exact hnone _ ((hsome _).mpr ⟨p, hp, rfl⟩)
  · intro hnone i hi
    obtain ⟨p, hp, -⟩ := (hsome i).mp hi
    exact hnone p hp

end Instruction
end CanonicalListing
