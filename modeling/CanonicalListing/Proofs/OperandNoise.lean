import CanonicalListing.Fingerprint
import CanonicalListing.Proofs.ExchangedLine
import CanonicalListing.Proofs.WellFormed

/-!
# Operands and the default rendering

By default only the mnemonic of an instruction is rendered. An operand text is kept apart
from it if it has a character that no word has, as `%r3` does; then it may be exchanged
and nothing is seen of it. A register such as `x16` has the shape of a word, and a body of
words alone is one mnemonic. Exchanging it is seen in the default rendering, in the line
of its instruction and nowhere else.
-/

namespace CanonicalListing

open Text Instruction

/-- A lower-case letter with a number behind it. -/
def IsRegister (r : List Char) : Prop :=
  ∃ letter digits, r = letter :: digits ∧ letter.isLower = true ∧ digits ≠ [] ∧
    digits.all Char.isDigit = true

/-- A text without blanks that a reader keeps apart from the mnemonic before it. -/
structure IsApart (o : List Char) : Prop where
  token : IsToken o
  noHash : '#' ∉ o
  notWord : ¬ IsWord o
  ending : ¬ ['>', ':'] <:+ o

instance (o : List Char) : Decidable (IsApart o) :=
  decidable_of_iff (IsToken o ∧ '#' ∉ o ∧ ¬ IsWord o ∧ ¬ ['>', ':'] <:+ o)
    ⟨fun h => ⟨h.1, h.2.1, h.2.2.1, h.2.2.2⟩, fun h => ⟨h.token, h.noHash, h.notWord, h.ending⟩⟩

/-- An instruction line with a word, a gap and a place for an operand. -/
structure OperandFrame where
  lead : List Char
  word : List Char
  gap : List Char
  trail : List Char
  /-- What stands behind the `#`, if there is one. -/
  comment : Option (List Char)
  indented : IsGap lead
  isWord : IsWord word
  isGap : IsGap gap
  blankTrail : ∀ c ∈ trail, isBlankChar c = true

theorem isMnemonicChar_eq (c : Char) : isMnemonicChar c = (c.isLower || c.isDigit) := rfl

theorem IsRegister.isWord {r : List Char} (h : IsRegister r) : IsWord r := by
  obtain ⟨letter, digits, rfl, hletter, -, hdigits⟩ := h
  refine ⟨List.cons_ne_nil _ _, List.forall_mem_cons.mpr ⟨?_, fun d hd => ?_⟩⟩
  · rw [isMnemonicChar_eq, hletter, Bool.true_or]
  · rw [isMnemonicChar_eq, List.all_eq_true.mp hdigits d hd, Bool.or_true]

namespace OperandFrame

variable (f : OperandFrame)

def code (o : List Char) : List Char := f.lead ++ (f.word ++ f.gap ++ o) ++ f.trail

def line (o : List Char) : String :=
  String.ofList (f.code o ++ f.comment.elim [] ('#' :: ·))

def note : List Char := f.comment.elim [] trimChars

variable {f} {o : List Char}

theorem commented (h : '#' ∉ o) : Commented (f.line o).toList (f.code o) f.note := by
  have hblank : ∀ {cs : List Char}, (∀ c ∈ cs, isBlankChar c = true) → '#' ∉ cs :=
    fun hcs hmem => absurd (hcs _ hmem) (by decide)
  have hcode : '#' ∉ f.code o := by
    have hword := hash_notMem_of_mnemonic (Mnemonic.word f.isWord)
    simp [code, hblank f.indented.chars, hblank f.isGap.chars, hblank f.blankTrail, hword, h]
  rw [line, note, String.toList_ofList]
  cases f.comment with
  | none => simpa using Commented.plain hcode
  | some comment => exact .comment hcode

theorem trimChars_code {opcode operands : List Char}
    (h : Body (f.word ++ f.gap ++ o) opcode operands) :
    trimChars (f.code o) = f.word ++ f.gap ++ o :=
  trimChars_between f.indented.chars h.bareEnds f.blankTrail

theorem reads {opcode operands : List Char} (h : Body (f.word ++ f.gap ++ o) opcode operands)
    (hhash : '#' ∉ o) :
    Reads (f.line o) ⟨String.ofList opcode, String.ofList operands, String.ofList f.note⟩ := by
  obtain ⟨c, rest, hlead⟩ := List.exists_cons_of_ne_nil f.indented.nonempty
  refine ⟨⟨c, by simp [line, code, hlead], f.indented.chars c (by simp [hlead])⟩, ?_⟩
  refine ⟨_, _, commented hhash, ?_, rfl⟩
  rw [trimChars_code h]
  simpa using h

/-- A comment ends the same line for every operand. -/
theorem not_ending_comment (h : IsInstructionLine (f.line o)) :
    ∀ comment ∈ f.comment, ¬ ['>', ':'] <:+ trimChars comment := by
  obtain ⟨i, hline⟩ := h
  intro comment hcomment
  have hends := hline.ending
  rwa [toList_trim, line, String.toList_ofList, hcomment, Option.elim_some, ending_iff] at hends

theorem instructionLine {opcode operands : List Char}
    (h : Body (f.word ++ f.gap ++ o) opcode operands) (hne : o ≠ []) (hhash : '#' ∉ o)
    (hends : ¬ ['>', ':'] <:+ o)
    (hcomment : ∀ comment ∈ f.comment, ¬ ['>', ':'] <:+ trimChars comment) :
    InstructionLine (f.line o)
      ⟨String.ofList opcode, String.ofList operands, String.ofList f.note⟩ := by
  refine ⟨?_, read?_eq_some_iff.mpr (reads h hhash)⟩
  rw [toList_trim, line, String.toList_ofList]
  cases hc : f.comment with
  | none =>
    have hgap : (f.word ++ f.gap).getLast? ≠ some '>' := by
      rw [List.getLast?_append_of_ne_nil _ f.isGap.nonempty]
      intro hlast
      exact absurd (f.isGap.chars _ (List.mem_of_getLast? hlast)) (by decide)
    rw [Option.elim_none, List.append_nil, trimChars_code h, pair_suffix_append_iff hne hgap]
    exact hends
  | some comment =>
    rw [Option.elim_some, ending_iff]
    exact hcomment comment hc

variable (f) in
/-- The operand is one more word of the mnemonic. -/
theorem instructionLine_of_isWord (ho : IsWord o)
    (hcomment : ∀ comment ∈ f.comment, ¬ ['>', ':'] <:+ trimChars comment) :
    InstructionLine (f.line o)
      ⟨String.ofList (f.word ++ f.gap ++ o), "", String.ofList f.note⟩ := by
  have hcolon : ':' ∉ o := fun hmem => absurd (ho.chars ':' hmem) (by decide)
  have hbody : Body (f.word ++ f.gap ++ o) (f.word ++ f.gap ++ o) [] :=
    .bare (.more f.isWord f.isGap (.word ho))
  refine instructionLine hbody ho.nonempty (hash_notMem_of_mnemonic (.word ho)) ?_ hcomment
  exact fun hends => hcolon (hends.subset (by simp))

variable (f) in
/-- The operand is kept apart. -/
theorem instructionLine_of_isApart (ho : IsApart o)
    (hcomment : ∀ comment ∈ f.comment, ¬ ['>', ':'] <:+ trimChars comment) :
    InstructionLine (f.line o)
      ⟨String.ofList f.word, String.ofList o, String.ofList f.note⟩ := by
  have hline : ∀ c ∈ f.word, isLineTerminator c = false := by
    intro c hc
    rw [← Bool.not_eq_true]
    intro hterminator
    have hbare := isBlankChar_of_isMnemonicChar (f.isWord.chars c hc)
    rw [isBlankChar_of_isLineTerminator hterminator] at hbare
    cases hbare
  have hbody : Body (f.word ++ f.gap ++ o) f.word o :=
    .operands (.word f.isWord) hline f.isGap ho.token ho.notWord
  exact instructionLine hbody ho.token.nonempty ho.noHash ho.ending hcomment

/-- Every instruction line with a word and one operand is a frame around the operand. -/
theorem exists_frame {text : String} {i : Instruction} {code comment word gap o : List Char}
    (h : Reads text i) (hcommented : Commented text.toList code comment) (hword : IsWord word)
    (hgap : IsGap gap) (hcode : trimChars code = word ++ gap ++ o) :
    ∃ f : OperandFrame, f.word = word ∧ f.gap = gap ∧ f.line o = text := by
  obtain ⟨lead, trail, hlead, htrail, hcut⟩ := exists_trimChars code
  rw [hcode] at hcut
  obtain ⟨more, htext⟩ := hcommented.exists_eq_append
  have hindented : IsGap lead := by
    refine ⟨?_, hlead⟩
    rintro rfl
    obtain ⟨c, rest, hc⟩ := List.exists_cons_of_ne_nil hword.nonempty
    obtain ⟨d, hd, hblank⟩ := h.indented
    obtain rfl : c = d := by simpa [htext, hcut, hc] using hd
    have hbare := isBlankChar_of_isMnemonicChar (hword.chars c (by simp [hc]))
    rw [hblank] at hbare
    cases hbare
  have hframe : ∀ behind : Option (List Char), text.toList = code ++ behind.elim [] ('#' :: ·) →
      ∃ f : OperandFrame, f.word = word ∧ f.gap = gap ∧ f.line o = text := by
    intro behind hbehind
    refine ⟨⟨lead, word, gap, trail, behind, hindented, hword, hgap, htrail⟩, rfl, rfl, ?_⟩
    rw [line, OperandFrame.code, ← hcut, ← hbehind, String.ofList_toList]
  generalize text.toList = cs at hcommented hframe
  cases hcommented with
  | plain _ => exact hframe none (List.append_nil _).symm
  | @comment _ rest _ => exact hframe (some rest) rfl

end OperandFrame

theorem exists_readings_of_framed (f : OperandFrame) {before after : List String}
    {o o' : List Char} {l : Listing} (hheader : ∃ line ∈ before, isBlank line = false)
    (hline : IsInstructionLine (f.line o))
    (h : (Listing.readLines (before ++ f.line o :: after)).outcome = .ok l) :
    (IsRegister o → IsRegister o' →
      ∃ l', (Listing.readLines (before ++ f.line o' :: after)).outcome = .ok l' ∧
        ∃ front back,
          l.render =
            front ++ indent (indent (String.ofList (f.word ++ f.gap ++ o) ++ "\n")) ++ back ∧
          l'.render =
            front ++ indent (indent (String.ofList (f.word ++ f.gap ++ o') ++ "\n")) ++ back) ∧
    (IsApart o → IsApart o' →
      ∃ l', (Listing.readLines (before ++ f.line o' :: after)).outcome = .ok l' ∧
        l'.render = l.render ∧
        Fingerprint.ofText l'.render = Fingerprint.ofText l.render) := by
  have hcomment := OperandFrame.not_ending_comment hline
  constructor
  · intro ho ho'
    obtain ⟨l', hl', front, back, hrender, hrender'⟩ :=
      exists_default_renderings_of_exchange hheader
        (f.instructionLine_of_isWord ho.isWord hcomment)
        (f.instructionLine_of_isWord ho'.isWord hcomment) h
    exact ⟨l', hl', front, back, hrender, hrender'⟩
  · intro ho ho'
    obtain ⟨l', hl', front, back, hrender, hrender'⟩ :=
      exists_default_renderings_of_exchange hheader
        (f.instructionLine_of_isApart ho hcomment) (f.instructionLine_of_isApart ho' hcomment) h
    have hsame : l'.render = l.render := hrender'.trans hrender.symm
    exact ⟨l', hl', hsame, congrArg Fingerprint.ofText hsame⟩

/-- Every instruction line with a word, a gap and an operand is a frame around the operand.
Exchanging a register in a frame changes the default rendering in the line of its instruction
only, and exchanging an operand that is kept apart does not change it. -/
theorem exists_reading_of_operand :
    (∀ {text : String} {code note word gap o : List Char}, IsInstructionLine text →
      Commented text.toList code note → IsWord word → IsGap gap →
      trimChars code = word ++ gap ++ o →
      ∃ f : OperandFrame, f.word = word ∧ f.gap = gap ∧ f.line o = text) ∧
    ∀ (f : OperandFrame) {before after : List String} {o o' : List Char} {l : Listing},
      (∃ line ∈ before, isBlank line = false) → IsInstructionLine (f.line o) →
      (Listing.readLines (before ++ f.line o :: after)).outcome = .ok l →
      (IsRegister o → IsRegister o' →
        ∃ l', (Listing.readLines (before ++ f.line o' :: after)).outcome = .ok l' ∧
          ∃ front back,
            l.render =
              front ++ indent (indent (String.ofList (f.word ++ f.gap ++ o) ++ "\n")) ++ back ∧
            l'.render =
              front ++ indent (indent (String.ofList (f.word ++ f.gap ++ o') ++ "\n")) ++ back) ∧
      (IsApart o → IsApart o' →
        ∃ l', (Listing.readLines (before ++ f.line o' :: after)).outcome = .ok l' ∧
          l'.render = l.render ∧
          Fingerprint.ofText l'.render = Fingerprint.ofText l.render) := by
  refine ⟨?_, fun f _ _ _ _ _ => exists_readings_of_framed f⟩
  intro text code note word gap o hline hcommented hword hgap hcode
  obtain ⟨i, hinstruction⟩ := hline
  have hreads := Instruction.read?_eq_some_iff.mp hinstruction.reads
  exact OperandFrame.exists_frame hreads hcommented hword hgap hcode

/-! ### A register and an operand that is kept apart -/

namespace Spilled

def frame : OperandFrame where
  lead := ['\t']
  word := "push".toList
  gap := "   ".toList
  trail := [' ']
  comment := some " spilled".toList
  indented := by decide
  isWord := by decide
  isGap := by decide
  blankTrail := List.all_eq_true.mp (by decide)

def lines (operand : String) : List String :=
  ["a.o: file format elf", "Disassembly of section .text:", "<f>:"] ++
    frame.line operand.toList :: ["\tret"]

def listing (opcode operands : String) : Listing :=
  ⟨"a.o", "elf", [⟨".text", [⟨"<f>", [⟨opcode, operands, "spilled"⟩, ⟨"ret", "", ""⟩]⟩]⟩]⟩

theorem isRegister_x16 : IsRegister "x16".toList :=
  ⟨'x', "16".toList, by decide, by decide, by decide, by decide⟩

theorem isRegister_x17 : IsRegister "x17".toList :=
  ⟨'x', "17".toList, by decide, by decide, by decide, by decide⟩

theorem readLines_x16 :
    (Listing.readLines (lines "x16")).outcome = .ok (listing "push   x16" "") := by
  decide +kernel

theorem readLines_x17 :
    (Listing.readLines (lines "x17")).outcome = .ok (listing "push   x17" "") := by
  decide +kernel

theorem readLines_r3 : (Listing.readLines (lines "%r3")).outcome = .ok (listing "push" "%r3") := by
  decide +kernel

end Spilled

/-- A register that is exchanged for another is not always kept out of the default rendering. -/
theorem not_all_registers_hidden :
    ¬ ∀ (f : OperandFrame) (before after : List String) (r r' : List Char) (l : Listing),
      (∃ line ∈ before, isBlank line = false) → IsInstructionLine (f.line r) → IsRegister r →
      IsRegister r' → (Listing.readLines (before ++ f.line r :: after)).outcome = .ok l →
      ∃ l', (Listing.readLines (before ++ f.line r' :: after)).outcome = .ok l' ∧
        l'.render = l.render ∧ Fingerprint.ofText l'.render = Fingerprint.ofText l.render := by
  intro h
  obtain ⟨l', hl', hrender, -⟩ := h Spilled.frame _ _ _ _ _
    ⟨"a.o: file format elf", List.mem_cons_self, by decide⟩ (by decide) Spilled.isRegister_x16
    Spilled.isRegister_x17 Spilled.readLines_x16
  obtain rfl := Except.ok.inj (Spilled.readLines_x17.symm.trans hl')
  exact absurd hrender (by decide)

theorem exists_reading_of_spilled :
    (∃ f : OperandFrame, f.word = "push".toList ∧ f.gap = "   ".toList ∧
      f.line "x16".toList = "\tpush   x16 # spilled") ∧
    (∃ l', (Listing.readLines (Spilled.lines "x17")).outcome = .ok l' ∧
      ∃ front back,
        (Spilled.listing "push   x16" "").render =
          front ++ indent (indent ("push   x16" ++ "\n")) ++ back ∧
        l'.render = front ++ indent (indent ("push   x17" ++ "\n")) ++ back) ∧
    ∃ l', (Listing.readLines (Spilled.lines "%r4")).outcome = .ok l' ∧
      l'.render = (Spilled.listing "push" "%r3").render ∧
      Fingerprint.ofText l'.render = Fingerprint.ofText (Spilled.listing "push" "%r3").render := by
  have hheader : ∃ line ∈ ["a.o: file format elf", "Disassembly of section .text:", "<f>:"],
      isBlank line = false := ⟨"a.o: file format elf", List.mem_cons_self, by decide⟩
  have hcommented : Commented "\tpush   x16 # spilled".toList "\tpush   x16 ".toList
      "spilled".toList :=
    @Commented.comment "\tpush   x16 ".toList " spilled".toList (by decide)
  refine ⟨?_, ?_, ?_⟩
  · exact exists_reading_of_operand.1 (by decide) hcommented (by decide) (by decide) (by decide)
  · exact (exists_reading_of_operand.2 Spilled.frame hheader (by decide) Spilled.readLines_x16).1
      Spilled.isRegister_x16 Spilled.isRegister_x17
  · exact (exists_reading_of_operand.2 Spilled.frame hheader (by decide) Spilled.readLines_r3).2
      (by decide) (by decide)

end CanonicalListing
