import Mathlib.Logic.Relation
import CanonicalListing.Proofs.ExchangedLine
import CanonicalListing.Proofs.InsertedBlanks
import CanonicalListing.Proofs.InstructionLayout
import CanonicalListing.Proofs.WellFormed

/-!
# Spacing

A listing may be spaced in another way: blank lines may be put in, a line may get blanks behind
it and, unless it is the header, in front of it, and the gap before an operand text may be any
run of blanks. Every kind of line is recognized as before. The two markers are read from the
trimmed line; of an instruction line the code and the comment are trimmed apart, and the gap is
cut out between two characters that are not blank. Only the header is read as it stands at its
front, where the file name is.
-/

namespace CanonicalListing

open Text Instruction

variable {text text' : String}

/-- Whatever one of the lines is recognized as, the other one is as well. -/
structure Restates (text text' : String) : Prop where
  blank : isBlank text' = isBlank text
  sectionMarker : ∀ name, SectionMarker text name → SectionMarker text' name
  symbolMarker : ∀ name, SymbolMarker text name → SymbolMarker text' name
  instructionLine : ∀ i, InstructionLine text i → InstructionLine text' i

/-! ### Blanks at the ends of a line -/

namespace Instruction

theorem Commented.of_blank_ends {cs code comment front back : List Char}
    (h : Commented cs code comment) (hfront : ∀ c ∈ front, isBlankChar c = true)
    (hback : ∀ c ∈ back, isBlankChar c = true) : ∃ code',
      Commented (front ++ cs ++ back) code' comment ∧ trimChars code' = trimChars code := by
  have hhash : ∀ {run : List Char}, (∀ c ∈ run, isBlankChar c = true) → '#' ∉ run :=
    fun hrun hmem => absurd (hrun _ hmem) (by decide)
  cases h with
  | plain hcode =>
    refine ⟨front ++ cs ++ back, .plain ?_, trimChars_of_blank_ends hfront hback cs⟩
    simp [hhash hfront, hhash hback, hcode]
  | @comment _ rest hcode =>
    have hcomment : Commented ((front ++ code) ++ '#' :: (rest ++ back)) (front ++ code)
        (trimChars (rest ++ back)) := .comment (by simp [hhash hfront, hcode])
    have hrest : trimChars (rest ++ back) = trimChars rest := by
      simpa using trimChars_of_blank_ends (List.forall_mem_nil _) hback rest
    have htrim : trimChars (front ++ code) = trimChars code := by
      simpa using trimChars_of_blank_ends hfront (List.forall_mem_nil _) code
    rw [hrest] at hcomment
    exact ⟨front ++ code, by simpa using hcomment, htrim⟩

theorem Reads.of_blank_ends {i : Instruction} (h : Reads text i) {front back : String}
    (hfront : isBlank front = true) (hback : isBlank back = true) :
    Reads (front ++ text ++ back) i := by
  obtain ⟨code, comment, hcommented, hbody, hcomment⟩ := h.parts
  obtain ⟨code', hcommented', htrim⟩ :=
    hcommented.of_blank_ends (isBlank_iff.mp hfront) (isBlank_iff.mp hback)
  refine ⟨?_, code', comment, by simpa using hcommented', htrim ▸ hbody, hcomment⟩
  obtain ⟨c, hc, hblank⟩ := h.indented
  obtain ⟨rest, htext⟩ := List.head?_eq_some_iff.mp hc
  cases hlist : front.toList with
  | nil => exact ⟨c, by simp [hlist, htext], hblank⟩
  | cons d ds => exact ⟨d, by simp [hlist], isBlank_iff.mp hfront d (by simp [hlist])⟩

end Instruction

theorem restates_of_blank_ends {front back : String} (hfront : isBlank front = true)
    (hback : isBlank back = true) (text : String) : Restates text (front ++ text ++ back) := by
  have htrim := trim_of_blank_ends hfront hback text
  refine ⟨?_, ?_, ?_, ?_⟩
  · rw [Bool.eq_iff_iff, isBlank_eq_true, isBlank_eq_true, htrim]
  · exact fun name h => ⟨htrim.trans h.shape, h.nonempty, h.chars⟩
  · exact fun name h => ⟨htrim.trans h.shape, h.opened, h.closed, h.oneLine⟩
  · intro i h
    have hreads := (Instruction.read?_eq_some_iff.mp h.reads).of_blank_ends hfront hback
    exact ⟨htrim ▸ h.ending, Instruction.read?_eq_some_iff.mpr hreads⟩

/-- The format is trimmed, so a header may have blanks behind it. -/
theorem HeaderLine.append_blank {header : Header} (h : HeaderLine text header) {back : String}
    (hback : isBlank back = true) : HeaderLine (text ++ back) header := by
  obtain ⟨hcolon, rest, format, rfl, hrest, hformat⟩ := h
  have htrim := trim_of_blank_ends isBlank_empty hback rest
  rw [String.empty_append] at htrim
  exact ⟨hcolon, rest ++ back, format, String.append_assoc, htrim.trans hrest, hformat⟩

/-! ### The gap before an operand text -/

namespace Instruction.Layout

variable {p : Layout} {lead gap tail : List Char}

/-- The blanks at the two ends of the code. -/
theorem Describes.exists_ends (h : p.Describes text) : ∃ lead tail, IsGap lead ∧
    (∀ c ∈ tail, isBlankChar c = true) ∧
      p.code = lead ++ (p.opcode ++ p.gap ++ p.operands) ++ tail := by
  obtain ⟨lead, tail, hlead, htail, hcut⟩ := exists_trimChars p.code
  rw [h.body] at hcut
  refine ⟨lead, tail, ⟨?_, hlead⟩, htail, hcut⟩
  rintro rfl
  obtain ⟨c, hc, hblank⟩ := h.indented
  obtain ⟨d, rest, hopcode, hd⟩ := h.mnemonic.head
  rw [h.line, hcut, hopcode] at hc
  obtain rfl := Option.some.inj hc
  rw [isBlankChar_of_isMnemonicChar hd] at hblank
  exact Bool.false_ne_true hblank

/-- The same parts with another gap, between the same ends. -/
def regap (p : Layout) (lead gap tail : List Char) : Layout :=
  { p with code := lead ++ (p.opcode ++ gap ++ p.operands) ++ tail, gap := gap }

theorem HasOperands.regap (h : p.HasOperands) (hgap : IsGap gap) :
    (p.regap lead gap tail).HasOperands :=
  ⟨h.oneLine, hgap, h.token, h.noWord⟩

theorem Describes.regap (h : p.Describes text) (hoperands : p.HasOperands) (hlead : IsGap lead)
    (htail : ∀ c ∈ tail, isBlankChar c = true) (hgap : IsGap gap)
    (hcode : p.code = lead ++ (p.opcode ++ p.gap ++ p.operands) ++ tail) :
    (p.regap lead gap tail).Describes
      (String.ofList ((p.regap lead gap tail).code ++ p.margin)) where
  indented := by
    obtain ⟨c, rest, hc⟩ := List.exists_cons_of_ne_nil hlead.nonempty
    exact ⟨c, by simp [Layout.regap, hc], hlead.chars c (by simp [hc])⟩
  line := String.toList_ofList
  code := by
    have hold := h.code
    have hnew : '#' ∉ gap := fun hmem => absurd (hgap.chars _ hmem) (by decide)
    rw [hcode] at hold
    simp only [Layout.regap, List.mem_append, not_or] at hold ⊢
    exact ⟨⟨hold.1.1, ⟨hold.1.2.1.1, hnew⟩, hold.1.2.2⟩, hold.2⟩
  body := by
    have hbody : Body (p.opcode ++ gap ++ p.operands) p.opcode p.operands :=
      .operands h.mnemonic hoperands.oneLine hgap hoperands.token hoperands.noWord
    exact trimChars_between hlead.chars hbody.bareEnds htail
  mnemonic := h.mnemonic
  form := .inr (hoperands.regap hgap)

/-- How the line ends is seen on the comment, or else on the operand text. -/
theorem Describes.ending_iff (h : p.Describes text) (hoperands : p.HasOperands) :
    ['>', ':'] <:+ trimChars text.toList ↔
      ['>', ':'] <:+ p.note.elim p.operands trimChars := by
  rw [h.line, margin]
  cases p.note with
  | none =>
    have hlast : (p.opcode ++ p.gap).getLast? ≠ some '>' := by
      rw [List.getLast?_append_of_ne_nil _ hoperands.gap.nonempty]
      intro hlast
      exact absurd (hoperands.gap.chars _ (List.mem_of_getLast? hlast)) (by decide)
    rw [Option.elim_none, List.append_nil, h.body,
      pair_suffix_append_iff hoperands.token.nonempty hlast, Option.elim_none]
  | some rest => exact Instruction.ending_iff p.code rest

end Instruction.Layout

theorem InstructionLine.restates {i : Instruction} (h : InstructionLine text i)
    (h' : InstructionLine text' i) : Restates text text' := by
  have hkind : IsInstructionLine text := ⟨i, h⟩
  refine ⟨h'.not_isBlank.trans h.not_isBlank.symm, ?_, ?_, ?_⟩
  · exact fun name hmark => absurd ⟨name, hmark⟩ hkind.not_isSectionMarker
  · exact fun name hmark => absurd ⟨name, hmark⟩ hkind.not_isSymbolMarker
  · intro j hj
    obtain rfl : j = i := Option.some.inj (hj.reads.symm.trans h.reads)
    exact h'

/-- A line with a mnemonic, a gap and an operand text; `lead` is what stands in front of them, and
`rest` what stands behind. -/
def gappedLine (i : Instruction) (lead gap rest : String) : String :=
  lead ++ i.opcode ++ gap ++ i.operands ++ rest

namespace Instruction.Layout

variable {p : Layout}

theorem Describes.exists_gappedLine (h : p.Describes text) (hoperands : p.HasOperands) :
    ∃ lead gap rest, text = gappedLine p.instruction lead gap rest ∧ isBlank lead = true ∧
      IsGap gap.toList := by
  obtain ⟨front, tail, hfront, -, hcode⟩ := h.exists_ends
  refine ⟨String.ofList front, String.ofList p.gap, String.ofList (tail ++ p.margin), ?_, ?_, ?_⟩
  · rw [← String.toList_inj, h.line, hcode]
    simp [gappedLine, instruction]
  · exact isBlank_iff.mpr (by simpa using hfront.chars)
  · simpa using hoperands.gap

/-- The line is cut before the mnemonic and around the gap in one way. -/
theorem Describes.cut_eq {lead gap rest : String} {front tail : List Char}
    (h : p.Describes (gappedLine p.instruction lead gap rest)) (hoperands : p.HasOperands)
    (hlead : isBlank lead = true) (hgap : IsGap gap.toList) (hfront : IsGap front)
    (hcode : p.code = front ++ (p.opcode ++ p.gap ++ p.operands) ++ tail) :
    lead.toList = front ∧ rest.toList = tail ++ p.margin := by
  have hline : lead.toList ++ (p.opcode ++ (gap.toList ++ (p.operands ++ rest.toList))) =
      front ++ (p.opcode ++ (p.gap ++ (p.operands ++ (tail ++ p.margin)))) := by
    have htext := h.line
    rw [hcode] at htext
    simpa [gappedLine, instruction] using htext
  have hopcode : ∀ cs, ∀ c ∈ (p.opcode ++ cs).head?, isBlankChar c = false := by
    intro cs
    rw [List.head?_append_of_ne_nil _ h.mnemonic.ne_nil]
    exact h.mnemonic.bareEnds.head
  have htoken : ∀ cs, ∀ c ∈ (p.operands ++ cs).head?, isBlankChar c = false := by
    intro cs c hc
    rw [List.head?_append_of_ne_nil _ hoperands.token.nonempty] at hc
    exact hoperands.token.chars c (List.mem_of_mem_head? hc)
  obtain ⟨hleads, hbody⟩ :=
    blanks_append_inj (isBlank_iff.mp hlead) hfront.chars (hopcode _) (hopcode _) hline
  obtain ⟨-, hbehind⟩ := blanks_append_inj hgap.chars hoperands.gap.chars (htoken _) (htoken _)
    (List.append_cancel_left hbody)
  exact ⟨hleads, List.append_cancel_left hbehind⟩

end Instruction.Layout

/-- The parts of an instruction line that has an operand text. -/
theorem InstructionLine.exists_layout {i : Instruction} (h : InstructionLine text i)
    (hoperands : i.operands ≠ "") :
    ∃ p : Layout, p.Describes text ∧ p.HasOperands ∧ p.instruction = i := by
  obtain ⟨p, hp, rfl⟩ := (read?_eq_some_iff.mp h.reads).exists_layout
  refine ⟨p, hp, hp.form.resolve_left ?_, rfl⟩
  intro hbare
  exact hoperands (by rw [Layout.instruction, hbare.operands])

theorem restates_of_gap {i : Instruction} {lead gap gap' rest : String}
    (h : InstructionLine (gappedLine i lead gap rest) i) (hoperands : i.operands ≠ "")
    (hlead : isBlank lead = true) (hgap : IsGap gap.toList) (hgap' : IsGap gap'.toList) :
    Restates (gappedLine i lead gap rest) (gappedLine i lead gap' rest) := by
  obtain ⟨p, hp, hform, rfl⟩ := h.exists_layout hoperands
  obtain ⟨front, tail, hfront, htail, hcode⟩ := hp.exists_ends
  obtain ⟨hleads, hrest⟩ := hp.cut_eq hform hlead hgap hfront hcode
  have hdescribes := hp.regap hform hfront htail hgap' hcode
  have htext' : String.ofList ((p.regap front gap'.toList tail).code ++ p.margin) =
      gappedLine p.instruction lead gap' rest := by
    rw [← String.toList_inj]
    simp [Layout.regap, gappedLine, Layout.instruction, hleads, hrest]
  rw [htext'] at hdescribes
  have hends := h.ending
  rw [toList_trim, hp.ending_iff hform] at hends
  apply h.restates
  refine ⟨?_, read?_eq_some_iff.mpr hdescribes.reads⟩
  rw [toList_trim, hdescribes.ending_iff (hform.regap hgap')]
  exact hends

/-! ### One line for another that says the same -/

theorem Grows.restates {ss us : List Section} (h : Grows ss text us) (htext : Restates text text') :
    Grows ss text' us := by
  cases h with
  | opensSection hmark => exact .opensSection (htext.sectionMarker _ hmark)
  | opensSymbol hmark => exact .opensSymbol (htext.symbolMarker _ hmark)
  | addsInstruction hline => exact .addsInstruction (htext.instructionLine _ hline)

theorem Grown.restates {before after : List String} {us : List Section}
    (h : Grown (before ++ text :: after) us) (htext : Restates text text') :
    Grown (before ++ text' :: after) us := by
  induction after using List.reverseRecOn generalizing us with
  | nil =>
    obtain ⟨ss, hgrown, hgrows⟩ := h.of_concat
    exact .step hgrown (hgrows.restates htext)
  | append_singleton after last ih =>
    rw [← List.cons_append, ← List.append_assoc] at h ⊢
    obtain ⟨ss, hgrown, hgrows⟩ := h.of_concat
    exact .step (ih hgrown) hgrows

namespace Listing

variable {l : Listing} {front back texts texts' : List String}

theorem readLines_of_keptLines_eq (heq : keptLines texts' = keptLines texts)
    (h : (readLines texts).outcome = .ok l) : (readLines texts').outcome = .ok l := by
  rw [readLines_eq_ok_iff] at h ⊢
  rwa [heq]

/-- A blank line for a blank line. -/
theorem readLines_of_blank (hblank : isBlank text = true) (hblank' : isBlank text' = true)
    (h : (readLines (front ++ text :: back)).outcome = .ok l) :
    (readLines (front ++ text' :: back)).outcome = .ok l := by
  refine readLines_of_keptLines_eq ?_ h
  rw [keptLines_append, keptLines_append, keptLines_cons_blank hblank, keptLines_cons_blank hblank']

theorem readLines_of_restates (hheader : ∃ line ∈ front, isBlank line = false)
    (htext : Restates text text') (h : (readLines (front ++ text :: back)).outcome = .ok l) :
    (readLines (front ++ text' :: back)).outcome = .ok l := by
  cases hblank : isBlank text with
  | true => exact readLines_of_blank hblank (htext.blank.trans hblank) h
  | false =>
    obtain ⟨first, rest, hfront⟩ := exists_keptLines_eq_cons hheader
    rw [readLines_eq_ok_iff, keptLines_append, hfront, keptLines_cons hblank] at h
    obtain ⟨_, _, header, ss, hlines, hfirst, hgrown, rfl⟩ := h
    obtain ⟨rfl, rfl⟩ := List.cons.inj hlines
    rw [readLines_eq_ok_iff, keptLines_append, hfront, keptLines_cons (htext.blank.trans hblank)]
    exact ⟨first, _, header, ss, rfl, hfirst, hgrown.restates htext, rfl⟩

/-- Behind blank lines only, the line is blank or the header. -/
theorem readLines_of_header (hfront : ∀ line ∈ front, isBlank line = true)
    (hblank : isBlank text' = isBlank text)
    (hstates : ∀ header, HeaderLine text header → HeaderLine text' header)
    (h : (readLines (front ++ text :: back)).outcome = .ok l) :
    (readLines (front ++ text' :: back)).outcome = .ok l := by
  cases htext : isBlank text with
  | true => exact readLines_of_blank htext (hblank.trans htext) h
  | false =>
    have hnone : keptLines front = [] := keptLines_eq_nil_iff.mpr hfront
    rw [readLines_eq_ok_iff, keptLines_append, hnone, keptLines_cons htext] at h
    obtain ⟨_, _, header, ss, hlines, hfirst, hgrown, rfl⟩ := h
    obtain ⟨rfl, rfl⟩ := List.cons.inj hlines
    rw [readLines_eq_ok_iff, keptLines_append, hnone, keptLines_cons (hblank.trans htext)]
    exact ⟨_, _, header, ss, rfl, hstates header hfirst, hgrown, rfl⟩

/-- Blanks behind the header, or behind a line after it. -/
theorem readLines_of_trail {blanks : String} (hblanks : isBlank blanks = true)
    (h : (readLines (front ++ text :: back)).outcome = .ok l) :
    (readLines (front ++ (text ++ blanks) :: back)).outcome = .ok l := by
  have htext := restates_of_blank_ends isBlank_empty hblanks text
  rw [String.empty_append] at htext
  by_cases hheader : ∃ line ∈ front, isBlank line = false
  · exact readLines_of_restates hheader htext h
  · have hfront : ∀ line ∈ front, isBlank line = true := by simpa using hheader
    exact readLines_of_header hfront htext.blank (fun _ hline => hline.append_blank hblanks) h

end Listing

/-! ### Spacing a listing in another way -/

/-- One change to the blanks of a listing. A line with a line before it that is not blank is no
header. -/
inductive Respaces : List String → List String → Prop
  | blankLine (front : List String) {back : List String} {blank : String}
      (hblank : isBlank blank = true) :
      Respaces (front ++ back) (front ++ blank :: back)
  | behind (front : List String) {back : List String} {line blanks : String}
      (hblanks : isBlank blanks = true) :
      Respaces (front ++ line :: back) (front ++ (line ++ blanks) :: back)
  | inFront (front : List String) {back : List String} {line blanks : String}
      (hheader : ∃ line ∈ front, isBlank line = false) (hblanks : isBlank blanks = true) :
      Respaces (front ++ line :: back) (front ++ (blanks ++ line) :: back)
  | gap (front : List String) {back : List String} {i : Instruction} {lead gap gap' rest : String}
      (hheader : ∃ line ∈ front, isBlank line = false)
      (hline : InstructionLine (gappedLine i lead gap rest) i) (hoperands : i.operands ≠ "")
      (hlead : isBlank lead = true) (hgap : IsGap gap.toList) (hgap' : IsGap gap'.toList) :
      Respaces (front ++ gappedLine i lead gap rest :: back)
        (front ++ gappedLine i lead gap' rest :: back)

theorem Respaces.readLines_eq {texts texts' : List String} {l : Listing} (h : Respaces texts texts')
    (hread : (Listing.readLines texts).outcome = .ok l) :
    (Listing.readLines texts').outcome = .ok l := by
  cases h with
  | blankLine _ hblank =>
    refine Listing.readLines_of_keptLines_eq ?_ hread
    rw [keptLines_append, keptLines_append, keptLines_cons_blank hblank]
  | behind _ hblanks => exact Listing.readLines_of_trail hblanks hread
  | @inFront _ _ line _ hheader hblanks =>
    have htext := restates_of_blank_ends hblanks isBlank_empty line
    rw [String.append_empty] at htext
    exact Listing.readLines_of_restates hheader htext hread
  | gap _ hheader hline hoperands hlead hgap hgap' =>
    exact Listing.readLines_of_restates hheader
      (restates_of_gap hline hoperands hlead hgap hgap') hread

/-- However a listing that is read is spaced in another way, the same is read from it; and every
instruction line with an operand text has a gap. In a listing that is not read, the same line is
reported when blank lines are put in, with a number that is greater by as many as come before it. -/
theorem readings_of_respaced :
    (∀ texts texts' l, Relation.ReflTransGen Respaces texts texts' →
      (Listing.readLines texts).outcome = .ok l → (Listing.readLines texts').outcome = .ok l) ∧
    (∀ text i, InstructionLine text i → i.operands ≠ "" → ∃ lead gap rest,
      text = gappedLine i lead gap rest ∧ isBlank lead = true ∧ IsGap gap.toList) ∧
    ∀ (p : Padding) (r : Report), (Listing.readLines p.texts).report? = some r →
      ∃ r', (Listing.readLines p.padded).report? = some r' ∧ p.Moves r r' := by
  refine ⟨?_, ?_, fun p r h => Padding.exists_moved h⟩
  · intro texts texts' l h hread
    induction h with
    | refl => exact hread
    | tail _ hstep ih => exact hstep.readLines_eq ih
  · intro text i h hoperands
    obtain ⟨p, hp, hform, rfl⟩ := h.exists_layout hoperands
    exact hp.exists_gappedLine hform

/-! ### Two listings in two spacings -/

namespace Spaced

def mov : Instruction := ⟨"mov", "%rax,%rbx", "8"⟩

def narrow : List String :=
  ["a.o: file format elf", "Disassembly of section .text:", "<f>:", gappedLine mov "\t" " " " # 8"]

/-- The blank line is a line separator, and there is a line feed in the gap. -/
def wide : List String :=
  ["a.o: file format elf" ++ " \t", "Disassembly of section .text:", "\u2028", "  " ++ "<f>:",
    gappedLine mov "\t" " \n " " # 8"]

theorem respaces_wide : Relation.ReflTransGen Respaces narrow wide := by
  have hbehind : Respaces narrow ["a.o: file format elf" ++ " \t", "Disassembly of section .text:",
      "<f>:", gappedLine mov "\t" " " " # 8"] := .behind [] (by decide)
  have hblank : Respaces ["a.o: file format elf" ++ " \t", "Disassembly of section .text:",
        "<f>:", gappedLine mov "\t" " " " # 8"]
      ["a.o: file format elf" ++ " \t", "Disassembly of section .text:", "\u2028", "<f>:",
        gappedLine mov "\t" " " " # 8"] :=
    .blankLine ["a.o: file format elf" ++ " \t", "Disassembly of section .text:"] (by decide)
  have hfront : Respaces ["a.o: file format elf" ++ " \t", "Disassembly of section .text:",
        "\u2028", "<f>:", gappedLine mov "\t" " " " # 8"]
      ["a.o: file format elf" ++ " \t", "Disassembly of section .text:", "\u2028", "  " ++ "<f>:",
        gappedLine mov "\t" " " " # 8"] :=
    .inFront ["a.o: file format elf" ++ " \t", "Disassembly of section .text:", "\u2028"]
      (by decide) (by decide)
  have hgap : Respaces ["a.o: file format elf" ++ " \t", "Disassembly of section .text:",
      "\u2028", "  " ++ "<f>:", gappedLine mov "\t" " " " # 8"] wide :=
    .gap
      ["a.o: file format elf" ++ " \t", "Disassembly of section .text:", "\u2028", "  " ++ "<f>:"]
      (by decide) (by decide) (by decide) (by decide) (by decide) (by decide)
  exact (((Relation.ReflTransGen.single hbehind).tail hblank).tail hfront).tail hgap

def listing : Listing := ⟨"a.o", "elf", [⟨".text", [⟨"<f>", [mov]⟩]⟩]⟩

/-- The instruction comes before any symbol, and three blank lines are put in before it. -/
def padding : Padding where
  entries := [⟨["", " "], "a.o: file format elf", by decide⟩,
    ⟨[], "Disassembly of section .text:", by decide⟩, ⟨["\t"], "\tret", by decide⟩,
    ⟨[""], "<f>:", by decide⟩]
  final := [""]
  blank := by decide

def report : Report :=
  ⟨.missingSymbol, "attempted to add an instruction without first defining a symbol",
    some "\tret", some 3⟩

end Spaced

theorem readings_of_respaced_wide :
    Relation.ReflTransGen Respaces Spaced.narrow Spaced.wide ∧
      (Listing.readLines Spaced.narrow).outcome = .ok Spaced.listing ∧
      (Listing.readLines Spaced.wide).outcome = .ok Spaced.listing ∧
      (∃ lead gap rest, "\tmov %rax,%rbx # 8" = gappedLine Spaced.mov lead gap rest ∧
        isBlank lead = true ∧ IsGap gap.toList) ∧
      (Listing.readLines Spaced.padding.texts).report? = some Spaced.report ∧
      ∃ r', (Listing.readLines Spaced.padding.padded).report? = some r' ∧
        Spaced.padding.Moves Spaced.report r' := by
  have hread : (Listing.readLines Spaced.narrow).outcome = .ok Spaced.listing := by decide +kernel
  have hreport : (Listing.readLines Spaced.padding.texts).report? = some Spaced.report := by
    decide +kernel
  exact ⟨Spaced.respaces_wide, hread, readings_of_respaced.1 _ _ _ Spaced.respaces_wide hread,
    readings_of_respaced.2.1 _ _ (by decide) (by decide), hreport,
    readings_of_respaced.2.2 _ _ hreport⟩

end CanonicalListing
