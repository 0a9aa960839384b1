import CanonicalListing.Listing.Basic
import CanonicalListing.Proofs.LineKinds

/-!
# Well-formed entries and their lines

An entry is well-formed when it can be written on one line of a text and be recognized
there. Written lines are of the kind they are meant to be, and what is read from a line
without line feeds is well-formed again: the conditions are neither too weak nor too
strong. An instruction is always written with a `#` behind its code, which keeps the
operand text away from the end of the line.
-/

namespace CanonicalListing

open Text

namespace Instruction

/-- An instruction with the three parts as they are read. -/
structure WellFormed (i : Instruction) : Prop where
  mnemonic : Mnemonic i.opcode.toList
  mnemonicLine : '\n' ∉ i.opcode.toList
  operands : i.operands ≠ "" → IsToken i.operands.toList ∧ '#' ∉ i.operands.toList ∧
    ¬ IsWord i.operands.toList ∧ ∀ c ∈ i.opcode.toList, isLineTerminator c = false
  commentTrimmed : trim i.comment = i.comment
  commentLine : '\n' ∉ i.comment.toList
  commentEnd : ¬ ['>', ':'] <:+ i.comment.toList

/-- A tab, the mnemonic and the operand text, and then `#` and the comment. -/
def print (i : Instruction) : String :=
  "\t" ++ i.opcode ++ keptPart true " " i.operands ++ " #" ++ keptPart true " " i.comment

theorem keptPart_of_ne {part : String} (h : part ≠ "") : keptPart true " " part = " " ++ part := by
  have hne : part.isEmpty = false := by simpa using h
  simp [keptPart, hne]

theorem toList_keptPart_of_ne {part : String} (h : part ≠ "") :
    (keptPart true " " part).toList = ' ' :: part.toList := by
  simp [keptPart_of_ne h]

theorem trimChars_keptPart {part : String} (h : BareEnds part.toList) :
    trimChars (keptPart true " " part).toList = part.toList := by
  by_cases hpart : part = ""
  · subst hpart
    rfl
  · rw [toList_keptPart_of_ne hpart]
    have hmid : trimChars ([' '] ++ part.toList ++ []) = part.toList :=
      trimChars_between (fun _ => isBlankChar_of_mem_space) h (by simp)
    simpa using hmid

/-- The code of the line, and what stands behind the `#`. -/
theorem toList_print (i : Instruction) : i.print.toList =
    ('\t' :: (i.opcode.toList ++ (keptPart true " " i.operands).toList ++ [' '])) ++
      '#' :: (keptPart true " " i.comment).toList := by
  simp [print]

theorem hash_notMem_of_mnemonic {cs : List Char} (h : Mnemonic cs) : '#' ∉ cs := by
  intro hmem
  exact absurd (h.chars '#' hmem) (by decide)

theorem Body.bareEnds {body opcode operands : List Char} (h : Body body opcode operands) :
    BareEnds body := by
  cases h with
  | bare hopcode => exact hopcode.bareEnds
  | @operands _ gap _ hopcode _ _ htoken _ =>
    have hne : gap ++ operands ≠ [] := List.append_ne_nil_of_right_ne_nil _ htoken.nonempty
    rw [List.append_assoc]
    apply BareEnds.append hopcode.ne_nil hne hopcode.bareEnds.head
    rw [List.getLast?_append_of_ne_nil _ htoken.nonempty]
    exact fun c hc => htoken.chars c (List.mem_of_mem_getLast? hc)

namespace WellFormed

theorem body {i : Instruction} (h : i.WellFormed) :
    Body (i.opcode.toList ++ (keptPart true " " i.operands).toList) i.opcode.toList
      i.operands.toList := by
  by_cases hoperands : i.operands = ""
  · rw [hoperands, keptPart_empty]
    simpa using Body.bare h.mnemonic
  · obtain ⟨htoken, -, hword, hline⟩ := h.operands hoperands
    have hgap : IsGap [' '] := ⟨by simp, fun _ => isBlankChar_of_mem_space⟩
    have hbody := Body.operands h.mnemonic hline hgap htoken hword
    rw [toList_keptPart_of_ne hoperands]
    simpa using hbody

theorem hash_notMem_code {i : Instruction} (h : i.WellFormed) :
    '#' ∉ '\t' :: (i.opcode.toList ++ (keptPart true " " i.operands).toList ++ [' ']) := by
  have hopcode := hash_notMem_of_mnemonic h.mnemonic
  by_cases hoperands : i.operands = ""
  · simp [hoperands, hopcode]
  · obtain ⟨-, hhash, -⟩ := h.operands hoperands
    simp [toList_keptPart_of_ne hoperands, hopcode, hhash]

theorem bareEnds_comment {i : Instruction} (h : i.WellFormed) : BareEnds i.comment.toList :=
  trim_eq_self_iff.mp h.commentTrimmed

theorem reads_print {i : Instruction} (h : i.WellFormed) : Reads i.print i := by
  refine ⟨⟨'\t', by simp [toList_print], by decide⟩, ?_⟩
  have hcomment := trimChars_keptPart h.bareEnds_comment
  have hcommented : Commented i.print.toList _ (trimChars (keptPart true " " i.comment).toList) :=
    i.toList_print ▸ Commented.comment h.hash_notMem_code
  have hcode : trimChars
      (['\t'] ++ (i.opcode.toList ++ (keptPart true " " i.operands).toList) ++ [' ']) =
      i.opcode.toList ++ (keptPart true " " i.operands).toList :=
    trimChars_between (by simp; decide) h.body.bareEnds fun _ => isBlankChar_of_mem_space
  exact ⟨_, _, hcommented, hcode.symm ▸ h.body, by rw [hcomment, String.ofList_toList]⟩

end WellFormed

/-- A line with a comment ends like its comment. -/
theorem ending_iff (code rest : List Char) :
    ['>', ':'] <:+ trimChars (code ++ '#' :: rest) ↔ ['>', ':'] <:+ trimChars rest := by
  obtain ⟨lead, hlead, hend⟩ := exists_trimEnd_eq_append rest
  have hcut : trimChars (code ++ '#' :: rest) =
      (trimStart code ++ '#' :: lead) ++ trimChars rest := by
    rw [trimChars_append_cons (by decide), hend, List.append_assoc, List.cons_append]
  rw [hcut]
  by_cases hrest : trimChars rest = []
  · have hnil : lead = [] := by
      rw [hrest, List.append_nil, trimEnd_eq_nil.mpr (trimChars_eq_nil.mp hrest)] at hend
      exact hend.symm
    rw [hrest, hnil, List.append_nil]
    constructor
    · intro h
      have hlast := h.getLast (by simp)
      simp at hlast
    · exact fun h => absurd h (by simp)
  · apply pair_suffix_append_iff hrest
    intro hlast
    rw [List.getLast?_append_of_ne_nil _ (List.cons_ne_nil _ _)] at hlast
    rcases List.mem_cons.mp (List.mem_of_getLast? hlast) with h | h
    · exact absurd h (by decide)
    · exact absurd (hlead _ h) (by decide)

theorem WellFormed.instructionLine {i : Instruction} (h : i.WellFormed) :
    InstructionLine i.print i := by
  refine ⟨?_, read?_eq_some_iff.mpr h.reads_print⟩
  rw [toList_trim, toList_print, ending_iff, trimChars_keptPart h.bareEnds_comment]
  exact h.commentEnd

theorem WellFormed.newline_notMem_code {i : Instruction} (h : i.WellFormed) :
    '\n' ∉ ("\t" ++ i.opcode ++ keptPart true " " i.operands).toList := by
  by_cases hne : i.operands = ""
  · simp [hne, h.mnemonicLine]
  · obtain ⟨htoken, -⟩ := h.operands hne
    have hoperands : '\n' ∉ i.operands.toList := fun hmem =>
      absurd (htoken.chars _ hmem) (by decide)
    simp [keptPart_of_ne hne, h.mnemonicLine, hoperands]

theorem Body.operands_of_ne_nil {body opcode operands : List Char} (h : Body body opcode operands)
    (hne : operands ≠ []) : IsToken operands ∧ ¬ IsWord operands ∧
      (∀ c ∈ opcode, isLineTerminator c = false) ∧ operands <:+ body := by
  cases h with
  | bare _ => exact absurd rfl hne
  | operands _ hline _ htoken hword => exact ⟨htoken, hword, hline, List.suffix_append _ _⟩

theorem Commented.hash_notMem {cs code comment : List Char} (h : Commented cs code comment) :
    '#' ∉ code := by
  cases h with
  | plain hcode => exact hcode
  | comment hcode => exact hcode

theorem Commented.bareEnds {cs code comment : List Char} (h : Commented cs code comment) :
    BareEnds comment := by
  cases h with
  | plain _ => exact BareEnds.nil
  | comment _ => exact bareEnds_trimChars _

theorem Commented.mem_of_mem {cs code comment : List Char} (h : Commented cs code comment)
    {c : Char} (hc : c ∈ comment) : c ∈ cs := by
  cases h with
  | plain _ => simp at hc
  | comment _ => exact List.mem_append_right _ (List.mem_cons_of_mem _ (mem_of_mem_trimChars hc))

theorem Commented.ending {cs code comment : List Char} (h : Commented cs code comment)
    (hend : ['>', ':'] <:+ comment) : ['>', ':'] <:+ trimChars cs := by
  cases h with
  | plain _ => exact absurd hend (by simp)
  | comment _ => exact (ending_iff _ _).mpr hend

/-- What is read from one line is well-formed. -/
theorem wellFormed_of_instructionLine {text : String} {i : Instruction}
    (h : InstructionLine text i) (hline : '\n' ∉ text.toList) : i.WellFormed := by
  obtain ⟨-, code, comment, hcommented, hbody, hcomment⟩ := read?_eq_some_iff.mp h.reads
  have hcommentList : i.comment.toList = comment := by rw [hcomment, String.toList_ofList]
  obtain ⟨rest, hrest⟩ := hbody.exists_eq_append
  obtain ⟨more, htext⟩ := hcommented.exists_eq_append
  have hopcode : ∀ c ∈ i.opcode.toList, c ∈ text.toList := by
    intro c hc
    have hmem : c ∈ trimChars code := hrest ▸ List.mem_append_left _ hc
    exact htext ▸ List.mem_append_left _ (mem_of_mem_trimChars hmem)
  constructor
  · exact hbody.mnemonic
  · exact fun hmem => hline (hopcode _ hmem)
  · intro hne
    have hne' : i.operands.toList ≠ [] := by simpa using hne
    obtain ⟨htoken, hword, hterminators, hsuffix⟩ := hbody.operands_of_ne_nil hne'
    refine ⟨htoken, ?_, hword, hterminators⟩
    exact fun hmem => hcommented.hash_notMem (mem_of_mem_trimChars (hsuffix.subset hmem))
  · rw [trim_eq_self_iff, hcommentList]
    exact hcommented.bareEnds
  · rw [hcommentList]
    exact fun hmem => hline (hcommented.mem_of_mem hmem)
  · rw [hcommentList]
    intro hend
    apply h.ending
    rw [toList_trim]
    exact hcommented.ending hend

end Instruction

/-- A symbol with a name in angle brackets on one line. -/
structure Symbol.WellFormed (s : Symbol) : Prop where
  opened : ['<'] <+: s.name.toList
  closed : ['>'] <:+ s.name.toList
  oneLine : ∀ c ∈ s.name.toList, isLineTerminator c = false
  instructions : ∀ i ∈ s.instructions, i.WellFormed

structure Section.WellFormed (s : Section) : Prop where
  nonempty : s.name ≠ ""
  chars : ∀ c ∈ s.name.toList, Line.isSectionNameChar c = true
  symbols : ∀ symbol ∈ s.symbols, symbol.WellFormed

/-- A listing with a file name and a format that a header can state. -/
structure Listing.WellFormed (l : Listing) : Prop where
  noColon : ':' ∉ l.fileName.toList
  nameLine : '\n' ∉ l.fileName.toList
  formatNonempty : l.fileFormat ≠ ""
  formatTrimmed : trim l.fileFormat = l.fileFormat
  formatLine : '\n' ∉ l.fileFormat.toList
  sections : ∀ s ∈ l.sections, s.WellFormed

def Symbol.markerLine (s : Symbol) : String := s.name ++ ":"

def Section.markerLine (s : Section) : String := "Disassembly of section " ++ s.name ++ ":"

def Listing.headerLine (l : Listing) : String := l.fileName ++ ": file format " ++ l.fileFormat

theorem Symbol.WellFormed.marks {s : Symbol} (h : s.WellFormed) :
    SymbolMarker s.markerLine s.name := by
  refine ⟨?_, h.opened, h.closed, h.oneLine⟩
  obtain ⟨rest, hrest⟩ := h.opened
  rw [markerLine, trim_eq_self_iff, String.toList_append, ← hrest, List.append_assoc]
  exact BareEnds.append (by simp) (by simp) (by simp; decide) (by simp; decide)

theorem bareEnds_sectionMarker (name : String) :
    BareEnds ("Disassembly of section " ++ name ++ ":").toList := by
  rw [String.append_assoc, String.toList_append, String.toList_append]
  exact BareEnds.append (by decide) (by simp) (not_isBlankChar_of_head? (c := 'D') rfl rfl)
    (by simp; decide)

theorem Section.WellFormed.marks {s : Section} (h : s.WellFormed) :
    SectionMarker s.markerLine s.name :=
  ⟨trim_eq_self_iff.mpr (bareEnds_sectionMarker s.name), h.nonempty, h.chars⟩

theorem Listing.WellFormed.states {l : Listing} (h : l.WellFormed) :
    HeaderLine l.headerLine ⟨l.fileName, l.fileFormat⟩ := by
  refine ⟨h.noColon, " file format " ++ l.fileFormat, l.fileFormat, ?_, ?_, h.formatTrimmed.symm⟩
  · rw [headerLine, ← String.toList_inj]
    simp
  · have hne : l.fileFormat.toList ≠ [] := by simpa using h.formatNonempty
    have hbare : BareEnds ("file format ".toList ++ l.fileFormat.toList) :=
      BareEnds.append (by decide) hne (not_isBlankChar_of_head? (c := 'f') rfl rfl)
        (trim_eq_self_iff.mp h.formatTrimmed).last
    have hmid : trimChars ([' '] ++ ("file format ".toList ++ l.fileFormat.toList) ++ []) =
        "file format ".toList ++ l.fileFormat.toList :=
      trimChars_between (fun _ => isBlankChar_of_mem_space) hbare (by simp)
    rw [← String.toList_inj, toList_trim]
    simpa using hmid

theorem Symbol.WellFormed.of_marks {text name : String} (h : SymbolMarker text name)
    {is : List Instruction} (his : ∀ i ∈ is, i.WellFormed) : Symbol.WellFormed ⟨name, is⟩ :=
  ⟨h.opened, h.closed, h.oneLine, his⟩

theorem Section.WellFormed.of_marks {text name : String} (h : SectionMarker text name)
    {symbols : List Symbol} (hsymbols : ∀ symbol ∈ symbols, symbol.WellFormed) :
    Section.WellFormed ⟨name, symbols⟩ :=
  ⟨h.nonempty, h.chars, hsymbols⟩

theorem Listing.WellFormed.of_states {text : String} {header : Header} (h : HeaderLine text header)
    (hline : '\n' ∉ text.toList) {sections : List Section}
    (hsections : ∀ s ∈ sections, s.WellFormed) :
    Listing.WellFormed ⟨header.fileName, header.fileFormat, sections⟩ := by
  obtain ⟨hcolon, rest, format, rfl, hrest, hformat⟩ := h
  have hlist : trimChars rest.toList = "file format ".toList ++ format.toList := by
    rw [← toList_trim, hrest, String.toList_append]
  have hmem : ∀ c ∈ header.fileFormat.toList, c ∈ rest.toList := by
    intro c hc
    rw [hformat, toList_trim] at hc
    exact mem_of_mem_trimChars (hlist ▸ List.mem_append_right _ (mem_of_mem_trimChars hc))
  have hname : '\n' ∉ header.fileName.toList := fun hmem' => hline (by simp [hmem'])
  refine ⟨hcolon, hname, ?_, ?_, fun hmem' => hline (by simp [hmem _ hmem']), hsections⟩
  · -- without a format, the trimmed text would end with the blank of `file format `
    intro hempty
    have hblank : ∀ c ∈ format.toList, isBlankChar c = true := by
      rw [← trimChars_eq_nil, ← toList_trim, ← hformat]
      exact congrArg String.toList hempty
    have hself := trimEnd_eq_self (bareEnds_trimChars rest.toList).last
    rw [hlist, trimEnd_append_of_blank hblank] at hself
    have hlen := congrArg List.length hself
    simp only [List.length_append] at hlen
    have hshort : (trimEnd "file format ".toList).length < "file format ".toList.length := by decide
    omega
  · rw [hformat, trim_eq_self_iff, toList_trim]
    exact bareEnds_trimChars _

end CanonicalListing
