import CanonicalListing.Listing.Line
import CanonicalListing.Proofs.InstructionGrammar

/-!
# The kinds of lines

Each kind is described by the shape of the line, without the order in which the reader
tries them: the shapes exclude one another, since a section marker starts with `D`, a
symbol marker with `<`, and an instruction with a mnemonic character.
-/

namespace CanonicalListing

open Text

/-- `Disassembly of section <name>:` between blanks. -/
structure SectionMarker (text name : String) : Prop where
  shape : trim text = "Disassembly of section " ++ name ++ ":"
  nonempty : name ≠ ""
  chars : ∀ c ∈ name.toList, Line.isSectionNameChar c = true

/-- `<name>:` between blanks, on one line; the angle brackets belong to the name. -/
structure SymbolMarker (text name : String) : Prop where
  shape : trim text = name ++ ":"
  opened : ['<'] <+: name.toList
  closed : ['>'] <:+ name.toList
  oneLine : ∀ c ∈ name.toList, isLineTerminator c = false

/-- An instruction that does not end like a symbol marker. -/
structure InstructionLine (text : String) (i : Instruction) : Prop where
  ending : ¬ ['>', ':'] <:+ (trim text).toList
  reads : Instruction.read? text = some i

def IsSectionMarker (text : String) : Prop := ∃ name, SectionMarker text name

def IsSymbolMarker (text : String) : Prop := ∃ name, SymbolMarker text name

def IsInstructionLine (text : String) : Prop := ∃ i, InstructionLine text i

def Unclassifiable (text : String) : Prop :=
  ¬ IsSectionMarker text ∧ ¬ IsSymbolMarker text ∧ ¬ IsInstructionLine text

/-- `<file name>:` with the format behind the words `file format `. -/
structure HeaderLine (text : String) (header : Header) : Prop where
  noColon : ':' ∉ header.fileName.toList
  parts : ∃ rest format, text = header.fileName ++ ":" ++ rest ∧
    trim rest = "file format " ++ format ∧ header.fileFormat = trim format

namespace Line

theorem endsLikeSymbol_iff {cs : List Char} : endsLikeSymbol cs = true ↔ ['>', ':'] <:+ cs := by
  rw [endsLikeSymbol, List.isPrefixOf_iff_prefix]
  have hrev : [':', '>'] = (['>', ':'] : List Char).reverse := rfl
  rw [hrev, List.reverse_prefix]

theorem sectionName?_eq_some_iff {cs name : List Char} :
    sectionName? cs = some name ↔ cs = "Disassembly of section ".toList ++ name ++ [':'] ∧
      name ≠ [] ∧ ∀ c ∈ name, isSectionNameChar c = true := by
  unfold sectionName?
  constructor
  · intro h
    split at h
    · next rest hrest =>
      have hcs := List.append_eq_of_isPrefixOf?_eq_some hrest
      obtain ⟨⟨hcolon, hne, hchars⟩, hname⟩ := Option.ite_none_right_eq_some.mp h
      obtain rfl := Option.some.inj hname
      obtain ⟨front, rfl⟩ := List.getLast?_eq_some_iff.mp hcolon
      rw [List.dropLast_concat] at hne hchars ⊢
      exact ⟨by rw [← hcs, List.append_assoc], hne, List.all_eq_true.mp hchars⟩
    · simp at h
  · rintro ⟨rfl, hne, hchars⟩
    have hrest : "Disassembly of section ".toList.isPrefixOf?
        ("Disassembly of section ".toList ++ name ++ [':']) = some (name ++ [':']) := by
      rw [List.isPrefixOf?_eq_some_iff_append_eq, List.append_assoc]
    rw [hrest]
    simp only [List.getLast?_concat, List.dropLast_concat]
    exact if_pos ⟨trivial, hne, List.all_eq_true.mpr hchars⟩

theorem symbolName?_eq_some_iff {cs name : List Char} :
    symbolName? cs = some name ↔ cs = name ++ [':'] ∧ ['<'] <+: name ∧ ['>'] <:+ name ∧
      ∀ c ∈ name, isLineTerminator c = false := by
  unfold symbolName?
  constructor
  · intro h
    obtain ⟨⟨hopen, hends, hline⟩, hname⟩ := Option.ite_none_right_eq_some.mp h
    obtain rfl := Option.some.inj hname
    obtain ⟨front, rfl⟩ := endsLikeSymbol_iff.mp hends
    have hsplit : front ++ ['>', ':'] = (front ++ ['>']) ++ [':'] := by simp
    rw [hsplit, List.dropLast_concat]
    refine ⟨rfl, ?_, List.suffix_append front ['>'], ?_⟩
    · cases front with
      | nil => simp at hopen
      | cons c front =>
        obtain rfl : c = '<' := by simpa using hopen
        exact ⟨front ++ ['>'], rfl⟩
    · intro c hc
      have hnone : (front ++ ['>', ':']).any isLineTerminator = false := by
        rwa [Bool.not_eq_true'] at hline
      simpa using List.any_eq_false.mp hnone c (hsplit ▸ List.mem_append_left _ hc)
  · rintro ⟨rfl, ⟨rest, rfl⟩, ⟨front, hfront⟩, hline⟩
    have hends : endsLikeSymbol (['<'] ++ rest ++ [':']) = true := by
      refine endsLikeSymbol_iff.mpr ⟨front, ?_⟩
      rw [← hfront, List.append_assoc]
      rfl
    have hnone : (!(['<'] ++ rest ++ [':']).any isLineTerminator) = true := by
      rw [Bool.not_eq_true', List.any_eq_false]
      intro c hc
      rcases List.mem_append.mp hc with hc | hc
      · simp [hline c hc]
      · obtain rfl := List.mem_singleton.mp hc
        decide
    rw [if_pos ⟨rfl, hends, hnone⟩, List.dropLast_concat]

end Line

theorem sectionMarker_iff {text name : String} :
    SectionMarker text name ↔ Line.sectionName? (trimChars text.toList) = some name.toList := by
  rw [Line.sectionName?_eq_some_iff]
  constructor
  · rintro ⟨hshape, hne, hchars⟩
    refine ⟨?_, by simpa using hne, hchars⟩
    have hlist := congrArg String.toList hshape
    simpa using hlist
  · rintro ⟨hshape, hne, hchars⟩
    refine ⟨?_, by simpa using hne, hchars⟩
    rw [← String.toList_inj]
    simpa using hshape

theorem symbolMarker_iff {text name : String} :
    SymbolMarker text name ↔ Line.symbolName? (trimChars text.toList) = some name.toList := by
  rw [Line.symbolName?_eq_some_iff]
  constructor
  · rintro ⟨hshape, hopened, hclosed, hline⟩
    refine ⟨?_, hopened, hclosed, hline⟩
    have hlist := congrArg String.toList hshape
    simpa using hlist
  · rintro ⟨hshape, hopened, hclosed, hline⟩
    refine ⟨?_, hopened, hclosed, hline⟩
    rw [← String.toList_inj]
    simpa using hshape

theorem instructionLine_iff {text : String} {i : Instruction} :
    InstructionLine text i ↔
      Line.endsLikeSymbol (trimChars text.toList) = false ∧ Instruction.read? text = some i := by
  rw [← Bool.not_eq_true, Line.endsLikeSymbol_iff, ← toList_trim]
  exact ⟨fun h => ⟨h.ending, h.reads⟩, fun h => ⟨h.1, h.2⟩⟩

theorem isSectionMarker_iff {text : String} :
    IsSectionMarker text ↔ (Line.sectionName? (trimChars text.toList)).isSome = true := by
  rw [Option.isSome_iff_exists]
  constructor
  · rintro ⟨name, h⟩
    exact ⟨name.toList, sectionMarker_iff.mp h⟩
  · rintro ⟨name, h⟩
    exact ⟨String.ofList name, sectionMarker_iff.mpr (by simpa using h)⟩

theorem isSymbolMarker_iff {text : String} :
    IsSymbolMarker text ↔ (Line.symbolName? (trimChars text.toList)).isSome = true := by
  rw [Option.isSome_iff_exists]
  constructor
  · rintro ⟨name, h⟩
    exact ⟨name.toList, symbolMarker_iff.mp h⟩
  · rintro ⟨name, h⟩
    exact ⟨String.ofList name, symbolMarker_iff.mpr (by simpa using h)⟩

theorem isInstructionLine_iff {text : String} :
    IsInstructionLine text ↔ Line.endsLikeSymbol (trimChars text.toList) = false ∧
      (Instruction.read? text).isSome = true := by
  simp only [IsInstructionLine, instructionLine_iff, exists_and_left, Option.isSome_iff_exists]

instance (text name : String) : Decidable (SectionMarker text name) :=
  decidable_of_iff _ sectionMarker_iff.symm

instance (text name : String) : Decidable (SymbolMarker text name) :=
  decidable_of_iff _ symbolMarker_iff.symm

instance (text : String) (i : Instruction) : Decidable (InstructionLine text i) :=
  decidable_of_iff _ instructionLine_iff.symm

instance (text : String) : Decidable (IsSectionMarker text) :=
  decidable_of_iff _ isSectionMarker_iff.symm

instance (text : String) : Decidable (IsSymbolMarker text) :=
  decidable_of_iff _ isSymbolMarker_iff.symm

instance (text : String) : Decidable (IsInstructionLine text) :=
  decidable_of_iff _ isInstructionLine_iff.symm

theorem SectionMarker.head {text name : String} (h : SectionMarker text name) :
    (trimChars text.toList).head? = some 'D' := by
  rw [(Line.sectionName?_eq_some_iff.mp (sectionMarker_iff.mp h)).1]
  rfl

theorem SymbolMarker.head {text name : String} (h : SymbolMarker text name) :
    (trimChars text.toList).head? = some '<' := by
  obtain ⟨hshape, ⟨rest, hopened⟩, -⟩ := Line.symbolName?_eq_some_iff.mp (symbolMarker_iff.mp h)
  rw [hshape, ← hopened]
  rfl

theorem InstructionLine.head {text : String} {i : Instruction} (h : InstructionLine text i) :
    ∃ c, (trimChars text.toList).head? = some c ∧ Instruction.isMnemonicChar c = true := by
  obtain ⟨c, rest, hstart, hc⟩ := (Instruction.read?_eq_some_iff.mp h.reads).exists_head
  refine ⟨c, ?_, hc⟩
  obtain ⟨run, -, hcut⟩ := exists_trimEnd (trimStart text.toList)
  have hne : trimEnd (trimStart text.toList) ≠ [] := by
    intro hnil
    rw [trimEnd_eq_nil, hstart] at hnil
    have hblank := hnil c List.mem_cons_self
    rw [Instruction.isBlankChar_of_isMnemonicChar hc] at hblank
    exact Bool.false_ne_true hblank
  have hhead : (trimEnd (trimStart text.toList)).head? = (trimStart text.toList).head? := by
    rw [← List.head?_append_of_ne_nil _ hne, ← hcut]
  rw [trimChars, hhead, hstart]
  rfl

/-- A line has one kind. -/
theorem IsSymbolMarker.not_isSectionMarker {text : String} (h : IsSymbolMarker text) :
    ¬ IsSectionMarker text := by
  rintro ⟨name, hsection⟩
  obtain ⟨name', hsymbol⟩ := h
  have hhead := hsection.head.symm.trans hsymbol.head
  exact absurd hhead (by decide)

theorem IsInstructionLine.not_isSectionMarker {text : String} (h : IsInstructionLine text) :
    ¬ IsSectionMarker text := by
  rintro ⟨name, hsection⟩
  obtain ⟨i, hline⟩ := h
  obtain ⟨c, hhead, hc⟩ := hline.head
  obtain rfl := Option.some.inj (hsection.head.symm.trans hhead)
  exact absurd hc (by decide)

theorem IsInstructionLine.not_isSymbolMarker {text : String} (h : IsInstructionLine text) :
    ¬ IsSymbolMarker text := by
  rintro ⟨name, hsymbol⟩
  obtain ⟨i, hline⟩ := h
  obtain ⟨c, hhead, hc⟩ := hline.head
  obtain rfl := Option.some.inj (hsymbol.head.symm.trans hhead)
  exact absurd hc (by decide)

theorem sectionName?_eq_none {text : String} (h : ¬ IsSectionMarker text) :
    Line.sectionName? (trimChars text.toList) = none := by
  rwa [isSectionMarker_iff, Bool.not_eq_true, Option.isSome_eq_false_iff,
    Option.isNone_iff_eq_none] at h

theorem symbolName?_eq_none {text : String} (h : ¬ IsSymbolMarker text) :
    Line.symbolName? (trimChars text.toList) = none := by
  rwa [isSymbolMarker_iff, Bool.not_eq_true, Option.isSome_eq_false_iff,
    Option.isNone_iff_eq_none] at h

namespace Line

theorem read_of_sectionMarker {text name : String} (h : SectionMarker text name) :
    read text = sectionMarker name := by
  simp only [read, sectionMarker_iff.mp h, String.ofList_toList]

theorem read_of_symbolMarker {text name : String} (h : SymbolMarker text name) :
    read text = symbolMarker name := by
  have hsection := sectionName?_eq_none (IsSymbolMarker.not_isSectionMarker ⟨name, h⟩)
  simp only [read, hsection, symbolMarker_iff.mp h, String.ofList_toList]

theorem read_of_instructionLine {text : String} {i : Instruction} (h : InstructionLine text i) :
    read text = instruction i := by
  have hsection := sectionName?_eq_none (IsInstructionLine.not_isSectionMarker ⟨i, h⟩)
  have hsymbol := symbolName?_eq_none (IsInstructionLine.not_isSymbolMarker ⟨i, h⟩)
  obtain ⟨hends, hreads⟩ := instructionLine_iff.mp h
  simp [read, hsection, hsymbol, hends, hreads]

theorem read_of_unclassifiable {text : String} (h : Unclassifiable text) :
    read text = unrecognized := by
  obtain ⟨hsection, hsymbol, hinstruction⟩ := h
  simp only [read, sectionName?_eq_none hsection, symbolName?_eq_none hsymbol]
  split_ifs with hends
  · rfl
  · cases hreads : Instruction.read? text with
    | none => rfl
    | some i =>
      exact absurd ⟨i, instructionLine_iff.mpr ⟨Bool.not_eq_true _ ▸ hends, hreads⟩⟩ hinstruction

end Line

theorem kinds_exhaust (text : String) :
    IsSectionMarker text ∨ IsSymbolMarker text ∨ IsInstructionLine text ∨ Unclassifiable text := by
  by_cases hsection : IsSectionMarker text
  · exact Or.inl hsection
  · by_cases hsymbol : IsSymbolMarker text
    · exact Or.inr (Or.inl hsymbol)
    · by_cases hinstruction : IsInstructionLine text
      · exact Or.inr (Or.inr (Or.inl hinstruction))
      · exact Or.inr (Or.inr (Or.inr ⟨hsection, hsymbol, hinstruction⟩))

theorem Header.read?_of_notMem {text : String} (h : ':' ∉ text.toList) :
    Header.read? text = none := by
  unfold read?
  rw [span_ne_of_notMem h]

theorem Header.read?_append {name rest : String} (h : ':' ∉ name.toList) :
    Header.read? (name ++ ":" ++ rest) =
      ("file format ".toList.isPrefixOf? (trim rest).toList).map fun format =>
        ⟨name, String.ofList (trimChars format)⟩ := by
  have hsplit : (name ++ ":" ++ rest).toList = name.toList ++ ':' :: rest.toList := by simp
  unfold read?
  rw [hsplit, span_ne_append h, toList_trim]
  simp only [String.ofList_toList]

/-- The header that is read is the one the line states. -/
theorem Header.read?_eq_some_iff {text : String} {header : Header} :
    Header.read? text = some header ↔ HeaderLine text header := by
  constructor
  · intro h
    by_cases hcolon : ':' ∈ text.toList
    · obtain ⟨name, rest, htext, hname⟩ := List.eq_append_cons_of_mem hcolon
      have hcut : text = String.ofList name ++ ":" ++ String.ofList rest := by
        rw [← String.toList_inj, htext]
        simp
      have hname' : ':' ∉ (String.ofList name).toList := by rwa [String.toList_ofList]
      rw [hcut, Header.read?_append hname'] at h
      obtain ⟨format, hformat, rfl⟩ := Option.map_eq_some_iff.mp h
      refine ⟨hname', String.ofList rest, String.ofList format, hcut, ?_, ?_⟩
      · rw [← String.toList_inj, ← List.append_eq_of_isPrefixOf?_eq_some hformat]
        simp
      · simp [trim]
    · rw [Header.read?_of_notMem hcolon] at h
      exact absurd h (by simp)
  · rintro ⟨hname, rest, format, rfl, hrest, hformat⟩
    have hlead : "file format ".toList.isPrefixOf? (trim rest).toList = some format.toList := by
      rw [List.isPrefixOf?_eq_some_iff_append_eq, hrest, String.toList_append]
    rw [Header.read?_append hname, hlead]
    cases header
    simp only at hformat
    simp [hformat, trim]

instance (text : String) (header : Header) : Decidable (HeaderLine text header) :=
  decidable_of_iff _ Header.read?_eq_some_iff

end CanonicalListing
