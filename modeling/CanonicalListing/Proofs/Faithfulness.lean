import CanonicalListing.Proofs.FlatRendering
import CanonicalListing.Proofs.RoundTrip

/-!
# Renderings tell listings apart

A rendering keeps the names, the mnemonics and the parts it is asked to keep, and nothing
else. The lines of a rendering show their rank by what they start with: a section name has
no margin, a symbol name starts with an angle bracket behind its margin, and an instruction
with its mnemonic. A rendered instruction is an instruction line, from which the reader gets
the kept parts back. So two listings that were read have the same rendering exactly if they
agree on what is kept.
-/

namespace CanonicalListing

open Text

/-- The same instruction, as far as a rendering keeps it. -/
structure Instruction.Agrees (options : RenderOptions) (i i' : Instruction) : Prop where
  opcode : i.opcode = i'.opcode
  operands : options.operands = true → i.operands = i'.operands
  comment : options.comments = true → i.comment = i'.comment

structure Symbol.Agrees (options : RenderOptions) (s s' : Symbol) : Prop where
  name : s.name = s'.name
  instructions : List.Forall₂ (Instruction.Agrees options) s.instructions s'.instructions

structure Section.Agrees (options : RenderOptions) (s s' : Section) : Prop where
  name : s.name = s'.name
  symbols : List.Forall₂ (Symbol.Agrees options) s.symbols s'.symbols

/-- The same sections in the same order; the file name and the format do not count. -/
def Listing.Agrees (options : RenderOptions) (l l' : Listing) : Prop :=
  List.Forall₂ (Section.Agrees options) l.sections l'.sections

/-! ### Agreement gives one rendering -/

theorem Instruction.Agrees.render_eq {options : RenderOptions} {i i' : Instruction}
    (h : i.Agrees options i') : i.render options = i'.render options := by
  have hpart : ∀ (keep : Bool) (lead part part' : String), (keep = true → part = part') →
      keptPart keep lead part = keptPart keep lead part' := by
    intro keep lead part part' hkeep
    cases keep with
    | false => rfl
    | true => rw [hkeep rfl]
  rw [render, render, h.opcode, hpart _ _ _ _ h.operands, hpart _ _ _ _ h.comment]

theorem Symbol.Agrees.render_eq {options : RenderOptions} {s s' : Symbol}
    (h : s.Agrees options s') : s.render options = s'.render options := by
  have hinstructions := map_eq_of_forall₂ h.instructions fun _ _ => Instruction.Agrees.render_eq
  rw [render, render, h.name, hinstructions]

theorem Section.Agrees.render_eq {options : RenderOptions} {s s' : Section}
    (h : s.Agrees options s') : s.render options = s'.render options := by
  have hsymbols := map_eq_of_forall₂ h.symbols fun _ _ => Symbol.Agrees.render_eq
  rw [render, render, h.name, hsymbols]

theorem Listing.Agrees.render_eq {options : RenderOptions} {l l' : Listing}
    (h : l.Agrees options l') : l.render options = l'.render options := by
  have hsections := map_eq_of_forall₂ h fun _ _ => Section.Agrees.render_eq
  rw [render, render, hsections]

/-! ### An instruction is read back from its line -/

namespace Instruction

/-- The instruction without the parts that are not kept. -/
def keep (options : RenderOptions) (i : Instruction) : Instruction :=
  ⟨i.opcode, if options.operands then i.operands else "",
    if options.comments then i.comment else ""⟩

theorem agrees_iff {options : RenderOptions} {i i' : Instruction} :
    i.Agrees options i' ↔ i.keep options = i'.keep options := by
  have hpart : ∀ (keep : Bool) (part part' : String),
      (keep = true → part = part') ↔ (if keep then part else "") = if keep then part' else "" := by
    intro keep part part'
    cases keep <;> simp
  rw [keep, keep, Instruction.mk.injEq, ← hpart, ← hpart]
  exact ⟨fun h => ⟨h.opcode, h.operands, h.comment⟩, fun h => ⟨h.1, h.2.1, h.2.2⟩⟩

/-- A rendering that keeps everything. -/
def keepAll : RenderOptions := ⟨true, true⟩

theorem render_keep (options : RenderOptions) (i : Instruction) :
    (i.keep options).render keepAll = i.render options := by
  have hpart : ∀ (keep : Bool) (lead part : String),
      keptPart true lead (if keep then part else "") = keptPart keep lead part := by
    intro keep lead part
    cases keep with
    | false => rfl
    | true => rfl
  simp only [render, Instruction.keep, keepAll, hpart]

theorem WellFormed.keep {i : Instruction} (h : i.WellFormed) (options : RenderOptions) :
    (i.keep options).WellFormed := by
  obtain ⟨operands, comments⟩ := options
  refine ⟨h.mnemonic, h.mnemonicLine, ?_, ?_, ?_, ?_⟩
  · cases operands with
    | false => exact fun hne => absurd rfl hne
    | true => exact h.operands
  · cases comments with
    | false => rfl
    | true => exact h.commentTrimmed
  · cases comments with
    | false => simp [Instruction.keep]
    | true => exact h.commentLine
  · cases comments with
    | false => simp [Instruction.keep]
    | true => exact h.commentEnd

/-- The mnemonic and the operand text of a rendered line, and what stands behind them. -/
theorem toList_render (i : Instruction) : (i.render keepAll).toList =
    i.opcode.toList ++ (keptPart true " " i.operands).toList ++
      (keptPart true " # " i.comment).toList ++ ['\n'] := by
  simp [render, keepAll]

theorem WellFormed.hash_notMem_margin {i : Instruction} (h : i.WellFormed) {tail : List Char}
    (htail : '#' ∉ tail) : '#' ∉ "    ".toList ++
      (i.opcode.toList ++ (keptPart true " " i.operands).toList) ++ tail := by
  have hcode := h.hash_notMem_code
  have hmargin : '#' ∉ "    ".toList := by decide
  simp only [List.mem_cons, List.mem_append, not_or] at hcode ⊢
  exact ⟨⟨hmargin, hcode.2.1⟩, htail⟩

/-- A rendered instruction behind a margin is an instruction line. -/
theorem WellFormed.reads_render {i : Instruction} (h : i.WellFormed) :
    Reads ("    " ++ i.render keepAll) i := by
  have hmargin : ∀ c ∈ "    ".toList, isBlankChar c = true := List.all_eq_true.mp (by decide)
  have hnewline : ∀ c ∈ ['\n'], isBlankChar c = true := List.all_eq_true.mp (by decide)
  have hspace : ∀ c ∈ [' '], isBlankChar c = true := List.all_eq_true.mp (by decide)
  have hbody : ∀ tail : List Char, (∀ c ∈ tail, isBlankChar c = true) →
      Body (trimChars ("    ".toList ++
        (i.opcode.toList ++ (keptPart true " " i.operands).toList) ++ tail)) i.opcode.toList
          i.operands.toList := by
    intro tail htail
    rw [trimChars_between hmargin h.body.bareEnds htail]
    exact h.body
  refine ⟨⟨' ', by simp, by decide⟩, ?_⟩
  by_cases hcomment : i.comment = ""
  · have hline : ("    " ++ i.render keepAll).toList =
        "    ".toList ++ (i.opcode.toList ++ (keptPart true " " i.operands).toList) ++ ['\n'] := by
      rw [String.toList_append, toList_render, hcomment, keptPart_empty]
      simp
    rw [hline]
    exact ⟨_, [], Commented.plain (h.hash_notMem_margin (by decide)), hbody _ hnewline, hcomment⟩
  · have hlead : keptPart true " # " i.comment = " # " ++ i.comment := by
      simp [keptPart, hcomment]
    have hline : ("    " ++ i.render keepAll).toList =
        ("    ".toList ++ (i.opcode.toList ++ (keptPart true " " i.operands).toList) ++ [' ']) ++
          '#' :: ([' '] ++ i.comment.toList ++ ['\n']) := by
      rw [String.toList_append, toList_render, hlead]
      simp
    have htext : trimChars ([' '] ++ i.comment.toList ++ ['\n']) = i.comment.toList :=
      trimChars_between hspace h.bareEnds_comment hnewline
    rw [hline]
    refine ⟨_, _, Commented.comment (h.hash_notMem_margin (by decide)), hbody _ hspace, ?_⟩
    rw [htext, String.ofList_toList]

/-- Well-formed instructions with the same rendered line agree. -/
theorem WellFormed.agrees_of_render_eq {i i' : Instruction} (h : i.WellFormed) (h' : i'.WellFormed)
    {options : RenderOptions} (heq : i.render options = i'.render options) :
    i.Agrees options i' := by
  have hread := read?_eq_some_iff.mpr (h.keep options).reads_render
  have hread' := read?_eq_some_iff.mpr (h'.keep options).reads_render
  rw [render_keep, heq] at hread
  rw [render_keep] at hread'
  exact agrees_iff.mpr (Option.some.inj (hread.symm.trans hread'))

theorem WellFormed.isLine_render {i : Instruction} (h : i.WellFormed) (options : RenderOptions) :
    IsLine (i.render options) := by
  have hopcode : i.opcode ≠ "" := by simpa using h.mnemonic.ne_nil
  have hcode := (h.keep options).newline_notMem_code
  have hcomment := (h.keep options).commentLine
  rw [← render_keep]
  refine ⟨_, rfl, by simp [Instruction.keep, hopcode], ?_⟩
  simp only [String.toList_append, List.mem_append, not_or, keepAll] at hcode ⊢
  exact ⟨⟨hcode.1.2, hcode.2⟩, notMem_keptPart _ (by decide) hcomment⟩

end Instruction

/-! ### The lines of a rendering -/

theorem heading_inj {name name' : String} (h : heading name = heading name') : name = name' := by
  simpa [heading] using h

theorem Symbol.WellFormed.isLine_of_mem {s : Symbol} (h : s.WellFormed) (options : RenderOptions) :
    ∀ line ∈ s.renderedLines options, IsLine line := by
  intro line hline
  rcases List.mem_cons.mp hline with rfl | hline
  · exact isLine_heading fun hmem => absurd (h.oneLine _ hmem) (by decide)
  · obtain ⟨i, hi, rfl⟩ := List.mem_map.mp hline
    exact ((h.instructions i hi).isLine_render options).indent

theorem Section.WellFormed.isLine_of_mem {s : Section} (h : s.WellFormed)
    (options : RenderOptions) : ∀ line ∈ s.renderedLines options, IsLine line := by
  intro line hline
  rcases List.mem_cons.mp hline with rfl | hline
  · exact isLine_heading fun hmem => absurd (h.chars _ hmem) (by decide)
  · obtain ⟨symbol, hsymbol, hmem⟩ := List.mem_flatMap.mp hline
    obtain ⟨inner, hinner, rfl⟩ := List.mem_map.mp hmem
    exact ((h.symbols symbol hsymbol).isLine_of_mem options inner hinner).indent

theorem Listing.WellFormed.isLine_of_mem {l : Listing} (h : l.WellFormed)
    (options : RenderOptions) : ∀ line ∈ l.renderedLines options, IsLine line := by
  intro line hline
  obtain ⟨s, hs, hmem⟩ := List.mem_flatMap.mp hline
  exact (h.sections s hs).isLine_of_mem options line hmem

namespace Text

/-- A section heading has no margin. -/
def startsBare (line : String) : Bool := line.toList.head?.all fun c => !isBlankChar c

/-- A symbol heading opens with an angle bracket behind its margin. -/
def opensName (line : String) : Bool := (trimStart line.toList).head? = some '<'

theorem IsLine.not_startsBare_indent {line : String} (h : IsLine line) :
    startsBare (Text.indent line) = false := by
  rw [startsBare, h.indent_eq, String.toList_append]
  rfl

theorem IsLine.opensName_indent {line : String} (h : IsLine line) :
    opensName (Text.indent line) = opensName line := by
  have hmargin : ∀ c ∈ "    ".toList, isBlankChar c = true := List.all_eq_true.mp (by decide)
  rw [opensName, opensName, h.indent_eq, String.toList_append, trimStart_append_of_blank hmargin]

end Text

theorem Section.WellFormed.startsBare_heading {s : Section} (h : s.WellFormed) :
    startsBare (heading s.name) = true := by
  have hne : s.name.toList ≠ [] := by simpa using h.nonempty
  obtain ⟨c, rest, hname⟩ := List.exists_cons_of_ne_nil hne
  have hc := isBlankChar_of_isSectionNameChar (h.chars c (by simp [hname]))
  simp [startsBare, heading, hname, hc]

theorem Symbol.WellFormed.opensName_heading {s : Symbol} (h : s.WellFormed) :
    opensName (heading s.name) = true := by
  obtain ⟨rest, hname⟩ := h.opened
  have hbare : isBlankChar '<' = false := by decide
  simp [opensName, heading, ← hname, trimStart, hbare]

theorem Instruction.WellFormed.opensName_render {i : Instruction} (h : i.WellFormed)
    (options : RenderOptions) : opensName (i.render options) = false := by
  obtain ⟨c, rest, hopcode, hc⟩ := h.mnemonic.head
  have hbare := isBlankChar_of_isMnemonicChar hc
  have hne : c ≠ '<' := by
    rintro rfl
    exact absurd hc (by decide)
  simp [opensName, render, hopcode, trimStart, hbare, hne]

/-! ### One rendering gives agreement -/

theorem Symbol.WellFormed.agrees_of_lines {s s' : Symbol} (h : s.WellFormed) (h' : s'.WellFormed)
    {options : RenderOptions}
    (hlines : s.renderedLines options = s'.renderedLines options) : s.Agrees options s' := by
  obtain ⟨hheading, hinstructions⟩ := List.cons.inj hlines
  refine ⟨heading_inj hheading, ?_⟩
  rw [innerLines, innerLines, ← List.forall₂_eq_eq_eq, List.forall₂_map_left_iff,
    List.forall₂_map_right_iff] at hinstructions
  apply forall₂_imp_of_mem hinstructions
  intro i hi i' hi' heq
  have hi := h.instructions i hi
  have hi' := h'.instructions i' hi'
  exact hi.agrees_of_render_eq hi' ((hi.isLine_render options).indent_inj
    (hi'.isLine_render options) heq)

theorem Symbol.WellFormed.opens_indent {s : Symbol} (h : s.WellFormed) (options : RenderOptions) :
    opensName (indent (heading s.name)) = true ∧
      ∀ line ∈ (s.innerLines options).map fun line => indent line, opensName line = false := by
  have hheading := h.isLine_of_mem options (heading s.name) List.mem_cons_self
  refine ⟨hheading.opensName_indent.trans h.opensName_heading, ?_⟩
  rw [List.forall_mem_map, innerLines, List.forall_mem_map]
  intro i hi
  have hi := h.instructions i hi
  have hline := hi.isLine_render options
  rw [hline.indent.opensName_indent, hline.opensName_indent, hi.opensName_render]

theorem Section.WellFormed.agrees_of_lines {s s' : Section} (h : s.WellFormed) (h' : s'.WellFormed)
    {options : RenderOptions} (hheading : heading s.name = heading s'.name)
    (hinner : s.innerLines options = s'.innerLines options) : s.Agrees options s' := by
  refine ⟨heading_inj hheading, ?_⟩
  have hblocks : List.Forall₂ (fun symbol symbol' : Symbol =>
      indent (heading symbol.name) = indent (heading symbol'.name) ∧
        ((symbol.innerLines options).map fun line => indent line) =
          (symbol'.innerLines options).map fun line => indent line) s.symbols s'.symbols :=
    forall₂_of_flatMap_marked
      (fun symbol hsymbol => (h.symbols symbol hsymbol).opens_indent options)
      (fun symbol hsymbol => (h'.symbols symbol hsymbol).opens_indent options) hinner
  apply forall₂_imp_of_mem hblocks
  rintro symbol hsymbol symbol' hsymbol' ⟨hmarker, hlines⟩
  have hsymbol := h.symbols symbol hsymbol
  have hsymbol' := h'.symbols symbol' hsymbol'
  apply hsymbol.agrees_of_lines hsymbol'
  apply map_indent_inj (hsymbol.isLine_of_mem options) (hsymbol'.isLine_of_mem options)
  exact List.cons_eq_cons.mpr ⟨hmarker, hlines⟩

theorem Section.WellFormed.startsBare_lines {s : Section} (h : s.WellFormed)
    (options : RenderOptions) : startsBare (heading s.name) = true ∧
      ∀ line ∈ s.innerLines options, startsBare line = false := by
  refine ⟨h.startsBare_heading, ?_⟩
  intro line hline
  obtain ⟨symbol, hsymbol, hmem⟩ := List.mem_flatMap.mp hline
  obtain ⟨inner, hinner, rfl⟩ := List.mem_map.mp hmem
  exact ((h.symbols symbol hsymbol).isLine_of_mem options inner hinner).not_startsBare_indent

theorem Listing.WellFormed.agrees_of_render_eq {l l' : Listing} (h : l.WellFormed)
    (h' : l'.WellFormed) {options : RenderOptions} (heq : l.render options = l'.render options) :
    l.Agrees options l' := by
  rw [render_eq_join, render_eq_join] at heq
  have hlines := join_inj (h.isLine_of_mem options) (h'.isLine_of_mem options) heq
  have hblocks : List.Forall₂ (fun s s' : Section => heading s.name = heading s'.name ∧
      s.innerLines options = s'.innerLines options) l.sections l'.sections :=
    forall₂_of_flatMap_marked (fun s hs => (h.sections s hs).startsBare_lines options)
      (fun s hs => (h'.sections s hs).startsBare_lines options) hlines
  apply forall₂_imp_of_mem hblocks
  rintro s hs s' hs' ⟨hheading, hinner⟩
  exact (h.sections s hs).agrees_of_lines (h'.sections s' hs') hheading hinner

/-- Whatever is kept, two listings that are read have the same rendering exactly if they agree on
it: no kept difference is hidden, and no dropped one is shown. -/
theorem render_eq_iff_agrees {text text' : String} {l l' : Listing}
    (h : (Listing.read text).outcome = .ok l) (h' : (Listing.read text').outcome = .ok l')
    (options : RenderOptions) : l.render options = l'.render options ↔ l.Agrees options l' := by
  constructor
  · exact (Listing.wellFormed_of_read h).agrees_of_render_eq (Listing.wellFormed_of_read h')
  · exact Listing.Agrees.render_eq

/-- An instruction that no line reads as can be rendered like another one. -/
example : (Instruction.mk "bnd" "jmp" "").render Instruction.keepAll =
    (Instruction.mk "bnd jmp" "" "").render Instruction.keepAll := by
  decide

/-! ### One program, built twice -/

namespace Built

def code (register comment : String) : Listing :=
  ⟨"a.o", "elf", [⟨".text", [⟨"<f>", [⟨"bnd jmp", register, comment⟩, ⟨"ret", "", ""⟩]⟩]⟩]⟩

def first : Listing := code "*%rax" "8"

def second : Listing := code "*%rbx" "10"

end Built

theorem render_eq_iff_agrees_built : (Listing.read Built.first.print).outcome = .ok Built.first ∧
    (Listing.read Built.second.print).outcome = .ok Built.second ∧ ∀ options,
      Built.first.render options = Built.second.render options ↔
        Built.first.Agrees options Built.second := by
  have h : (Listing.read Built.first.print).outcome = .ok Built.first := by decide +kernel
  have h' : (Listing.read Built.second.print).outcome = .ok Built.second := by decide +kernel
  exact ⟨h, h', render_eq_iff_agrees h h'⟩

end CanonicalListing
