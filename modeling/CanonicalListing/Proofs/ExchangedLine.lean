import CanonicalListing.Proofs.FlatRendering
import CanonicalListing.Proofs.Numbering
import CanonicalListing.Proofs.StableOrder

/-!
# Exchanging one instruction line

Two readings go side by side over the same lines, but for one instruction line that is
another in the second. The trees then differ in one instruction: no line before or behind
it is taken differently, neither sort moves it to another place, and of the rendering only
its own line changes.
-/

namespace CanonicalListing

open Text

variable {α β : Type}

/-- The lists differ in one entry, and the two entries are related. -/
def OneExchanged (R : α → α → Prop) (xs ys : List α) : Prop :=
  ∃ front x y back, R x y ∧ xs = front ++ x :: back ∧ ys = front ++ y :: back

/-- The one entry is `x`, and the other is `y`. -/
def Becomes (x y : α) : α → α → Prop := fun a b => a = x ∧ b = y

namespace OneExchanged

variable {R : α → α → Prop} {xs ys : List α}

theorem single {x y : α} (h : R x y) : OneExchanged R [x] [y] := ⟨[], x, y, [], h, rfl, rfl⟩

theorem append_left (zs : List α) (h : OneExchanged R xs ys) :
    OneExchanged R (zs ++ xs) (zs ++ ys) := by
  obtain ⟨front, x, y, back, hxy, rfl, rfl⟩ := h
  exact ⟨zs ++ front, x, y, back, hxy, by simp, by simp⟩

theorem append_right (zs : List α) (h : OneExchanged R xs ys) :
    OneExchanged R (xs ++ zs) (ys ++ zs) := by
  obtain ⟨front, x, y, back, hxy, rfl, rfl⟩ := h
  exact ⟨front, x, y, back ++ zs, hxy, by simp, by simp⟩

theorem cons (z : α) (h : OneExchanged R xs ys) : OneExchanged R (z :: xs) (z :: ys) :=
  h.append_left [z]

theorem last {x y : α} (zs : List α) (h : R x y) : OneExchanged R (zs ++ [x]) (zs ++ [y]) :=
  (single h).append_left zs

theorem map {S : β → β → Prop} {f : α → β} (hf : ∀ x y, R x y → S (f x) (f y))
    (h : OneExchanged R xs ys) : OneExchanged S (xs.map f) (ys.map f) := by
  obtain ⟨front, x, y, back, hxy, rfl, rfl⟩ := h
  exact ⟨front.map f, f x, f y, back.map f, hf x y hxy, by simp, by simp⟩

theorem map_becomes {x y : α} (f : α → β) (h : OneExchanged (Becomes x y) xs ys) :
    OneExchanged (Becomes (f x) (f y)) (xs.map f) (ys.map f) :=
  h.map fun _ _ hxy => ⟨congrArg f hxy.1, congrArg f hxy.2⟩

theorem flatMap {S : β → β → Prop} {f : α → List β} (hf : ∀ x y, R x y → OneExchanged S (f x) (f y))
    (h : OneExchanged R xs ys) : OneExchanged S (xs.flatMap f) (ys.flatMap f) := by
  obtain ⟨front, x, y, back, hxy, rfl, rfl⟩ := h
  rw [List.flatMap_append, List.flatMap_append, List.flatMap_cons, List.flatMap_cons]
  exact ((hf x y hxy).append_right _).append_left _

/-- The exchanged entry is the last one, or one before it. -/
theorem of_concat {x : α} (h : OneExchanged R (xs ++ [x]) ys) :
    (∃ y, R x y ∧ ys = xs ++ [y]) ∨ ∃ zs, OneExchanged R xs zs ∧ ys = zs ++ [x] := by
  obtain ⟨front, x', y, back, hxy, hxs, rfl⟩ := h
  rcases List.eq_nil_or_concat' back with rfl | ⟨back, last, rfl⟩
  · obtain ⟨rfl, hlast⟩ := List.append_inj' hxs rfl
    obtain rfl := (List.cons.inj hlast).1
    exact .inl ⟨y, hxy, rfl⟩
  · rw [← List.cons_append, ← List.append_assoc] at hxs
    obtain ⟨rfl, hlast⟩ := List.append_inj' hxs rfl
    obtain rfl := (List.cons.inj hlast).1
    exact .inr ⟨front ++ y :: back, ⟨front, x', y, back, hxy, rfl, rfl⟩, by simp⟩

/-- Entries of one name come to stand in the same place. -/
theorem mergeSort {name : α → String} (hname : ∀ x y, R x y → name x = name y)
    (h : OneExchanged R xs ys) :
    OneExchanged R (xs.mergeSort fun a b => Text.nameLE (name a) (name b))
      (ys.mergeSort fun a b => Text.nameLE (name a) (name b)) := by
  obtain ⟨front, x, y, back, hxy, rfl, rfl⟩ := h
  obtain ⟨before, behind, hsort⟩ := exists_mergeSort_eq name (name x) front back
  exact ⟨before, x, y, behind, hxy, hsort x rfl, hsort y (hname x y hxy).symm⟩

end OneExchanged
/-! ### One instruction exchanged -/

variable {i i' : Instruction}

structure Symbol.Exchanged (i i' : Instruction) (s s' : Symbol) : Prop where
  name : s.name = s'.name
  instructions : OneExchanged (Becomes i i') s.instructions s'.instructions

structure Section.Exchanged (i i' : Instruction) (s s' : Section) : Prop where
  name : s.name = s'.name
  symbols : OneExchanged (Symbol.Exchanged i i') s.symbols s'.symbols

theorem Symbol.Exchanged.addInstruction {s s' : Symbol} (h : s.Exchanged i i' s')
    (a : Instruction) : (s.addInstruction a).Exchanged i i' (s'.addInstruction a) :=
  ⟨h.name, h.instructions.append_right [a]⟩

theorem Symbol.exchanged_addInstruction (s : Symbol) (i i' : Instruction) :
    Symbol.Exchanged i i' (s.addInstruction i) (s.addInstruction i') :=
  ⟨rfl, .last s.instructions ⟨rfl, rfl⟩⟩

theorem Section.Exchanged.addSymbol {s s' : Section} (h : s.Exchanged i i' s') (symbol : Symbol) :
    (s.addSymbol symbol).Exchanged i i' (s'.addSymbol symbol) :=
  ⟨h.name, h.symbols.append_right [symbol]⟩

theorem Symbol.Exchanged.addSymbol {symbol symbol' : Symbol} (h : symbol.Exchanged i i' symbol')
    (s : Section) : Section.Exchanged i i' (s.addSymbol symbol) (s.addSymbol symbol') :=
  ⟨rfl, .last s.symbols h⟩

/-- The exchanged instruction is in the last symbol, or in one before it. -/
theorem Section.Exchanged.of_addSymbol {s s' : Section} {symbol : Symbol}
    (h : Section.Exchanged i i' (s.addSymbol symbol) s') :
    (∃ symbol', symbol.Exchanged i i' symbol' ∧ s' = s.addSymbol symbol') ∨
      ∃ t, s.Exchanged i i' t ∧ s' = t.addSymbol symbol := by
  obtain ⟨name, symbols⟩ := s'
  obtain ⟨rfl, hsymbols⟩ := h
  rcases hsymbols.of_concat with ⟨symbol', hsymbol, rfl⟩ | ⟨symbols, hs, rfl⟩
  · exact .inl ⟨symbol', hsymbol, rfl⟩
  · exact .inr ⟨⟨s.name, symbols⟩, ⟨rfl, hs⟩, rfl⟩

/-- A line adds the same to both. -/
theorem Grows.exchanged {ss ss' us : List Section} {text : String} (h : Grows ss text us)
    (hss : OneExchanged (Section.Exchanged i i') ss ss') :
    ∃ us', Grows ss' text us' ∧ OneExchanged (Section.Exchanged i i') us us' := by
  cases h with
  | opensSection hmark => exact ⟨_, .opensSection hmark, hss.append_right _⟩
  | opensSymbol hmark =>
    rcases hss.of_concat with ⟨s', hs, rfl⟩ | ⟨earlier, hearlier, rfl⟩
    · exact ⟨_, .opensSymbol hmark, .last _ (hs.addSymbol _)⟩
    · exact ⟨_, .opensSymbol hmark, hearlier.append_right _⟩
  | addsInstruction hline =>
    rcases hss.of_concat with ⟨s', hs, rfl⟩ | ⟨earlier, hearlier, rfl⟩
    · rcases hs.of_addSymbol with ⟨symbol', hsymbol, rfl⟩ | ⟨t, ht, rfl⟩
      · exact ⟨_, .addsInstruction hline, .last _ ((hsymbol.addInstruction _).addSymbol _)⟩
      · exact ⟨_, .addsInstruction hline, .last _ (ht.addSymbol _)⟩
    · exact ⟨_, .addsInstruction hline, hearlier.append_right _⟩

/-- An instruction line adds an instruction where another one would add another. -/
theorem Grows.exchange {ss us : List Section} {text text' : String} (h : Grows ss text us)
    (hline : InstructionLine text i) (hline' : InstructionLine text' i') :
    ∃ us', Grows ss text' us' ∧ OneExchanged (Section.Exchanged i i') us us' := by
  have hkind : IsInstructionLine text := ⟨i, hline⟩
  cases h with
  | opensSection hmark => exact absurd ⟨_, hmark⟩ hkind.not_isSectionMarker
  | opensSymbol hmark => exact absurd ⟨_, hmark⟩ hkind.not_isSymbolMarker
  | @addsInstruction _ s symbol _ a ha =>
    obtain rfl : a = i := Option.some.inj (ha.reads.symm.trans hline.reads)
    exact ⟨_, .addsInstruction hline', .last _ ((symbol.exchanged_addInstruction a i').addSymbol s)⟩

/-- Two runs over the same lines but for one instruction line. -/
theorem Grown.exchange {before after : List String} {us : List Section} {text text' : String}
    (h : Grown (before ++ text :: after) us) (hline : InstructionLine text i)
    (hline' : InstructionLine text' i') :
    ∃ us', Grown (before ++ text' :: after) us' ∧
      OneExchanged (Section.Exchanged i i') us us' := by
  -- From the end, where a run grows; the exchanged line is the last one when nothing is behind it.
  induction after using List.reverseRecOn generalizing us with
  | nil =>
    obtain ⟨ss, hgrown, hgrows⟩ := h.of_concat
    obtain ⟨us', hgrows', hus⟩ := hgrows.exchange hline hline'
    exact ⟨us', .step hgrown hgrows', hus⟩
  | append_singleton after last ih =>
    rw [← List.cons_append, ← List.append_assoc] at h ⊢
    obtain ⟨ss, hgrown, hgrows⟩ := h.of_concat
    obtain ⟨ss', hgrown', hss⟩ := ih hgrown
    obtain ⟨us', hgrows', hus⟩ := hgrows.exchanged hss
    exact ⟨us', .step hgrown' hgrows', hus⟩

/-! ### The exchanged instruction in the sorted tree and in its rendering -/

theorem Section.Exchanged.sortSymbols {s s' : Section} (h : s.Exchanged i i' s') :
    s.sortSymbols.Exchanged i i' s'.sortSymbols :=
  ⟨h.name, h.symbols.mergeSort fun _ _ hsymbol => hsymbol.name⟩

theorem Listing.exchanged_sort {l l' : Listing}
    (h : OneExchanged (Section.Exchanged i i') l.sections l'.sections) :
    OneExchanged (Section.Exchanged i i') l.sort.sections l'.sort.sections :=
  (h.map fun _ _ hs => hs.sortSymbols).mergeSort fun _ _ hs => hs.name

theorem Symbol.Exchanged.renderedLines {s s' : Symbol} (h : s.Exchanged i i' s')
    (options : RenderOptions) :
    OneExchanged (Becomes (indent (i.render options)) (indent (i'.render options)))
      (s.renderedLines options) (s'.renderedLines options) := by
  have hinner := h.instructions.map_becomes fun a => indent (a.render options)
  rw [Symbol.renderedLines, Symbol.renderedLines, ← h.name]
  exact hinner.cons (heading s.name)

theorem Section.Exchanged.renderedLines {s s' : Section} (h : s.Exchanged i i' s')
    (options : RenderOptions) :
    OneExchanged
      (Becomes (indent (indent (i.render options))) (indent (indent (i'.render options))))
      (s.renderedLines options) (s'.renderedLines options) := by
  have hinner : OneExchanged
      (Becomes (indent (indent (i.render options))) (indent (indent (i'.render options))))
      (s.innerLines options) (s'.innerLines options) :=
    h.symbols.flatMap fun _ _ hsymbol =>
      (hsymbol.renderedLines options).map_becomes fun line => indent line
  rw [Section.renderedLines, Section.renderedLines, ← h.name]
  exact hinner.cons (heading s.name)

/-- Two renderings are the same but for the line of the exchanged instruction. -/
theorem Listing.exists_render_eq {l l' : Listing}
    (h : OneExchanged (Section.Exchanged i i') l.sections l'.sections) (options : RenderOptions) :
    ∃ front back, l.render options = front ++ indent (indent (i.render options)) ++ back ∧
      l'.render options = front ++ indent (indent (i'.render options)) ++ back := by
  have hlines : OneExchanged _ (l.renderedLines options) (l'.renderedLines options) :=
    h.flatMap fun _ _ hs => hs.renderedLines options
  obtain ⟨front, line, line', back, ⟨rfl, rfl⟩, hl, hl'⟩ := hlines
  refine ⟨String.join front, String.join back, ?_, ?_⟩
  · rw [Listing.render_eq_join, hl, String.join_append, String.join_cons, String.append_assoc]
  · rw [Listing.render_eq_join, hl', String.join_append, String.join_cons, String.append_assoc]

theorem InstructionLine.not_isBlank {text : String} (h : InstructionLine text i) :
    isBlank text = false := by
  obtain ⟨c, hhead, -⟩ := h.head
  rw [← Bool.not_eq_true, isBlank_eq_true, ← String.toList_inj, toList_trim]
  rintro hnil
  rw [hnil] at hhead
  cases hhead

/-- An instruction line of a listing that is read may be exchanged for any other, behind the
header. Nothing else changes. -/
theorem exists_reading_of_exchange {before after : List String} {text text' : String} {l : Listing}
    (hheader : ∃ line ∈ before, isBlank line = false) (hline : InstructionLine text i)
    (hline' : InstructionLine text' i')
    (h : (Listing.readLines (before ++ text :: after)).outcome = .ok l) :
    ∃ l', (Listing.readLines (before ++ text' :: after)).outcome = .ok l' ∧
      OneExchanged (Section.Exchanged i i') l.sections l'.sections := by
  have hkept : ∀ {line a}, InstructionLine line a → keptLines (before ++ line :: after) =
      keptLines before ++ line :: keptLines after := fun hline => by
    rw [keptLines_append, keptLines_cons hline.not_isBlank]
  obtain ⟨first, body, header, ss, hlines, hfirst, hgrown, rfl⟩ := Listing.readLines_eq_ok_iff.mp h
  obtain ⟨first', rest, hbefore⟩ := exists_keptLines_eq_cons hheader
  rw [hkept hline, hbefore, List.cons_append] at hlines
  obtain ⟨rfl, rfl⟩ := List.cons.inj hlines
  obtain ⟨ss', hgrown', hss⟩ := hgrown.exchange hline hline'
  have hlines' : keptLines (before ++ text' :: after) =
      first' :: (rest ++ text' :: keptLines after) := by
    rw [hkept hline', hbefore, List.cons_append]
  have hreading := Listing.readLines_eq_ok_iff.mpr
    ⟨first', _, header, ss', hlines', hfirst, hgrown', rfl⟩
  exact ⟨_, hreading, Listing.exchanged_sort hss⟩

/-- By default only the two mnemonics make a difference, and only in one line. -/
theorem exists_default_renderings_of_exchange {before after : List String} {text text' : String}
    {l : Listing} (hheader : ∃ line ∈ before, isBlank line = false) (hline : InstructionLine text i)
    (hline' : InstructionLine text' i')
    (h : (Listing.readLines (before ++ text :: after)).outcome = .ok l) :
    ∃ l', (Listing.readLines (before ++ text' :: after)).outcome = .ok l' ∧ ∃ front back,
      l.render = front ++ indent (indent (i.opcode ++ "\n")) ++ back ∧
        l'.render = front ++ indent (indent (i'.opcode ++ "\n")) ++ back := by
  obtain ⟨l', hl', hexchanged⟩ := exists_reading_of_exchange hheader hline hline' h
  obtain ⟨front, back, hrender, hrender'⟩ := Listing.exists_render_eq hexchanged {}
  rw [Instruction.render_default] at hrender hrender'
  exact ⟨l', hl', front, back, hrender, hrender'⟩

end CanonicalListing
