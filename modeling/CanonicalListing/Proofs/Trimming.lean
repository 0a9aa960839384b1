import CanonicalListing.Proofs.Lists
import CanonicalListing.Text.Blank

/-!
# What trimming and cutting leave

A text is a run of blanks, a text that neither starts nor ends with a blank, and a run of
blanks again. The middle is determined by this, and it is what trimming returns. A cut
at a character is made where it first occurs.
-/

namespace CanonicalListing
namespace Text

/-- Between the space and the next blank of the table. -/
theorem isBlankChar_eq_false_of_range {c : Char} (h : 0x20 < c.toNat) (h' : c.toNat < 0xA0) :
    isBlankChar c = false := by
  simp only [isBlankChar, blankRanges, List.any_cons, List.any_nil, Bool.or_false,
    Bool.or_eq_false_iff, Bool.and_eq_false_iff, decide_eq_false_iff_not]
  omega

/-- Neither the first nor the last character is blank; the empty text has neither. -/
structure BareEnds (cs : List Char) : Prop where
  head : ∀ c ∈ cs.head?, isBlankChar c = false
  last : ∀ c ∈ cs.getLast?, isBlankChar c = false

theorem BareEnds.nil : BareEnds [] := ⟨by simp, by simp⟩

/-- Both ends of a joined text are ends of its parts. -/
theorem BareEnds.append {xs ys : List Char} (hxs : xs ≠ []) (hys : ys ≠ [])
    (hhead : ∀ c ∈ xs.head?, isBlankChar c = false)
    (hlast : ∀ c ∈ ys.getLast?, isBlankChar c = false) : BareEnds (xs ++ ys) := by
  constructor
  · rwa [List.head?_append_of_ne_nil _ hxs]
  · rwa [List.getLast?_append_of_ne_nil _ hys]

theorem not_isBlankChar_of_head? {c : Char} {cs : List Char} (hcs : cs.head? = some c)
    (hc : isBlankChar c = false) : ∀ d ∈ cs.head?, isBlankChar d = false := by
  intro d hd
  obtain rfl := Option.some.inj (hcs.symm.trans hd)
  exact hc

theorem isBlankChar_of_mem_space {c : Char} (h : c ∈ [' ']) : isBlankChar c = true := by
  obtain rfl := List.mem_singleton.mp h
  rfl

theorem trimStart_append_of_blank {run : List Char} (h : ∀ c ∈ run, isBlankChar c = true)
    (cs : List Char) : trimStart (run ++ cs) = trimStart cs :=
  List.dropWhile_append_of_pos h

theorem trimEnd_append_of_blank {run : List Char} (h : ∀ c ∈ run, isBlankChar c = true)
    (cs : List Char) : trimEnd (cs ++ run) = trimEnd cs := by
  have hrev : ∀ c ∈ run.reverse, isBlankChar c = true := by simpa using h
  rw [trimEnd, List.reverse_append, trimStart_append_of_blank hrev, trimEnd]

theorem trimStart_eq_self {cs : List Char} (h : ∀ c ∈ cs.head?, isBlankChar c = false) :
    trimStart cs = cs := by
  cases cs with
  | nil => rfl
  | cons c cs =>
    have hc := h c (by simp)
    exact List.dropWhile_cons_of_neg (by simp [hc])

theorem trimEnd_eq_self {cs : List Char} (h : ∀ c ∈ cs.getLast?, isBlankChar c = false) :
    trimEnd cs = cs := by
  rw [trimEnd, trimStart_eq_self (by simpa using h), List.reverse_reverse]

theorem not_isBlankChar_last {cs : List Char} :
    ∀ c ∈ (trimEnd cs).getLast?, isBlankChar c = false := by
  intro c hc
  rw [trimEnd, List.getLast?_reverse] at hc
  obtain ⟨rest, hrest⟩ := List.head?_eq_some_iff.mp hc
  exact not_isBlankChar_head hrest

/-- The blanks that trimming takes off in front. -/
theorem exists_trimStart (cs : List Char) :
    ∃ run, (∀ c ∈ run, isBlankChar c = true) ∧ cs = run ++ trimStart cs :=
  ⟨cs.takeWhile isBlankChar, List.all_eq_true.mp List.all_takeWhile,
    List.takeWhile_append_dropWhile.symm⟩

theorem exists_trimEnd (cs : List Char) :
    ∃ run, (∀ c ∈ run, isBlankChar c = true) ∧ cs = trimEnd cs ++ run := by
  obtain ⟨run, hrun, heq⟩ := exists_trimStart cs.reverse
  refine ⟨run.reverse, by simpa using hrun, ?_⟩
  rw [trimEnd, ← List.reverse_append, ← heq, List.reverse_reverse]

theorem exists_trimChars (cs : List Char) :
    ∃ lead tail, (∀ c ∈ lead, isBlankChar c = true) ∧ (∀ c ∈ tail, isBlankChar c = true) ∧
      cs = lead ++ trimChars cs ++ tail := by
  obtain ⟨lead, hlead, hstart⟩ := exists_trimStart cs
  obtain ⟨tail, htail, hend⟩ := exists_trimEnd (trimStart cs)
  refine ⟨lead, tail, hlead, htail, ?_⟩
  rw [trimChars, List.append_assoc, ← hend, ← hstart]

theorem bareEnds_trimChars (cs : List Char) : BareEnds (trimChars cs) := by
  refine ⟨?_, not_isBlankChar_last⟩
  intro c hc
  obtain ⟨run, -, heq⟩ := exists_trimEnd (trimStart cs)
  obtain ⟨rest, hrest⟩ := List.head?_eq_some_iff.mp hc
  have hstart : trimStart cs = c :: (rest ++ run) := by
    rw [heq, ← List.cons_append, ← hrest, trimChars]
  exact not_isBlankChar_head hstart

theorem trimChars_of_bareEnds {cs : List Char} (h : BareEnds cs) : trimChars cs = cs := by
  rw [trimChars, trimStart_eq_self h.head, trimEnd_eq_self h.last]

theorem trimChars_eq_self_iff {cs : List Char} : trimChars cs = cs ↔ BareEnds cs := by
  constructor
  · intro h
    rw [← h]
    exact bareEnds_trimChars cs
  · exact trimChars_of_bareEnds

/-- The middle between two runs of blanks. -/
theorem trimChars_between {lead mid tail : List Char} (hlead : ∀ c ∈ lead, isBlankChar c = true)
    (hmid : BareEnds mid) (htail : ∀ c ∈ tail, isBlankChar c = true) :
    trimChars (lead ++ mid ++ tail) = mid := by
  rcases List.eq_nil_or_concat mid with rfl | ⟨front, last, rfl⟩
  · rw [trimChars_eq_nil, List.append_nil]
    intro c hc
    exact (List.mem_append.mp hc).elim (hlead c) (htail c)
  · rw [List.concat_eq_append] at hmid ⊢
    have hhead : ∀ c ∈ (front ++ [last] ++ tail).head?, isBlankChar c = false := by
      rw [List.head?_append_of_ne_nil _ (by simp)]
      exact hmid.head
    rw [trimChars, List.append_assoc, trimStart_append_of_blank hlead, trimStart_eq_self hhead,
      trimEnd_append_of_blank htail, trimEnd_eq_self hmid.last]

/-- Blanks at the ends are trimmed off. -/
theorem trimChars_of_blank_ends {front back : List Char}
    (hfront : ∀ c ∈ front, isBlankChar c = true) (hback : ∀ c ∈ back, isBlankChar c = true)
    (cs : List Char) : trimChars (front ++ cs ++ back) = trimChars cs := by
  obtain ⟨lead, tail, hlead, htail, hcut⟩ := exists_trimChars cs
  have hall : front ++ cs ++ back = (front ++ lead) ++ trimChars cs ++ (tail ++ back) := by
    calc front ++ cs ++ back = front ++ (lead ++ trimChars cs ++ tail) ++ back := by rw [← hcut]
      _ = (front ++ lead) ++ trimChars cs ++ (tail ++ back) := by simp only [List.append_assoc]
  rw [hall]
  exact trimChars_between (List.forall_mem_append.mpr ⟨hfront, hlead⟩) (bareEnds_trimChars cs)
    (List.forall_mem_append.mpr ⟨htail, hback⟩)

theorem trimStart_append_cons {c : Char} (hc : isBlankChar c = false) (xs ys : List Char) :
    trimStart (xs ++ c :: ys) = trimStart xs ++ c :: ys := by
  obtain ⟨run, hrun, hcut⟩ := exists_trimStart xs
  rw [hcut, List.append_assoc, trimStart_append_of_blank hrun, trimStart_append_of_blank hrun]
  cases hstart : trimStart xs with
  | nil => exact trimStart_eq_self (by simpa using hc)
  | cons d ds =>
    have hd := not_isBlankChar_head hstart
    have hself : trimStart (d :: ds) = d :: ds := trimStart_eq_self (by simpa using hd)
    rw [hself]
    exact trimStart_eq_self (by simpa using hd)

theorem trimEnd_append_cons {c : Char} (hc : isBlankChar c = false) (xs ys : List Char) :
    trimEnd (xs ++ c :: ys) = xs ++ c :: trimEnd ys := by
  have hrev : (xs ++ c :: ys).reverse = ys.reverse ++ c :: xs.reverse := by simp
  rw [trimEnd, hrev, trimStart_append_cons hc, trimEnd]
  simp

/-- Trimming leaves a character that is not blank where it is. -/
theorem trimChars_append_cons {c : Char} (hc : isBlankChar c = false) (xs ys : List Char) :
    trimChars (xs ++ c :: ys) = trimStart xs ++ c :: trimEnd ys := by
  rw [trimChars, trimStart_append_cons hc, trimEnd_append_cons hc]

theorem exists_trimEnd_eq_append (cs : List Char) :
    ∃ lead, (∀ c ∈ lead, isBlankChar c = true) ∧ trimEnd cs = lead ++ trimChars cs := by
  cases htrim : trimChars cs with
  | nil =>
    have hnil : trimEnd cs = [] := trimEnd_eq_nil.mpr (trimChars_eq_nil.mp htrim)
    exact ⟨[], by simp, hnil⟩
  | cons c rest =>
    obtain ⟨lead, tail, hlead, htail, hcut⟩ := exists_trimChars cs
    have hbare := bareEnds_trimChars cs
    rw [htrim] at hcut hbare
    refine ⟨lead, hlead, ?_⟩
    have hlast : trimEnd (c :: rest) = c :: rest := trimEnd_eq_self hbare.last
    have hcons := trimEnd_append_cons (hbare.head c rfl) [] rest
    rw [List.nil_append, hlast, List.nil_append] at hcons
    rw [hcut, trimEnd_append_of_blank htail, trimEnd_append_cons (hbare.head c rfl), ← hcons]

theorem mem_of_mem_trimChars {c : Char} {cs : List Char} (h : c ∈ trimChars cs) : c ∈ cs := by
  obtain ⟨lead, tail, -, -, heq⟩ := exists_trimChars cs
  rw [heq]
  simp [h]

theorem trim_eq_self_iff {s : String} : trim s = s ↔ BareEnds s.toList := by
  rw [← trimChars_eq_self_iff, ← String.toList_inj, toList_trim]

theorem isBlank_empty : isBlank "" = true := rfl

theorem isBlank_iff {s : String} : isBlank s = true ↔ ∀ c ∈ s.toList, isBlankChar c = true := by
  rw [isBlank, List.all_eq_true]

theorem trim_of_blank_ends {front back : String} (hfront : isBlank front = true)
    (hback : isBlank back = true) (s : String) : trim (front ++ s ++ back) = trim s := by
  have htrim := trimChars_of_blank_ends (isBlank_iff.mp hfront) (isBlank_iff.mp hback) s.toList
  rw [← String.toList_inj, toList_trim, toList_trim, String.toList_append, String.toList_append,
    htrim]

/-- A run of blanks ends where the next character is not blank. -/
theorem blanks_append_inj {run run' cs cs' : List Char} (hrun : ∀ c ∈ run, isBlankChar c = true)
    (hrun' : ∀ c ∈ run', isBlankChar c = true) (hcs : ∀ c ∈ cs.head?, isBlankChar c = false)
    (hcs' : ∀ c ∈ cs'.head?, isBlankChar c = false) (heq : run ++ cs = run' ++ cs') :
    run = run' ∧ cs = cs' := by
  have hspan := span_append hrun hcs
  rw [heq, span_append hrun' hcs'] at hspan
  obtain ⟨hruns, hrest⟩ := Prod.mk.inj hspan
  exact ⟨hruns.symm, hrest.symm⟩

theorem span_ne_of_notMem {a : Char} {cs : List Char} (h : a ∉ cs) :
    cs.span (· ≠ a) = (cs, []) := by
  have hcut : (cs ++ []).span (· ≠ a) = (cs, []) :=
    span_append (fun c hc => decide_eq_true (ne_of_mem_of_not_mem hc h)) (by simp)
  rwa [List.append_nil] at hcut

theorem span_ne_append {a : Char} {cs : List Char} (h : a ∉ cs) (rest : List Char) :
    (cs ++ a :: rest).span (· ≠ a) = (cs, a :: rest) :=
  span_append (fun c hc => decide_eq_true (ne_of_mem_of_not_mem hc h)) (by simp)

end Text
end CanonicalListing
