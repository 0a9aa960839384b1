/-!
# Blank characters

Listings are cut at blank characters, and a blank is more than the ASCII space:
the table holds every space separator of Unicode, the ASCII controls from tab to
carriage return, the two separators U+2028 and U+2029, and U+FEFF. Trimming
removes a maximal run of them at either end, so a text is blank exactly when
trimming leaves nothing.
-/

namespace CanonicalListing
namespace Text

/-- Closed ranges of the code points that count as blank. -/
def blankRanges : List (Nat × Nat) :=
  [(0x09, 0x0D), (0x20, 0x20), (0xA0, 0xA0), (0x1680, 0x1680), (0x2000, 0x200A),
   (0x2028, 0x2029), (0x202F, 0x202F), (0x205F, 0x205F), (0x3000, 0x3000), (0xFEFF, 0xFEFF)]

def isBlankChar (c : Char) : Bool :=
  blankRanges.any fun r => r.1 ≤ c.toNat && c.toNat ≤ r.2

/-- The four characters that end a line; a name or a mnemonic followed by operands holds none. -/
def isLineTerminator (c : Char) : Bool :=
  c == '\n' || c == '\r' || c == '\u2028' || c == '\u2029'

theorem isBlankChar_of_isLineTerminator {c : Char} (h : isLineTerminator c = true) :
    isBlankChar c = true := by
  simp only [isLineTerminator, Bool.or_eq_true, beq_iff_eq] at h
  rcases h with ((rfl | rfl) | rfl) | rfl <;> decide

def trimStart (cs : List Char) : List Char := cs.dropWhile isBlankChar

def trimEnd (cs : List Char) : List Char := (trimStart cs.reverse).reverse

def trimChars (cs : List Char) : List Char := trimEnd (trimStart cs)

/-- A text without the blank characters at its two ends. -/
def trim (s : String) : String := String.ofList (trimChars s.toList)

def isBlank (s : String) : Bool := s.toList.all isBlankChar

@[simp] theorem toList_trim (s : String) : (trim s).toList = trimChars s.toList := by
  simp [trim]

theorem trimStart_eq_nil {cs : List Char} : trimStart cs = [] ↔ ∀ c ∈ cs, isBlankChar c = true := by
  induction cs with
  | nil => simp [trimStart]
  | cons c cs ih =>
    by_cases h : isBlankChar c = true
    · simp only [trimStart, List.dropWhile_cons_of_pos h, List.forall_mem_cons, h, true_and]
      exact ih
    · simp [trimStart, h]

theorem trimEnd_eq_nil {cs : List Char} : trimEnd cs = [] ↔ ∀ c ∈ cs, isBlankChar c = true := by
  rw [trimEnd, List.reverse_eq_nil_iff, trimStart_eq_nil]
  simp

theorem not_isBlankChar_head {c : Char} {cs rest : List Char} (h : trimStart cs = c :: rest) :
    isBlankChar c = false := by
  have hn := List.head?_dropWhile_not isBlankChar cs
  rw [show cs.dropWhile isBlankChar = c :: rest from h] at hn
  simpa using hn

theorem trimStart_suffix (cs : List Char) : trimStart cs <:+ cs := List.dropWhile_suffix _

/-- Trimming an all-blank text leaves nothing, and no other text is trimmed away. -/
theorem trimChars_eq_nil {cs : List Char} : trimChars cs = [] ↔ ∀ c ∈ cs, isBlankChar c = true := by
  rw [trimChars, trimEnd_eq_nil]
  cases hs : trimStart cs with
  | nil => simpa using trimStart_eq_nil.mp hs
  | cons c rest =>
    have hc := not_isBlankChar_head hs
    have hm : c ∈ cs := (trimStart_suffix cs).subset (by simp [hs])
    constructor
    · intro h
      simp [h c (by simp)] at hc
    · intro h
      simp [h c hm] at hc

theorem isBlank_eq_true {s : String} : isBlank s = true ↔ trim s = "" := by
  rw [isBlank, List.all_eq_true, ← trimChars_eq_nil, trim]
  constructor
  · intro h
    simp [h]
  · intro h
    simpa using congrArg String.toList h

end Text
end CanonicalListing
