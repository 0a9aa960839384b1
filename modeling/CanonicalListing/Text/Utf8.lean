/-!
# Strict UTF-8 with an optional byte order mark

A byte string is decoded as a whole or not at all. One byte order mark in front is
a signature of the encoding and not part of the text; a second one stays.
-/

namespace CanonicalListing
namespace Text

def encodeUtf8 (text : String) : ByteArray := text.toUTF8

def byteOrderMark : Char := '\uFEFF'

def dropMark (cs : List Char) : List Char :=
  if cs.head? = some byteOrderMark then cs.tail else cs

/-- The text that the bytes spell, without one leading byte order mark. -/
def decodeUtf8? (bytes : ByteArray) : Option String :=
  (String.fromUTF8? bytes).map fun s => String.ofList (dropMark s.toList)

theorem fromUTF8?_encodeUtf8 (text : String) : String.fromUTF8? (encodeUtf8 text) = some text := by
  have h : (encodeUtf8 text).IsValidUTF8 := text.isValidUTF8
  simp only [String.fromUTF8?, dif_pos h]
  rfl

theorem decodeUtf8?_encodeUtf8 (text : String) :
    decodeUtf8? (encodeUtf8 text) = some (String.ofList (dropMark text.toList)) := by
  simp [decodeUtf8?, fromUTF8?_encodeUtf8]

theorem fromUTF8?_eq_some_iff {bytes : ByteArray} {text : String} :
    String.fromUTF8? bytes = some text ↔ bytes = encodeUtf8 text := by
  constructor
  · intro h
    unfold String.fromUTF8? at h
    split at h
    · obtain rfl := Option.some.inj h
      rfl
    · cases h
  · rintro rfl
    exact fromUTF8?_encodeUtf8 text

/-- A text stands for its encoding, and for the encoding behind a mark. -/
theorem decodeUtf8?_eq_some_iff {bytes : ByteArray} {text : String} :
    decodeUtf8? bytes = some text ↔
      bytes = encodeUtf8 (String.ofList (byteOrderMark :: text.toList)) ∨
        (bytes = encodeUtf8 text ∧ text.toList.head? ≠ some byteOrderMark) := by
  simp only [decodeUtf8?, Option.map_eq_some_iff, fromUTF8?_eq_some_iff]
  constructor
  · rintro ⟨s, rfl, rfl⟩
    by_cases hmark : s.toList.head? = some byteOrderMark
    · obtain ⟨rest, hs⟩ := List.head?_eq_some_iff.mp hmark
      have hrest : dropMark s.toList = rest := by simp [dropMark, hs]
      exact .inl (by rw [hrest, String.toList_ofList, ← hs, String.ofList_toList])
    · exact .inr ⟨by simp [dropMark, hmark], by simp [dropMark, hmark]⟩
  · rintro (rfl | ⟨rfl, hmark⟩)
    · exact ⟨_, rfl, by simp [dropMark]⟩
    · exact ⟨_, rfl, by simp [dropMark, hmark]⟩

theorem decodeUtf8?_eq_none_iff {bytes : ByteArray} :
    decodeUtf8? bytes = none ↔ ∀ text, bytes ≠ encodeUtf8 text := by
  rw [decodeUtf8?, Option.map_eq_none_iff, Option.eq_none_iff_forall_ne_some]
  simp only [ne_eq, fromUTF8?_eq_some_iff]

/-- Nothing is decoded from no bytes and from a mark alone. -/
theorem decodeUtf8?_eq_empty_iff {bytes : ByteArray} :
    decodeUtf8? bytes = some "" ↔
      bytes = .empty ∨ bytes = encodeUtf8 (String.singleton byteOrderMark) := by
  have hnothing : encodeUtf8 "" = .empty := rfl
  rw [decodeUtf8?_eq_some_iff, or_comm, hnothing]
  simp

end Text
end CanonicalListing
