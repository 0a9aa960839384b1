import CanonicalListing.Proofs.ByteSequences
import CanonicalListing.Proofs.ExitCodes
import CanonicalListing.Proofs.Faithfulness

/-!
# Written text

Decoding inverts the encoding up to one mark in front: bytes that spell a text with a mark
are also bytes of the text without it, and all other bytes stand for what they spell or for
nothing. So a text that does not begin with a mark comes back from its bytes. A mark is a
blank, a section heading begins with a character of its name, and no name has blanks;
a fingerprint begins with a digit. What a run prints or writes is one of these, or the help.
-/

namespace CanonicalListing
namespace Text

theorem toList_data_encodeUtf8 (text : String) :
    (encodeUtf8 text).data.toList = text.toList.flatMap String.utf8EncodeChar := by
  have hbytes : encodeUtf8 text = text.toList.utf8Encode := String.utf8Encode_toList.symm
  rw [hbytes, List.utf8Encode, List.data_toByteArray]

theorem spells_encodeUtf8 (text : String) :
    Spells (encodeUtf8 text).data.toList text.toList :=
  spells_iff.mpr (toList_data_encodeUtf8 text)

theorem spells_iff_eq_encodeUtf8 {bytes : ByteArray} {text : String} :
    Spells bytes.data.toList text.toList ↔ bytes = encodeUtf8 text := by
  rw [spells_iff, ← toList_data_encodeUtf8, ByteArray.ext_iff, Array.toList_inj]

theorem encodes_byteOrderMark : Encodes [0xEF, 0xBB, 0xBF] byteOrderMark :=
  encodes_iff.mpr (by decide)

/-- A text with a mark in front is spelled by the mark and the bytes of the text. -/
theorem spells_byteOrderMark_iff {bytes : List UInt8} {cs : List Char} :
    Spells bytes (byteOrderMark :: cs) ↔
      ∃ rest, bytes = [0xEF, 0xBB, 0xBF] ++ rest ∧ Spells rest cs := by
  constructor
  · rintro (_ | ⟨hmark, hrest⟩)
    rw [encodes_iff, ← encodes_iff.mp encodes_byteOrderMark] at hmark
    exact ⟨_, congrArg (· ++ _) hmark, hrest⟩
  · rintro ⟨rest, rfl, hrest⟩
    exact .cons encodes_byteOrderMark hrest

theorem decodeUtf8?_eq_some_iff_spells {bytes : ByteArray} {text : String} :
    decodeUtf8? bytes = some text ↔
      (∃ rest, bytes.data.toList = [0xEF, 0xBB, 0xBF] ++ rest ∧ Spells rest text.toList) ∨
        Spells bytes.data.toList text.toList ∧ text.toList.head? ≠ some byteOrderMark := by
  rw [decodeUtf8?_eq_some_iff, ← spells_iff_eq_encodeUtf8, ← spells_iff_eq_encodeUtf8,
    String.toList_ofList, spells_byteOrderMark_iff]

theorem decodeUtf8?_eq_none_iff_spells {bytes : ByteArray} :
    decodeUtf8? bytes = none ↔ ∀ text : String, ¬ Spells bytes.data.toList text.toList := by
  simp only [decodeUtf8?_eq_none_iff, spells_iff_eq_encodeUtf8, ne_eq]

theorem decodeUtf8?_eq_none_iff_flawed {bytes : ByteArray} :
    decodeUtf8? bytes = none ↔ Flawed bytes.data.toList := by
  rw [decodeUtf8?_eq_none_iff_spells]
  constructor
  · intro hnone
    refine (spells_or_flawed bytes.data.toList).resolve_left ?_
    rintro ⟨cs, hcs⟩
    exact hnone (String.ofList cs) (by rwa [String.toList_ofList])
  · exact fun hflawed text => hflawed.not_spells text.toList

/-! ### Texts that come back -/

theorem startsBare_append {a b : String} (ha : a ≠ "") (h : startsBare a = true) :
    startsBare (a ++ b) = true := by
  obtain ⟨c, rest, hchars⟩ := List.exists_cons_of_ne_nil (l := a.toList) (by simpa using ha)
  simpa [startsBare, hchars] using h

theorem decodeUtf8?_of_startsBare {text : String} (h : startsBare text = true) :
    decodeUtf8? (encodeUtf8 text) = some text := by
  refine decodeUtf8?_eq_some_iff.mpr (.inr ⟨rfl, fun hmark => ?_⟩)
  have hblank : isBlankChar byteOrderMark = true := by decide
  simp [startsBare, hmark, hblank] at h

end Text

open Text

theorem heading_ne_empty (name : String) : heading name ≠ "" := by
  simp [heading]

theorem Listing.WellFormed.startsBare_render {l : Listing} (h : l.WellFormed)
    (options : RenderOptions) : startsBare (l.render options) = true := by
  rw [render_eq_join, renderedLines]
  cases hsections : l.sections with
  | nil => rfl
  | cons s rest =>
    have hs : s.WellFormed := h.sections s (by simp [hsections])
    rw [List.flatMap_cons, Section.renderedLines, List.cons_append, String.join_cons]
    exact startsBare_append (heading_ne_empty s.name) hs.startsBare_heading

theorem Fingerprint.startsBare_append_ofText (text rest : String) :
    startsBare (Fingerprint.ofText text ++ rest) = true := by
  have hdigit : ∀ d < 16, isBlankChar (Nat.digitChar d) = false := by decide
  have hfirst := hdigit _ (Nat.mod_lt ((hash (encodeUtf8 text).data.toList).toNat >>> (4 * 7))
    (by omega : 16 > 0))
  simp [startsBare, ofText, digits, List.range_succ, hfirst]

namespace Command

variable {arguments : List String} {w : World}

theorem startsBare_helpText : startsBare helpText = true := by
  rw [helpText, String.join_cons]
  exact startsBare_append (by decide) (by decide)

theorem Options.startsBare_result (o : Options) (w : World) {listing : Listing}
    (h : listing.WellFormed) : startsBare (o.result w listing) = true := by
  rw [result]
  split
  · rw [String.append_assoc, String.append_assoc]
    exact Fingerprint.startsBare_append_ofText _ _
  · exact h.startsBare_render _

theorem Delivers.startsBare {outcome : Outcome} (h : Delivers arguments w outcome) :
    ∀ piece ∈ outcome.printed ++ outcome.writes.map Prod.snd, startsBare piece = true := by
  obtain ⟨o, text, listing, -, -, hlisting, hdelivered⟩ := h
  have hresult := o.startsBare_result w (Listing.wellFormed_of_read hlisting)
  obtain ⟨-, hprinted, hwrites⟩ | ⟨path, -, -, hprinted, hwrites⟩ := hdelivered
  · simpa [hprinted, hwrites] using hresult
  · simpa [hprinted, hwrites] using hresult

/-- Nothing that leaves a run begins with a blank. -/
theorem startsBare_of_mem_run (arguments : List String) (w : World) :
    ∀ piece ∈ (run arguments w).printed ++ (run arguments w).writes.map Prod.snd,
      startsBare piece = true := by
  obtain ⟨report, h⟩ | h | ⟨failure, h⟩ | ⟨-, ⟨-, hprinted, hwrites⟩ | h⟩ := run_cases arguments w
  · simp [h.withholds.printed, h.withholds.writes]
  · simp [h.withholds.printed, h.withholds.writes]
  · simp [h.withholds.printed, h.withholds.writes]
  · simpa [hprinted, hwrites] using startsBare_helpText
  · exact h.startsBare

/-- Bytes stand for the text that they spell, and with a mark in front for the rest of it; for
none exactly if they have a flaw. Whatever a run prints or writes comes back from its bytes. -/
theorem decodes_exactly_spelled :
    (∀ (bytes : ByteArray) (text : String), decodeUtf8? bytes = some text ↔
      (∃ rest, bytes.data.toList = [0xEF, 0xBB, 0xBF] ++ rest ∧ Spells rest text.toList) ∨
        Spells bytes.data.toList text.toList ∧ text.toList.head? ≠ some byteOrderMark) ∧
    (∀ bytes : ByteArray,
      (decodeUtf8? bytes = none ↔ ∀ text : String, ¬ Spells bytes.data.toList text.toList) ∧
        (decodeUtf8? bytes = none ↔ Flawed bytes.data.toList)) ∧
    (∀ text : String, Spells (encodeUtf8 text).data.toList text.toList) ∧
    (∀ (text : String) (listing : Listing) (options : RenderOptions),
      (Listing.read text).outcome = .ok listing →
        decodeUtf8? (encodeUtf8 (listing.render options)) = some (listing.render options)) ∧
    ∀ (arguments : List String) (w : World),
      ∀ piece ∈ (run arguments w).printed ++ (run arguments w).writes.map Prod.snd,
        decodeUtf8? (encodeUtf8 piece) = some piece := by
  refine ⟨fun _ _ => decodeUtf8?_eq_some_iff_spells, fun bytes => ⟨?_, ?_⟩, spells_encodeUtf8, ?_,
    ?_⟩
  · exact decodeUtf8?_eq_none_iff_spells
  · exact decodeUtf8?_eq_none_iff_flawed
  · intro text listing options hread
    exact decodeUtf8?_of_startsBare ((Listing.wellFormed_of_read hread).startsBare_render options)
  · intro arguments w piece hpiece
    exact decodeUtf8?_of_startsBare (startsBare_of_mem_run arguments w piece hpiece)

end Command
end CanonicalListing
