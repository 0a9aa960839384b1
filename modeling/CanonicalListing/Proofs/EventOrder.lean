import CanonicalListing.Proofs.ChildRuns

/-!
# Chunks and their order

How the bytes of a stream are cut into chunks, how the chunks of the two streams follow
each other, and all that happens after the first settling event leave no mark on a
capture. Every run comes to what the run comes to that delivers each stream in one chunk
and then settles, or does not settle. So two runs that agree in the bytes and in the
settling event have one outcome.
-/

namespace CanonicalListing

open Text

namespace Child

/-- The run that delivers each stream in one chunk, and then settles as this one does. -/
def condensed (c : Child) : Child where
  events := .stdout c.output :: .stderr c.complaint :: c.ending.toList

/-- The two runs settle by one event, or both by none, and deliver the same bytes before it. -/
structure Agrees (c c' : Child) : Prop where
  ending : c'.ending = c.ending
  output : c'.output = c.output
  complaint : c'.complaint = c.complaint

theorem settles_of_ending {c : Child} {e : ChildEvent} (h : c.ending = some e) :
    e.settles = true :=
  List.find?_some h

theorem early_toList_ending (c : Child) : early c.ending.toList = [] := by
  cases hending : c.ending with
  | none => rfl
  | some e => simp [early, settles_of_ending hending]

theorem early_condensed (c : Child) :
    early c.condensed.events = [.stdout c.output, .stderr c.complaint] :=
  calc early c.condensed.events
    _ = .stdout c.output :: .stderr c.complaint :: early c.ending.toList := rfl
    _ = [.stdout c.output, .stderr c.complaint] := by rw [early_toList_ending]

theorem ending_condensed (c : Child) : c.condensed.ending = c.ending := by
  have hskip : c.condensed.ending = c.ending.toList.find? ChildEvent.settles := rfl
  cases hending : c.ending with
  | none => rw [hskip, hending]; rfl
  | some e => simp [hskip, hending, settles_of_ending hending]

theorem agrees_condensed (c : Child) : c.Agrees c.condensed where
  ending := c.ending_condensed
  output := by
    rw [output, early_condensed]
    simp [joined, outChunk, condensed]
  complaint := by
    rw [complaint, early_condensed]
    simp [joined, errChunk, condensed]

/-- A character that is cut between two chunks, with an empty chunk of the other stream in the
cut, and what is delivered late. -/
example :
    Agrees ⟨[.stdout ⟨#[0xC3, 0xA9]⟩, .closed (some 0)], true, true⟩
      ⟨[.stdout ⟨#[0xC3]⟩, .stderr .empty, .stdout ⟨#[0xA9]⟩, .closed (some 0),
        .stderr ⟨#[0x21]⟩, .closed (some 1)], true, true⟩ :=
  ⟨rfl, by decide, by decide⟩

end Child

namespace Capture

theorem outcome_congr {executable objFile objFile' : String} {child child' : Child}
    (h : child.Agrees child') :
    (run executable objFile' (.started child')).outcome =
      (run executable objFile (.started child)).outcome := by
  have hsettled : (follow executable child').settled = (follow executable child).settled := by
    rw [follow_settled, follow_settled, h.ending, h.output, h.complaint]
  simp only [run, State.outcome, hsettled]

/-- What an outcome tells of the child, and what makes no difference to it. The name of the object
file is among the latter. -/
structure Determined (executable : String) (child : Child) (outcome : Outcome) : Prop where
  pending_iff : outcome = .pending ↔ ∀ e ∈ child.events, e.settles = false
  of_condensed : ∀ objFile, (run executable objFile (.started child.condensed)).outcome = outcome
  of_agrees : ∀ objFile child', child.Agrees child' →
    (run executable objFile (.started child')).outcome = outcome
  decoded : ∀ text, outcome = .text text →
    child.output = encodeUtf8 (String.ofList (byteOrderMark :: text.toList)) ∨
      child.output = encodeUtf8 text ∧ text.toList.head? ≠ some byteOrderMark

theorem run_determined (executable objFile : String) (child : Child) :
    Determined executable child (run executable objFile (.started child)).outcome where
  pending_iff := run_eq_pending_iff.trans Child.ending_eq_none_iff
  of_condensed := fun _ => outcome_congr child.agrees_condensed
  of_agrees := fun _ _ h => outcome_congr h
  decoded := by
    intro text htext
    obtain ⟨-, -, hdecoded⟩ := run_eq_text_iff.mp htext
    exact decodeUtf8?_eq_some_iff.mp hdecoded

end Capture
end CanonicalListing
