import CanonicalListing.Proofs.ChildRuns
import CanonicalListing.Proofs.TraceLimit
import Mathlib.Data.List.TakeWhile

/-!
# What a capture notes

A capture notes its command line, and then every clean end of the child, in the order of
the events: an end with code 0 and without a complaint whose output so far is a text. The
event that settles the run is noted just if it gives the text of the run. The listening
goes on behind it, and a clean end there is noted as well, although nothing comes of it. So
the notes tell the outcome exactly if no clean end follows the event that settles.
-/

namespace CanonicalListing

open Text Journal

namespace Child

theorem joined_append (chunk : ChildEvent → ByteArray) (xs ys : List ChildEvent) :
    joined chunk (xs ++ ys) = joined chunk xs ++ joined chunk ys := by
  induction xs with
  | nil => simp [joined]
  | cons e xs ih => rw [List.cons_append, joined_cons, ih, joined_cons, ByteArray.append_assoc]

theorem joined_singleton (chunk : ChildEvent → ByteArray) (e : ChildEvent) :
    joined chunk [e] = chunk e := by
  simp [joined]

/-- The text that an event completes, if it is a clean end after these events. -/
def completed? (c : Child) (before : List ChildEvent) : ChildEvent → Option String
  | .closed (some 0) =>
    if decodeUtf8? (joined c.errChunk before) = some "" then
      decodeUtf8? (joined c.outChunk before)
    else none
  | _ => none

/-- The texts of the clean ends among the events that follow these. -/
def texts (c : Child) (before : List ChildEvent) : List ChildEvent → List String
  | [] => []
  | e :: rest => (c.completed? before e).toList ++ c.texts (before ++ [e]) rest

/-- The events behind the first one that settles. -/
def late (events : List ChildEvent) : List ChildEvent :=
  (events.dropWhile fun e => !e.settles).tail

/-- The texts of the clean ends behind the event that settles. -/
def lateTexts (c : Child) : List String :=
  c.texts (early c.events ++ c.ending.toList) (late c.events)

variable {c : Child} {before : List ChildEvent}

theorem completed?_eq_some_iff {e : ChildEvent} {text : String} :
    c.completed? before e = some text ↔ e = .closed (some 0) ∧
      (joined c.errChunk before = .empty ∨
        joined c.errChunk before = encodeUtf8 (String.singleton byteOrderMark)) ∧
      decodeUtf8? (joined c.outChunk before) = some text := by
  unfold completed?
  split
  · rw [Option.ite_none_right_eq_some, decodeUtf8?_eq_empty_iff]
    simp
  · next hother =>
    constructor
    · exact fun h => by cases h
    · rintro ⟨rfl, -⟩
      exact absurd rfl hother

theorem completed?_of_not_settles {e : ChildEvent} (h : e.settles = false) :
    c.completed? before e = none := by
  rw [Option.eq_none_iff_forall_ne_some]
  intro text htext
  obtain ⟨rfl, -⟩ := completed?_eq_some_iff.mp htext
  cases h

theorem texts_append (xs ys : List ChildEvent) :
    c.texts before (xs ++ ys) = c.texts before xs ++ c.texts (before ++ xs) ys := by
  induction xs generalizing before with
  | nil => simp [texts]
  | cons e xs ih => simp [texts, ih]

theorem texts_of_not_settles {events : List ChildEvent} (h : ∀ e ∈ events, e.settles = false) :
    c.texts before events = [] := by
  induction events generalizing before with
  | nil => rfl
  | cons e rest ih =>
    obtain ⟨he, hrest⟩ := List.forall_mem_cons.mp h
    rw [texts, completed?_of_not_settles he, ih hrest]
    rfl

/-- The events up to the one that settles, that event, and the late ones. -/
theorem events_eq (events : List ChildEvent) :
    events = early events ++ ((events.find? ChildEvent.settles).toList ++ late events) := by
  induction events with
  | nil => rfl
  | cons e rest ih =>
    cases h : e.settles with
    | true => simp [early, late, h]
    | false =>
      simp only [early, late, List.takeWhile_cons, List.find?_cons, List.dropWhile_cons, h] at ih ⊢
      exact congrArg (e :: ·) ih

theorem not_settles_of_mem_early {events : List ChildEvent} :
    ∀ e ∈ early events, e.settles = false := by
  intro e he
  have hkept := List.mem_takeWhile_imp he
  simpa using hkept

/-- All clean ends: the event that settles may be one, and the others are late. -/
theorem texts_eq (c : Child) : c.texts [] c.events =
    (c.ending.bind (c.completed? (early c.events))).toList ++ c.lateTexts := by
  have hearly : c.texts [] (early c.events) = [] := texts_of_not_settles not_settles_of_mem_early
  have hending : c.texts (early c.events) c.ending.toList =
      (c.ending.bind (c.completed? (early c.events))).toList := by
    cases c.ending with
    | none => rfl
    | some e => simp [texts]
  calc c.texts [] c.events
    _ = c.texts [] (early c.events ++ (c.ending.toList ++ late c.events)) :=
        congrArg _ (events_eq c.events)
    _ = _ := by rw [texts_append, hearly, List.nil_append, texts_append, List.nil_append, hending,
        lateTexts]

theorem mem_texts_iff {events : List ChildEvent} {text : String} :
    text ∈ c.texts before events ↔ ∃ xs e ys, events = xs ++ e :: ys ∧
      c.completed? (before ++ xs) e = some text := by
  induction events generalizing before with
  | nil => simp [texts]
  | cons e rest ih =>
    rw [texts, List.mem_append, Option.mem_toList, ih]
    constructor
    · rintro (hhere | ⟨xs, e', ys, rfl, hlater⟩)
      · exact ⟨[], e, rest, rfl, by rwa [List.append_nil]⟩
      · exact ⟨e :: xs, e', ys, rfl, by simpa using hlater⟩
    · rintro ⟨xs, e', ys, hcut, htext⟩
      cases xs with
      | nil =>
        obtain ⟨rfl, rfl⟩ := List.cons.inj hcut
        exact .inl (by rwa [List.append_nil] at htext)
      | cons x xs =>
        obtain ⟨rfl, rfl⟩ := List.cons.inj hcut
        exact .inr ⟨xs, e', ys, rfl, by simpa using htext⟩

/-- Behind an event that settles, everything is late. -/
theorem upTo_append {xs : List ChildEvent} (h : ∃ e ∈ xs, e.settles = true)
    (ys : List ChildEvent) : early (xs ++ ys) = early xs ∧
      (xs ++ ys).find? ChildEvent.settles = xs.find? ChildEvent.settles ∧
        late (xs ++ ys) = late xs ++ ys := by
  induction xs with
  | nil => simp at h
  | cons e rest ih =>
    cases he : e.settles with
    | true => simp [early, late, he]
    | false =>
      have hrest : ∃ e ∈ rest, e.settles = true := by simpa [he] using h
      simpa [early, late, he] using ih hrest

theorem exists_settles_of_late_ne_nil {events : List ChildEvent} (h : late events ≠ []) :
    ∃ e, events.find? ChildEvent.settles = some e := by
  rw [← Option.ne_none_iff_exists', ne_eq, List.find?_eq_none]
  intro hnone
  apply h
  rw [late, List.dropWhile_eq_nil_iff.mpr (by simpa using hnone)]
  rfl

/-- A text is late if its clean end has an event before it that settles. -/
theorem mem_lateTexts_iff {text : String} : text ∈ c.lateTexts ↔
    ∃ before after, c.events = before ++ .closed (some 0) :: after ∧
      (∃ e ∈ before, e.settles = true) ∧
        c.completed? before (.closed (some 0)) = some text := by
  rw [lateTexts, mem_texts_iff]
  constructor
  · rintro ⟨xs, e, ys, hlate, htext⟩
    obtain ⟨last, hlast⟩ := exists_settles_of_late_ne_nil
      (fun hnil => by simp [hnil] at hlate : late c.events ≠ [])
    obtain ⟨rfl, -⟩ := completed?_eq_some_iff.mp htext
    have hending : c.ending = some last := hlast
    refine ⟨_, ys, ?_, ⟨last, ?_, List.find?_some hlast⟩, htext⟩
    · rw [List.append_assoc, List.append_assoc, ← hlate]
      exact events_eq c.events
    · simp [hending]
  · rintro ⟨before, after, hcut, hsettled, htext⟩
    obtain ⟨hearly, hending, hlate⟩ := upTo_append hsettled (.closed (some 0) :: after)
    refine ⟨late before, _, after, hcut ▸ hlate, ?_⟩
    have hbefore : early c.events ++ c.ending.toList ++ late before = before := by
      rw [ending, hcut, hearly, hending, List.append_assoc]
      exact (events_eq before).symm
    rw [hbefore]
    exact htext

end Child

namespace Capture

/-- The texts that an outcome gives: one, or none. -/
def Outcome.texts : Outcome → List String
  | .text result => [result]
  | _ => []

namespace State

variable {executable : String} {child : Child} {s : State} {before : List ChildEvent}

theorem advance_entries (hout : s.out = Child.joined child.outChunk before)
    (herr : s.err = Child.joined child.errChunk before) (e : ChildEvent) :
    (s.advance executable child e).entries =
      s.entries ++ (child.completed? before e).toList.map captured := by
  cases e with
  | stdout chunk => cases h : child.hasStdout <;> simp [advance, Child.completed?, h]
  | stderr chunk => cases h : child.hasStderr <;> simp [advance, Child.completed?, h]
  | failed message code => simp [advance, settle, Child.completed?]
  | closed exitCode =>
    cases hend : ofEnd executable s.out s.err exitCode with
    | ok text =>
      obtain ⟨hquiet, rfl, hdecoded⟩ := ofEnd_eq_ok_iff.mp hend
      rw [herr] at hquiet
      rw [hout] at hdecoded
      rw [Child.completed?_eq_some_iff.mpr ⟨rfl, hquiet, hdecoded⟩]
      simp [advance, hend]
    | error fault =>
      have hnone : child.completed? before (.closed exitCode) = none := by
        rw [Option.eq_none_iff_forall_ne_some]
        intro text htext
        obtain ⟨hcode, hquiet, hdecoded⟩ := Child.completed?_eq_some_iff.mp htext
        rw [← hout] at hdecoded
        rw [← herr] at hquiet
        have hok : ofEnd executable s.out s.err exitCode = .ok text :=
          ofEnd_eq_ok_iff.mpr ⟨hquiet, ChildEvent.closed.inj hcode, hdecoded⟩
        rw [hend] at hok
        cases hok
      simp [advance, hend, settle, hnone]

theorem foldl_entries (hout : s.out = Child.joined child.outChunk before)
    (herr : s.err = Child.joined child.errChunk before) (events : List ChildEvent) :
    (events.foldl (State.advance executable child) s).entries =
      s.entries ++ (child.texts before events).map captured := by
  -- Over the events: the streams hold what the events so far have brought, also the late ones.
  induction events generalizing s before with
  | nil => simp [Child.texts]
  | cons e rest ih =>
    have hout' : (s.advance executable child e).out =
        Child.joined child.outChunk (before ++ [e]) := by
      rw [advance_out, hout, Child.joined_append, Child.joined_singleton]
    have herr' : (s.advance executable child e).err =
        Child.joined child.errChunk (before ++ [e]) := by
      rw [advance_err, herr, Child.joined_append, Child.joined_singleton]
    rw [List.foldl_cons, ih hout' herr', advance_entries hout herr, Child.texts, List.map_append,
      List.append_assoc]

end State

variable {executable objFile : String} {child : Child}

theorem follow_entries (executable : String) (child : Child) :
    (follow executable child).entries = (child.texts [] child.events).map captured :=
  State.foldl_entries rfl rfl child.events

/-- The event that settles is a clean end just if the run gives a text. -/
theorem texts_outcome : (run executable objFile (.started child)).outcome.texts =
    (child.ending.bind (child.completed? (Child.early child.events))).toList := by
  cases hrun : (run executable objFile (.started child)).outcome with
  | text text =>
    obtain ⟨hending, hquiet, hdecoded⟩ := run_eq_text_iff.mp hrun
    have hcompleted := Child.completed?_eq_some_iff.mpr ⟨rfl, hquiet, hdecoded⟩
    rw [hending, Option.bind_some, hcompleted]
    rfl
  | pending =>
    rw [run_eq_pending_iff.mp hrun]
    rfl
  | failed failure =>
    have hnone : child.ending.bind (child.completed? (Child.early child.events)) = none := by
      rw [Option.eq_none_iff_forall_ne_some]
      intro text htext
      obtain ⟨e, hending, hcompleted⟩ := Option.bind_eq_some_iff.mp htext
      obtain ⟨rfl, hquiet, hdecoded⟩ := Child.completed?_eq_some_iff.mp hcompleted
      rw [run_eq_text_iff.mpr ⟨hending, hquiet, hdecoded⟩] at hrun
      cases hrun
    rw [hnone]
    rfl

/-! ### The lines of the journal -/

def commandText (executable objFile : String) : String :=
  "[OBJDUMP] " ++ executable ++ " -d --no-addresses --no-show-raw-insn " ++ objFile

def capturedText (text : String) : String :=
  "[OBJDUMP] captured " ++ toString (unitLength text) ++ " chars"

theorem tagged_command_eq (executable objFile : String) :
    tagged "OBJDUMP" (executable ++ " -d --no-addresses --no-show-raw-insn " ++ objFile) =
      commandText executable objFile := by
  have hlead : "[" ++ "OBJDUMP" ++ "] " = "[OBJDUMP] " := by decide
  rw [tagged_append, tagged_append, tagged, hlead, commandText]

theorem tagged_captured_eq (text : String) :
    tagged "OBJDUMP" ("captured " ++ toString (unitLength text) ++ " chars") =
      "[OBJDUMP] captured " ++ toString (unitLength text) ++ " chars" := by
  have hlead : tagged "OBJDUMP" "captured " = "[OBJDUMP] captured " := by decide
  rw [tagged_append, tagged_append, hlead]

theorem commandLine_eq (executable objFile : String) : commandLine executable objFile =
    info journalTag (executable ++ " -d --no-addresses --no-show-raw-insn " ++ objFile) := by
  have hjoined : " " ++ " ".intercalate (arguments objFile) =
      " -d --no-addresses --no-show-raw-insn " ++ objFile := by
    simp [arguments, ← String.append_assoc]
  rw [commandLine, String.append_assoc, hjoined, ← String.append_assoc]

theorem write_notes (limit : Int) (executable objFile : String) (texts : List String) :
    write ⟨true, limit⟩ (commandLine executable objFile :: texts.map captured) =
      commandText executable objFile :: texts.map capturedText := by
  have hentries : texts.map captured = (texts.map fun text =>
      "captured " ++ toString (unitLength text) ++ " chars").map (info journalTag) := by
    rw [List.map_map]
    rfl
  have hlines : (texts.map fun text =>
      "captured " ++ toString (unitLength text) ++ " chars").map (tagged journalTag) =
        texts.map capturedText := by
    rw [List.map_map]
    exact List.map_congr_left fun text _ => tagged_captured_eq text
  rw [commandLine_eq, hentries, ← List.map_cons, write_infos, List.map_cons, hlines, journalTag,
    tagged_command_eq]

/-- What the journal of a child's run says: what the outcome is, and then what comes late. -/
structure Notes (executable objFile : String) (child : Child) (outcome : Outcome)
    (lines : List String) : Prop where
  lines_eq : lines = commandText executable objFile ::
    (outcome.texts ++ child.lateTexts).map capturedText
  /-- The lines tell no more than the outcome just if no clean end comes late. -/
  truthful_iff : lines = commandText executable objFile :: outcome.texts.map capturedText ↔
    ¬ ∃ before text after, child.events = before ++ .closed (some 0) :: after ∧
      (∃ e ∈ before, e.settles = true) ∧ child.completed? before (.closed (some 0)) = some text
  of_pending : outcome = .pending → lines = [commandText executable objFile]

theorem lateTexts_of_pending (h : (run executable objFile (.started child)).outcome = .pending) :
    child.lateTexts = [] := by
  rw [List.eq_nil_iff_forall_not_mem]
  intro text htext
  obtain ⟨before, after, hcut, ⟨e, he, hsettles⟩, -⟩ := Child.mem_lateTexts_iff.mp htext
  have hquiet := Child.ending_eq_none_iff.mp (run_eq_pending_iff.mp h) e (by simp [hcut, he])
  rw [hsettles] at hquiet
  cases hquiet

/-- Every capture notes its command line once. A refused launch notes nothing else, and a run notes
the text that it gives, if it gives one, and the clean ends that come late. -/
theorem run_notes (executable objFile : String) (limit : Int) :
    (∀ message, write ⟨true, limit⟩ (run executable objFile (.refused message)).entries =
      [commandText executable objFile]) ∧
    ∀ child, Notes executable objFile child (run executable objFile (.started child)).outcome
      (write ⟨true, limit⟩ (run executable objFile (.started child)).entries) := by
  refine ⟨fun message => write_notes limit executable objFile [], fun child => ?_⟩
  have hlines : write ⟨true, limit⟩ (run executable objFile (.started child)).entries =
      commandText executable objFile ::
        ((run executable objFile (.started child)).outcome.texts ++
          child.lateTexts).map capturedText := by
    have hentries : (run executable objFile (.started child)).entries =
        commandLine executable objFile :: (follow executable child).entries := rfl
    rw [hentries, follow_entries, Child.texts_eq, ← texts_outcome, write_notes]
  refine ⟨hlines, ?_, ?_⟩
  · have hlate : (¬ ∃ before text after, child.events = before ++ .closed (some 0) :: after ∧
        (∃ e ∈ before, e.settles = true) ∧
          child.completed? before (.closed (some 0)) = some text) ↔ child.lateTexts = [] := by
      rw [List.eq_nil_iff_forall_not_mem]
      simp only [Child.mem_lateTexts_iff]
      exact ⟨fun h text ⟨before, after, htext⟩ => h ⟨before, text, after, htext⟩,
        fun h ⟨before, text, after, htext⟩ => h text ⟨before, after, htext⟩⟩
    rw [hlate, hlines]
    simp
  · intro hpending
    rw [hlines, lateTexts_of_pending hpending, hpending]
    rfl

/-- A failure that is followed by a clean end, and an end that comes twice. -/
theorem exists_capture_noted_late :
    (∃ child : Child, child.events = [.failed "kill EPERM" (some "EPERM"), .closed (some 0)] ∧
      (run "objdump" "a.o" (.started child)).outcome =
        .failed (.fault (Fault.ioFailure "kill EPERM")) ∧
      write ⟨true, 200⟩ (run "objdump" "a.o" (.started child)).entries =
        ["[OBJDUMP] objdump -d --no-addresses --no-show-raw-insn a.o",
          "[OBJDUMP] captured 0 chars"]) ∧
    ∃ child : Child, child.events = [.closed (some 0), .closed (some 0)] ∧
      (run "objdump" "a.o" (.started child)).outcome = .text "" ∧
      write ⟨true, 200⟩ (run "objdump" "a.o" (.started child)).entries =
        ["[OBJDUMP] objdump -d --no-addresses --no-show-raw-insn a.o",
          "[OBJDUMP] captured 0 chars", "[OBJDUMP] captured 0 chars"] := by
  refine ⟨⟨⟨[.failed "kill EPERM" (some "EPERM"), .closed (some 0)], true, true⟩, rfl, ?_, ?_⟩,
    ⟨⟨[.closed (some 0), .closed (some 0)], true, true⟩, rfl, ?_, ?_⟩⟩
  all_goals decide +kernel

end Capture
end CanonicalListing
