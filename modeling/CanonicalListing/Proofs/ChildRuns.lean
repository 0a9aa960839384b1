import CanonicalListing.Capture

/-!
# What the run of a child comes to

A capture looks at three things only: all bytes of the two streams before the first event
that settles it, and that event. One event is one step, which adds a chunk to a stream or
settles the result; a whole run is followed by induction on the events. Out of this come
the runs that give a text and the faults of the others.
-/

namespace CanonicalListing

open Text

/-- The events that end the waiting. -/
def ChildEvent.settles : ChildEvent → Bool
  | .failed _ _ => true
  | .closed _ => true
  | _ => false

namespace Child

def outChunk (c : Child) : ChildEvent → ByteArray
  | .stdout chunk => if c.hasStdout then chunk else .empty
  | _ => .empty

def errChunk (c : Child) : ChildEvent → ByteArray
  | .stderr chunk => if c.hasStderr then chunk else .empty
  | _ => .empty

/-- The event that settles the run, if there is one. -/
def ending (c : Child) : Option ChildEvent := c.events.find? ChildEvent.settles

/-- The events before the first one that settles. -/
def early (events : List ChildEvent) : List ChildEvent := events.takeWhile fun e => !e.settles

def joined (chunk : ChildEvent → ByteArray) (events : List ChildEvent) : ByteArray :=
  (events.map chunk).foldr (· ++ ·) .empty

/-- All bytes on the standard output before the run settles. -/
def output (c : Child) : ByteArray := joined c.outChunk (early c.events)

/-- All bytes on the standard error before the run settles. -/
def complaint (c : Child) : ByteArray := joined c.errChunk (early c.events)

theorem joined_cons (chunk : ChildEvent → ByteArray) (e : ChildEvent) (events : List ChildEvent) :
    joined chunk (e :: events) = chunk e ++ joined chunk events := rfl

theorem ending_eq_none_iff {c : Child} :
    c.ending = none ↔ ∀ e ∈ c.events, e.settles = false := by
  simp [ending]

end Child

namespace Capture

/-- The result that an event settles when these bytes have come in before it. -/
def resultOf (executable : String) (out err : ByteArray) : ChildEvent → Option (Except Fault String)
  | .failed message code => some (.error (ofFailure executable message code))
  | .closed exitCode => some (ofEnd executable out err exitCode)
  | _ => none

theorem resultOf_eq_none_iff {executable : String} {out err : ByteArray} {e : ChildEvent} :
    resultOf executable out err e = none ↔ e.settles = false := by
  cases e <;> simp [resultOf, ChildEvent.settles]

namespace State

variable (executable : String) (child : Child) (s : State)

theorem advance_out (e : ChildEvent) :
    (s.advance executable child e).out = s.out ++ child.outChunk e := by
  cases e with
  | stdout chunk => cases h : child.hasStdout <;> simp [advance, Child.outChunk, h]
  | stderr chunk => cases h : child.hasStderr <;> simp [advance, Child.outChunk, h]
  | failed message code => simp [advance, settle, Child.outChunk]
  | closed exitCode =>
    cases h : ofEnd executable s.out s.err exitCode <;> simp [advance, settle, Child.outChunk, h]

theorem advance_err (e : ChildEvent) :
    (s.advance executable child e).err = s.err ++ child.errChunk e := by
  cases e with
  | stdout chunk => cases h : child.hasStdout <;> simp [advance, Child.errChunk, h]
  | stderr chunk => cases h : child.hasStderr <;> simp [advance, Child.errChunk, h]
  | failed message code => simp [advance, settle, Child.errChunk]
  | closed exitCode =>
    cases h : ofEnd executable s.out s.err exitCode <;> simp [advance, settle, Child.errChunk, h]

/-- What is settled stays, and else the event may settle it. -/
theorem advance_settled (e : ChildEvent) :
    (s.advance executable child e).settled =
      (s.settled <|> resultOf executable s.out s.err e) := by
  cases e with
  | stdout chunk => cases h : child.hasStdout <;> simp [advance, resultOf, h]
  | stderr chunk => cases h : child.hasStderr <;> simp [advance, resultOf, h]
  | failed message code => simp [advance, settle, resultOf]
  | closed exitCode =>
    cases h : ofEnd executable s.out s.err exitCode <;> simp [advance, settle, resultOf, h]

theorem foldl_settled_of_some (events : List ChildEvent) {result : Except Fault String}
    (h : s.settled = some result) :
    (events.foldl (State.advance executable child) s).settled = some result := by
  induction events generalizing s with
  | nil => exact h
  | cons e rest ih =>
    refine ih (s.advance executable child e) ?_
    rw [advance_settled, h]
    rfl

theorem foldl_settled (events : List ChildEvent) (h : s.settled = none) :
    (events.foldl (State.advance executable child) s).settled =
      (events.find? ChildEvent.settles).bind
        (resultOf executable (s.out ++ Child.joined child.outChunk (Child.early events))
          (s.err ++ Child.joined child.errChunk (Child.early events))) := by
  -- Over the events, for any state: what is collected already stands in front of what comes in.
  induction events generalizing s with
  | nil => exact h
  | cons e rest ih =>
    have hnext : (s.advance executable child e).settled = resultOf executable s.out s.err e := by
      rw [advance_settled, h]
      rfl
    cases hsettles : e.settles with
    | true =>
      obtain ⟨result, hresult⟩ := Option.ne_none_iff_exists'.mp
        (mt resultOf_eq_none_iff.mp (by simp [hsettles] : ¬ e.settles = false))
      have hlast := foldl_settled_of_some executable child _ rest (hnext.trans hresult)
      simpa [List.find?_cons, Child.early, hsettles, Child.joined, hresult] using hlast
    | false =>
      have hnone := hnext.trans (resultOf_eq_none_iff.mpr hsettles)
      rw [List.foldl_cons, ih _ hnone, advance_out, advance_err]
      simp [Child.early, hsettles, Child.joined_cons, ByteArray.append_assoc]

end State

/-- The result of a run: what its first settling event makes of the bytes before it. -/
theorem follow_settled (executable : String) (child : Child) :
    (follow executable child).settled =
      child.ending.bind (resultOf executable child.output child.complaint) := by
  have hrun := State.foldl_settled executable child {} child.events rfl
  simpa [follow, Child.ending, Child.output, Child.complaint] using hrun

/-- Nothing but a byte order mark on the standard error is no complaint. -/
theorem ofEnd_eq_ok_iff {executable text : String} {out err : ByteArray} {exitCode : Option Int} :
    ofEnd executable out err exitCode = .ok text ↔
      (err = .empty ∨ err = encodeUtf8 (String.singleton byteOrderMark)) ∧ exitCode = some 0 ∧
        decodeUtf8? out = some text := by
  rw [← decodeUtf8?_eq_empty_iff, ofEnd]
  cases decodeUtf8? err with
  | none => simp
  | some complaint =>
    by_cases hquiet : complaint = ""
    · by_cases hzero : exitCode = some 0
      · cases decodeUtf8? out <;> simp [hquiet, hzero]
      · simp [hquiet, hzero]
    · simp [hquiet]

theorem exists_of_ofEnd_eq_error {executable : String} {out err : ByteArray}
    {exitCode : Option Int} {fault : Fault} (h : ofEnd executable out err exitCode = .error fault) :
    ∃ message, fault = Fault.ioFailure message := by
  unfold ofEnd at h
  cases herr : decodeUtf8? err with
  | none =>
    simp only [herr] at h
    exact ⟨_, (Except.error.inj h).symm⟩
  | some complaint =>
    simp only [herr] at h
    split at h
    · exact ⟨_, (Except.error.inj h).symm⟩
    · split at h
      · exact ⟨_, (Except.error.inj h).symm⟩
      · cases hout : decodeUtf8? out with
        | none =>
          simp only [hout] at h
          exact ⟨_, (Except.error.inj h).symm⟩
        | some text =>
          simp only [hout] at h
          cases h

theorem resultOf_eq_ok_iff {executable text : String} {out err : ByteArray} {e : ChildEvent} :
    resultOf executable out err e = some (.ok text) ↔
      e = .closed (some 0) ∧ (err = .empty ∨ err = encodeUtf8 (String.singleton byteOrderMark)) ∧
        decodeUtf8? out = some text := by
  cases e with
  | stdout chunk => simp [resultOf]
  | stderr chunk => simp [resultOf]
  | failed message code => simp [resultOf]
  | closed exitCode =>
    simp only [resultOf, Option.some.injEq, ofEnd_eq_ok_iff, ChildEvent.closed.injEq]
    exact and_left_comm

theorem exists_of_resultOf_eq_error {executable : String} {out err : ByteArray} {e : ChildEvent}
    {fault : Fault} (h : resultOf executable out err e = some (.error fault)) :
    ∃ message, fault = Fault.ioFailure message := by
  cases e with
  | stdout chunk => cases h
  | stderr chunk => cases h
  | failed message code =>
    have hfault : ofFailure executable message code = fault := by simpa [resultOf] using h
    rw [← hfault, ofFailure]
    split <;> exact ⟨_, rfl⟩
  | closed exitCode => exact exists_of_ofEnd_eq_error (Option.some.inj h)

variable {executable objFile : String} {child : Child}

theorem State.outcome_eq_pending_iff {s : State} : s.outcome = .pending ↔ s.settled = none := by
  rcases h : s.settled with _ | fault | text <;> simp [outcome, h]

theorem State.outcome_eq_text_iff {s : State} {text : String} :
    s.outcome = .text text ↔ s.settled = some (.ok text) := by
  rcases h : s.settled with _ | fault | text <;> simp [outcome, h]

theorem State.outcome_eq_failed_iff {s : State} {failure : Failure} :
    s.outcome = .failed failure ↔
      ∃ fault, failure = .fault fault ∧ s.settled = some (.error fault) := by
  rcases h : s.settled with _ | fault | text <;> simp [outcome, h, eq_comm]

theorem run_eq_pending_iff :
    (run executable objFile (.started child)).outcome = .pending ↔ child.ending = none := by
  refine State.outcome_eq_pending_iff.trans ?_
  rw [follow_settled]
  cases hending : child.ending with
  | none => simp
  | some e =>
    have hsettles : e.settles = true := List.find?_some hending
    simp [resultOf_eq_none_iff, hsettles]

theorem run_eq_text_iff {text : String} :
    (run executable objFile (.started child)).outcome = .text text ↔
      child.ending = some (.closed (some 0)) ∧
        (child.complaint = .empty ∨
          child.complaint = encodeUtf8 (String.singleton byteOrderMark)) ∧
        decodeUtf8? child.output = some text := by
  refine State.outcome_eq_text_iff.trans ?_
  rw [follow_settled, Option.bind_eq_some_iff]
  simp only [resultOf_eq_ok_iff]
  exact ⟨fun ⟨_, hending, he, hrest⟩ => ⟨he ▸ hending, hrest⟩,
    fun ⟨hending, hrest⟩ => ⟨_, hending, rfl, hrest⟩⟩

theorem exists_of_run_eq_failed {failure : Failure}
    (h : (run executable objFile (.started child)).outcome = .failed failure) :
    ∃ message, failure = .fault (Fault.ioFailure message) := by
  obtain ⟨fault, rfl, hsettled⟩ := State.outcome_eq_failed_iff.mp h
  rw [follow_settled, Option.bind_eq_some_iff] at hsettled
  obtain ⟨e, -, he⟩ := hsettled
  obtain ⟨message, rfl⟩ := exists_of_resultOf_eq_error he
  exact ⟨message, rfl⟩

/-- The outcomes of a run whose child was started: it waits while nothing settles it, it gives the
decoded output after a clean end without a complaint, and every failure is one of input or output.
A byte order mark alone passes for no complaint. -/
theorem run_started_outcome (executable objFile : String) (child : Child) :
    ((run executable objFile (.started child)).outcome = .pending ↔
        ∀ e ∈ child.events, e.settles = false) ∧
      (∀ text, (run executable objFile (.started child)).outcome = .text text ↔
        child.ending = some (.closed (some 0)) ∧
          (child.complaint = .empty ∨
            child.complaint = encodeUtf8 (String.singleton byteOrderMark)) ∧
          decodeUtf8? child.output = some text) ∧
      ∀ failure, (run executable objFile (.started child)).outcome = .failed failure →
        ∃ message, failure = .fault (Fault.ioFailure message) := by
  refine ⟨run_eq_pending_iff.trans Child.ending_eq_none_iff, fun text => run_eq_text_iff, ?_⟩
  intro failure h
  exact exists_of_run_eq_failed h

/-- The three bytes of a mark on the standard error go unnoticed. -/
theorem exists_text_with_complaint :
    ∃ child : Child, child.complaint = ⟨#[0xEF, 0xBB, 0xBF]⟩ ∧
      (run "objdump" "a.o" (.started child)).outcome = .text "" := by
  have hmark : encodeUtf8 (String.singleton byteOrderMark) = ⟨#[0xEF, 0xBB, 0xBF]⟩ := by decide
  have hcomplaint :
      Child.complaint ⟨[.stderr ⟨#[0xEF, 0xBB, 0xBF]⟩, .closed (some 0)], true, true⟩ =
        ⟨#[0xEF, 0xBB, 0xBF]⟩ := by
    decide
  refine ⟨_, hcomplaint, run_eq_text_iff.mpr ⟨rfl, .inr (hcomplaint.trans hmark.symm), ?_⟩⟩
  exact decodeUtf8?_encodeUtf8 ""

end Capture
end CanonicalListing
