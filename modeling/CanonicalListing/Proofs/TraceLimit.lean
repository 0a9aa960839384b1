import CanonicalListing.Journal
import Mathlib.Data.List.Induction

/-!
# The limit on traces

A journal is a count of the traces that are written and the lines so far, and every entry
adds to it on its own. Summaries leave the count alone and are always written. As long as
the limit is not reached every entry is written; the trace that reaches it brings the notice,
under its own tag, and nothing is said of the traces behind it.
-/

namespace CanonicalListing
namespace Journal

/-- A journal in the making: how many traces are written, and all lines so far. -/
structure Page where
  count : Nat := 0
  lines : List String := []
  deriving DecidableEq, Repr

namespace Page

def put (policy : Policy) (p : Page) (entry : Entry) : Page where
  count := (writeNext policy p.count entry).1
  lines := p.lines ++ (writeNext policy p.count entry).2

def putAll (policy : Policy) (p : Page) (entries : List Entry) : Page :=
  entries.foldl (put policy) p

variable {policy : Policy} {p : Page}

theorem putAll_append (xs ys : List Entry) :
    p.putAll policy (xs ++ ys) = (p.putAll policy xs).putAll policy ys :=
  List.foldl_append

theorem lines_putAll (entries : List Entry) :
    (p.putAll policy entries).lines = p.lines ++ (writeFrom policy p.count entries).flatten := by
  induction entries generalizing p with
  | nil => simp [putAll, writeFrom]
  | cons entry rest ih =>
    calc (p.putAll policy (entry :: rest)).lines
      _ = ((p.put policy entry).putAll policy rest).lines := rfl
      _ = _ := by rw [ih, put, writeFrom, List.flatten_cons, List.append_assoc]

/-- What is written of all entries is what is there after each has been put. -/
theorem lines_putAll_new (entries : List Entry) :
    (({} : Page).putAll policy entries).lines = write policy entries :=
  lines_putAll entries

end Page

/-! ### One entry -/

def Entry.line (entry : Entry) : String := "[" ++ entry.tag ++ "] " ++ entry.message

theorem Entry.tagged_eq_line (entry : Entry) : tagged entry.tag entry.message = entry.line := rfl

theorem notice_eq (limit : Int) (tag : String) :
    notice limit tag =
      "[" ++ tag ++ "] trace limit of " ++ toString limit ++ " lines reached" := by
  have hlead : tagged tag "trace limit of " = "[" ++ tag ++ "] trace limit of " :=
    String.append_assoc
  rw [notice, tagged_append, tagged_append, hlead]

def Entry.isTrace (entry : Entry) : Bool := entry.level == .trace

/-- What is written where traces are passed over. -/
def Entry.summaryLines (entry : Entry) : List String := if entry.isTrace then [] else [entry.line]

def traceCount (entries : List Entry) : Nat := entries.countP Entry.isTrace

theorem traceCount_cons (entry : Entry) (rest : List Entry) :
    traceCount (entry :: rest) = traceCount [entry] + traceCount rest := by
  rw [← List.singleton_append]
  exact List.countP_append

variable {limit : Int} {count : Nat} {entry : Entry} {entries : List Entry}

theorem traceCount_cons_trace (h : entry.isTrace = true) (rest : List Entry) :
    traceCount (entry :: rest) = traceCount rest + 1 :=
  List.countP_cons_of_pos h

theorem traceCount_cons_summary (h : ¬ entry.isTrace = true) (rest : List Entry) :
    traceCount (entry :: rest) = traceCount rest :=
  List.countP_cons_of_neg h

theorem writeNext_of_full (h : limit ≤ count) :
    writeNext ⟨true, limit⟩ count entry = (count, entry.summaryLines) := by
  obtain ⟨level, tag, message⟩ := entry
  cases level with
  | info => rfl
  | trace => simp [writeNext, Int.not_lt.mpr h, Entry.summaryLines, Entry.isTrace]

/-- There is room for the entry and, if it is a trace, for one more behind it. -/
theorem writeNext_of_room (h : count + traceCount [entry] < limit) :
    writeNext ⟨true, limit⟩ count entry = (count + traceCount [entry], [entry.line]) := by
  obtain ⟨level, tag, message⟩ := entry
  cases level with
  | info => rfl
  | trace =>
    have hone : traceCount [⟨.trace, tag, message⟩] = 1 := rfl
    rw [hone] at h ⊢
    have hlt : (count : Int) < limit := by omega
    have hne : (count : Int) + 1 ≠ limit := by omega
    simp [writeNext, hlt, hne, Entry.tagged_eq_line ⟨.trace, tag, message⟩]

theorem writeNext_of_last (h : count + 1 = limit) (htrace : entry.isTrace = true) :
    writeNext ⟨true, limit⟩ count entry =
      (count + 1, [entry.line, notice limit entry.tag]) := by
  obtain ⟨level, tag, message⟩ := entry
  cases level with
  | info => cases htrace
  | trace =>
    have hlt : (count : Int) < limit := by omega
    simp [writeNext, hlt, h, Entry.tagged_eq_line ⟨.trace, tag, message⟩]

/-! ### All entries -/

theorem writeFrom_cons (policy : Policy) (count : Nat) (entry : Entry) (rest : List Entry) :
    writeFrom policy count (entry :: rest) =
      (writeNext policy count entry).2 ::
        writeFrom policy (writeNext policy count entry).1 rest := rfl

theorem writeFrom_of_full (h : limit ≤ count) :
    writeFrom ⟨true, limit⟩ count entries = entries.map Entry.summaryLines := by
  induction entries with
  | nil => rfl
  | cons entry rest ih => rw [writeFrom_cons, writeNext_of_full h, ih, List.map_cons]

/-- Entries for which there is room leave the limit to the ones behind them. -/
theorem writeFrom_append_of_room (h : count + traceCount entries < limit) (rest : List Entry) :
    writeFrom ⟨true, limit⟩ count (entries ++ rest) =
      entries.map (fun entry => [entry.line]) ++
        writeFrom ⟨true, limit⟩ (count + traceCount entries) rest := by
  -- Over the entries; what one takes up of the room is missing for the later ones.
  induction entries generalizing count with
  | nil => rfl
  | cons entry later ih =>
    rw [traceCount_cons] at h ⊢
    have hentry : (count + traceCount [entry] : Int) < limit := by omega
    have hlater : ((count + traceCount [entry] : Nat) + traceCount later : Int) < limit := by omega
    rw [List.cons_append, writeFrom_cons, writeNext_of_room hentry, ih hlater, Nat.add_assoc,
      List.map_cons, List.cons_append]

theorem writeFrom_of_room (h : count + traceCount entries < limit) :
    writeFrom ⟨true, limit⟩ count entries = entries.map fun entry => [entry.line] := by
  simpa [writeFrom] using writeFrom_append_of_room h []

theorem writeFrom_of_reached {before after : List Entry} {last : Entry}
    (h : count + traceCount before + 1 = limit) (htrace : last.isTrace = true) :
    writeFrom ⟨true, limit⟩ count (before ++ last :: after) =
      before.map (fun entry => [entry.line]) ++
        [last.line, notice limit last.tag] :: after.map Entry.summaryLines := by
  have hroom : (count + traceCount before : Int) < limit := by omega
  have hlast : ((count + traceCount before : Nat) + 1 : Int) = limit := by omega
  have hfull : limit ≤ (count + traceCount before + 1 : Nat) := by omega
  rw [writeFrom_append_of_room hroom, writeFrom_cons, writeNext_of_last hlast htrace,
    writeFrom_of_full hfull]

/-! ### Rationed traces -/

/-- What the calls write, one after another, when this many traces are allowed. -/
inductive Rationed (limit : Int) : List Entry → List (List String) → Prop
  | shut {entries : List Entry} : limit ≤ 0 →
      Rationed limit entries (entries.map Entry.summaryLines)
  | within {entries : List Entry} : traceCount entries < limit →
      Rationed limit entries (entries.map fun entry => [entry.line])
  | reached {before last after} : traceCount before + 1 = limit → last.isTrace = true →
      Rationed limit (before ++ last :: after)
        (before.map (fun entry => [entry.line]) ++
          [last.line,
            "[" ++ last.tag ++ "] trace limit of " ++ toString limit ++ " lines reached"] ::
            after.map Entry.summaryLines)

theorem Rationed.writeEach_eq {calls : List (List String)} (h : Rationed limit entries calls) :
    writeEach ⟨true, limit⟩ entries = calls := by
  cases h with
  | shut hlimit => exact writeFrom_of_full hlimit
  | within hroom => exact writeFrom_of_room (by omega)
  | reached hlast htrace =>
    rw [← notice_eq]
    exact writeFrom_of_reached (by omega) htrace

/-- The trace that has `n` traces in front of it. -/
theorem exists_trace_behind {n : Nat} (h : n < traceCount entries) :
    ∃ before last after, entries = before ++ last :: after ∧ traceCount before = n ∧
      last.isTrace = true := by
  induction entries generalizing n with
  | nil => cases h
  | cons entry rest ih =>
    -- A trace at the front is the one looked for or one of the `n`; a summary is neither.
    by_cases htrace : entry.isTrace = true
    · rw [traceCount_cons_trace htrace] at h
      cases n with
      | zero => exact ⟨[], entry, rest, rfl, rfl, htrace⟩
      | succ n =>
        obtain ⟨before, last, after, rfl, hcount, hlast⟩ := ih (Nat.lt_of_succ_lt_succ h)
        refine ⟨entry :: before, last, after, rfl, ?_, hlast⟩
        rw [traceCount_cons_trace htrace, hcount]
    · rw [traceCount_cons_summary htrace] at h
      obtain ⟨before, last, after, rfl, hcount, hlast⟩ := ih h
      refine ⟨entry :: before, last, after, rfl, ?_, hlast⟩
      rw [traceCount_cons_summary htrace, hcount]

theorem exists_rationed (limit : Int) (entries : List Entry) :
    ∃ calls, Rationed limit entries calls := by
  by_cases hlimit : limit ≤ 0
  · exact ⟨_, .shut hlimit⟩
  · by_cases hroom : traceCount entries < limit
    · exact ⟨_, .within hroom⟩
    · have hreached : limit.toNat - 1 < traceCount entries := by omega
      obtain ⟨before, last, after, rfl, hcount, htrace⟩ := exists_trace_behind hreached
      exact ⟨_, .reached (by omega) htrace⟩

/-- Of what the calls write, the part that the traces among them write. -/
def ofTraces (entries : List Entry) (calls : List (List String)) : List (List String) :=
  ((entries.zip calls).filter fun call => call.1.isTrace).map Prod.snd

theorem writeNext_of_not_trace (policy : Policy) (count : Nat) (h : ¬ entry.isTrace = true) :
    (writeNext policy count entry).1 = count := by
  obtain ⟨level, tag, message⟩ := entry
  cases level with
  | info => cases henabled : policy.enabled <;> simp [writeNext, henabled]
  | trace => exact absurd rfl h

theorem ofTraces_cons (entry : Entry) (rest : List Entry) (lines : List String)
    (calls : List (List String)) : ofTraces (entry :: rest) (lines :: calls) =
      if entry.isTrace then lines :: ofTraces rest calls else ofTraces rest calls := by
  cases htrace : entry.isTrace <;> simp [ofTraces, htrace]

theorem ofTraces_writeFrom (policy : Policy) (count : Nat) (entries : List Entry) :
    ofTraces entries (writeFrom policy count entries) =
      writeFrom policy count (entries.filter Entry.isTrace) := by
  induction entries generalizing count with
  | nil => rfl
  | cons entry rest ih =>
    rw [writeFrom_cons, ofTraces_cons, ih]
    by_cases htrace : entry.isTrace = true
    · rw [if_pos htrace, List.filter_cons_of_pos htrace, writeFrom_cons]
    · rw [if_neg htrace, List.filter_cons_of_neg htrace, writeNext_of_not_trace policy count htrace]

/-- A journal that is not enabled stays empty. Of any other it is determined what each call writes:
everything up to the trace that reaches the limit, the notice on this one, and only summaries from
there on. Traces are written as if there were no summaries between them. -/
theorem writeEach_iff_rationed :
    (∀ limit entries, write ⟨false, limit⟩ entries = []) ∧
    (∀ limit entries calls,
      Rationed limit entries calls ↔ writeEach ⟨true, limit⟩ entries = calls) ∧
    (∀ limit entries calls,
      Rationed limit entries calls → write ⟨true, limit⟩ entries = calls.flatten) ∧
    ∀ policy entries, ofTraces entries (writeEach policy entries) =
      writeEach policy (entries.filter Entry.isTrace) := by
  refine ⟨fun limit entries => write_of_disabled rfl entries, ?_, ?_,
    fun policy entries => ofTraces_writeFrom policy 0 entries⟩
  · intro limit entries calls
    constructor
    · exact Rationed.writeEach_eq
    · rintro rfl
      obtain ⟨calls, hcalls⟩ := exists_rationed limit entries
      rw [hcalls.writeEach_eq]
      exact hcalls
  · intro limit entries calls hcalls
    rw [write, hcalls.writeEach_eq]

/-- The summary between the traces leaves the second of them its place. -/
example : writeEach ⟨true, 2⟩ [trace "PARSE" "one", info "CLI" "summary", trace "READ" "two",
    trace "PARSE" "three", info "CLI" "done"] =
      [["[PARSE] one"], ["[CLI] summary"], ["[READ] two", "[READ] trace limit of 2 lines reached"],
        [], ["[CLI] done"]] := by
  decide +kernel

/-! ### Traces under one tag -/

/-- The lines of traces under one tag: as many as the limit allows, and the notice if there are
enough of them to reach it. -/
def limitedLines (limit : Int) (tag : String) (messages : List String) : List String :=
  (messages.take limit.toNat).map (fun message => "[" ++ tag ++ "] " ++ message) ++
    if 1 ≤ limit ∧ limit ≤ messages.length then
      ["[" ++ tag ++ "] trace limit of " ++ toString limit ++ " lines reached"]
    else []

theorem limitedLines_eq (limit : Int) (tag : String) (messages : List String) :
    limitedLines limit tag messages = (messages.take limit.toNat).map (tagged tag) ++
      if 1 ≤ limit ∧ limit ≤ messages.length then [notice limit tag] else [] := by
  rw [notice_eq]
  rfl

theorem limitedLines_of_nonpos (h : limit ≤ 0) (tag : String) (messages : List String) :
    limitedLines limit tag messages = [] := by
  have hno : ¬ (1 ≤ limit ∧ limit ≤ messages.length) := by omega
  simp [limitedLines, Int.toNat_of_nonpos h, hno]

theorem limitedLines_of_lt {messages : List String} (h : messages.length < limit) (tag : String) :
    limitedLines limit tag messages = messages.map (tagged tag) := by
  have hno : ¬ (1 ≤ limit ∧ limit ≤ messages.length) := by omega
  have hall : messages.length ≤ limit.toNat := by omega
  rw [limitedLines_eq, List.take_of_length_le hall, if_neg hno, List.append_nil]

theorem limitedLines_append_cons {xs : List String} (h : xs.length + 1 = limit)
    (tag message : String) (ys : List String) :
    limitedLines limit tag (xs ++ message :: ys) =
      xs.map (tagged tag) ++ [tagged tag message, notice limit tag] := by
  have hlimit : limit.toNat = (xs ++ [message]).length := by
    rw [List.length_append, List.length_singleton]
    omega
  have hreached : 1 ≤ limit ∧ limit ≤ (xs ++ message :: ys).length := by
    rw [List.length_append, List.length_cons]
    omega
  rw [limitedLines_eq, if_pos hreached, hlimit, List.append_cons xs message ys, List.take_left,
    List.map_append, List.append_assoc]
  rfl

theorem traceCount_traces (tag : String) (messages : List String) :
    traceCount (messages.map (trace tag)) = messages.length := by
  rw [traceCount, List.countP_map, List.countP_eq_length]
  exact fun _ _ => rfl

theorem flatten_lines_traces (tag : String) (messages : List String) :
    ((messages.map (trace tag)).map fun entry => [entry.line]).flatten =
      messages.map (tagged tag) := by
  rw [List.map_map]
  exact List.map_eq_flatMap.symm

theorem flatten_summaryLines_traces (tag : String) (messages : List String) :
    ((messages.map (trace tag)).map Entry.summaryLines).flatten = [] := by
  simp [Entry.summaryLines, Entry.isTrace, trace]

theorem write_traces (limit : Int) (tag : String) (messages : List String) :
    write ⟨true, limit⟩ (messages.map (trace tag)) = limitedLines limit tag messages := by
  obtain ⟨calls, hcalls⟩ := exists_rationed limit (messages.map (trace tag))
  rw [write, hcalls.writeEach_eq]
  -- The entries get a name, as the last case cuts them in two.
  generalize hentries : messages.map (trace tag) = entries at hcalls
  cases hcalls with
  | shut hlimit => rw [← hentries, flatten_summaryLines_traces, limitedLines_of_nonpos hlimit]
  | within hroom =>
    subst hentries
    rw [traceCount_traces] at hroom
    rw [flatten_lines_traces, limitedLines_of_lt hroom]
  | reached hlast htrace =>
    obtain ⟨xs, rest, rfl, rfl, hrest⟩ := List.map_eq_append_iff.mp hentries
    obtain ⟨message, ys, rfl, rfl, rfl⟩ := List.map_eq_cons_iff.mp hrest
    rw [traceCount_traces] at hlast
    rw [← notice_eq, List.flatten_append, List.flatten_cons, flatten_lines_traces,
      flatten_summaryLines_traces, List.append_nil, limitedLines_append_cons hlast]
    rfl

theorem write_append_info (limit : Int) (entries : List Entry) (tag message : String) :
    write ⟨true, limit⟩ (entries ++ [info tag message]) =
      write ⟨true, limit⟩ entries ++ [tagged tag message] := by
  rw [← Page.lines_putAll_new, ← Page.lines_putAll_new, Page.putAll_append]
  rfl

/-- Summaries are written whatever the limit. -/
theorem write_infos (limit : Int) (tag : String) (messages : List String) :
    write ⟨true, limit⟩ (messages.map (info tag)) = messages.map (tagged tag) := by
  induction messages using List.reverseRecOn with
  | nil => rfl
  | append_singleton messages message ih =>
    rw [List.map_append, List.map_append, ← ih]
    exact write_append_info limit _ tag message

/-- A summary in front does not use up the limit. -/
theorem write_info_traces (limit : Int) (tag message : String) (messages : List String) :
    write ⟨true, limit⟩ (info tag message :: messages.map (trace tag)) =
      tagged tag message :: limitedLines limit tag messages := by
  rw [← write_traces]
  rfl

end Journal
end CanonicalListing
