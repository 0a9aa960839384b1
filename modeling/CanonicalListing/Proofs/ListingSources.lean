import CanonicalListing.Proofs.EventOrder
import CanonicalListing.Proofs.OutputModes

/-!
# Saved and captured listings

The bytes of a listing come from a saved file or from a child process. Both ways decode
them as a whole and make the same of it, so a run that reads them from the one and a run
that is given them by the other serve the same, as long as they are told to deliver the
same way. Only an empty path cannot be given in both ways.
-/

namespace CanonicalListing

open Text

/-- The child ends well after writing these bytes, in whatever chunks, and no complaint. -/
structure Child.Delivers (c : Child) (content : ByteArray) : Prop where
  output : c.output = content
  complaint : c.complaint = .empty
  ending : c.ending = some (.closed (some 0))

theorem Capture.outcome_of_delivers {executable objFile : String} {child : Child}
    {content : ByteArray} (h : child.Delivers content) :
    (∃ text, decodeUtf8? content = some text ∧
        (run executable objFile (.started child)).outcome = .text text) ∨
      decodeUtf8? content = none ∧ ∃ message,
        (run executable objFile (.started child)).outcome =
          .failed (.fault (Fault.ioFailure message)) := by
  have htext (text : String) : (run executable objFile (.started child)).outcome = .text text ↔
      decodeUtf8? content = some text := by
    rw [run_eq_text_iff, h.ending, h.complaint, h.output]
    simp
  cases hrun : (run executable objFile (.started child)).outcome with
  | pending =>
    rw [run_eq_pending_iff, h.ending] at hrun
    cases hrun
  | text text => exact .inl ⟨text, (htext text).mp hrun, rfl⟩
  | failed failure =>
    obtain ⟨message, rfl⟩ := exists_of_run_eq_failed hrun
    refine .inr ⟨Option.eq_none_iff_forall_ne_some.mpr fun text hdecoded => ?_, message, rfl⟩
    rw [(htext text).mpr hdecoded] at hrun
    cases hrun

namespace Command

variable {arguments front back : List String} {fs bs : List Token} {w : World} {o : Options}
  {path : String} {content : ByteArray}

/-- What is served for the bytes of a listing. -/
def Options.serveBytes (o : Options) (w : World) (content : ByteArray) : Service :=
  match decodeUtf8? content with
  | none => { exitCode := some 1 }
  | some text => o.serve w (some (readingOf text))

theorem serveBytes_of_none (h : decodeUtf8? content = none) :
    o.serveBytes w content = { exitCode := some 1 } := by
  simp [Options.serveBytes, h]

theorem serveBytes_of_some {text : String} (h : decodeUtf8? content = some text) :
    o.serveBytes w content = o.serve w (some (readingOf text)) := by
  simp [Options.serveBytes, h]

theorem saved_service (h : Requests arguments o) (hinput : o.input = some path)
    (hnode : w.node path = some (.file content)) :
    (run arguments w).service = o.serveBytes w content := by
  rw [run_service h, obtain_of_input hinput]
  cases htext : decodeUtf8? content with
  | none =>
    rw [serveBytes_of_none htext]
    simp [readSaved, hnode, htext, Capture.Outcome.reading, Options.serve, Failure.exitCode]
  | some text =>
    rw [serveBytes_of_some htext]
    simp [readSaved, hnode, htext, Capture.Outcome.reading]

theorem captured_service {child : Child} (h : Requests arguments o) (hcalls : Calls o w path)
    (hlaunch : w.launch = .started child) (hdelivers : child.Delivers content) :
    (run arguments w).service = o.serveBytes w content := by
  rw [run_service h, obtain_of_calls hcalls, hlaunch]
  obtain ⟨text, htext, hrun⟩ | ⟨htext, message, hrun⟩ := Capture.outcome_of_delivers hdelivers
  · rw [hrun, serveBytes_of_some htext]
    rfl
  · rw [hrun, serveBytes_of_none htext]
    rfl

/-- The options that say what is delivered and where to. -/
theorem gather_outputs (h : ∀ t ∈ fs ++ bs, t.isOutput = true) :
    ({} : Options).SameSource (Options.gather (fs ++ bs)) :=
  Options.sameSource_foldl h {}

/-- An argument for the source of the listing, among arguments for the delivery. -/
theorem read_insert {argument : String} {t : Token} (hfront : Cuts front fs) (hback : Cuts back bs)
    (houtputs : ∀ u ∈ fs ++ bs, u.isOutput = true) (ht : t.SpelledBy [argument])
    (hother : t.isOutput = false) (hsourced : ((Options.gather (fs ++ bs)).add t).Sourced) :
    Options.read (front ++ argument :: back) = .ok ((Options.gather (fs ++ bs)).add t) := by
  obtain ⟨hfs, hbs⟩ := List.forall_mem_append.mp houtputs
  have hgather : Options.gather (fs ++ t :: bs) = (Options.gather (fs ++ bs)).add t :=
    Options.gather_append_cons hother hbs
  refine Options.read_eq_ok_iff.mpr
    ⟨fs ++ t :: bs, hfront.append (ht.cuts.append hback), ?_, hgather.symm ▸ hsourced, hgather⟩
  have hpositionals : (fs ++ t :: bs).filterMap Token.positional? = t.positional?.toList := by
    rw [List.filterMap_append, List.filterMap_cons, filterMap_positional?_of_isOutput hfs,
      filterMap_positional?_of_isOutput hbs]
    cases t.positional? <;> rfl
  rw [hpositionals]
  cases t.positional? <;> rfl

theorem read_input (hfront : Cuts front fs) (hback : Cuts back bs)
    (houtputs : ∀ u ∈ fs ++ bs, u.isOutput = true) (hpath : path ≠ "") :
    Options.read (front ++ ("--input=" ++ path) :: back) =
      .ok ((Options.gather (fs ++ bs)).add (.setting .input path)) := by
  have hspelled : Token.SpelledBy (.setting .input path) ["--input" ++ "=" ++ path] :=
    .inline rfl (by decide) hpath
  refine read_insert hfront hback houtputs hspelled rfl ⟨.inr (.inr ?_), .inl ?_⟩
  · exact Option.some_ne_none path
  · exact (gather_outputs houtputs).objFile

theorem read_objFile (hfront : Cuts front fs) (hback : Cuts back bs)
    (houtputs : ∀ u ∈ fs ++ bs, u.isOutput = true) (hplain : startsWithDash path = false) :
    Options.read (front ++ path :: back) =
      .ok ((Options.gather (fs ++ bs)).add (.positional path)) := by
  have hspelled : Token.SpelledBy (.positional path) [path] :=
    .positional (by simp [isFlag, hplain])
  refine read_insert hfront hback houtputs hspelled rfl ⟨.inr (.inl ?_), .inr ?_⟩
  · simp [Options.add, (gather_outputs houtputs).objFile]
  · exact (gather_outputs houtputs).input

theorem sourceName_add_input (h : o.objFile = none) :
    (o.add (.setting .input path)).sourceName = path := by
  simp [Options.sourceName, Options.add, h]

theorem sourceName_add_positional (h : o.objFile = none) :
    (o.add (.positional path)).sourceName = path := by
  simp [Options.sourceName, Options.add, h]

section
variable {saved captured : World}

/-- The source is named alike, and the worlds agree in what a delivery looks at. -/
theorem serve_add_source (hobj : o.objFile = none)
    (henvironment : captured.environment = saved.environment)
    (hrefusal : captured.writeRefusal = saved.writeRefusal)
    (reading : Option (Except Failure Listing)) :
    (o.add (.positional path)).serve captured reading =
      (o.add (.setting .input path)).serve saved reading := by
  have hresult (listing : Listing) : (o.add (.positional path)).result captured listing =
      (o.add (.setting .input path)).result saved listing := by
    simp only [Options.result, Options.kept, ← sourceName_eq, henvironment]
    rw [sourceName_add_input hobj, sourceName_add_positional hobj]
    rfl
  rcases reading with _ | failure | listing
  · rfl
  · rfl
  · simp only [Options.serve, hresult, Options.place, hrefusal]
    rfl

theorem serveBytes_add_source (hobj : o.objFile = none)
    (henvironment : captured.environment = saved.environment)
    (hrefusal : captured.writeRefusal = saved.writeRefusal) (content : ByteArray) :
    (o.add (.positional path)).serveBytes captured content =
      (o.add (.setting .input path)).serveBytes saved content := by
  unfold Options.serveBytes
  cases decodeUtf8? content with
  | none => rfl
  | some text => exact serve_add_source hobj henvironment hrefusal _

end

/-- Two runs serve the same, and the bytes of the listing say what. -/
structure ServesAlike (content : ByteArray) (path : String) (o : Options) (w : World)
    (saved captured : Outcome) : Prop where
  exitCode : captured.exitCode = saved.exitCode
  printed : captured.printed = saved.printed
  writes : captured.writes = saved.writes
  undecodable : (∀ text, content ≠ encodeUtf8 text) →
    saved.exitCode = some 1 ∧ saved.printed = [] ∧ saved.writes = []
  decoded : ∀ text, content = encodeUtf8 (String.ofList (byteOrderMark :: text.toList)) ∨
      content = encodeUtf8 text ∧ text.toList.head? ≠ some byteOrderMark →
    saved.service = o.serve w (some (readingOf text))
  fingerprint : o.hash = true → saved.exitCode = some 0 → ∃ rendering,
    saved.printed ++ saved.writes.map Prod.snd =
      [Fingerprint.ofText rendering ++ "  " ++ path ++ "\n"]

/-- A run that serves these bytes, and its fingerprint line if that is asked for. -/
theorem exists_rendering_of_serveBytes {outcome : Outcome}
    (h : outcome.service = o.serveBytes w content) (hhash : o.hash = true)
    (hzero : outcome.exitCode = some 0) : ∃ rendering,
      outcome.printed ++ outcome.writes.map Prod.snd =
        [Fingerprint.ofText rendering ++ "  " ++ o.sourceName ++ "\n"] := by
  cases htext : decodeUtf8? content with
  | none =>
    rw [serveBytes_of_none htext] at h
    have hone : outcome.exitCode = some 1 := congrArg Service.exitCode h
    simp [hone] at hzero
  | some text =>
    rw [serveBytes_of_some htext] at h
    obtain ⟨listing, -, hproduct⟩ := exists_product_of_service h hzero
    rw [result_of_hash hhash] at hproduct
    exact ⟨_, hproduct⟩

theorem servesAlike_of_services {saved captured : World} {a b : Outcome} (hobj : o.objFile = none)
    (henvironment : captured.environment = saved.environment)
    (hrefusal : captured.writeRefusal = saved.writeRefusal)
    (hsaved : a.service = (o.add (.setting .input path)).serveBytes saved content)
    (hcaptured : b.service = (o.add (.positional path)).serveBytes captured content) :
    ServesAlike content path (o.add (.setting .input path)) saved a b := by
  rw [serveBytes_add_source hobj henvironment hrefusal, ← hsaved] at hcaptured
  refine ⟨congrArg Service.exitCode hcaptured, congrArg Service.printed hcaptured,
    congrArg Service.writes hcaptured, fun hinvalid => ?_, fun text htext => ?_, ?_⟩
  · rw [serveBytes_of_none (decodeUtf8?_eq_none_iff.mpr hinvalid)] at hsaved
    exact ⟨congrArg Service.exitCode hsaved, congrArg Service.printed hsaved,
      congrArg Service.writes hsaved⟩
  · rw [hsaved, serveBytes_of_some (decodeUtf8?_eq_some_iff.mpr htext)]
  · intro hhash hzero
    have hline := exists_rendering_of_serveBytes hsaved hhash hzero
    rwa [sourceName_add_input hobj] at hline

theorem saved_and_captured_serve_alike {saved captured : World} {child : Child}
    (hfront : Cuts front fs) (hback : Cuts back bs)
    (houtputs : ∀ t ∈ fs ++ bs, t.isOutput = true) (hpath : path ≠ "")
    (hplain : startsWithDash path = false) (hnode : saved.node path = some (.file content))
    (hfile : captured.HasFile path) (henvironment : captured.environment = saved.environment)
    (hrefusal : captured.writeRefusal = saved.writeRefusal)
    (hlaunch : captured.launch = .started child) (hdelivers : child.Delivers content) :
    ∃ o, Options.read (front ++ ("--input=" ++ path) :: back) = .ok o ∧
      ServesAlike content path o saved (run (front ++ ("--input=" ++ path) :: back) saved)
        (run (front ++ path :: back) captured) := by
  have hnowhere := gather_outputs houtputs
  have hsaved := read_input hfront hback houtputs hpath
  have hcaptured := read_objFile hfront hback houtputs hplain
  have hcalls : Calls ((Options.gather (fs ++ bs)).add (.positional path)) captured path := by
    refine calls_iff.mpr ⟨hnowhere.input, ?_, hfile, ?_⟩
    · simp [Options.add, hnowhere.objFile]
    · simp [Options.add, hnowhere.executable]
  refine ⟨_, hsaved, servesAlike_of_services hnowhere.objFile henvironment hrefusal ?_ ?_⟩
  · exact saved_service ⟨hsaved, hnowhere.help⟩ rfl hnode
  · exact captured_service ⟨hcaptured, hnowhere.help⟩ hcalls hlaunch hdelivers

/-! ### A marked listing, in three chunks -/

namespace Marked

def bytes : ByteArray :=
  encodeUtf8 "\uFEFFa.o: file format elf\nDisassembly of section .text:\n<f>:\n\tret # é\n"

/-- The chunks are cut within the mark and within the accented letter, and the child ends twice. -/
def child : Child where
  events :=
    [.stdout (bytes.extract 0 2), .stderr .empty, .stdout (bytes.extract 2 (bytes.size - 2)),
      .stdout (bytes.extract (bytes.size - 2) bytes.size), .closed (some 0), .closed (some 1)]

theorem delivers : child.Delivers bytes := ⟨by decide +kernel, by decide +kernel, rfl⟩

def saved (path : String) : World where
  node p := if p = path then some (.file bytes) else none
  environment _ := none
  launch := .refused "no child"
  writeRefusal _ := none

/-- The object file is there, but it is no text to be read. -/
def captured (path : String) : World :=
  { saved path with
    node := fun p => if p = path then some (.unreadable "no text") else none
    launch := .started child }

theorem hasFile (path : String) : (captured path).HasFile path :=
  .inr ⟨"no text", by simp [captured]⟩

end Marked

theorem marked_serve_alike :
    ∃ o, Options.read ["--hash", "--input=a.o", "-o", "sum"] = .ok o ∧
      ServesAlike Marked.bytes "a.o" o (Marked.saved "a.o")
        (run ["--hash", "--input=a.o", "-o", "sum"] (Marked.saved "a.o"))
        (run ["--hash", "a.o", "-o", "sum"] (Marked.captured "a.o")) := by
  have hback : Cuts ["-o", "sum"] [.setting .out "sum"] :=
    (Token.SpelledBy.separate rfl (by decide)).cuts
  exact saved_and_captured_serve_alike cuts_hash hback (by decide) (by decide) (by decide)
    (by simp [Marked.saved]) (Marked.hasFile "a.o") rfl rfl rfl Marked.delivers

/-- An empty path is a missing value behind the equals sign, but an object file by itself. -/
theorem not_all_paths_serve_alike :
    ¬ ∀ (path : String) (content : ByteArray) (saved captured : World) (child : Child),
      startsWithDash path = false → saved.node path = some (.file content) →
      captured.HasFile path → captured.environment = saved.environment →
      captured.writeRefusal = saved.writeRefusal → captured.launch = .started child →
      child.Delivers content →
      (run ["--input=" ++ path] saved).exitCode = (run [path] captured).exitCode := by
  intro h
  have hcodes := h "" Marked.bytes (Marked.saved "") (Marked.captured "") Marked.child (by decide)
    rfl (Marked.hasFile "") rfl rfl rfl Marked.delivers
  have hsaved : (run ["--input="] (Marked.saved "")).exitCode = some 2 := by decide +kernel
  have hcaptured : (run [""] (Marked.captured "")).exitCode = some 0 := by decide +kernel
  have hsame : (some 2 : Option Nat) = some 0 := hsaved.symm.trans (hcodes.trans hcaptured)
  cases hsame

end Command
end CanonicalListing
