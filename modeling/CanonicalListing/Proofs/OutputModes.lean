import CanonicalListing.Proofs.OptionTokens
import CanonicalListing.Proofs.Service

/-!
# Output modes

The product of a run is the rendering or its fingerprint, and it goes to the standard
output or to a file. The arguments that choose among these four may be added to any
argument list that is accepted without them: they are never taken for the value of a flag
before them, and they change neither what is read nor whether the run succeeds.
-/

namespace CanonicalListing
namespace Command

variable {arguments extra : List String} {w : World} {o o' : Options} {us : List Token}

theorem Options.SameSource.obtain_eq (h : o.SameSource o') (executable : String) :
    obtain o' executable w = obtain o executable w := by
  unfold obtain
  rw [h.input, h.objFile, h.executable]

theorem Options.SameSource.program_eq (h : o.SameSource o') : o'.program w = o.program w := by
  rw [Options.program, h.executable, Options.program]

theorem Requests.append (h : Requests arguments o) (hextra : Cuts extra us)
    (hus : ∀ u ∈ us, u.isOutput = true) :
    Requests (arguments ++ extra) (us.foldl Options.add o) :=
  ⟨Options.read_append h.1 hextra hus, (Options.sameSource_foldl hus o).help.trans h.2⟩

/-- What is read stays the same; only how it is served is for the added arguments to say. -/
theorem run_append_service (h : Requests arguments o) (hextra : Cuts extra us)
    (hus : ∀ u ∈ us, u.isOutput = true) :
    (run (arguments ++ extra) w).service =
      (us.foldl Options.add o).serve w (obtain o (o.program w) w).outcome.reading := by
  have hsource := Options.sameSource_foldl hus o
  rw [run_service (h.append hextra hus), hsource.program_eq, hsource.obtain_eq]

theorem cuts_hash : Cuts ["--hash"] [.switch .hash] := (Token.SpelledBy.switch rfl).cuts

theorem cuts_out {path : String} (h : path ≠ "") :
    Cuts ["--out=" ++ path] [.setting .out path] := by
  have hspelled : Token.SpelledBy (.setting .out path) ["--out" ++ "=" ++ path] :=
    .inline rfl (by decide) h
  exact hspelled.cuts

theorem Requests.exists_sourceName (h : Requests arguments o) :
    ∃ source, o.sourceName = source ∧ (o.objFile = some source ∨ o.input = some source) := by
  obtain ⟨path, hinput⟩ | ⟨-, objFile, hobj⟩ := h.source
  · have hobj : o.objFile = none :=
      (Options.sourced_of_read h.1).2.resolve_right (by simp [hinput])
    exact ⟨path, by simp [Options.sourceName, hobj, hinput], .inr hinput⟩
  · exact ⟨objFile, by simp [Options.sourceName, hobj], .inl hobj⟩

theorem result_of_hash (h : o.hash = true) (listing : Listing) :
    o.result w listing =
      Fingerprint.ofText (listing.render (o.kept w)) ++ "  " ++ o.sourceName ++ "\n" := by
  simp [Options.result, sourceName_eq, h]

theorem result_of_not_hash (h : o.hash = false) (listing : Listing) :
    o.result w listing = listing.render (o.kept w) := by
  simp [Options.result, h]

theorem result_add_hash (h : o.hash = false) (listing : Listing) :
    (o.add (.switch .hash)).result w listing =
      Fingerprint.ofText (o.result w listing) ++ "  " ++ o.sourceName ++ "\n" := by
  rw [result_of_not_hash h, result_of_hash rfl]
  rfl

theorem result_add_out (path : String) (listing : Listing) :
    (o.add (.setting .out path)).result w listing = o.result w listing := rfl

/-- What the four ways of delivering come to: the rendering and its fingerprint, printed and
written. -/
structure ModesAgree (source path : String) (plain hashed filed both : Outcome) : Prop where
  exitCodes : hashed.exitCode = plain.exitCode ∧ filed.exitCode = plain.exitCode ∧
    both.exitCode = plain.exitCode
  hashed_prints : plain.exitCode = some 0 →
    hashed.stdout = Fingerprint.ofText plain.stdout ++ "  " ++ source ++ "\n" ∧ hashed.writes = []
  filed_writes : plain.exitCode = some 0 →
    filed.printed = [] ∧ filed.writes = [(path, plain.stdout)]
  both_writes : plain.exitCode = some 0 →
    both.printed = [] ∧ both.writes = [(path, hashed.stdout)]

theorem modesAgree_of_services {path : String} {plain hashed filed both : Outcome}
    {reading : Option (Except Failure Listing)} (hhash : o.hash = false) (hout : o.out = none)
    (hwrite : w.writeRefusal path = none) (hplain : plain.service = o.serve w reading)
    (hhashed : hashed.service = (o.add (.switch .hash)).serve w reading)
    (hfiled : filed.service = (o.add (.setting .out path)).serve w reading)
    (hboth : both.service = ((o.add (.switch .hash)).add (.setting .out path)).serve w reading) :
    ModesAgree o.sourceName path plain hashed filed both := by
  have hprint : ∀ p ∈ o.out, w.writeRefusal p = none := by simp [hout]
  have hfile : ∀ p ∈ some path, w.writeRefusal p = none := by simpa using hwrite
  have hcode := exitCode_of_service hplain hprint
  have hcodes : hashed.exitCode = plain.exitCode ∧ filed.exitCode = plain.exitCode ∧
      both.exitCode = plain.exitCode := by
    rw [hcode]
    exact ⟨exitCode_of_service hhashed hprint, exitCode_of_service hfiled hfile,
      exitCode_of_service hboth hfile⟩
  -- A run that succeeds has a listing, and then each of the four has its product to show.
  have hproducts (hzero : plain.exitCode = some 0) : ∃ listing,
      plain.stdout = o.result w listing ∧
      (hashed.stdout = (o.add (.switch .hash)).result w listing ∧ hashed.writes = []) ∧
      (filed.printed = [] ∧ filed.writes = [(path, o.result w listing)]) ∧
      both.printed = [] ∧ both.writes = [(path, (o.add (.switch .hash)).result w listing)] := by
    obtain ⟨listing, rfl⟩ := exists_listing_of_exitCodeOf (hcode.symm.trans hzero)
    obtain ⟨hprinted, -⟩ := printed_of_service hplain hout
    obtain ⟨hprinted', hunwritten⟩ := printed_of_service hhashed hout
    have hwritten := writes_of_service hfiled rfl hwrite
    have hwritten' := writes_of_service hboth rfl hwrite
    rw [result_add_out] at hwritten hwritten'
    refine ⟨listing, ?_, ⟨?_, hunwritten⟩, hwritten, hwritten'⟩
    · simp [Outcome.stdout, hprinted]
    · simp [Outcome.stdout, hprinted']
  refine ⟨hcodes, fun hzero => ?_, fun hzero => ?_, fun hzero => ?_⟩
  · obtain ⟨listing, hplain, ⟨hhashed, hunwritten⟩, -⟩ := hproducts hzero
    rw [hhashed, hplain, result_add_hash hhash]
    exact ⟨rfl, hunwritten⟩
  · obtain ⟨listing, hplain, -, hfiled, -⟩ := hproducts hzero
    rwa [hplain]
  · obtain ⟨listing, -, ⟨hhashed, -⟩, -, hboth⟩ := hproducts hzero
    rwa [hhashed]

theorem modes_agree {path : String} (hread : Options.read arguments = .ok o)
    (hhelp : o.help = false) (hhash : o.hash = false) (hout : o.out = none) (hpath : path ≠ "")
    (hwrite : w.writeRefusal path = none) :
    ∃ source, (o.objFile = some source ∨ o.input = some source) ∧
      ModesAgree source path (run arguments w) (run (arguments ++ ["--hash"]) w)
        (run (arguments ++ ["--out=" ++ path]) w)
        (run (arguments ++ ["--hash", "--out=" ++ path]) w) := by
  have hrequests : Requests arguments o := ⟨hread, hhelp⟩
  obtain ⟨source, rfl, hsource⟩ := hrequests.exists_sourceName
  refine ⟨o.sourceName, hsource, modesAgree_of_services hhash hout hwrite (run_service hrequests)
    (run_append_service hrequests cuts_hash ?_) (run_append_service hrequests (cuts_out hpath) ?_)
    (run_append_service hrequests (cuts_hash.append (cuts_out hpath)) ?_)⟩
  all_goals simp [Token.isOutput]

/-! ### A saved listing, named by the last argument -/

namespace Saved

def request : List String := ["--operands", "-i", "a.lst"]

def options : Options := { input := some "a.lst", operands := true }

def listing : String :=
  "a.o: file format elf\nDisassembly of section .text:\n<f>:\n\tpush %rbp\n"

def world : World where
  node path := if path = "a.lst" then some (.file (Text.encodeUtf8 listing)) else none
  environment _ := none
  launch := .refused "no child"
  writeRefusal _ := none

/-- It starts like a flag and has an equals sign of its own. -/
def target : String := "-x=1.txt"

end Saved

theorem modes_agree_saved :
    Options.read Saved.request = .ok Saved.options ∧ Saved.target ≠ "" ∧
      Saved.world.writeRefusal Saved.target = none ∧
      (run Saved.request Saved.world).printed = [".text:\n    <f>:\n        push %rbp\n"] ∧
      ∃ source, (Saved.options.objFile = some source ∨ Saved.options.input = some source) ∧
        ModesAgree source Saved.target (run Saved.request Saved.world)
          (run (Saved.request ++ ["--hash"]) Saved.world)
          (run (Saved.request ++ ["--out=" ++ Saved.target]) Saved.world)
          (run (Saved.request ++ ["--hash", "--out=" ++ Saved.target]) Saved.world) := by
  have hread : Options.read Saved.request = .ok Saved.options := by decide
  have htarget : Saved.target ≠ "" := by decide
  refine ⟨hread, htarget, rfl, by decide +kernel, ?_⟩
  exact modes_agree hread rfl rfl rfl htarget rfl

end Command
end CanonicalListing
