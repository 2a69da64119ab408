import Mathlib.Data.List.Infix
import SigilAsm.Proofs.CommandLine.SourceOutputs

/-! # Directories whose output is written

A call on a directory writes a file for each module, at the place that the source
has in the directory, below the output path and with another extension.  The
directories keep their names there, so a file can be called like a directory that
another output needs.  Then the call fails, and otherwise it does not.
-/

namespace SigilAsm

variable {o : Options} {format : OutputFormat} {t : FileTree} {path out : String}
  {l target : Location}

/-- A call that asks for the outputs of the sources in a directory.  There are sources, each gets an
output, and nothing stands where the output path leads. -/
structure OutputCall (o : Options) (t : FileTree) (path out : String) (l target : Location)
    (format : OutputFormat) : Prop where
  sound : t.Sound
  input : o.input = some path
  directory : t.resolve path = .ok (.directory l)
  output : o.output = some out
  vacant : t.Vacant out target
  named : OutputFormat.ofName o.format = .ok format
  asked : format ≠ .check
  sourced : t.sourcesBelow l ≠ []
  accepted : ∀ file ∈ t.sourcesBelow l, o.Accepts format file.2

theorem OutputCall.ordered (call : OutputCall o t path out l target format) :
    o.outputFormat = .ok format := by
  simp only [Options.outputFormat, call.named, call.output, reduceCtorEq, and_false, if_false]

/-- What a call for outputs is about: the sources that are collected, each of which is assembled to
the bytes of an output. -/
theorem OutputCall.exists_sources (call : OutputCall o t path out l target format)
    (stdin : List UInt8) : ∃ sources, ∃ bytes : SourceFile → List UInt8,
      Collected (t.filesBelow l) sources ∧
      o.plan stdin t.find = ⟨sources.map fun s => s.action out format (bytes s), none⟩ ∧
      ∀ s ∈ sources, ∃ a, assemble o.settings s.text = .ok a ∧
        a.emit format o.settings.vocabulary = .ok (bytes s) := by
  obtain ⟨file, first⟩ := List.exists_mem_of_ne_nil _ call.sourced
  obtain ⟨sources, collected, plan⟩ := exists_plan_of_directory stdin call.ordered call.input
    call.directory ⟨file, FileTree.mem_sourcesBelow_iff.mp first⟩ fun file member isSource => by
      obtain ⟨text, -, read, -⟩ :=
        call.accepted file (FileTree.mem_sourcesBelow_iff.mpr ⟨member, isSource⟩)
      exact ⟨text, read⟩
  have made (s : SourceFile) (member : s ∈ sources) : ∃ bytes a,
      assemble o.settings s.text = .ok a ∧ a.diagnostics = [] ∧
        a.emit format o.settings.vocabulary = .ok bytes := by
    obtain ⟨contents, inside, isSource, read⟩ := collected.exists_file member
    have listed := FileTree.mem_sourcesBelow_iff.mpr ⟨inside, isSource⟩
    obtain ⟨a, bytes, made⟩ := exists_emit (call.accepted _ listed) read
    exact ⟨bytes, a, made⟩
  choose! bytes made using made
  refine ⟨sources, bytes, collected, ?_, fun s member => ?_⟩
  · have plans (s : SourceFile) (member : s ∈ sources) : (s.input path).plan o format =
        ⟨[s.action out format (bytes s)], 0, none⟩ := by
      obtain ⟨a, assembled, clean, emitted⟩ := made s member
      exact plan_of_source call.output call.asked assembled clean emitted path
    rw [plan, Plan.join_of_clean sources.length plans, List.map_eq_flatMap]
  · obtain ⟨a, assembled, -, emitted⟩ := made s member
    exact ⟨a, assembled, emitted⟩

theorem OutputCall.exists_written (call : OutputCall o t path out l target format)
    (stdin : List UInt8) (free : t.Unobstructed out l target format) :
    ∃ sources t', ∃ bytes : SourceFile → List UInt8,
      Collected (t.filesBelow l) sources ∧
      Session.run o stdin t = (0, ⟨t', [], ""⟩) ∧
      t'.files = t.files ++ sources.map (fun s =>
        (target ++ s.location.withExtension format.extension, bytes s)) ∧
      (t'.files.map Prod.fst).Nodup ∧
      ∀ s ∈ sources,
        (∃ a, assemble o.settings s.text = .ok a ∧
          a.emit format o.settings.vocabulary = .ok (bytes s)) ∧
        t'.resolve (Path.join out (Path.ofNames (s.location.withExtension format.extension))) =
          .ok (.file (target ++ s.location.withExtension format.extension) (bytes s)) := by
  obtain ⟨sources, bytes, collected, plan, made⟩ := call.exists_sources stdin
  have admits := admits_outputs collected call.sound call.vacant free bytes
  obtain ⟨t', done, written⟩ := admits.exists_performAll [] "" none
  have actions := map_action_eq collected free.stems out target format bytes
  refine ⟨sources, t', bytes, collected, ?_, ?_, written.distinct admits call.sound.distinct,
    fun s member => ⟨made s member, ?_⟩⟩
  · simp only [Session.run, plan, actions, done]
  · rw [written.files, List.map_map]
    refine congrArg (t.files ++ ·) (List.map_congr_left fun s _ => ?_)
    exact congrArg (·, bytes s) SourceFile.place_output
  · have found := written.resolve admits (List.mem_map_of_mem member)
    rwa [SourceFile.place_output] at found

theorem OutputCall.unobstructed (call : OutputCall o t path out l target format)
    {stdin : List UInt8} (succeeded : (Session.run o stdin t).1 = 0) :
    t.Unobstructed out l target format := by
  obtain ⟨sources, bytes, collected, plan, -⟩ := call.exists_sources stdin
  have done : (Session.performAll ⟨t, [], ""⟩ none
      (sources.map fun s => s.action out format (bytes s))).2 = none := by
    by_contra failed
    rw [Session.fst_run, plan, if_neg failed] at succeeded
    cases succeeded
  have stems : ∀ file ∈ t.sourcesBelow l, file.1.getLast? ≠ some "..ira" := by
    intro file below up
    obtain ⟨s, member, same⟩ := collected.exists_of_below below
    obtain ⟨before, after, performed⟩ := Session.exists_perform done (List.mem_map_of_mem member)
    exact SourceFile.not_perform_action (collected.isName call.sound member) (same ▸ up) performed
  rw [map_action_eq collected stems out target format bytes] at done
  have admits := FileTree.admits_of_performAll
    (fun w => sound_of_mem_outputs collected call.sound call.vacant)
    (call.vacant.free [] Location.visits_self)
    (fun w member =>
      (FileTree.nodeAt?_eq_none_iff.mp (nodeAt?_of_mem_outputs call.vacant member)).1)
    (distinct_outputs collected call.sound out target format bytes) done
  exact ⟨stems, clear_of_admits collected admits⟩

/-! ## Plain paths

A path without `..` passes the places above the one it leads to and nothing else. -/

theorem FileTree.vacant_of_isName (isNames : ∀ name ∈ Path.names path, Path.IsName name)
    (new : t.nodeAt? (Path.names path) = none)
    (free : ∀ above ∈ (Path.names path).inits, t.files.lookup above = none) :
    t.Vacant path (Path.names path) where
  leads := Location.walk_of_isName isNames
  new := new
  free place passed :=
    free place ((List.mem_inits _ _).mpr ((Location.visits_iff_above isNames).mp passed))

theorem Options.accepts_listing {text : String} (clean : (attempt o.settings text).reports = []) :
    o.Accepts .listing (Utf8.encode text.toList) := by
  have unreported : Input.reports ⟨"", none, text⟩ o = [] := clean
  obtain ⟨a, accepted, -⟩ := Input.exists_of_reports_eq_nil unreported
  have outcome : (attempt o.settings text).outcome = .ok a := accepted
  refine ⟨text, { a with diagnostics := (attempt o.settings text).diagnostics }, textOf_encode text,
    ?_, (Input.reports_of_ok accepted).symm.trans unreported, nofun⟩
  simp only [assemble_eq, assembleReporting, outcome, Except.mapError, Except.map]

theorem OutputCall.of_sources {sources : List SourceFile}
    (listed : t.sourcesBelow l = sources.map fun s => (s.location, Utf8.encode s.text.toList))
    (sourced : sources ≠ [])
    (clean : ∀ s ∈ sources, (attempt o.settings s.text).reports.isEmpty = true)
    (sound : t.Sound) (input : o.input = some path)
    (directory : t.resolve path = .ok (.directory l)) (output : o.output = some out)
    (vacant : t.Vacant out target)
    (named : OutputFormat.ofName o.format = .ok .listing) :
    OutputCall o t path out l target .listing := by
  refine ⟨sound, input, directory, output, vacant, named, nofun, ?_, fun file member => ?_⟩
  · rw [listed]
    exact mt List.map_eq_nil_iff.mp sourced
  · rw [listed] at member
    obtain ⟨s, inside, rfl⟩ := List.mem_map.mp member
    exact Options.accepts_listing (List.isEmpty_iff.mp (clean s inside))

/-- Below a plain output path an output is in the way only if another source lies below its name. -/
theorem FileTree.unobstructed_iff_of_isName (sound : t.Sound)
    (isNames : ∀ name ∈ Path.names out, Path.IsName name) :
    t.Unobstructed out l (Path.names out) format ↔
      ∀ file ∈ t.sourcesBelow l, file.1.getLast? ≠ some "..ira" ∧
        ∀ other ∈ t.sourcesBelow l,
          ¬ file.1.withExtension format.extension <+: other.1.dropLast := by
  have passes (file other : Location × List UInt8) (below : other ∈ t.sourcesBelow l) :
      Location.Visits [] (Path.names out ++ other.1.dropLast)
          (Path.names out ++ file.1.withExtension format.extension) ↔
        file.1.withExtension format.extension <+: other.1.dropLast := by
    have inside := sound.isName_below (mem_sourcesBelow_iff.mp below).1
    refine (Location.visits_iff_above fun name member => ?_).trans
      (List.prefix_append_right_inj _)
    rcases List.mem_append.mp member with first | second
    · exact isNames name first
    · exact inside name (List.dropLast_subset _ second)
  constructor
  · intro free file below
    exact ⟨free.stems file below, fun other below' higher =>
      free.clear file below other below' ((passes file other below').mpr higher)⟩
  · intro apart
    exact ⟨fun file below => (apart file below).1, fun file below other below' passed =>
      (apart file below).2 other below' ((passes file other below').mp passed)⟩

theorem OutputCall.run_eq_one (call : OutputCall o t path out l target format)
    (blocked : ¬ t.Unobstructed out l target format) (stdin : List UInt8) :
    (Session.run o stdin t).1 = 1 := by
  rw [Session.fst_run]
  refine if_neg fun done => ?_
  have succeeded : (Session.run o stdin t).1 = 0 := by rw [Session.fst_run, if_pos done]
  exact blocked (call.unobstructed succeeded)

/-! ## Success and failure -/

/-- A call for the outputs of a directory succeeds unless a source is called `..ira` or an output
stands where the path to one passes.  Otherwise it adds one file for each source to the tree, at the
place of the source below that of the output path and with the extension of the format, and each
file is found at its path and holds what its source is assembled to. -/
theorem run_directory_written (stdin : List UInt8)
    (call : OutputCall o t path out l target format) :
    ((Session.run o stdin t).1 = 0 ↔ t.Unobstructed out l target format) ∧
    (t.Unobstructed out l target format →
      ∃ sources t', ∃ bytes : SourceFile → List UInt8,
        Collected (t.filesBelow l) sources ∧
        Session.run o stdin t = (0, ⟨t', [], ""⟩) ∧
        t'.files = t.files ++ sources.map (fun s =>
          (target ++ s.location.withExtension format.extension, bytes s)) ∧
        (t'.files.map Prod.fst).Nodup ∧
        ∀ s ∈ sources,
          (∃ a, assemble o.settings s.text = .ok a ∧
            a.emit format o.settings.vocabulary = .ok (bytes s)) ∧
          t'.resolve (Path.join out (Path.ofNames (s.location.withExtension format.extension))) =
            .ok (.file (target ++ s.location.withExtension format.extension) (bytes s))) := by
  refine ⟨⟨call.unobstructed, fun free => ?_⟩, call.exists_written stdin⟩
  obtain ⟨_, t', _, -, done, -⟩ := call.exists_written stdin free
  rw [done]

/-- Two sources, one of them in a directory, beside a file that is no source. -/
theorem run_directory_written_two_levels :
    let t : FileTree := ⟨[
      (["src", "main.ira"], Utf8.encode "module @m; global @x=01;".toList),
      (["src", "lib", "util.ira"], Utf8.encode "module @u; function @f;".toList),
      (["src", "lib", "main.txt"], [0xff])], []⟩
    let o : Options := ⟨some "src", some "out", "summary", 16⟩
    OutputCall o t "src" "out" ["src"] ["out"] .listing ∧
      ∃ t' bytes, Session.run o [] t = (0, ⟨t', [], ""⟩) ∧
        t'.resolve "out/lib/util.txt" = .ok (.file ["out", "lib", "util.txt"] bytes) := by
  intro t o
  let sources : List SourceFile :=
    [⟨["main.ira"], "module @m; global @x=01;"⟩, ⟨["lib", "util.ira"], "module @u; function @f;"⟩]
  have listed : t.sourcesBelow ["src"] =
      sources.map fun s => (s.location, Utf8.encode s.text.toList) := by decide +kernel
  have sound : t.Sound := ⟨by decide +kernel, by decide +kernel⟩
  have plain : ∀ name ∈ Path.names "out", Path.IsName name := by decide +kernel
  have call : OutputCall o t "src" "out" ["src"] ["out"] .listing :=
    .of_sources listed (List.cons_ne_nil _ _) (by decide +kernel) sound rfl rfl rfl
      (FileTree.vacant_of_isName plain rfl (by decide +kernel)) rfl
  have free : t.Unobstructed "out" ["src"] ["out"] .listing := by
    refine (FileTree.unobstructed_iff_of_isName sound plain).mpr ?_
    rw [listed]
    decide +kernel
  obtain ⟨sources, t', bytes, collected, done, -, -, found⟩ :=
    (run_directory_written [] call).2 free
  have inside : (["lib", "util.ira"], Utf8.encode "module @u; function @f;".toList) ∈
      t.filesBelow ["src"] := by decide +kernel
  obtain ⟨s, member, location, -⟩ := collected.exists_source inside (by decide +kernel)
  refine ⟨call, t', bytes s, done, ?_⟩
  have here := (found s member).2
  rw [location] at here
  exact here

/-- Calls that fail: one for an output `out/a.txt` and another below a directory of that name, and
one for the output of a source without a stem. -/
theorem run_directory_in_the_way :
    let t : FileTree := ⟨[
      (["src", "a.ira"], Utf8.encode "module @a;".toList),
      (["src", "a.txt", "b.ira"], Utf8.encode "module @b;".toList)], []⟩
    let u : FileTree := ⟨[(["src", "..ira"], Utf8.encode "module @a;".toList)], []⟩
    let o : Options := ⟨some "src", some "out", "summary", 16⟩
    (OutputCall o t "src" "out" ["src"] ["out"] .listing ∧ (Session.run o [] t).1 = 1) ∧
      OutputCall o u "src" "out" ["src"] ["out"] .listing ∧ (Session.run o [] u).1 = 1 := by
  intro t u o
  have plain : ∀ name ∈ Path.names "out", Path.IsName name := by decide +kernel
  let ab : List SourceFile := [⟨["a.ira"], "module @a;"⟩, ⟨["a.txt", "b.ira"], "module @b;"⟩]
  let dots : List SourceFile := [⟨["..ira"], "module @a;"⟩]
  have listed : t.sourcesBelow ["src"] =
      ab.map fun s => (s.location, Utf8.encode s.text.toList) := by decide +kernel
  have listed' : u.sourcesBelow ["src"] =
      dots.map fun s => (s.location, Utf8.encode s.text.toList) := by decide +kernel
  have sound : t.Sound := ⟨by decide +kernel, by decide +kernel⟩
  have sound' : u.Sound := ⟨by decide +kernel, by decide +kernel⟩
  have call : OutputCall o t "src" "out" ["src"] ["out"] .listing :=
    .of_sources listed (List.cons_ne_nil _ _) (by decide +kernel) sound rfl rfl rfl
      (FileTree.vacant_of_isName plain rfl (by decide +kernel)) rfl
  have call' : OutputCall o u "src" "out" ["src"] ["out"] .listing :=
    .of_sources listed' (List.cons_ne_nil _ _) (by decide +kernel) sound' rfl rfl rfl
      (FileTree.vacant_of_isName plain rfl (by decide +kernel)) rfl
  have blocked : ¬ t.Unobstructed "out" ["src"] ["out"] .listing := fun free =>
    absurd ((FileTree.unobstructed_iff_of_isName sound plain).mp free)
      (by rw [listed]; decide +kernel)
  have blocked' : ¬ u.Unobstructed "out" ["src"] ["out"] .listing := fun free =>
    absurd ((FileTree.unobstructed_iff_of_isName sound' plain).mp free)
      (by rw [listed']; decide +kernel)
  exact ⟨⟨call, call.run_eq_one blocked []⟩, call', call'.run_eq_one blocked' []⟩

end SigilAsm
