import SigilAsm.CommandLine.Session
import SigilAsm.Proofs.Assembly.Gates
import SigilAsm.Proofs.FileTree.Collection

/-! # Plans of several sources

What a call does about a source depends on this source alone, and a call on a
directory does it for one source after the other.  At its end it is told how many
diagnostics there were in how many sources.
-/

namespace SigilAsm

/-- What is reported of a source, the fault of form last. -/
def Attempt.reports (a : Attempt) : List Diagnostic :=
  match a.outcome with
  | .error e => a.diagnostics ++ [e.toDiagnostic]
  | .ok _ => a.diagnostics

namespace Input

variable {input : Input} {o : Options} {format : OutputFormat}

def attempt (input : Input) (o : Options) : Attempt := SigilAsm.attempt o.settings input.source

def reports (input : Input) (o : Options) : List Diagnostic := (input.attempt o).reports

/-- Whether anything is reported of a source. -/
def isFaulty (input : Input) (o : Options) : Bool := !(input.reports o).isEmpty

/-- The reports of a source as they are shown. -/
def shown (input : Input) (o : Options) : List String :=
  (input.reports o).map (·.excerpt input.display (.ofString input.source))

/-! ## One source -/

theorem isFaulty_eq_false_iff : input.isFaulty o = false ↔ input.reports o = [] := by
  simp [isFaulty]

theorem reports_of_error {e : SyntaxError} (refused : (input.attempt o).outcome = .error e) :
    input.reports o = (input.attempt o).diagnostics ++ [e.toDiagnostic] := by
  rw [reports, Attempt.reports, refused]

theorem reports_of_ok {a : Assembly} (accepted : (input.attempt o).outcome = .ok a) :
    input.reports o = (input.attempt o).diagnostics := by
  rw [reports, Attempt.reports, accepted]

/-- A source of which nothing is reported has an assembly without errors. -/
theorem exists_of_reports_eq_nil (clean : input.reports o = []) :
    ∃ a, (input.attempt o).outcome = .ok a ∧ a.outline.errorCount = 0 := by
  cases outcome : (input.attempt o).outcome with
  | error e =>
    rw [reports_of_error outcome] at clean
    simp at clean
  | ok a =>
    refine ⟨a, rfl, ?_⟩
    rw [errorCount_of_attempt outcome, List.length_eq_zero_iff]
    exact (reports_of_ok outcome).symm.trans clean

/-- Reports are shown and counted, and there is no output then. -/
theorem plan_of_reports (faulty : input.reports o ≠ []) : input.plan o format =
    ⟨(input.shown o).map .warn, (input.reports o).length, none⟩ := by
  unfold plan shown
  cases outcome : (input.attempt o).outcome with
  | error e =>
    rw [reports_of_error outcome, List.map_map]
    rw [attempt] at outcome ⊢
    simp only [outcome]
    rfl
  | ok a =>
    have given := reports_of_ok outcome
    have errors : a.hasErrors = true := by
      rw [Assembly.hasErrors_eq_true_iff, errorCount_of_attempt outcome, List.length_pos_iff]
      exact given ▸ faulty
    rw [given, List.map_map]
    rw [attempt] at outcome ⊢
    simp only [outcome, errors, if_true]
    rfl

/-! ### Output

Without reports the output is made and goes where it belongs. -/

section Output

variable {a : Assembly} {bytes : List UInt8}

theorem plan_of_check (accepted : (input.attempt o).outcome = .ok a)
    (clean : a.outline.errorCount = 0) : input.plan o .check = ⟨[], 0, none⟩ := by
  unfold plan
  rw [attempt] at accepted
  simp only [accepted, Assembly.hasErrors_eq_false_iff.mpr clean, Bool.false_eq_true, if_false,
    Assembly.emit_check_of_clean clean]

theorem plan_of_print (accepted : (input.attempt o).outcome = .ok a)
    (clean : a.outline.errorCount = 0) (asked : format ≠ .check) (here : o.output = none)
    (made : a.emit format o.settings.vocabulary = .ok bytes) :
    input.plan o format = ⟨[.print bytes], 0, none⟩ := by
  unfold plan
  rw [attempt] at accepted
  simp only [accepted, Assembly.hasErrors_eq_false_iff.mpr clean, Bool.false_eq_true, if_false,
    made, here, outputPath]

theorem plan_of_write (accepted : (input.attempt o).outcome = .ok a)
    (clean : a.outline.errorCount = 0) (asked : format ≠ .check) {path : String}
    (there : outputPath o.output input.location format = some path)
    (made : a.emit format o.settings.vocabulary = .ok bytes) :
    input.plan o format = ⟨[.write path bytes], 0, none⟩ := by
  unfold plan
  rw [attempt] at accepted
  simp only [accepted, Assembly.hasErrors_eq_false_iff.mpr clean, Bool.false_eq_true, if_false,
    made, there]

end Output

end Input

/-! ## Several sources -/

namespace Plan

variable {o : Options} {format : OutputFormat}

/-- Unless an output cannot be made, all is done about each source, and the call ends as the number
of reports demands. -/
theorem join_inputs {inputs : List Input} {actions : Input → List Action}
    (sources errors failed : Nat) (plans : ∀ input ∈ inputs,
      input.plan o format = ⟨actions input, (input.reports o).length, none⟩) :
    Plan.join sources errors failed (inputs.map (·.plan o format)) =
      ⟨inputs.flatMap actions, verdict (errors + (inputs.flatMap (·.reports o)).length)
        (failed + (inputs.filter (·.isFaulty o)).length) sources⟩ := by
  induction inputs generalizing errors failed with
  | nil => rfl
  | cons input inputs ih =>
    have others := ih (errors + (input.reports o).length)
      (if (input.reports o).length = 0 then failed else failed + 1)
      (fun i member => plans i (List.mem_cons_of_mem _ member))
    simp only [List.map_cons, Plan.join, plans input List.mem_cons_self, others,
      List.flatMap_cons, List.length_append, Nat.add_assoc]
    by_cases clean : input.reports o = []
    · simp [clean, Input.isFaulty]
    · simp [clean, Input.isFaulty, Nat.add_assoc, Nat.add_comm]

/-- Without errors all is done about each source, and the call does not fail. -/
theorem join_of_clean {α : Type} {as : List α} {part : α → SourcePlan} {actions : α → List Action}
    (sources : Nat) (clean : ∀ a ∈ as, part a = ⟨actions a, 0, none⟩) :
    Plan.join sources 0 0 (as.map part) = ⟨as.flatMap actions, none⟩ := by
  induction as with
  | nil => rfl
  | cons a as ih =>
    have others := ih fun a member => clean a (List.mem_cons_of_mem _ member)
    simp only [List.map_cons, Plan.join, clean a List.mem_cons_self, if_true, Nat.add_zero, others,
      List.flatMap_cons]

end Plan

/-! ## Calls on directories -/

/-- A source that was collected below the directory that a path leads to. -/
def SourceFile.input (s : SourceFile) (path : String) : Input :=
  ⟨Path.join path (Path.ofNames s.location), some s.location, s.text⟩

section Directories

variable {o : Options} {format : OutputFormat} {t : FileTree} {path : String} {l : Location}

/-- A call on a directory is about the sources that are collected there. -/
theorem plan_of_sources {sources : List SourceFile} (stdin : List UInt8)
    (ordered : o.outputFormat = .ok format) (input : o.input = some path)
    (directory : t.resolve path = .ok (.directory l))
    (read : (Found.directory (t.filesBelow l)).sources path = .ok sources) (some : sources ≠ []) :
    o.plan stdin t.find =
      Plan.join sources.length 0 0 (sources.map fun s => (s.input path).plan o format) := by
  have found : t.find path = .directory (t.filesBelow l) := by
    rw [FileTree.find, directory]
  have inputs : Options.inputsAt path (t.find path) = .ok (sources.map (·.input path)) := by
    rw [found]
    cases sources with
    | nil => exact absurd rfl some
    | cons s sources =>
      simp only [Options.inputsAt, read]
      rfl
  simp only [Options.plan, ordered, input, inputs, List.length_map, List.map_map]
  rfl

/-- A call on a directory that has sources, all of them texts, is about these sources in the order
of their locations. -/
theorem exists_plan_of_directory (stdin : List UInt8) (ordered : o.outputFormat = .ok format)
    (input : o.input = some path) (directory : t.resolve path = .ok (.directory l))
    (some : ∃ file ∈ t.filesBelow l, Found.isSource file.1 = true)
    (texts : ∀ file ∈ t.filesBelow l, Found.isSource file.1 = true →
      ∃ text, textOf file.2 = .ok text) :
    ∃ sources, Collected (t.filesBelow l) sources ∧
      o.plan stdin t.find =
        Plan.join sources.length 0 0 (sources.map fun s => (s.input path).plan o format) := by
  obtain ⟨sources, read⟩ := exists_sources path texts
  have collected := collected_of_sources read
  refine ⟨sources, collected, plan_of_sources stdin ordered input directory read ?_⟩
  obtain ⟨file, member, isSource⟩ := some
  obtain ⟨s, inside, -⟩ := collected.exists_source member isSource
  exact List.ne_nil_of_mem inside

end Directories

end SigilAsm
