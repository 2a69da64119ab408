import SigilAsm.Proofs.CommandLine.Plans

/-! # Directories whose output is printed

A call on a directory that writes no files prints for each module what it would
print for this module alone, one module after the other.  What is wrong with one
module is shown and counted, and does not keep the others from being assembled.
-/

namespace SigilAsm

/-! ## Prints and warnings -/

namespace Action

def printed : Action → List UInt8
  | print bytes => bytes
  | _ => []

def warned : Action → String
  | warn text => text
  | _ => ""

def isWrite : Action → Bool
  | write .. => true
  | _ => false

end Action

/-- Where nothing is written nothing fails, and what is printed comes one after the other. -/
theorem Session.performAll_of_texts (s : Session) (ending : Option Abort) {actions : List Action}
    (texts : ∀ action ∈ actions, action.isWrite = false) :
    s.performAll ending actions =
      (⟨s.tree, s.stdout ++ actions.flatMap Action.printed,
        s.stderr ++ String.join (actions.map Action.warned)⟩, ending) := by
  induction actions generalizing s with
  | nil => simp [performAll]
  | cons action rest ih =>
    have others := fun s => ih s fun a member => texts a (List.mem_cons_of_mem _ member)
    cases action with
    | print bytes =>
      simp only [performAll, perform, others, Action.printed, Action.warned, List.flatMap_cons,
        List.map_cons, String.join_cons, List.append_assoc, String.empty_append]
    | warn text =>
      simp only [performAll, perform, others, Action.printed, Action.warned, List.flatMap_cons,
        List.map_cons, String.join_cons, List.nil_append, String.append_assoc]
    | write path bytes => exact absurd (texts _ List.mem_cons_self) (by simp [Action.isWrite])

/-! ## One source -/

namespace Input

variable {input : Input} {o : Options} {format : OutputFormat}

/-- What is printed of a source: its listing if that is asked for and nothing is reported. -/
def printed (input : Input) (o : Options) (format : OutputFormat) : List UInt8 :=
  match format, input.isFaulty o, (input.attempt o).outcome with
  | .listing, false, .ok a => Utf8.encode (a.program.listing o.settings.vocabulary).toList
  | _, _, _ => []

/-- What is done about a source whose output is printed, if there is any. -/
def texts (input : Input) (o : Options) (format : OutputFormat) : List Action :=
  if input.isFaulty o then (input.shown o).map .warn
  else if format = .listing then [.print (input.printed o format)]
  else []

theorem plan_of_texts (here : o.output = none) (text : format ≠ .wasm) :
    input.plan o format = ⟨input.texts o format, (input.reports o).length, none⟩ := by
  by_cases clean : input.reports o = []
  · obtain ⟨a, accepted, none⟩ := exists_of_reports_eq_nil clean
    have fine := isFaulty_eq_false_iff.mpr clean
    cases format with
    | listing =>
      have made := Assembly.emit_listing_of_clean none o.settings.vocabulary
      have asked : OutputFormat.listing ≠ .check := nofun
      rw [plan_of_print accepted none asked here made, clean]
      simp [texts, fine, printed, accepted]
    | check =>
      rw [plan_of_check accepted none, clean]
      simp [texts, fine]
    | wasm => exact absurd rfl text
  · have faulty : input.isFaulty o = true := by simp [isFaulty, clean]
    rw [plan_of_reports clean, texts, if_pos faulty]

theorem isWrite_of_mem_texts {action : Action} (member : action ∈ input.texts o format) :
    action.isWrite = false := by
  unfold texts at member
  split at member
  · obtain ⟨text, -, rfl⟩ := List.mem_map.mp member
    rfl
  · split at member
    · rw [List.mem_singleton.mp member]
      rfl
    · cases member

theorem flatMap_printed_texts :
    (input.texts o format).flatMap Action.printed = input.printed o format := by
  unfold texts
  split
  next faulty =>
    have nothing : input.printed o format = [] := by
      unfold printed
      rw [faulty]
      split <;> simp_all
    rw [nothing, List.flatMap_map]
    exact List.flatMap_eq_nil_iff.mpr fun _ _ => rfl
  next =>
    split
    next => simp [Action.printed]
    next other =>
      unfold printed
      split
      · exact absurd rfl other
      · rfl

theorem join_warned_texts :
    String.join ((input.texts o format).map Action.warned) = String.join (input.shown o) := by
  unfold texts
  split
  next =>
    rw [List.map_map]
    exact congrArg String.join (List.map_id' _)
  next fine =>
    have nothing : input.shown o = [] := by
      rw [shown, isFaulty_eq_false_iff.mp (Bool.eq_false_iff.mpr fine), List.map_nil]
    rw [nothing]
    split <;> rfl

end Input

/-! ## Directories -/

theorem join_flatMap {α : Type} (f : α → List String) (as : List α) :
    String.join (as.flatMap f) = String.join (as.map fun a => String.join (f a)) := by
  induction as with
  | nil => rfl
  | cons a as ih => rw [List.flatMap_cons, String.join_append, ih, List.map_cons, String.join_cons]

/-- The last line that is shown if there are reports, none of them included. -/
def faultyLine (errors failed sources : Nat) : String :=
  "Error: assembly failed with " ++ toString errors ++ " error(s) in " ++ toString failed ++ " of "
    ++ toString sources ++ " module(s)\n"

theorem faultyLine_parts (errors failed sources : String) :
    "Error: " ++ ("assembly failed with " ++ errors ++ " error(s) in " ++ failed ++ " of "
        ++ sources ++ " module(s)") ++ "\n" =
      "Error: assembly failed with " ++ errors ++ " error(s) in " ++ failed ++ " of " ++ sources
        ++ " module(s)\n" := by
  have first : "Error: " ++ "assembly failed with " = "Error: assembly failed with " := by decide
  have last : " module(s)" ++ "\n" = " module(s)\n" := by decide
  rw [← first, ← last]
  simp only [String.append_assoc]

theorem Abort.render_of_no_cause (reason : String) :
    (⟨reason, none⟩ : Abort).render = "Error: " ++ reason ++ "\n" := by
  rw [render, Option.map_none, Option.getD_none, String.append_empty]

theorem exists_verdict (errors : Nat) {failed : Nat} (faulty : 0 < failed) (sources : Nat) :
    ∃ abort, verdict errors failed sources = some abort ∧
      abort.render = faultyLine errors failed sources := by
  rw [verdict, if_neg (Nat.ne_of_gt faulty)]
  exact ⟨_, rfl, (Abort.render_of_no_cause _).trans (faultyLine_parts _ _ _)⟩

variable {o : Options} {format : OutputFormat} {t : FileTree} {path : String} {l : Location}

/-- A call on a directory whose sources are all texts, for listings or for the reports alone, leaves
the files as they are.  It prints what is to be printed of each source and shows what is reported of
each, in the order of their locations.  It fails if anything is reported, and then a last line says
how much of how many sources. -/
theorem run_directory_printed (stdin : List UInt8) (input : o.input = some path)
    (directory : t.resolve path = .ok (.directory l)) (here : o.output = none)
    (named : OutputFormat.ofName o.format = .ok format) (text : format ≠ .wasm)
    (some : ∃ file ∈ t.filesBelow l, Found.isSource file.1 = true)
    (texts : ∀ file ∈ t.filesBelow l, Found.isSource file.1 = true →
      ∃ text, textOf file.2 = .ok text) :
    ∃ sources, Collected (t.filesBelow l) sources ∧
      let inputs := sources.map (·.input path)
      let errors := (inputs.flatMap (·.shown o)).length
      let failed := (inputs.filter (·.isFaulty o)).length
      Session.run o stdin t = (if 0 < failed then 1 else 0, {
        tree := t
        stdout := inputs.flatMap (·.printed o format)
        stderr := String.join (inputs.flatMap (·.shown o)) ++
          if 0 < failed then faultyLine errors failed sources.length else "" }) := by
  have ordered : o.outputFormat = .ok format := by
    simp only [Options.outputFormat, named, text, false_and, if_false]
  obtain ⟨sources, collected, plan⟩ :=
    exists_plan_of_directory stdin ordered input directory some texts
  refine ⟨sources, collected, ?_⟩
  intro inputs errors failed
  have joined : Plan.join sources.length 0 0 (inputs.map (·.plan o format)) =
      ⟨inputs.flatMap (·.texts o format), verdict errors failed sources.length⟩ := by
    have all := Plan.join_inputs sources.length 0 0 fun i (_ : i ∈ inputs) =>
      Input.plan_of_texts here text
    have counted : errors = (inputs.flatMap (·.reports o)).length := by
      simp only [errors, Input.shown, List.length_flatMap, List.length_map]
    rw [all, Nat.zero_add, Nat.zero_add, ← counted]
  have quiet : ∀ action ∈ inputs.flatMap (·.texts o format), action.isWrite = false := by
    intro action member
    obtain ⟨i, -, inside⟩ := List.mem_flatMap.mp member
    exact Input.isWrite_of_mem_texts inside
  have done := Session.performAll_of_texts ⟨t, [], ""⟩ (verdict errors failed sources.length) quiet
  rw [List.flatMap_assoc, List.map_flatMap, join_flatMap] at done
  simp only [Input.flatMap_printed_texts, Input.join_warned_texts, ← join_flatMap,
    List.nil_append, String.empty_append] at done
  rw [List.map_map] at joined
  have same : (sources.map fun s => (s.input path).plan o format) =
      sources.map ((·.plan o format) ∘ (·.input path)) := rfl
  simp only [Session.run, plan]
  rw [same, joined, done]
  by_cases faulty : 0 < failed
  · obtain ⟨abort, ending, line⟩ := exists_verdict errors faulty sources.length
    simp only [ending, if_pos faulty, line]
  · simp only [verdict, if_pos (Nat.eq_zero_of_not_pos faulty), if_neg faulty, String.append_empty]

/-- A name that is declared twice, a listing, and a module that ends too early, beside a file that
is no source. -/
theorem run_directory_printed_mixed :
    let t : FileTree := ⟨[
      (["src", "b", "c.ira"], Utf8.encode "module @c; global @x=01; global @x=02;".toList),
      (["src", "a.ira"], Utf8.encode "module @a;".toList),
      (["src", "d.ira"], Utf8.encode "module".toList),
      (["src", "e.txt"], [0xff])], []⟩
    let o : Options := ⟨some "src", none, "summary", 16⟩
    t.resolve "src" = .ok (.directory ["src"]) ∧
      ∃ sources, Collected (t.filesBelow ["src"]) sources ∧
        let inputs := sources.map (·.input "src")
        (Session.run o [] t).2.stdout = inputs.flatMap (·.printed o .listing) ∧
        (Session.run o [] t).1 = 1 := by
  intro t o
  have directory : t.resolve "src" = .ok (.directory ["src"]) := by rfl
  have inside : (["d.ira"], Utf8.encode "module".toList) ∈ t.filesBelow ["src"] := by decide +kernel
  have texts : ∀ file ∈ t.filesBelow ["src"], Found.isSource file.1 = true →
      ∃ text, textOf file.2 = .ok text := by
    have below : t.filesBelow ["src"] = [
        (["b", "c.ira"], Utf8.encode "module @c; global @x=01; global @x=02;".toList),
        (["a.ira"], Utf8.encode "module @a;".toList), (["d.ira"], Utf8.encode "module".toList),
        (["e.txt"], [0xff])] := by decide +kernel
    intro file member isSource
    rw [below] at member
    simp only [List.mem_cons, List.not_mem_nil, or_false] at member
    rcases member with rfl | rfl | rfl | rfl
    · exact ⟨_, textOf_encode _⟩
    · exact ⟨_, textOf_encode _⟩
    · exact ⟨_, textOf_encode _⟩
    · exact absurd isSource (by decide +kernel)
  have named : OutputFormat.ofName o.format = .ok .listing := by rfl
  obtain ⟨sources, collected, left⟩ := run_directory_printed [] (o := o) rfl directory rfl named
    (by decide) ⟨_, inside, by decide +kernel⟩ texts
  refine ⟨directory, sources, collected, by rw [left], ?_⟩
  obtain ⟨s, member, -, text⟩ := collected.exists_source inside (by decide +kernel)
  have broken : (s.input "src").isFaulty o = true := by
    have faulty : (!(attempt o.settings "module").reports.isEmpty) = true := by decide +kernel
    rw [textOf_encode] at text
    rw [Input.isFaulty, Input.reports, Input.attempt]
    rw [Except.ok.inj text] at faulty
    exact faulty
  rw [left]
  exact if_pos (List.length_pos_of_mem
    (List.mem_filter.mpr ⟨List.mem_map_of_mem member, broken⟩))

end SigilAsm
