import SigilAsm.Assembly.Basic
import SigilAsm.Proofs.Elaboration.Recording
import SigilAsm.Proofs.Elaboration.Reporting
import SigilAsm.Proofs.Wasm.Instance

/-! # Modules made from sources

A source about which nothing is reported is made into a WebAssembly module.  The
tables of the scope keep the names of its globals and functions apart, so the
module is valid, and whoever instantiates it finds the data in its memory.
-/

namespace SigilAsm

open Wasm

/-! ## Names -/

theorem Program.nodup_names_ofDeclared (name : String) (d : Program.Declared) :
    ((ofDeclared name d).globals.toList.map (·.name)).Nodup ∧
      ((ofDeclared name d).functions.toList.map (·.name)).Nodup := by
  constructor
  · exact nodup_firsts d.globals
  · have names : (ofDeclared name d).functions.toList.map (·.name) =
        (firsts Prod.fst d.mentions).map Prod.fst := by
      simp only [ofDeclared, List.map_map]
      rfl
    exact names ▸ nodup_firsts d.mentions

/-! ## Accepted sources -/

variable {settings : Settings} {source : String} {a : Assembly}

/-- An accepted source is taken in as its tree has it. -/
theorem elaborate_of_isTreeOf {m : Tree.Module}
    (accepted : (elaborate settings Program.empty source).1.isOk = true)
    (tree : m.IsTreeOf settings.maxDataBytes source) :
    (elaborate settings Program.empty source).2.target = m.program settings.vocabulary ∧
      (elaborate settings Program.empty source).2.diagnostics.toList =
        m.diagnostics settings.vocabulary := by
  obtain ⟨stop, read⟩ := elaborate_isOk_iff.mp accepted
  obtain ⟨stop, read⟩ := tree.read (Statement.exists_isTreeOf_of_read read).1
  obtain ⟨outline, event, elaborated⟩ := elaborate_of_read Program.empty read
  obtain ⟨p, reaches⟩ := m.exists_reaches
  have room : m.clauses.length ≤ 0xffffffff := by
    have items := Statement.length_items_read_le settings.maxDataBytes source
    rw [read, m.statements_eq, List.length_cons, List.length_map, maxSourceBytes] at items
    omega
  rw [elaborated, m.statements_eq]
  exact ⟨(Scope.records_run reaches room _ _ _).target,
    (Scope.agrees_run reaches _ _ _ _).diagnostics⟩

theorem exists_ofDeclared (accepted : (elaborate settings Program.empty source).1.isOk = true) :
    ∃ name d, (elaborate settings Program.empty source).2.target = .ofDeclared name d := by
  obtain ⟨stop, read⟩ := elaborate_isOk_iff.mp accepted
  obtain ⟨-, m, tree⟩ := Statement.exists_isTreeOf_of_read read
  exact ⟨_, _, (elaborate_of_isTreeOf accepted tree).1⟩

/-! ## Assemblies -/

theorem errorCount_of_elaborate {outline : Outline} {s : Scope Program}
    (elaborated : elaborate settings Program.empty source = (.ok outline, s)) :
    outline.errorCount = s.diagnostics.size := by
  unfold elaborate at elaborated
  cases read : (Statement.read settings.maxDataBytes source).result with
  | error e =>
    simp [read] at elaborated
  | ok stop =>
    simp only [read] at elaborated
    cases elaborated
    exact ((Scope.start_counted _ _ _).run _).errorCount

/-- An assembly holds what the scope of its source came to. -/
theorem elaborate_of_assemble (assembled : assemble settings source = .ok a) :
    ∃ s, elaborate settings Program.empty source = (.ok a.outline, s) ∧
      a.program = s.target ∧ a.diagnostics = s.diagnostics.toList := by
  rcases elaborated : elaborate settings Program.empty source with ⟨e | outline, s⟩
  · simp only [assemble, assembleReporting, attempt, elaborated] at assembled
    cases assembled
  · simp only [assemble, assembleReporting, attempt, elaborated] at assembled
    cases assembled
    exact ⟨s, rfl, rfl, rfl⟩

theorem isOk_of_assemble (assembled : assemble settings source = .ok a) :
    (elaborate settings Program.empty source).1.isOk = true := by
  obtain ⟨s, elaborated, -⟩ := elaborate_of_assemble assembled
  rw [elaborated]
  rfl

theorem exists_isTreeOf_of_assemble (assembled : assemble settings source = .ok a) :
    ∃ m : Tree.Module, m.IsTreeOf settings.maxDataBytes source := by
  obtain ⟨stop, read⟩ := elaborate_isOk_iff.mp (isOk_of_assemble assembled)
  exact (Statement.exists_isTreeOf_of_read read).2

/-- What an assembly holds, told from the tree of its source. -/
theorem assembly_of_isTreeOf {m : Tree.Module} (assembled : assemble settings source = .ok a)
    (tree : m.IsTreeOf settings.maxDataBytes source) :
    a.program = m.program settings.vocabulary ∧
      a.diagnostics = m.diagnostics settings.vocabulary := by
  obtain ⟨s, elaborated, program, diagnostics⟩ := elaborate_of_assemble assembled
  have taken := elaborate_of_isTreeOf (isOk_of_assemble assembled) tree
  rw [elaborated] at taken
  exact ⟨program.trans taken.1, diagnostics.trans taken.2⟩

theorem hasErrors_of_assemble (assembled : assemble settings source = .ok a)
    (clean : a.diagnostics = []) : a.hasErrors = false := by
  obtain ⟨s, elaborated, -, diagnostics⟩ := elaborate_of_assemble assembled
  have none : a.outline.errorCount = 0 := by
    rw [errorCount_of_elaborate elaborated, ← Array.length_toList, ← diagnostics, clean]
    rfl
  rw [Assembly.hasErrors, Outline.hasErrors, none]
  rfl

/-- A source without diagnostics whose data fits in a 32-bit memory is made into a valid module
that can be instantiated, and its instance holds the data.  The bytes that are put out decode into
this module, unless a section has 2^32 bytes or more. -/
theorem assemble_instantiate (assembled : assemble settings source = .ok a)
    (clean : a.diagnostics = [])
    (room : a.program.dataLayout.total ≤ Program.maxLayoutBytes) :
    ∃ m : Wasm.Module, (∀ vocabulary, a.emit .wasm vocabulary = .ok m.encode) ∧
      ((∀ part ∈ m.sections, part.2.length < 0x100000000) →
        Core.decode m.encode = some m.core.sections) ∧
      m.core.Valid ∧
      ∃ i memory, m.core.instantiate = some i ∧ i.Holds memory a.program.globals.toList := by
  obtain ⟨m, lowered⟩ := Program.exists_lower room
  obtain ⟨s, elaborated, program, -⟩ := elaborate_of_assemble assembled
  have accepted : (elaborate settings Program.empty source).1.isOk = true := by
    rw [elaborated]
    rfl
  obtain ⟨name, d, target⟩ := exists_ofDeclared accepted
  have declared : a.program = .ofDeclared name d := by
    rw [program, ← target, elaborated]
  obtain ⟨globals, functions⟩ := Program.nodup_names_ofDeclared name d
  rw [← declared] at globals functions
  have represents := Program.lower_represents lowered
  refine ⟨m, fun vocabulary => ?_, fun sizes => ?_, represents.valid globals functions,
    represents.instantiate globals functions⟩
  · rw [Assembly.emit, hasErrors_of_assemble assembled clean, lowered]
    rfl
  · exact m.decode_encode (Program.narrow_of_lower lowered sizes) sizes

/-- An empty global between two others, and a function. -/
theorem assemble_instantiate_three_globals :
    ∃ a, assemble ⟨16, .empty⟩
        "module @m; global @a=01,02; global @b=\"\"; global const @c=03; function @f;" = .ok a ∧
      ∃ m : Wasm.Module, (∀ vocabulary, a.emit .wasm vocabulary = .ok m.encode) ∧ m.core.Valid ∧
        ∃ i memory, m.core.instantiate = some i ∧ i.Holds memory a.program.globals.toList := by
  have checked : ((assemble ⟨16, .empty⟩
      "module @m; global @a=01,02; global @b=\"\"; global const @c=03; function @f;").toOption.map
        fun a => (a.diagnostics, a.program.dataLayout.total)) = some ([], 16) := by
    decide +kernel
  rcases assembled : assemble _ _ with e | a
  · rw [assembled] at checked
    cases checked
  · rw [assembled] at checked
    obtain ⟨clean, total⟩ := Prod.mk.inj (Option.some.inj checked)
    obtain ⟨m, emitted, -, works⟩ := assemble_instantiate assembled clean (by rw [total]; decide)
    exact ⟨a, rfl, m, emitted, works⟩

end SigilAsm
