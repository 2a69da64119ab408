import SigilAsm.Proofs.Assembly.Output
import SigilAsm.Proofs.Elaboration.Written

/-! # The locals of a function

Each header opens a new scope for locals, also where the function has a body
already, while the list of the function goes on growing.  So a name cannot come
twice in one body without a report, and the list of a function is that of its
bodies, one after the other.
-/

namespace SigilAsm

/-! ## Names in the tree -/

namespace Tree

theorem Module.filter_locals_clauses (m : Module) (f : String) :
    ((Clauses.locals m.clauses).filter (·.1.function = f)).map Prod.snd =
      (m.bodiesOf f).flatMap Body.localNames := by
  rw [locals_clauses, ← flatMap_bodiesOf]

/-- Where all locals of a module are different, so are the names in each body. -/
theorem Module.nodup_localNames {m : Module} (nodup : (Clauses.locals m.clauses).Nodup)
    {f : String} {b : Body} (member : b ∈ m.bodiesOf f) : b.localNames.Nodup := by
  rw [bodiesOf_eq] at member
  obtain ⟨⟨key, b⟩, inside, rfl⟩ := List.mem_map.mp member
  rw [locals_clauses, List.nodup_flatMap] at nodup
  exact (nodup.1 (key, b) (List.mem_of_mem_filter inside)).of_map

end Tree

/-- Where nothing is reported, no local comes twice in one body. -/
theorem Clauses.nodup_locals {vocabulary : Vocabulary} {cs : List Clause}
    (clean : diagnostics vocabulary cs = []) : (locals cs).Nodup := by
  induction cs using List.reverseRecOn with
  | nil => exact List.nodup_nil
  | append_singleton cs c ih =>
    rw [diagnostics_snoc, List.append_eq_nil_iff] at clean
    obtain ⟨before, now⟩ := clean
    rw [locals_snoc, List.nodup_append]
    refine ⟨ih before, by cases c.local? <;> simp, ?_⟩
    rintro x member _ new rfl
    cases c with
    | localName body name =>
      obtain rfl := List.mem_singleton.mp new
      -- The name is there already, so it would have been reported here.
      simp [Clause.occurrences, Occurrence.diagnostic?, Use.problem?, member] at now
    | _ => cases new

/-! ## Names in the program -/

/-- The names in the list of a function, none for a handle without a local. -/
def Program.localNames (p : Program) (f : Program.Function) : List (Option String) :=
  f.locals.toList.map fun id => (p.local? id).map (·.name)

theorem Program.localNames_ofDeclared {name : String} {d : Declared} {f : Function}
    (nodup : d.locals.Nodup) (member : f ∈ (ofDeclared name d).functions.toList) :
    (ofDeclared name d).localNames f =
      ((d.locals.filter (·.1.function = f.name)).map Prod.snd).map some := by
  obtain ⟨mention, -, rfl⟩ := mem_functions_ofDeclared.mp member
  have all : firsts id d.locals = d.locals := firsts_eq_self (by simpa using nodup)
  have named : ∀ i x, d.locals[i]? = some x →
      ((ofDeclared name d).local? ⟨i⟩).map (·.name) = some x.2 := by
    intro i x found
    simp [ofDeclared, local?, all, found, Declared.localRow]
  rw [localNames, List.map_map]
  simpa [Declared.functionRow, all, Function.comp_def] using
    map_placesWhere (p := (·.1.function = mention.1)) named

/-- Where no local comes twice, the list of a function is that of the names in its bodies. -/
theorem Tree.Module.localNames_program {m : Tree.Module} {vocabulary : Vocabulary}
    {f : Program.Function} (nodup : (Clauses.locals m.clauses).Nodup)
    (member : f ∈ (m.program vocabulary).functions.toList) :
    (m.program vocabulary).localNames f =
      ((m.bodiesOf f.name).flatMap Tree.Body.localNames).map some := by
  rw [← Tree.Module.filter_locals_clauses]
  exact Program.localNames_ofDeclared nodup member

variable {settings : Settings} {source : String} {a : Assembly}

/-- The list of each function of a source without diagnostics holds the names of its bodies, one
body after the other, and no name comes twice in a body. -/
theorem assemble_localNames (assembled : assemble settings source = .ok a)
    (clean : a.diagnostics = []) :
    (∃ m : Tree.Module, m.IsTreeOf settings.maxDataBytes source) ∧
      ∀ m : Tree.Module, m.IsTreeOf settings.maxDataBytes source →
        ∀ f ∈ a.program.functions.toList,
          a.program.localNames f =
              ((m.bodiesOf f.name).flatMap Tree.Body.localNames).map some ∧
            (∀ b ∈ m.bodiesOf f.name, b.localNames.Nodup) ∧
            ((m.bodiesOf f.name).length ≤ 1 → (a.program.localNames f).Nodup) := by
  refine ⟨exists_isTreeOf_of_assemble assembled, fun m tree f member => ?_⟩
  obtain ⟨program, diagnostics⟩ := assembly_of_isTreeOf assembled tree
  have nodup : (Clauses.locals m.clauses).Nodup := Clauses.nodup_locals (diagnostics ▸ clean)
  rw [program] at member ⊢
  have names := Tree.Module.localNames_program nodup member
  have apart : ∀ b ∈ m.bodiesOf f.name, b.localNames.Nodup := fun b given =>
    Tree.Module.nodup_localNames nodup given
  refine ⟨names, apart, fun single => ?_⟩
  rw [names]
  refine List.Nodup.map (fun _ _ => Option.some.inj) ?_
  -- There is no second body whose names could be there already.
  match given : m.bodiesOf f.name, single with
  | [], _ => exact List.nodup_nil
  | [b], _ => simpa using apart b (by simp [given])

/-- A function that was called before, with two locals in its only body. -/
theorem assemble_localNames_called_ahead :
    ∃ a, assemble .standard
        "module @m; function @g\x7bcall @f[0=>0];\x7d function @f\x7blocal %x; local %y;\x7d"
          = .ok a ∧
      a.program.functions.toList.map a.program.localNames = [[], [some "x", some "y"]] ∧
      ∃ m : Tree.Module, ∀ f ∈ a.program.functions.toList,
        a.program.localNames f = ((m.bodiesOf f.name).flatMap Tree.Body.localNames).map some := by
  have checked : ((assemble .standard
      "module @m; function @g\x7bcall @f[0=>0];\x7d function @f\x7blocal %x; local %y;\x7d"
      ).toOption.map fun a =>
        (a.diagnostics, a.program.functions.toList.map a.program.localNames)) =
      some ([], [[], [some "x", some "y"]]) := by
    decide +kernel
  rcases assembled : assemble _ _ with e | a
  · rw [assembled] at checked
    cases checked
  · rw [assembled] at checked
    obtain ⟨clean, listed⟩ := Prod.mk.inj (Option.some.inj checked)
    obtain ⟨⟨m, tree⟩, names⟩ := assemble_localNames assembled clean
    exact ⟨a, rfl, listed, m, fun f member => (names m tree f member).1⟩

/-- The second body of a function may declare a name of the first. -/
theorem not_nodup_localNames_second_body :
    ∃ a, assemble .standard
        "module @m; function @f \x7b local %x; \x7d function @f \x7b local %x; \x7d" = .ok a ∧
      a.diagnostics = [] ∧ ∃ f ∈ a.program.functions.toList, ¬(a.program.localNames f).Nodup := by
  have checked : ((assemble .standard
      "module @m; function @f \x7b local %x; \x7d function @f \x7b local %x; \x7d").toOption.map
        fun a => (a.diagnostics, a.program.functions.toList.map a.program.localNames)) =
      some ([], [[some "x", some "x"]]) := by
    decide +kernel
  rcases assembled : assemble _ _ with e | a
  · rw [assembled] at checked
    cases checked
  · rw [assembled] at checked
    obtain ⟨clean, names⟩ := Prod.mk.inj (Option.some.inj checked)
    obtain ⟨f, only, twice⟩ := List.map_eq_singleton_iff.mp names
    exact ⟨a, rfl, clean, f, by simp [only], by simp [twice]⟩

end SigilAsm
