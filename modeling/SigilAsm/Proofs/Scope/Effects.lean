import SigilAsm.Proofs.Elaboration.Diagnostics
import SigilAsm.Scope.Event

/-! # Effects of events

What an event does to the parts of a scope that outlast a function body: the
builder, and the tables of globals and of functions.  There are few ways
(`Scope.Effect`), and every event takes one of them (`Scope.effect_handle`), so
what no event can do to these parts is shown by going through the ways.
-/

namespace SigilAsm

namespace Scope

/-- The instruction that an event emits. -/
def Event.instruction? : Event → Option Instruction
  | .emit instruction => some instruction
  | _ => none

section Effects

variable {σ : Type} [Builder σ]

/-- `s.Effect emitted target globals functions`: what an event that emits `emitted` can make of the
builder and of the tables of globals and functions.  The builder is told of one thing at most. -/
inductive Effect (s : Scope σ) :
    Option Instruction → σ → NameTable GlobalId → NameTable FunctionEntry → Prop
  | nothing : Effect s none s.target s.globals s.functions
  | «module» (name : String) :
      Effect s none (Builder.beginModule s.target name) s.globals s.functions
  | global (name : String) (mutability : Mutability) (data : List UInt8) :
      Effect s none (Builder.addGlobal s.target name mutability data).2
        (s.globals.insert name (Builder.addGlobal s.target name mutability data).1) s.functions
  | function (name : String) (signature : Signature) :
      Effect s none (Builder.addFunction s.target name signature).2 s.globals
        (s.functions.insert name ⟨(Builder.addFunction s.target name signature).1, signature⟩)
  | localName (f : FunctionId) (name : String) :
      Effect s none (Builder.addLocal s.target f name).2 s.globals s.functions
  | block (f : FunctionId) (signature : Signature) :
      Effect s none (Builder.addBlock s.target f signature).2 s.globals s.functions
  | instruction {f : FunctionEntry} {k : BlockId} (current : s.function = some f)
      (inside : s.block = some k) (i : Instruction) :
      Effect s (some i) (Builder.emit s.target f.id k i) s.globals s.functions
  -- An instruction outside of blocks is dropped.
  | outside (nowhere : s.function = none ∨ s.block = none) (i : Instruction) :
      Effect s (some i) s.target s.globals s.functions

variable {s s' : Scope σ}

theorem Reports.effect {ds : List Diagnostic} (h : s.Reports ds s') :
    s.Effect none s'.target s'.globals s'.functions := by
  rw [h.same]
  exact .nothing

theorem effect_resolve {α : Type} (s : Scope σ) (table : NameTable α) (entity : Entity)
    (ident : Ident) :
    let s' := (s.resolve table entity ident).2
    s.Effect none s'.target s'.globals s'.functions := by
  obtain ⟨ds, reports⟩ := exists_reports_resolve s table entity ident
  exact reports.effect

theorem effect_mentionFunction (s : Scope σ) (ident : Ident) (signature : Signature) :
    let s' := (s.mentionFunction ident signature).2
    s.Effect none s'.target s'.globals s'.functions := by
  cases known : s.functions.lookup? ident.name with
  | some entry =>
    rw [mentionFunction_of_eq_some known]
    dsimp only
    split
    · exact .nothing
    · exact (Reports.report s _).effect
  | none =>
    rw [mentionFunction_of_eq_none known]
    exact .function ident.name signature

theorem effect_emit (s : Scope σ) (i : Instruction) :
    let s' := s.emit i
    s.Effect (some i) s'.target s'.globals s'.functions := by
  cases current : s.function with
  | none =>
    simp only [emit, current]
    exact .outside (.inl current) i
  | some f =>
    cases inside : s.block with
    | none =>
      simp only [emit, current, inside]
      exact .outside (.inr inside) i
    | some k =>
      rw [emit_of_current current inside]
      exact .instruction current inside i

/-- Every event has one of the effects. -/
theorem effect_handle (s : Scope σ) (event : Event) :
    let s' := (s.handle event).2
    s.Effect event.instruction? s'.target s'.globals s'.functions := by
  cases event with
  | beginModule name => exact .module name
  | declareGlobal ident mutability data =>
    simp only [handle, declareGlobal]
    split
    · exact (Reports.report s _).effect
    · exact .global ident.name mutability data
  | declareFunction ident signature => exact effect_mentionFunction s ident signature
  | referenceFunction ident signature =>
    cases signature with
    | some signature => exact effect_mentionFunction s ident signature
    | none => exact effect_resolve s s.functions .function ident
  | resolveGlobal ident => exact effect_resolve s s.globals .global ident
  | resolveLocal ident =>
    obtain ⟨ds, reports⟩ :=
      exists_reports_resolve (s.note (.localLookup ident.name)) s.locals .localName ident
    exact ((Reports.note s _).trans reports).effect
  | resolveOperation ident => exact effect_resolve s s.vocabulary.operations .operation ident
  | resolveType ident => exact effect_resolve s s.vocabulary.types .operandType ident
  | declareLocal ident =>
    simp only [handle, declareLocal]
    split
    · exact .nothing
    · split
      · exact (Reports.report s _).effect
      · exact .localName _ ident.name
  | declareBlock ident signature =>
    simp only [handle, declareBlock]
    split
    · exact .nothing
    · split
      · exact .nothing
      · exact .block _ signature
  | enterEntryBlock =>
    simp only [handle, enterEntryBlock]
    split
    · exact .nothing
    · exact .block _ _
  | emit instruction => exact effect_emit s instruction
  | reportUnknown entity ident => exact (Reports.report s _).effect
  | reportConflicting entity ident => exact (Reports.report s _).effect
  | reportDuplicate entity ident => exact (Reports.report s _).effect

end Effects

end Scope

end SigilAsm
