import SigilAsm.Proofs.Elaboration.Diagnostics
import SigilAsm.Proofs.Grammar.Relocation

/-! # Names of another place are taken in alike

A scope asks what a name is, never where it stands.  So the same statements with
their names elsewhere lead to the same tables and the same calls, and what is
reported differs in its place only.  The text itself is consulted for the log
alone, which shows lines and columns.
-/

namespace SigilAsm

def Diagnostic.relocate (f : Extent → Extent) (d : Diagnostic) : Diagnostic :=
  { d with extent := f d.extent }

namespace Scope

variable {σ : Type} {f : Extent → Extent} {s t : Scope σ}

/-- The second scope is the first, except that it says of other places what was reported.  Texts
and logs may be any. -/
structure Relocates (f : Extent → Extent) (s t : Scope σ) : Prop where
  same : t = { s with lines := t.lines, diagnostics := t.diagnostics, log := t.log }
  diagnostics : t.diagnostics.toList = s.diagnostics.toList.map (Diagnostic.relocate f)

namespace Relocates

theorem note (h : s.Relocates f t) (event event' : LogEvent) :
    (s.note event).Relocates f (t.note event') where
  same := by
    rw [h.same]
    rfl
  diagnostics := h.diagnostics

theorem report (h : s.Relocates f t) (d : Diagnostic) :
    (s.report d).Relocates f (t.report (d.relocate f)) where
  same := by
    rw [h.same]
    rfl
  diagnostics := by
    simp only [Scope.report, Array.toList_push, h.diagnostics, List.map_append, List.map_cons,
      List.map_nil]

theorem globals (h : s.Relocates f t) : t.globals = s.globals := by rw [h.same]

theorem functions (h : s.Relocates f t) : t.functions = s.functions := by rw [h.same]

theorem locals (h : s.Relocates f t) : t.locals = s.locals := by rw [h.same]

theorem blocks (h : s.Relocates f t) : t.blocks = s.blocks := by rw [h.same]

theorem function (h : s.Relocates f t) : t.function = s.function := by rw [h.same]

theorem block (h : s.Relocates f t) : t.block = s.block := by rw [h.same]

theorem target (h : s.Relocates f t) : t.target = s.target := by rw [h.same]

theorem vocabulary (h : s.Relocates f t) : t.vocabulary = s.vocabulary := by rw [h.same]

theorem outline (h : s.Relocates f t) : t.outline = s.outline := by
  rw [h.same]
  rfl

/-- What was reported is the same, apart from where it stands. -/
theorem problems (h : s.Relocates f t) :
    t.diagnostics.toList.map (·.problem) = s.diagnostics.toList.map (·.problem) := by
  rw [h.diagnostics, List.map_map]
  rfl

/-! ### Names that are looked up -/

theorem resolve (h : s.Relocates f t) {α : Type} (table : NameTable α) (entity : Entity)
    (ident : Ident) :
    (t.resolve table entity (ident.relocate f)).1 = (s.resolve table entity ident).1 ∧
      (s.resolve table entity ident).2.Relocates f
        (t.resolve table entity (ident.relocate f)).2 := by
  simp only [Scope.resolve, Ident.name_relocate]
  cases table.lookup? ident.name with
  | some found => exact ⟨rfl, h⟩
  | none => exact ⟨rfl, h.report _⟩

theorem resolveArgument (h : s.Relocates f t) (a : Argument) :
    (t.resolveArgument (a.relocate f)).1 = (s.resolveArgument a).1 ∧
      (s.resolveArgument a).2.Relocates f (t.resolveArgument (a.relocate f)).2 := by
  rcases a with ⟨sigil, ident⟩ | value
  · cases sigil with
    | inner =>
      obtain ⟨found, more⟩ := (h.note (.localLookup ident.name) (.localLookup ident.name)).resolve
        s.locals .localName ident
      simp only [Argument.relocate, Scope.resolveArgument, resolveLocal, h.locals]
      exact ⟨congrArg _ found, more⟩
    | global =>
      obtain ⟨found, more⟩ := h.resolve s.globals .global ident
      simp only [Argument.relocate, Scope.resolveArgument, resolveGlobal, h.globals]
      exact ⟨congrArg _ found, more⟩
    | builtin =>
      obtain ⟨found, more⟩ := h.resolve s.vocabulary.types .operandType ident
      simp only [Argument.relocate, Scope.resolveArgument, resolveType, h.vocabulary]
      exact ⟨congrArg _ found, more⟩
  · exact ⟨rfl, h⟩

theorem resolveArguments (h : s.Relocates f t) (arguments : List Argument) :
    (t.resolveArguments (arguments.map (·.relocate f))).1 = (s.resolveArguments arguments).1 ∧
      (s.resolveArguments arguments).2.Relocates f
        (t.resolveArguments (arguments.map (·.relocate f))).2 := by
  induction arguments generalizing s t with
  | nil => exact ⟨rfl, h⟩
  | cons a rest ih =>
    obtain ⟨first, looked⟩ := h.resolveArgument a
    obtain ⟨others, looked⟩ := ih looked
    refine ⟨?_, looked⟩
    simp only [List.map_cons, Scope.resolveArguments, first, others]

/-! ### Statements -/

variable [Builder σ]

theorem declareGlobal (h : s.Relocates f t) (ident : Ident) (mutability : Mutability)
    (data : List UInt8) : (s.declareGlobal ident mutability data).2.Relocates f
      (t.declareGlobal (ident.relocate f) mutability data).2 := by
  by_cases taken : s.globals.contains ident.name = true
  · have taken' : t.globals.contains (ident.relocate f).name = true := by rwa [h.globals]
    rw [declareGlobal_of_contains taken, declareGlobal_of_contains taken']
    exact h.report _
  · have fresh' : ¬ t.globals.contains (ident.relocate f).name = true := by rwa [h.globals]
    rw [declareGlobal_of_not_contains taken, declareGlobal_of_not_contains fresh']
    exact ⟨by rw [h.same]; rfl, h.diagnostics⟩

theorem mentionFunction (h : s.Relocates f t) (ident : Ident) (signature : Signature) :
    (t.mentionFunction (ident.relocate f) signature).1 = (s.mentionFunction ident signature).1 ∧
      (s.mentionFunction ident signature).2.Relocates f
        (t.mentionFunction (ident.relocate f) signature).2 := by
  have same : t.functions.lookup? (ident.relocate f).name = s.functions.lookup? ident.name := by
    rw [h.functions, Ident.name_relocate]
  cases known : s.functions.lookup? ident.name with
  | some entry =>
    rw [mentionFunction_of_eq_some known, mentionFunction_of_eq_some (same.trans known)]
    refine ⟨rfl, ?_⟩
    by_cases agree : entry.signature = signature
    · simp only [if_pos agree]
      exact h
    · simp only [if_neg agree]
      exact h.report _
  | none =>
    rw [mentionFunction_of_eq_none known, mentionFunction_of_eq_none (same.trans known)]
    exact ⟨by rw [h.target]; rfl, by rw [h.same]; rfl, h.diagnostics⟩

theorem declareFunction (h : s.Relocates f t) (ident : Ident) (signature : Signature) :
    (s.declareFunction ident signature).2.Relocates f
      (t.declareFunction (ident.relocate f) signature).2 := by
  obtain ⟨entry, mentioned⟩ := h.mentionFunction ident signature
  refine ⟨?_, mentioned.diagnostics⟩
  simp only [Scope.declareFunction, entry]
  rw [mentioned.same]
  rfl

theorem declareLocal (h : s.Relocates f t) (ident : Ident) :
    (s.declareLocal ident).2.Relocates f (t.declareLocal (ident.relocate f)).2 := by
  cases current : s.function with
  | none =>
    simp only [Scope.declareLocal, current, h.function]
    exact h
  | some function =>
    have current' := h.function.trans current
    by_cases taken : s.locals.contains ident.name = true
    · have taken' : t.locals.contains (ident.relocate f).name = true := by rwa [h.locals]
      rw [declareLocal_of_contains current taken, declareLocal_of_contains current' taken']
      exact h.report _
    · have fresh' : ¬ t.locals.contains (ident.relocate f).name = true := by rwa [h.locals]
      rw [declareLocal_of_not_contains current taken, declareLocal_of_not_contains current' fresh']
      exact ⟨by rw [h.same]; rfl, h.diagnostics⟩

theorem declareBlock (h : s.Relocates f t) (ident : Ident) (signature : Signature) :
    (s.declareBlock ident signature).2.Relocates f
      (t.declareBlock (ident.relocate f) signature).2 := by
  cases current : s.function with
  | none =>
    simp only [Scope.declareBlock, current, h.function]
    exact h
  | some function =>
    have current' := h.function.trans current
    have same : t.blocks.lookup? (ident.relocate f).name = s.blocks.lookup? ident.name := by
      rw [h.blocks, Ident.name_relocate]
    cases known : s.blocks.lookup? ident.name with
    | some entry =>
      rw [declareBlock_of_eq_some current known,
        declareBlock_of_eq_some current' (same.trans known)]
      have reported := h.report ⟨.duplicate .block ident.name, ident.extent⟩
      exact ⟨by rw [h.same]; rfl, reported.diagnostics⟩
    | none =>
      rw [declareBlock_of_eq_none current known,
        declareBlock_of_eq_none current' (same.trans known)]
      exact ⟨by rw [h.same]; rfl, h.diagnostics⟩

theorem enterEntryBlock (h : s.Relocates f t) :
    s.enterEntryBlock.2.Relocates f t.enterEntryBlock.2 := by
  cases current : s.function with
  | none =>
    simp only [Scope.enterEntryBlock, current, h.function]
    exact h
  | some function =>
    rw [enterEntryBlock_of_current current, enterEntryBlock_of_current (h.function.trans current)]
    exact ⟨by rw [h.same], h.diagnostics⟩

theorem emit (h : s.Relocates f t) (i : Instruction) : (s.emit i).Relocates f (t.emit i) := by
  cases current : s.function with
  | none =>
    simp only [Scope.emit, current, h.function]
    exact h
  | some function =>
    cases inside : s.block with
    | none =>
      simp only [Scope.emit, current, inside, h.function, h.block]
      exact h
    | some block =>
      rw [emit_of_current current inside,
        emit_of_current (h.function.trans current) (h.block.trans inside)]
      exact ⟨by rw [h.same], h.diagnostics⟩

theorem call (h : s.Relocates f t) (target : Ident) (signature : Option Signature) :
    (s.step (.call target signature)).Relocates f
      (t.step (.call (target.relocate f) signature)) := by
  cases signature with
  | some signature =>
    obtain ⟨entry, mentioned⟩ := h.mentionFunction target signature
    simp only [Scope.step, referenceFunction, entry]
    exact mentioned.emit _
  | none =>
    obtain ⟨entry, looked⟩ := h.resolve s.functions .function target
    simp only [Scope.step, referenceFunction, h.functions, entry]
    cases (s.resolve s.functions .function target).1 with
    | some entry => exact looked.emit _
    | none => exact looked

theorem operation (h : s.Relocates f t) (head : Ident) (arguments : List Argument)
    (closed : Bool) :
    (s.step (.operation head arguments closed)).Relocates f
      (t.step (.operation (head.relocate f) (arguments.map (·.relocate f)) closed)) := by
  obtain ⟨named, looked⟩ := h.resolve s.vocabulary.operations .operation head
  obtain ⟨others, looked⟩ := looked.resolveArguments arguments
  simp only [Scope.step, resolveOperation, h.vocabulary, named, others]
  split
  · exact looked.emit _
  · exact looked

theorem step (h : s.Relocates f t) (statement : Statement) :
    (s.step statement).Relocates f (t.step (statement.relocate f)) := by
  cases statement with
  | «module» name => exact ⟨by rw [h.same]; rfl, h.diagnostics⟩
  | global ident mutability data => exact h.declareGlobal ident mutability data
  | function ident signature => exact h.declareFunction ident signature
  | localName ident => exact h.declareLocal ident
  | block ident signature => exact h.declareBlock ident signature
  | entryBlock => exact h.enterEntryBlock
  | call target signature => exact h.call target signature
  | operation head arguments closed => exact h.operation head arguments closed

theorem run (h : s.Relocates f t) (statements : List Statement) :
    (s.run statements).Relocates f (t.run (statements.map (·.relocate f))) := by
  induction statements generalizing s t with
  | nil => exact h
  | cons statement rest ih => exact ih (h.step statement)

end Relocates

/-- Nothing has been reported yet, so the texts may be any. -/
theorem start_relocates (f : Extent → Extent) (lines lines' : LineMap) (vocabulary : Vocabulary)
    (target : σ) : (start lines vocabulary target).Relocates f (start lines' vocabulary target) :=
  ⟨rfl, rfl⟩

end Scope

end SigilAsm
