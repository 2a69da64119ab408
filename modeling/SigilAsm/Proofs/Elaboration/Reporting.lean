import SigilAsm.Scope.Elaboration

/-! # Reports are counted

A report is counted, logged and kept.  Whatever is taken in, these three say the
same: as many diagnostics were counted as are kept, and the log tells of those
that are kept, in the same order.
-/

namespace SigilAsm

/-- The diagnostic that an event of the log tells of. -/
def LogEvent.diagnostic? : LogEvent → Option Diagnostic
  | reported d _ => some d
  | _ => none

namespace Scope

variable {σ : Type} {s : Scope σ}

/-- What was counted and what was logged agree with the diagnostics that are kept. -/
structure Counted (s : Scope σ) : Prop where
  errorCount : s.errorCount = s.diagnostics.size
  log : s.log.toList.filterMap LogEvent.diagnostic? = s.diagnostics.toList

namespace Counted

theorem note (h : s.Counted) (event : LogEvent) (quiet : event.diagnostic? = none) :
    (s.note event).Counted where
  errorCount := h.errorCount
  log := by
    rw [Scope.note, Array.toList_push, List.filterMap_append, h.log]
    simp [quiet]

theorem report (h : s.Counted) (d : Diagnostic) : (s.report d).Counted where
  errorCount := by simp only [Scope.report, Array.size_push, h.errorCount]
  log := by
    simp only [Scope.report, Scope.note, Array.toList_push, List.filterMap_append, h.log]
    rfl

/-! ### Names that are looked up -/

theorem resolve (h : s.Counted) {α : Type} (table : NameTable α) (entity : Entity)
    (ident : Ident) : (s.resolve table entity ident).2.Counted := by
  unfold Scope.resolve
  split
  · exact h
  · exact h.report _

theorem resolveArgument (h : s.Counted) (a : Argument) : (s.resolveArgument a).2.Counted := by
  rcases a with ⟨sigil, ident⟩ | value
  · cases sigil with
    | inner => exact (h.note (.localLookup ident.name) rfl).resolve s.locals .localName ident
    | global => exact h.resolve s.globals .global ident
    | builtin => exact h.resolve s.vocabulary.types .operandType ident
  · exact h

theorem resolveArguments (h : s.Counted) (arguments : List Argument) :
    (s.resolveArguments arguments).2.Counted := by
  induction arguments generalizing s with
  | nil => exact h
  | cons a rest ih => exact ih (h.resolveArgument a)

/-! ### Declarations -/

variable [Builder σ]

theorem beginModule (h : s.Counted) (name : String) : (s.beginModule name).Counted :=
  { h.note (.moduleCreated name) rfl with }

theorem declareGlobal (h : s.Counted) (ident : Ident) (mutability : Mutability)
    (data : List UInt8) : (s.declareGlobal ident mutability data).2.Counted := by
  by_cases taken : s.globals.contains ident.name = true
  · rw [declareGlobal_of_contains taken]
    exact h.report _
  · rw [declareGlobal_of_not_contains taken]
    exact { h.note (.globalRegistered ident.name mutability data.length) rfl with }

theorem mentionFunction (h : s.Counted) (ident : Ident) (signature : Signature) :
    (s.mentionFunction ident signature).2.Counted := by
  cases known : s.functions.lookup? ident.name with
  | some entry =>
    rw [mentionFunction_of_eq_some known]
    dsimp only
    split
    · exact h
    · exact h.report _
  | none =>
    rw [mentionFunction_of_eq_none known]
    exact { h.note (.functionRegistered ident.name signature) rfl with }

theorem declareFunction (h : s.Counted) (ident : Ident) (signature : Signature) :
    (s.declareFunction ident signature).2.Counted :=
  { (h.mentionFunction ident signature).note (.scopeReset ident.name) rfl with }

theorem referenceFunction (h : s.Counted) (ident : Ident) (signature : Option Signature) :
    (s.referenceFunction ident signature).2.Counted := by
  cases signature with
  | some signature => exact h.mentionFunction ident signature
  | none => exact h.resolve s.functions .function ident

theorem declareLocal (h : s.Counted) (ident : Ident) : (s.declareLocal ident).2.Counted := by
  cases current : s.function with
  | none => simpa only [Scope.declareLocal, current] using h
  | some function =>
    by_cases taken : s.locals.contains ident.name = true
    · rw [declareLocal_of_contains current taken]
      exact h.report _
    · rw [declareLocal_of_not_contains current taken]
      exact { h.note (.localRegistered ident.name) rfl with }

theorem declareBlock (h : s.Counted) (ident : Ident) (signature : Signature) :
    (s.declareBlock ident signature).2.Counted := by
  cases current : s.function with
  | none => simpa only [Scope.declareBlock, current] using h
  | some function =>
    cases known : s.blocks.lookup? ident.name with
    | some entry =>
      rw [declareBlock_of_eq_some current known]
      exact { h.report ⟨.duplicate .block ident.name, ident.extent⟩ with }
    | none =>
      rw [declareBlock_of_eq_none current known]
      exact { h.note (.blockRegistered ident.name signature) rfl with }

theorem enterEntryBlock (h : s.Counted) : s.enterEntryBlock.2.Counted := by
  unfold Scope.enterEntryBlock
  split
  · exact h
  · exact { h with }

theorem emit (h : s.Counted) (i : Instruction) : (s.emit i).Counted := by
  unfold Scope.emit
  split
  · exact { h with }
  · exact h

/-! ### Statements -/

theorem call (h : s.Counted) (target : Ident) (signature : Option Signature) :
    (s.step (.call target signature)).Counted := by
  have mentioned := h.referenceFunction target signature
  simp only [Scope.step]
  split
  next id after found =>
    rw [found] at mentioned
    exact mentioned.emit _
  next after found =>
    rw [found] at mentioned
    exact mentioned

theorem operation (h : s.Counted) (head : Ident) (arguments : List Argument) (closed : Bool) :
    (s.step (.operation head arguments closed)).Counted := by
  have looked : (s.resolveOperation head).2.Counted :=
    h.resolve s.vocabulary.operations .operation head
  have mentioned := looked.resolveArguments arguments
  simp only [Scope.step]
  split
  · exact mentioned.emit _
  · exact mentioned

theorem step (h : s.Counted) (statement : Statement) : (s.step statement).Counted := by
  cases statement with
  | «module» name => exact h.beginModule name
  | global ident mutability data => exact h.declareGlobal ident mutability data
  | function ident signature => exact h.declareFunction ident signature
  | localName ident => exact h.declareLocal ident
  | block ident signature => exact h.declareBlock ident signature
  | entryBlock => exact h.enterEntryBlock
  | call target signature => exact h.call target signature
  | operation head arguments closed => exact h.operation head arguments closed

theorem run (h : s.Counted) (statements : List Statement) : (s.run statements).Counted := by
  induction statements generalizing s with
  | nil => exact h
  | cons statement rest ih => exact ih (h.step statement)

end Counted

theorem start_counted (lines : LineMap) (vocabulary : Vocabulary) (target : σ) :
    (start lines vocabulary target).Counted :=
  ⟨rfl, rfl⟩

end Scope

variable {σ : Type} [Builder σ]

/-- Also of a text that is refused, what was reported before the fault was counted and logged. -/
theorem counted_elaborate (settings : Settings) (target : σ) (source : String) :
    (elaborate settings target source).2.Counted := by
  have taken := (Scope.start_counted (.ofString source) settings.vocabulary target).run
    (Statement.read settings.maxDataBytes source).items
  unfold elaborate
  dsimp only
  split
  · exact taken
  · exact taken.note _ rfl

end SigilAsm
