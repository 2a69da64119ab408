import SigilAsm.Report.LogEvent
import SigilAsm.Scope.Builder
import SigilAsm.Statement.Basic

/-! # Scopes

A scope knows what the names in a module stand for while its statements are
taken in one after the other.  It registers with a builder what is declared,
looks up what is used, and reports names that are unknown or declared twice.

Globals and functions are known from their first mention to the end of the
module.  Locals and blocks are known within one function body only; a function
header opens an empty body scope.  In every table the first entry of a name
stays.
-/

namespace SigilAsm

/-- A function that was mentioned, with the signature of its first mention. -/
structure FunctionEntry where
  id : FunctionId
  signature : Signature
  deriving DecidableEq, Repr

structure BlockEntry where
  id : BlockId
  signature : Signature
  deriving DecidableEq, Repr

structure Outline where
  name : String
  globals : NameTable GlobalId
  functions : NameTable FunctionEntry
  -- How many diagnostics were reported.
  errorCount : Nat

def Outline.hasErrors (o : Outline) : Bool := o.errorCount != 0

structure Scope (σ : Type) where
  lines : LineMap
  vocabulary : Vocabulary
  target : σ
  moduleName : Option String
  globals : NameTable GlobalId
  functions : NameTable FunctionEntry
  locals : NameTable LocalId
  blocks : NameTable BlockEntry
  -- The function whose header came last.
  function : Option FunctionEntry
  -- The block that receives instructions.
  block : Option BlockId
  -- How many diagnostics were reported, whatever became of them.
  errorCount : Nat
  diagnostics : Array Diagnostic
  log : Array LogEvent

namespace Scope

/-- The name of the block that a body without labelled blocks consists of.  No label is read with
this name unless it is quoted. -/
def entryBlockName : String := "@entry"

variable {σ : Type}

def start (lines : LineMap) (vocabulary : Vocabulary) (target : σ) : Scope σ where
  lines
  vocabulary
  target
  moduleName := none
  globals := .empty
  functions := .empty
  locals := .empty
  blocks := .empty
  function := none
  block := none
  errorCount := 0
  diagnostics := #[]
  log := #[]

def note (s : Scope σ) (event : LogEvent) : Scope σ := { s with log := s.log.push event }

/-! ## Reports -/

def report (s : Scope σ) (d : Diagnostic) : Scope σ :=
  { s.note (.reported d (s.lines.position d.extent.start)) with
    errorCount := s.errorCount + 1
    diagnostics := s.diagnostics.push d }

def reportUnknown (s : Scope σ) (entity : Entity) (ident : Ident) : Scope σ :=
  s.report ⟨.unknown entity ident.name, ident.extent⟩

def reportConflicting (s : Scope σ) (entity : Entity) (ident : Ident) : Scope σ :=
  s.report ⟨.conflicting entity ident.name, ident.extent⟩

def reportDuplicate (s : Scope σ) (entity : Entity) (ident : Ident) : Scope σ :=
  s.report ⟨.duplicate entity ident.name, ident.extent⟩

/-! ## Looking names up -/

/-- What a table says of a name that is used; an unknown name is reported. -/
def resolve {α : Type} (s : Scope σ) (table : NameTable α) (entity : Entity) (ident : Ident) :
    Option α × Scope σ :=
  match table.lookup? ident.name with
  | some found => (some found, s)
  | none => (none, s.reportUnknown entity ident)

def resolveGlobal (s : Scope σ) (ident : Ident) : Option GlobalId × Scope σ :=
  s.resolve s.globals .global ident

def resolveLocal (s : Scope σ) (ident : Ident) : Option LocalId × Scope σ :=
  (s.note (.localLookup ident.name)).resolve s.locals .localName ident

def resolveOperation (s : Scope σ) (ident : Ident) : Option OperationId × Scope σ :=
  s.resolve s.vocabulary.operations .operation ident

def resolveType (s : Scope σ) (ident : Ident) : Option TypeId × Scope σ :=
  s.resolve s.vocabulary.types .operandType ident

def outline (s : Scope σ) : Outline where
  name := s.moduleName.getD ""
  globals := s.globals
  functions := s.functions
  errorCount := s.errorCount

/-! ## Declaring names -/

variable [Builder σ]

def beginModule (s : Scope σ) (name : String) : Scope σ :=
  { s.note (.moduleCreated name) with
    moduleName := some name
    target := Builder.beginModule s.target name }

def declareGlobal (s : Scope σ) (ident : Ident) (mutability : Mutability) (data : List UInt8) :
    Option GlobalId × Scope σ :=
  if s.globals.contains ident.name then (none, s.reportDuplicate .global ident)
  else
    let (id, target) := Builder.addGlobal s.target ident.name mutability data
    (some id, { s.note (.globalRegistered ident.name mutability data.length) with
      target
      globals := s.globals.insert ident.name id })

/-- The entry of a function that is mentioned with a signature.  The first mention registers it;
any later one with another signature is reported and changes nothing. -/
def mentionFunction (s : Scope σ) (ident : Ident) (signature : Signature) :
    FunctionEntry × Scope σ :=
  match s.functions.lookup? ident.name with
  | some entry =>
    (entry, if entry.signature = signature then s else s.reportConflicting .function ident)
  | none =>
    let (id, target) := Builder.addFunction s.target ident.name signature
    let entry : FunctionEntry := ⟨id, signature⟩
    (entry, { s.note (.functionRegistered ident.name signature) with
      target
      functions := s.functions.insert ident.name entry })

/-- Takes in a function header and opens an empty body scope. -/
def declareFunction (s : Scope σ) (ident : Ident) (signature : Signature) :
    FunctionEntry × Scope σ :=
  let (entry, s) := s.mentionFunction ident signature
  (entry, { s.note (.scopeReset ident.name) with
    function := some entry
    block := none
    locals := .empty
    blocks := .empty })

/-- The function that is called.  A call that states a signature mentions the function, so it may
come before the header. -/
def referenceFunction (s : Scope σ) (ident : Ident) (signature : Option Signature) :
    Option FunctionId × Scope σ :=
  match signature with
  | some signature =>
    let (entry, s) := s.mentionFunction ident signature
    (some entry.id, s)
  | none =>
    let (entry, s) := s.resolve s.functions .function ident
    (entry.map (·.id), s)

def declareLocal (s : Scope σ) (ident : Ident) : Option LocalId × Scope σ :=
  match s.function with
  | none => (none, s)
  | some function =>
    if s.locals.contains ident.name then (none, s.reportDuplicate .localName ident)
    else
      let (id, target) := Builder.addLocal s.target function.id ident.name
      (some id, { s.note (.localRegistered ident.name) with
        target
        locals := s.locals.insert ident.name id })

/-- Opens a labelled block of the current function.  A label that is taken is reported, and its
block receives the instructions that follow. -/
def declareBlock (s : Scope σ) (ident : Ident) (signature : Signature) :
    Option BlockId × Scope σ :=
  match s.function with
  | none => (none, s)
  | some function =>
    match s.blocks.lookup? ident.name with
    | some entry => (some entry.id, { s.reportDuplicate .block ident with block := some entry.id })
    | none =>
      let (id, target) := Builder.addBlock s.target function.id signature
      (some id, { s.note (.blockRegistered ident.name signature) with
        target
        blocks := s.blocks.insert ident.name ⟨id, signature⟩
        block := some id })

/-- Opens the block of a body without labelled blocks.  It has the signature of its function. -/
def enterEntryBlock (s : Scope σ) : Option BlockId × Scope σ :=
  match s.function with
  | none => (none, s)
  | some function =>
    let (id, target) := Builder.addBlock s.target function.id function.signature
    (some id, { s with
      target
      blocks := s.blocks.insert entryBlockName ⟨id, function.signature⟩
      block := some id })

def emit (s : Scope σ) (instruction : Instruction) : Scope σ :=
  match s.function, s.block with
  | some function, some block =>
    { s with target := Builder.emit s.target function.id block instruction }
  | _, _ => s

/-! ### What a declaration comes to

A name that is taken is reported; any other is handed to the builder and bound to its answer. -/

variable {s : Scope σ} {ident : Ident} {function : FunctionEntry}

theorem declareGlobal_of_contains (taken : s.globals.contains ident.name = true)
    (mutability : Mutability) (data : List UInt8) :
    s.declareGlobal ident mutability data = (none, s.reportDuplicate .global ident) :=
  if_pos taken

theorem declareGlobal_of_not_contains (fresh : ¬ s.globals.contains ident.name = true)
    (mutability : Mutability) (data : List UInt8) :
    s.declareGlobal ident mutability data =
      (some (Builder.addGlobal s.target ident.name mutability data).1,
        { s.note (.globalRegistered ident.name mutability data.length) with
          target := (Builder.addGlobal s.target ident.name mutability data).2
          globals := s.globals.insert ident.name
            (Builder.addGlobal s.target ident.name mutability data).1 }) :=
  if_neg fresh

theorem mentionFunction_of_eq_some {entry : FunctionEntry}
    (found : s.functions.lookup? ident.name = some entry) (signature : Signature) :
    s.mentionFunction ident signature =
      (entry, if entry.signature = signature then s else s.reportConflicting .function ident) := by
  rw [mentionFunction, found]

theorem mentionFunction_of_eq_none (absent : s.functions.lookup? ident.name = none)
    (signature : Signature) :
    s.mentionFunction ident signature =
      (⟨(Builder.addFunction s.target ident.name signature).1, signature⟩,
        { s.note (.functionRegistered ident.name signature) with
          target := (Builder.addFunction s.target ident.name signature).2
          functions := s.functions.insert ident.name
            ⟨(Builder.addFunction s.target ident.name signature).1, signature⟩ }) := by
  rw [mentionFunction, absent]

theorem declareLocal_of_contains (current : s.function = some function)
    (taken : s.locals.contains ident.name = true) :
    s.declareLocal ident = (none, s.reportDuplicate .localName ident) := by
  rw [declareLocal, current]
  exact if_pos taken

theorem declareLocal_of_not_contains (current : s.function = some function)
    (fresh : ¬ s.locals.contains ident.name = true) :
    s.declareLocal ident =
      (some (Builder.addLocal s.target function.id ident.name).1,
        { s.note (.localRegistered ident.name) with
          target := (Builder.addLocal s.target function.id ident.name).2
          locals := s.locals.insert ident.name
            (Builder.addLocal s.target function.id ident.name).1 }) := by
  rw [declareLocal, current]
  exact if_neg fresh

theorem declareBlock_of_eq_some (current : s.function = some function) {entry : BlockEntry}
    (found : s.blocks.lookup? ident.name = some entry) (signature : Signature) :
    s.declareBlock ident signature =
      (some entry.id, { s.reportDuplicate .block ident with block := some entry.id }) := by
  simp only [declareBlock, current, found]

theorem declareBlock_of_eq_none (current : s.function = some function)
    (absent : s.blocks.lookup? ident.name = none) (signature : Signature) :
    s.declareBlock ident signature =
      (some (Builder.addBlock s.target function.id signature).1,
        { s.note (.blockRegistered ident.name signature) with
          target := (Builder.addBlock s.target function.id signature).2
          blocks := s.blocks.insert ident.name
            ⟨(Builder.addBlock s.target function.id signature).1, signature⟩
          block := some (Builder.addBlock s.target function.id signature).1 }) := by
  simp only [declareBlock, current, absent]

theorem enterEntryBlock_of_current (current : s.function = some function) :
    s.enterEntryBlock =
      (some (Builder.addBlock s.target function.id function.signature).1,
        { s with
          target := (Builder.addBlock s.target function.id function.signature).2
          blocks := s.blocks.insert entryBlockName
            ⟨(Builder.addBlock s.target function.id function.signature).1, function.signature⟩
          block := some (Builder.addBlock s.target function.id function.signature).1 }) := by
  simp only [enterEntryBlock, current]

theorem emit_of_current {block : BlockId} (current : s.function = some function)
    (inside : s.block = some block) (instruction : Instruction) :
    s.emit instruction =
      { s with target := Builder.emit s.target function.id block instruction } := by
  simp only [emit, current, inside]

end Scope

end SigilAsm
