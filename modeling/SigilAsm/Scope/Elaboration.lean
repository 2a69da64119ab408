import SigilAsm.Scope.Basic
import SigilAsm.Statement.Grammar

/-! # Elaboration

The statements of a source text are taken in one after the other by a scope.
`elaborate` reads a text and takes in what was read; a text that is refused has
still been taken in up to the fault.
-/

namespace SigilAsm

/-- What the reading of a source depends on besides its text. -/
structure Settings where
  -- The most bytes that a data expression may have.
  maxDataBytes : Nat
  vocabulary : Vocabulary

/-- Sixteen mebibytes for each data expression, and the standard vocabulary. -/
def Settings.standard : Settings := ⟨16 * 1024 * 1024, .standard⟩

namespace Scope

variable {σ : Type}

def resolveArgument (s : Scope σ) : Argument → Option Operand × Scope σ
  | .number value => (some (.immediate value), s)
  | .name .inner ident => let (id, s) := s.resolveLocal ident; (id.map .ofLocal, s)
  | .name .global ident => let (id, s) := s.resolveGlobal ident; (id.map .ofGlobal, s)
  | .name .builtin ident => let (id, s) := s.resolveType ident; (id.map .ofType, s)

/-- What the arguments stand for, if all their names are known.  Every unknown one is reported. -/
def resolveArguments (s : Scope σ) : List Argument → Option (List Operand) × Scope σ
  | [] => (some [], s)
  | argument :: rest =>
    let (first, s) := s.resolveArgument argument
    let (more, s) := s.resolveArguments rest
    (first.bind fun operand => more.map (operand :: ·), s)

variable [Builder σ]

def step (s : Scope σ) : Statement → Scope σ
  | .module name => s.beginModule name
  | .global ident mutability data => (s.declareGlobal ident mutability data).2
  | .function ident signature => (s.declareFunction ident signature).2
  | .localName ident => (s.declareLocal ident).2
  | .block ident signature => (s.declareBlock ident signature).2
  | .entryBlock => s.enterEntryBlock.2
  | .call target signature =>
    match s.referenceFunction target signature with
    | (some id, s) => s.emit (.call id)
    | (none, s) => s
  | .operation head arguments closed =>
    let (id, s) := s.resolveOperation head
    let (operands, s) := s.resolveArguments arguments
    match closed, id, operands with
    | true, some id, some operands => s.emit (.operation id operands)
    | _, _, _ => s

def run (s : Scope σ) (statements : List Statement) : Scope σ := statements.foldl step s

end Scope

/-- Reads a source text and registers what it declares with a builder.  The scope that comes with
the answer holds the builder, the diagnostics and the log. -/
def elaborate {σ : Type} [Builder σ] (settings : Settings) (target : σ) (source : String) :
    Except SyntaxError Outline × Scope σ :=
  let reading := Statement.read settings.maxDataBytes source
  let s := (Scope.start (.ofString source) settings.vocabulary target).run reading.items
  match reading.result with
  | .error e => (.error e, s)
  | .ok _ =>
    let outline := s.outline
    (.ok outline, s.note (.readingFinished outline.name outline.errorCount))

end SigilAsm
