import SigilAsm.Program.Listing
import SigilAsm.Scope.Elaboration
import SigilAsm.Wasm.Lowering

/-! # Assembling

A source text is assembled into a program and an outline of it.  Diagnostics do
not prevent this, but no output is made from an assembly that has any.
-/

namespace SigilAsm

/-- A source text that follows the grammar, taken in. -/
structure Assembly where
  program : Program
  outline : Outline
  -- What was reported, in source order, unless it was handed to somebody else.
  diagnostics : List Diagnostic

/-- What comes of assembling a source, whether it is accepted or not. -/
structure Attempt where
  outcome : Except SyntaxError Assembly
  diagnostics : List Diagnostic
  log : List LogEvent

/-- Assembles a source.  The diagnostics are handed out on their own, so that those before a fault
of form are not lost. -/
def attempt (settings : Settings) (source : String) : Attempt :=
  match elaborate settings Program.empty source with
  | (.error e, s) => ⟨.error e, s.diagnostics.toList, s.log.toList⟩
  | (.ok outline, s) =>
    let program := s.target
    let finished := LogEvent.moduleAssembled outline.name program.globals.size
      program.functions.size outline.errorCount
    ⟨.ok ⟨program, outline, []⟩, s.diagnostics.toList, (s.note finished).log.toList⟩

/-- Assembles a source and hands its diagnostics out beside the assembly, which is given none. -/
def assembleReporting (settings : Settings) (source : String) :
    Except Failure Assembly × List Diagnostic :=
  let a := attempt settings source
  (a.outcome.mapError .ofSyntaxError, a.diagnostics)

/-- Assembles a source and leaves its diagnostics with the assembly. -/
def assemble (settings : Settings) (source : String) : Except Failure Assembly :=
  let (outcome, diagnostics) := assembleReporting settings source
  outcome.map fun assembly => { assembly with diagnostics }

inductive OutputFormat where
  -- The listing of the program.
  | listing
  -- A WebAssembly module in binary form.
  | wasm
  -- Nothing; the diagnostics are all that is wanted.
  | check
  deriving DecidableEq, Repr

def OutputFormat.ofName (name : String) : Except Failure OutputFormat :=
  match name with
  | "summary" => .ok listing
  | "wasm" => .ok wasm
  | "check" => .ok check
  | _ => .error (.unknownFormat name)

namespace Assembly

def hasErrors (a : Assembly) : Bool := a.outline.hasErrors

/-- The assembly itself, if nothing was reported about it. -/
def checked (a : Assembly) : Except Failure Assembly :=
  match a.outline.errorCount with
  | 0 => .ok a
  | errors => .error (.faulty errors)

/-- The bytes of the output, if nothing was reported. -/
def emit (a : Assembly) (format : OutputFormat) (vocabulary : Vocabulary) :
    Except Failure (List UInt8) :=
  if a.hasErrors then .error (.faulty a.outline.errorCount)
  else
    match format with
    | .listing => .ok (Utf8.encode (a.program.listing vocabulary).toList)
    | .wasm => a.program.lower.map (·.encode)
    | .check => .ok []

end Assembly

end SigilAsm
