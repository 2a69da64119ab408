import SigilAsm.Assembly.Basic
import SigilAsm.FileTree.Collection
import SigilAsm.Report.Excerpt

/-! # Plans

A call of the program is answered by a plan: what to print and to write, in
order, and the reason why the call ends in failure, if it does.  The plan
follows from the options and from what was found where they point; carrying it
out takes no further decisions, except that a write that fails ends the call.
-/

namespace SigilAsm

/-- The reason why a call of the program fails, and what caused it. -/
structure Abort where
  reason : String
  cause : Option String
  deriving DecidableEq, Repr

namespace Abort

/-- As printed last on the error output. -/
def render (a : Abort) : String :=
  "Error: " ++ a.reason ++ "\n"
    ++ (a.cause.map fun cause => "\nCaused by:\n    " ++ cause ++ "\n").getD ""

/-- A failure that ends the call.  A fault of a file is shown once more as its cause. -/
def ofFailure (f : Failure) : Abort :=
  match f with
  | .unreadable fault => ⟨f.message, some fault.message⟩
  | _ => ⟨f.message, none⟩

end Abort

inductive Action where
  | print (bytes : List UInt8)
  | warn (text : String)
  | write (path : String) (bytes : List UInt8)
  deriving DecidableEq, Repr

/-- Things to do in order, and how the call ends after them. -/
structure Plan where
  actions : List Action
  abort : Option Abort
  deriving DecidableEq, Repr

structure Options where
  -- A source file or a directory of sources; standard input if there is none.
  input : Option String
  -- Where output goes; standard output if there is none.
  output : Option String
  format : String
  maxDataBytes : Nat
  deriving DecidableEq, Repr

def Options.standard : Options := ⟨none, none, "summary", Settings.standard.maxDataBytes⟩

structure Input where
  -- The path that diagnostics show.
  display : String
  -- The names that lead to it from the directory that was asked for.
  location : Option Location
  source : String
  deriving DecidableEq, Repr

namespace Options

def standardInput (contents : List UInt8) : Except Abort (List Input) :=
  match textOf contents with
  | .ok text => .ok [⟨"<stdin>", none, text⟩]
  | .error fault => .error ⟨fault.message, none⟩

def inputsAt (path : String) (found : Found) : Except Abort (List Input) :=
  match found with
  | .directory _ =>
    match found.sources path with
    | .error f => .error (.ofFailure f)
    | .ok [] => .error ⟨"no ." ++ sourceExtension ++ " sources found under " ++ path, none⟩
    | .ok sources =>
      .ok (sources.map fun s => ⟨Path.join path (Path.ofNames s.location), some s.location, s.text⟩)
  | _ =>
    match found.text with
    | .ok text => .ok [⟨path, none, text⟩]
    | .error fault => .error ⟨"failed to read input file " ++ path, some fault.message⟩

/-- The format of the output; a format that is not text needs a place to go. -/
def outputFormat (o : Options) : Except Abort OutputFormat :=
  match OutputFormat.ofName o.format with
  | .error f => .error (.ofFailure f)
  | .ok format =>
    if format = .wasm ∧ o.output = none then
      .error ⟨"--output is required when emitting wasm", none⟩
    else .ok format

def settings (o : Options) : Settings := ⟨o.maxDataBytes, Settings.standard.vocabulary⟩

end Options

def OutputFormat.extension : OutputFormat → String
  | wasm => "wasm"
  | _ => "txt"

/-- Where the output of a source goes.  The sources of a directory keep their places below the
output path. -/
def outputPath (output : Option String) (location : Option Location) (format : OutputFormat) :
    Option String :=
  match output, location with
  | none, _ => none
  | some output, none => some output
  | some output, some location =>
    let name := Path.replaceExtension (location.getLast?.getD "") format.extension
    some (Path.join output (Path.ofNames (location.dropLast ++ [name])))

structure SourcePlan where
  actions : List Action
  -- How many diagnostics are shown; none if the source is accepted.
  errors : Nat
  abort : Option Abort
  deriving DecidableEq, Repr

/-- Assembles one source.  Its diagnostics are shown, the fault of form last, and without any its
output goes where it belongs. -/
def Input.plan (input : Input) (o : Options) (format : OutputFormat) : SourcePlan :=
  let a := attempt o.settings input.source
  let lines := LineMap.ofString input.source
  let warnings (ds : List Diagnostic) : List Action :=
    ds.map fun d => .warn (d.excerpt input.display lines)
  match a.outcome with
  | .error e =>
    let shown := a.diagnostics ++ [e.toDiagnostic]
    ⟨warnings shown, shown.length, none⟩
  | .ok assembly =>
    if assembly.hasErrors then ⟨warnings a.diagnostics, a.diagnostics.length, none⟩
    else
      match assembly.emit format o.settings.vocabulary with
      | .error f => ⟨[], 0, some ⟨"failed to emit " ++ input.display, some f.message⟩⟩
      | .ok bytes =>
        match format, outputPath o.output input.location format with
        | .check, _ => ⟨[], 0, none⟩
        | _, some path => ⟨[.write path bytes], 0, none⟩
        | _, none => ⟨[.print bytes], 0, none⟩

/-- How a call ends that found the given numbers of errors and of sources with errors. -/
def verdict (errors failed sources : Nat) : Option Abort :=
  if failed = 0 then none
  else
    some ⟨"assembly failed with " ++ toString errors ++ " error(s) in " ++ toString failed ++ " of "
      ++ toString sources ++ " module(s)", none⟩

/-- Puts the parts of the sources together, where `errors` and `failed` were counted before.  Only a
part that aborts keeps the later ones from being carried out. -/
def Plan.join (sources errors failed : Nat) : List SourcePlan → Plan
  | [] => ⟨[], verdict errors failed sources⟩
  | part :: parts =>
    match part.abort with
    | some abort => ⟨part.actions, some abort⟩
    | none =>
      let failed := if part.errors = 0 then failed else failed + 1
      let rest := Plan.join sources (errors + part.errors) failed parts
      ⟨part.actions ++ rest.actions, rest.abort⟩

/-- The plan of a call.  `stdin` is standard input and `find` tells what stands where a path leads;
neither is asked unless the options are in order. -/
def Options.plan (o : Options) (stdin : List UInt8) (find : String → Found) : Plan :=
  match o.outputFormat with
  | .error abort => ⟨[], some abort⟩
  | .ok format =>
    let inputs := match o.input with
      | none => Options.standardInput stdin
      | some path => Options.inputsAt path (find path)
    match inputs with
    | .error abort => ⟨[], some abort⟩
    | .ok inputs => Plan.join inputs.length 0 0 (inputs.map (·.plan o format))

end SigilAsm
