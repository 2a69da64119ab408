import SigilAsm.CommandLine.Arguments

/-! # The program

Looks up what the arguments point to, carries the plan out, and answers with
the exit code.
-/

namespace SigilAsm

/-- The number of an error of the system.  Some calls report it negated. -/
def errorNumber (code : UInt32) : UInt32 := if code < 0x80000000 then code else 0 - code

def faultOf (e : IO.Error) : FileFault :=
  match e with
  | .noFileOrDirectory .. => .notFound
  | .alreadyExists .. => .alreadyExists
  | .inappropriateType _ code _ =>
    match errorNumber code with
    | 20 => .notDirectory
    | 21 => .isDirectory
    | _ => .other (toString e)
  | _ => .other (toString e)

def readBytes (path : String) : IO (List UInt8) := do
  return (← IO.FS.readBinFile path).data.toList

def isDirectory (path : String) : IO Bool := do ((← IO.currentDir) / path).isDir

partial def sourcesBelow (path : String) (location : Location) :
    IO (List (Location × List UInt8)) := do
  let directory := (← IO.currentDir) / path
  let mut found := []
  for entry in ← directory.readDir do
    let here := location ++ [entry.fileName]
    let below := Path.join path entry.fileName
    if ← entry.path.isDir then
      found := found ++ (← sourcesBelow below here)
    else if Found.isSource here then
      found := found ++ [(here, ← readBytes below)]
  return found

def look (path : String) : IO Found := do
  if path.isEmpty then return .nothing .notFound
  if ← isDirectory path then return .directory (← sourcesBelow path [])
  try
    return .file (← readBytes path)
  catch e =>
    return .nothing (faultOf e)

partial def makeDirectories (path : String) : IO Unit := do
  if path.isEmpty then return
  let makeUnlessThere : IO Unit := do
    try IO.FS.createDir path
    catch e => if !(← isDirectory path) then throw e
  try makeUnlessThere
  catch e =>
    match e, Path.parent? path with
    | .noFileOrDirectory .., some parent =>
      makeDirectories parent
      makeUnlessThere
    | _, _ => throw e

def writeOutput (path : String) (bytes : List UInt8) : IO (Option Abort) := do
  let parent := (Path.parent? path).getD ""
  try
    makeDirectories parent
  catch e =>
    return some ⟨"failed to create directory " ++ parent, some (faultOf e).message⟩
  try
    IO.FS.writeBinFile path ⟨bytes.toArray⟩
  catch e =>
    return some ⟨"failed to write output file " ++ path, some (faultOf e).message⟩
  return none

def performAction : Action → IO (Option Abort)
  | .print bytes => do
    (← IO.getStdout).write ⟨bytes.toArray⟩
    return none
  | .warn text => do
    (← IO.getStderr).putStr text
    return none
  | .write path bytes => writeOutput path bytes

/-- Carries out actions up to the first that fails. -/
def performActions : List Action → IO (Option Abort)
  | [] => return none
  | action :: rest => do
    match ← performAction action with
    | some abort => return some abort
    | none => performActions rest

def assembleFor (o : Options) : IO UInt32 := do
  let mut stdin := []
  let mut found := Found.nothing .notFound
  -- Nothing is read for options that are refused.
  if let .ok _ := o.outputFormat then
    match o.input with
    | some path => found ← look path
    | none => stdin := (← (← IO.getStdin).readBinToEnd).data.toList
  let plan := o.plan stdin fun _ => found
  match (← performActions plan.actions).or plan.abort with
  | none => return 0
  | some abort =>
    (← IO.getStderr).putStr abort.render
    return 1

def usage : String :=
  "Assembles .ira modules.\n\n"
    ++ "Options:\n"
    ++ "  -i, --input <PATH>          source file or directory, standard input if absent\n"
    ++ "  -o, --output <PATH>         output file, or directory for the sources of a directory\n"
    ++ "      --emit <FORMAT>         summary, wasm or check\n"
    ++ "      --max-data-len <BYTES>  largest accepted data expression\n"
    ++ "  -v, --verbose\n"

end SigilAsm

open SigilAsm in
def main (arguments : List String) : IO UInt32 := do
  match Request.ofArguments arguments with
  | .assemble o => assembleFor o
  | .help =>
    (← IO.getStdout).putStr usage
    return 0
  | .version =>
    (← IO.getStdout).putStr "sigilasm 0.1.0\n"
    return 0
  | .misuse message =>
    (← IO.getStderr).putStr ("error: " ++ message ++ "\n\n" ++ usage)
    return 2
