import SigilAsm.CommandLine.Plan

/-! # Sessions

A session carries a plan out on a file tree and keeps what was printed.
-/

namespace SigilAsm

/-- What there is after some of a plan was carried out. -/
structure Session where
  tree : FileTree
  stdout : List UInt8
  stderr : String

namespace Session

/-- Writes an output file, making the directories it goes into. -/
def write (t : FileTree) (path : String) (bytes : List UInt8) : Except Abort FileTree :=
  let parent := (Path.parent? path).getD ""
  match t.makeDirectories (Path.namesUpwards parent) with
  | .error fault => .error ⟨"failed to create directory " ++ parent, some fault.message⟩
  | .ok t =>
    match t.writeFile path bytes with
    | .error fault => .error ⟨"failed to write output file " ++ path, some fault.message⟩
    | .ok t => .ok t

def perform (s : Session) : Action → Except Abort Session
  | .print bytes => .ok { s with stdout := s.stdout ++ bytes }
  | .warn text => .ok { s with stderr := s.stderr ++ text }
  | .write path bytes =>
    match write s.tree path bytes with
    | .ok tree => .ok { s with tree }
    | .error abort => .error abort

/-- Carries out actions in order.  The first that fails ends the call instead of `ending`. -/
def performAll (s : Session) (ending : Option Abort) : List Action → Session × Option Abort
  | [] => (s, ending)
  | action :: rest =>
    match s.perform action with
    | .ok s => s.performAll ending rest
    | .error abort => (s, some abort)

/-- Calls the program; the answer is its exit code and what it leaves. -/
def run (o : Options) (stdin : List UInt8) (tree : FileTree) : UInt32 × Session :=
  let plan := o.plan stdin tree.find
  match performAll ⟨tree, [], ""⟩ plan.abort plan.actions with
  | (s, none) => (0, s)
  | (s, some abort) => (1, { s with stderr := s.stderr ++ abort.render })

end Session

end SigilAsm
