import SigilAsm.FileTree.Basic
import SigilAsm.Report.Failure

/-! # Collecting sources

What a path leads to decides what is read: a file is read as text, and below a
directory every file whose name has the extension of sources is, at any depth.
-/

namespace SigilAsm

def sourceExtension : String := "ira"

/-- What was found where a path leads. -/
inductive Found where
  -- A directory, and all files below it with the names that lead to them.
  | directory (files : List (Location × List UInt8))
  | file (contents : List UInt8)
  | nothing (fault : FileFault)

/-- A source text and the names that lead to it from the directory it was collected from. -/
structure SourceFile where
  location : Location
  text : String
  deriving DecidableEq, Repr

/-- The text of which the contents of a file are the UTF-8 form. -/
def textOf (contents : List UInt8) : Except FileFault String :=
  match String.fromUTF8? ⟨contents.toArray⟩ with
  | some text => .ok text
  | none => .error .notText

def FileTree.find (t : FileTree) (path : String) : Found :=
  match t.resolve path with
  | .ok (.directory l) => .directory (t.filesBelow l)
  | .ok (.file _ contents) => .file contents
  | .error fault => .nothing fault

namespace Found

def text : Found → Except FileFault String
  | directory _ => .error .isDirectory
  | file contents => textOf contents
  | nothing fault => .error fault

def isSource (location : Location) : Bool :=
  match location.getLast? with
  | some name => Path.extension? name == some sourceExtension
  | none => false

/-- The order of locations: name by name, from the top. -/
def before (a b : Location × List UInt8) : Bool := (List.compareLex Path.compareText a.1 b.1).isLE

/-- The sources below the directory that was found, in the order of their locations. -/
def sources (found : Found) (path : String) : Except Failure (List SourceFile) :=
  match found with
  | directory files =>
    ((files.filter fun (l, _) => isSource l).mergeSort before).mapM fun (l, contents) =>
      match textOf contents with
      | .ok text => .ok ⟨l, text⟩
      | .error fault => .error (.unreadable fault)
  | _ => .error (.missingDirectory path)

end Found

end SigilAsm
