import SigilAsm.FileTree.Fault
import SigilAsm.FileTree.Path

/-! # File trees

A file tree is the content of a directory, at all depths, and paths are followed
from that directory.  Every place in the tree has one *location*, the names
that lead down to it; a path leads to a location if what it passes through is
there.  Paths do not lead out of the tree.
-/

namespace SigilAsm

/-- The names from the top of the tree down to a place. -/
abbrev Location := List String

/-- Files with their contents, and directories.  The directories above a listed place exist
whether they are listed or not. -/
structure FileTree where
  files : List (Location × List UInt8)
  directories : List Location

namespace FileTree

inductive Node where
  | file (location : Location) (contents : List UInt8)
  | directory (location : Location)

def empty : FileTree := ⟨[], []⟩

def isDirectoryAt (t : FileTree) (l : Location) : Bool :=
  l.isEmpty || t.directories.any (l.isPrefixOf ·)
    || t.files.any fun (file, _) => l.isPrefixOf file && l != file

def nodeAt? (t : FileTree) (l : Location) : Option Node :=
  match t.files.lookup l with
  | some contents => some (.file l contents)
  | none => if t.isDirectoryAt l then some (.directory l) else none

/-- Follows the pieces of a path from a directory. -/
def follow (t : FileTree) (l : Location) : List String → Except FileFault Node
  | [] => .ok (.directory l)
  | piece :: rest =>
    if piece = "" ∨ piece = "." then t.follow l rest
    else if piece = ".." then
      if l.isEmpty then .error .notFound else t.follow l.dropLast rest
    else
      match t.nodeAt? (l ++ [piece]) with
      | none => .error .notFound
      | some (.directory below) => t.follow below rest
      | some (.file file contents) =>
        if rest.isEmpty then .ok (.file file contents) else .error .notDirectory

def resolve (t : FileTree) (path : String) : Except FileFault Node :=
  if path.isEmpty then .error .notFound else t.follow [] (Path.pieces path)

/-- The files at any depth below a directory, each with the names that lead to it from there. -/
def filesBelow (t : FileTree) (l : Location) : List (Location × List UInt8) :=
  (t.files.filter fun (file, _) => l.isPrefixOf file).map fun (file, contents) =>
    (file.drop l.length, contents)

/-! ## Making directories and files -/

/-- Makes one directory, in the directory that the names `up` lead to. -/
def makeDirectory (t : FileTree) (up : List String) (name : String) :
    Except FileFault FileTree :=
  match t.follow [] up.reverse with
  | .error fault => .error fault
  | .ok (.file ..) => .error .notDirectory
  | .ok (.directory l) =>
    if name = ".." ∨ (t.nodeAt? (l ++ [name])).isSome then .error .alreadyExists
    else .ok { t with directories := t.directories ++ [l ++ [name]] }

def leadsToDirectory (t : FileTree) (upwards : List String) : Bool :=
  match t.follow [] upwards.reverse with
  | .ok (.directory _) => true
  | _ => false

/-- Makes a directory and those above it that are missing, for names given last first.  A directory
that is there already is as good. -/
def makeDirectories (t : FileTree) : List String → Except FileFault FileTree
  | [] => .ok t
  | name :: up =>
    let orExisting (t : FileTree) (made : Except FileFault FileTree) : Except FileFault FileTree :=
      match made with
      | .ok t => .ok t
      | .error fault => if t.leadsToDirectory (name :: up) then .ok t else .error fault
    match t.makeDirectory up name with
    | .error .notFound =>
      match t.makeDirectories up with
      | .ok t => orExisting t (t.makeDirectory up name)
      | .error fault => .error fault
    | made => orExisting t made

def setFile (t : FileTree) (l : Location) (contents : List UInt8) : FileTree :=
  if (t.files.lookup l).isSome then
    { t with files := t.files.map fun (file, old) =>
        if file = l then (file, contents) else (file, old) }
  else { t with files := t.files ++ [(l, contents)] }

/-- Writes a file, in a directory that has to be there. -/
def writeFile (t : FileTree) (path : String) (contents : List UInt8) :
    Except FileFault FileTree :=
  let backwards := (Path.pieces path).reverse
  match backwards.dropWhile (· == "") with
  | [] => .error (if path.isEmpty then .notFound else .isDirectory)
  | name :: up =>
    match t.follow [] up.reverse with
    | .error fault => .error fault
    | .ok (.file ..) => .error .notDirectory
    | .ok (.directory l) =>
      if name = "." ∨ name = ".." ∨ backwards.head? = some "" then .error .isDirectory
      else
        match t.nodeAt? (l ++ [name]) with
        | some (.directory _) => .error .isDirectory
        | _ => .ok (t.setFile (l ++ [name]) contents)

end FileTree

end SigilAsm
