/-! # Paths

A path is a text whose names are separated by slashes.  Two slashes in a row, a
slash at the end and the name `.` mean nothing to the place a path leads to,
but they stay in the text of a path, which is shown as it was given.
-/

namespace SigilAsm.Path

def splitSlashes : List Char → List (List Char)
  | [] => [[]]
  | c :: cs =>
    if c = '/' then [] :: splitSlashes cs
    else
      match splitSlashes cs with
      | [] => [[c]]
      | piece :: pieces => (c :: piece) :: pieces

/-- The texts between the slashes of a path, empty ones included. -/
def pieces (path : String) : List String := (splitSlashes path.toList).map String.ofList

def ofNames (names : List String) : String := "/".intercalate names

def join (directory relative : String) : String :=
  if directory.isEmpty || directory.toList.getLast? == some '/' then directory ++ relative
  else directory ++ "/" ++ relative

/-- The pieces of a path, last first, from its last name on.  At the very front `.` counts as a
name. -/
def fromLastName : List String → List String
  | [] => []
  | [first] => if first = "" then [] else [first]
  | piece :: before => if piece = "" ∨ piece = "." then fromLastName before else piece :: before

def parent? (path : String) : Option String :=
  match fromLastName (pieces path).reverse with
  | [] => none
  | _ :: before => some ("/".intercalate (fromLastName before).reverse)

/-- The names that lead somewhere, last first. -/
def namesUpwards (path : String) : List String :=
  ((pieces path).filter fun piece => piece != "" && piece != ".").reverse

/-- The stem of a file name and its extension: what stands before and after the last dot.  A name
without a dot, or whose only dot comes first, has no extension, nor has `..`. -/
def splitExtension (name : String) : String × Option String :=
  if name = ".." then (name, none)
  else
    let backwards := name.toList.reverse
    match backwards.dropWhile (· != '.') with
    | [] | [_] => (name, none)
    | _ :: stem =>
      (String.ofList stem.reverse, some (String.ofList (backwards.takeWhile (· != '.')).reverse))

/-- The order of texts: by the code point of the first character that differs, and a text comes
before those that begin with it. -/
def compareText (a b : String) : Ordering :=
  List.compareLex (fun x y => compareOfLessAndEq x.toNat y.toNat) a.toList b.toList

def extension? (name : String) : Option String := (splitExtension name).2

/-- A file name with its extension replaced.  What stands before the extension, the dot included,
has to be a file name itself: to `..`, which leads up, nothing is added. -/
def replaceExtension (name extension : String) : String :=
  match splitExtension name with
  | (".", some _) => ".."
  | (stem, _) => stem ++ "." ++ extension

end SigilAsm.Path
