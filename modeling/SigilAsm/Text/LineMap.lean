import SigilAsm.Text.Utf8

/-! # Lines and columns

A line map turns byte offsets of one source text into the positions people
read: 1-based lines, and 1-based columns that count characters.  It also shows
the text of a line, without the line feed and carriage returns that end it.
-/

namespace SigilAsm

/-- A 1-based line and a 1-based column, the column counted in characters. -/
structure Position where
  line : Nat
  column : Nat
  deriving DecidableEq, Repr

/-- The offsets at which lines start, for a text whose first byte has the given offset and does
not itself start a line. -/
def lineStartsFrom (offset : Nat) : List Char → List Nat
  | [] => []
  | c :: cs =>
    let next := offset + c.utf8Size
    if c = '\n' then next :: lineStartsFrom next cs else lineStartsFrom next cs

/-- A text together with the offsets at which its lines start. -/
structure LineMap where
  text : List Char
  starts : List Nat
  deriving DecidableEq, Repr

namespace LineMap

/-- Lines are ended by line feeds alone; the first line starts at the first byte. -/
def ofText (text : List Char) : LineMap := ⟨text, 0 :: lineStartsFrom 0 text⟩

def ofString (source : String) : LineMap := ofText source.toList

@[simp] theorem text_ofText (text : List Char) : (ofText text).text = text := rfl

@[simp] theorem text_ofString (source : String) : (ofString source).text = source.toList := rfl

def lineCount (m : LineMap) : Nat := m.starts.length

/-- Where the search for a number in an increasing table ended: on the row that holds it, or in
front of the first row that is above it. -/
inductive Landing where
  | on (row : Nat)
  | before (row : Nat)
  deriving DecidableEq, Repr

/-- Halves the `size` rows from `base` on until one is left.  The lower half is kept where the
upper one begins above the number that is sought, and there is no answer where a row is read that
the table does not have. -/
def halve (table : List Nat) (sought base size : Nat) : Option Nat :=
  if 1 < size then
    let middle := base + size / 2
    match table[middle]? with
    | none => none
    | some row => halve table sought (if sought < row then base else middle) (size - size / 2)
  else some base
termination_by size

def search? (table : List Nat) (sought : Nat) : Option Landing :=
  if table.isEmpty then some (.before 0) else do
    let base ← halve table sought 0 table.length
    let row ← table[base]?
    return if row = sought then .on base
      else if row < sought then .before (base + 1) else .before base

/-- The row whose line starts last among those that start at or before the offset: the row that
the search ended on, or the one in front of where it ended.  No answer where there is no such row,
or where the search read beside the table. -/
def row? (m : LineMap) (offset : Nat) : Option Nat :=
  match search? m.starts offset with
  | some (.on row) => some row
  | some (.before (next + 1)) => some next
  | some (.before 0) | none => none

/-- The position of an offset.  An offset past the end stands for the end, and one inside a
character has column 1, since no whole number of characters leads up to it.  The map of a text
has a row for every offset. -/
def position (m : LineMap) (offset : Nat) : Position :=
  let offset := min offset (Utf8.byteLength m.text)
  let row := (m.row? offset).getD 0
  let column :=
    match Utf8.slice? (m.starts[row]?.getD 0) offset m.text with
    | some before => before.length + 1
    | none => 1
  ⟨row + 1, column⟩

/-- Line feed and carriage return, the characters that are not shown at the end of a line. -/
def isLineEnd (c : Char) : Bool := c == '\n' || c == '\r'

/-- The text of a line without the line-end characters it ends in; empty for a number that is
no line's. -/
def lineText (m : LineMap) (line : Nat) : String :=
  match line with
  | 0 => ""
  | n + 1 =>
    match m.starts[n]? with
    | none => ""
    | some start =>
      let stop := m.starts[n + 1]?.getD (Utf8.byteLength m.text)
      let text := (Utf8.slice? start stop m.text).getD []
      String.ofList (text.reverse.dropWhile isLineEnd).reverse

end LineMap

end SigilAsm
