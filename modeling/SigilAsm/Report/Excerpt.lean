import SigilAsm.Report.Diagnostic
import SigilAsm.Text.LineMap

/-! # Source excerpts

A diagnostic is shown to people with the line it concerns and carets under the
characters that are meant:

    error[E0101]: unknown local name 'x'
     --> main.ira:4:10
      |
    4 |     $add %x, 1;
      |          ^^ used here

The carets end where the extent ends, or with the line when the extent goes on
past it; there is always at least one.
-/

namespace SigilAsm

def repeated (n : Nat) (ch : Char) : String := String.ofList (List.replicate n ch)

namespace Diagnostic

/-- What stands before the carets: a blank for each character before the column, tabs kept, so
that the carets line up with the line above. -/
def caretPadding (line : String) (column : Nat) : String :=
  String.ofList ((line.toList.take (column - 1)).map fun ch => if ch == '\t' then '\t' else ' ')

/-- How many carets underline an extent from `start` to `stop` on the line of `start`. -/
def caretCount (line : String) (start stop : Position) : Nat :=
  let stopColumn := if stop.line = start.line then stop.column else line.length + 1
  max 1 (stopColumn - start.column)

/-- The row of carets and the remark after it. -/
def caretRow (d : Diagnostic) (m : LineMap) : String :=
  let start := m.position d.extent.start
  let line := m.lineText start.line
  let carets := repeated (caretCount line start (m.position d.extent.stop)) '^'
  let remark := (d.problem.annotation?.map (" " ++ ·)).getD ""
  caretPadding line start.column ++ carets ++ remark

/-- The rows of the excerpt, for a source that is shown under the given path. -/
def excerptRows (d : Diagnostic) (path : String) (m : LineMap) : List String :=
  let start := m.position d.extent.start
  let number := toString start.line
  let gutter := repeated number.length ' '
  [d.headline,
    gutter ++ "--> " ++ path ++ ":" ++ number ++ ":" ++ toString start.column,
    gutter ++ " |",
    number ++ " | " ++ m.lineText start.line,
    gutter ++ " | " ++ d.caretRow m]

def excerpt (d : Diagnostic) (path : String) (m : LineMap) : String :=
  String.join ((d.excerptRows path m).map (· ++ "\n"))

end Diagnostic

end SigilAsm
