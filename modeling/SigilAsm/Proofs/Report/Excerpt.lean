import SigilAsm.Proofs.Text.Lines
import SigilAsm.Report.Excerpt

/-! # What an excerpt shows

An excerpt of a diagnostic is laid out as `Diagnostic.layout` says, with the line
that the extent begins on and the position of its beginning
(`Diagnostic.excerpt_of_line`).  The carets stand under what the extent covers of
that line, if all that leads up to it is shown.
-/

namespace SigilAsm

namespace Diagnostic

/-- A headline, a place in the source at the path, and a line of it with a row below. -/
def layout (headline path : String) (place : Position) (shown below : String) : String :=
  let number := toString place.line
  let gutter := repeated number.length ' '
  String.join ([headline,
    gutter ++ "--> " ++ path ++ ":" ++ number ++ ":" ++ toString place.column,
    gutter ++ " |",
    number ++ " | " ++ shown,
    gutter ++ " | " ++ below].map (· ++ "\n"))

/-- What stands below a character that is not underlined. -/
def blank (ch : Char) : Char := if ch == '\t' then '\t' else ' '

theorem blank_ne_caret (ch : Char) : blank ch ≠ '^' := by
  unfold blank
  split <;> decide

theorem caret_not_mem_blanks (cs : List Char) : '^' ∉ cs.map blank := by
  rw [List.mem_map]
  rintro ⟨ch, -, isCaret⟩
  exact blank_ne_caret ch isCaret

/-- The row below a line, for an extent that begins after `lead` and ends at `stop`. -/
def rowBelow (shown lead : List Char) (number : Nat) (stop : Position) (remark? : Option String) :
    String :=
  String.ofList ((shown.take lead.length).map blank) ++
    repeated (caretCount (String.ofList shown) ⟨number, lead.length + 1⟩ stop) '^' ++
    (remark?.map (" " ++ ·)).getD ""

theorem excerpt_eq_layout (d : Diagnostic) (path : String) (m : LineMap) :
    d.excerpt path m = layout d.headline path (m.position d.extent.start)
      (m.lineText (m.position d.extent.start).line) (d.caretRow m) :=
  rfl

variable {d : Diagnostic} {l : TextLine} {text lead : List Char}

/-- The excerpt shows the line that the extent begins on. -/
theorem excerpt_of_line (h : l.Of text) (holds : l.Holds lead)
    (start : d.extent.start = Utf8.byteLength (l.before ++ lead)) (path : String) :
    d.excerpt path (.ofText text) =
      layout d.headline path ⟨l.number, lead.length + 1⟩ (String.ofList l.shown)
        (rowBelow l.shown lead l.number ((LineMap.ofText text).position d.extent.stop)
          d.problem.annotation?) := by
  have place := LineMap.position_of_line h holds
  rw [← start] at place
  rw [excerpt_eq_layout, place, LineMap.lineText_of_line h]
  simp only [caretRow, place, LineMap.lineText_of_line h, caretPadding, String.toList_ofList,
    Nat.add_sub_cancel, rowBelow]
  rfl

/-- There is a caret in any case. -/
theorem exists_rowBelow (shown lead : List Char) (number : Nat) (stop : Position) :
    ∃ more, rowBelow shown lead number stop none =
      String.ofList ((shown.take lead.length).map blank) ++ repeated (more + 1) '^' := by
  refine ⟨caretCount (String.ofList shown) ⟨number, lead.length + 1⟩ stop - 1, ?_⟩
  have one : 1 ≤ caretCount (String.ofList shown) ⟨number, lead.length + 1⟩ stop :=
    Nat.le_max_left _ _
  rw [rowBelow, Nat.sub_add_cancel one]
  exact String.append_empty

/-- Carets stand below what ends on the same line, one for each character. -/
theorem rowBelow_of_shown {shown name behind : List Char} {number : Nat} {remark : String}
    (whole : shown = lead ++ (name ++ behind)) (some : name ≠ []) :
    rowBelow shown lead number ⟨number, (lead ++ name).length + 1⟩ (.some remark) =
      String.ofList (lead.map blank) ++ repeated name.length '^' ++ (" " ++ remark) := by
  have one := List.length_pos_iff.mpr some
  have count : caretCount (String.ofList shown) ⟨number, lead.length + 1⟩
      ⟨number, (lead ++ name).length + 1⟩ = name.length := by
    simp only [caretCount, if_true, List.length_append]
    omega
  rw [rowBelow, count, whole, List.take_left']
  · rfl
  · rfl

end Diagnostic

end SigilAsm
