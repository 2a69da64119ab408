import SigilAsm.Proofs.Elaboration.FaultExtents
import SigilAsm.Proofs.Report.Excerpt

/-! # Where carets stand

A diagnostic points at a name, and a name has no line end in it.  So its excerpt
shows the line of the name, with as many carets below as the name has characters
and each of them below one (`Diagnostic.underlined_of_elaborate`).

A syntax error stands anywhere, also at the end of a text.  Its first caret stands
below its column unless it is behind a carriage return that ends the text, which
counts as a column but is not shown (`SyntaxError.caret_below_column_iff`).
-/

namespace SigilAsm

namespace Diagnostic

variable {d : Diagnostic} {source : String}

/-- How a name is shown that a diagnostic covers: with the whole line it stands on, and with carets
below its characters and the remark after them. -/
structure Underlined (d : Diagnostic) (source : String) (l : TextLine)
    (lead name behind : List Char) (remark : String) : Prop where
  line : l.Of source.toList
  start : d.extent.start = Utf8.byteLength (l.before ++ lead)
  covered : Utf8.slice? d.extent.start d.extent.stop source.toList = some name
  shown : l.shown = lead ++ (name ++ behind)
  excerpt : ∀ path, d.excerpt path (.ofString source) =
    layout d.headline path ⟨l.number, lead.length + 1⟩ (String.ofList l.shown)
      (String.ofList (lead.map blank) ++ repeated name.length '^' ++ (" " ++ remark))

theorem PointsAt.exists_remark {m : Mention} (h : d.PointsAt m) :
    ∃ remark, d.problem.annotation? = some remark := by
  have named := h.name
  cases problem : d.problem with
  | malformed message => simp [problem, Problem.name?] at named
  | unknown entity name | conflicting entity name | duplicate entity name => exact ⟨_, rfl⟩

/-- A diagnostic underlines the name that it points at. -/
theorem PointsAt.underlined {m : Mention} {start stop : Cursor} {name : List Char}
    {remark : String} (h : d.PointsAt m) (reads : (Cursor.ofString source).ReadsTo start)
    (written : (Lexeme.name m.sigil m.ident).At start name stop)
    (annotated : d.problem.annotation? = some remark) :
    ∃ l lead behind, d.Underlined source l lead name behind remark := by
  have some := written.spelling.ne_nil
  obtain ⟨front, whole, offset⟩ := Cursor.readsTo_ofString_iff.mp reads
  obtain ⟨l, lead, behind, line, holds, holds', rfl, shown⟩ := TextLine.exists_line_of_plain front
    stop.rest some (Cursor.isLineEnd_of_spelling_name written.spelling)
  rw [← written.covers.rest, ← whole] at line
  have located : m.ident.extent = .between start.offset stop.offset := written.located
  have extent : d.extent = .between (Utf8.byteLength (l.before ++ lead))
      (Utf8.byteLength (l.before ++ lead) + Utf8.byteLength name) := by
    rw [h.extent, located, written.covers.offset, offset]
  rw [Extent.between_of_le (Nat.le_add_right _ _)] at extent
  have stopPosition := LineMap.position_of_line line holds'
  rw [← List.append_assoc, Utf8.byteLength_append] at stopPosition
  refine ⟨l, lead, behind, line, by rw [extent], ?_, shown, fun path => ?_⟩
  · rw [extent, whole, written.covers.rest, Utf8.slice?_byteLength_append]
  · rw [LineMap.ofString, excerpt_of_line line holds (by rw [extent]) path, extent, stopPosition,
      annotated, rowBelow_of_shown shown some]

/-- Every diagnostic of a text, whatever else is in it, underlines a name of the text with its
sigil and its quotes, if it has any, and says at the end of the row what is wrong with it. -/
theorem underlined_of_elaborate {σ : Type} [Builder σ] (settings : Settings) (target : σ)
    (source : String) :
    ∀ d ∈ (elaborate settings target source).2.diagnostics.toList,
      ∃ (m : Mention) (l : TextLine) (lead name behind : List Char) (remark : String),
        d.PointsAt m ∧ (Lexeme.name m.sigil m.ident).Spelling name ∧
          d.problem.annotation? = some remark ∧ d.Underlined source l lead name behind remark := by
  intro d member
  obtain ⟨ls, stop, spells, points, -⟩ := exists_mentions_of_elaborate settings target source
  obtain ⟨m, mentioned, pointsAt⟩ := exists_mem_of_sublistForall₂ points member
  obtain ⟨start, name, next, reads, written, -⟩ := spells.exists_at_of_mem mentioned
  obtain ⟨remark, annotated⟩ := pointsAt.exists_remark
  obtain ⟨l, lead, behind, underlined⟩ := pointsAt.underlined reads written annotated
  exact ⟨m, l, lead, name, behind, remark, pointsAt, written.spelling, annotated, underlined⟩

/-- A tab stays in front of the carets, and the quotes have carets as well. -/
theorem underlined_of_elaborate_quoted :
    ∃ d : Diagnostic,
      d ∈ (elaborate .standard (⟨0⟩ : Counter)
        "module @m;\r\nfunction @f \x7b\r\n\t$add %'é', 1;\r\n\x7d").2.diagnostics.toList ∧
      ∃ (m : Mention) (l : TextLine) (lead name behind : List Char) (remark : String),
        d.PointsAt m ∧ (Lexeme.name m.sigil m.ident).Spelling name ∧
          d.problem.annotation? = some remark ∧
          d.Underlined "module @m;\r\nfunction @f \x7b\r\n\t$add %'é', 1;\r\n\x7d" l lead name
            behind remark := by
  have member : (⟨.unknown .localName "é", .between 33 38⟩ : Diagnostic) ∈
      (elaborate .standard (⟨0⟩ : Counter)
        "module @m;\r\nfunction @f \x7b\r\n\t$add %'é', 1;\r\n\x7d").2.diagnostics.toList := by
    decide +kernel
  exact ⟨_, member, underlined_of_elaborate .standard (⟨0⟩ : Counter) _ _ member⟩

example : (⟨.unknown .localName "é", .between 33 38⟩ : Diagnostic).excerptRows "main.ira"
    (.ofString "module @m;\r\nfunction @f \x7b\r\n\t$add %'é', 1;\r\n\x7d") =
      ["error[E0101]: unknown local name 'é'", " --> main.ira:3:7", "  |", "3 | \t$add %'é', 1;",
        "  | \t     ^^^^ used here"] := by
  decide +kernel

end Diagnostic

namespace SyntaxError

variable {e : SyntaxError} {source : String}

/-- The error stands at the end of a source that has a carriage return for its last character. -/
def AtFinalReturn (e : SyntaxError) (source : String) : Prop :=
  e.extent.start = source.utf8ByteSize ∧ source.toList.getLast? = some '\r'

theorem atFinalReturn_iff {front back : List Char} (whole : source.toList = front ++ back)
    (start : e.extent.start = Utf8.byteLength front) :
    e.AtFinalReturn source ↔ back = [] ∧ front.getLast? = some '\r' := by
  have atEnd : e.extent.start = source.utf8ByteSize ↔ back = [] := by
    rw [start, ← Utf8.byteLength_toList, whole, Utf8.byteLength_append]
    constructor
    · intro same
      by_contra some
      have taken := Utf8.byteLength_pos some
      omega
    · rintro rfl
      rfl
  rw [AtFinalReturn, atEnd, whole]
  constructor
  · rintro ⟨rfl, last⟩
    exact ⟨rfl, by simpa using last⟩
  · rintro ⟨rfl, last⟩
    exact ⟨rfl, by simpa using last⟩

/-- Behind a carriage return, no line end comes next at a settled place. -/
theorem stopsAt_of_settled {place : Cursor} (settled : (Cursor.ofString source).Settled place)
    {front : List Char} (whole : source.toList = front ++ place.rest)
    (offset : place.offset = Utf8.byteLength front) (isReturn : front.getLast? = some '\r') :
    StopsAt LineMap.isLineEnd place.rest := by
  cases settled with
  | before stops => exact stops
  | @behind middle ch reads covers other =>
    obtain ⟨earlier, whole', -⟩ := Cursor.readsTo_ofString_iff.mp reads
    rw [covers.rest, ← List.append_assoc] at whole'
    have same : front = earlier ++ [ch] := List.append_cancel_right (whole.symm.trans whole')
    rw [same, List.getLast?_concat] at isReturn
    exact absurd (Option.some.inj isReturn) other
  | first start =>
    cases front with
    | nil => cases isReturn
    | cons ch front =>
      have taken := Utf8.byteLength_pos (List.cons_ne_nil ch front)
      omega

/-- All characters in front of an error are shown on its line, unless it stands behind a carriage
return that ends the source. -/
theorem Within.exists_line (h : e.Within (.ofString source)) :
    ∃ (l : TextLine) (lead : List Char), l.Of source.toList ∧ l.Holds lead ∧
      e.extent.start = Utf8.byteLength (l.before ++ lead) ∧
      (lead.length ≤ l.shown.length ↔ ¬ e.AtFinalReturn source) := by
  obtain ⟨place, reads, offset, settled⟩ := h.begins
  obtain ⟨front, whole, start⟩ := Cursor.readsTo_ofString_iff.mp reads
  obtain ⟨l, lead, line, holds, rfl⟩ := TextLine.exists_line front place.rest
  rw [← whole] at line
  have start' : e.extent.start = Utf8.byteLength (l.before ++ lead) := offset.symm.trans start
  refine ⟨l, lead, line, holds, start', ?_⟩
  rw [atFinalReturn_iff whole start', line.getLast?_eq_return_iff]
  constructor
  · rintro shown ⟨atEnd, isReturn⟩
    rw [atEnd, List.append_nil] at whole
    have all : lead = l.shown ++ (l.ending ++ l.after) :=
      List.append_cancel_left (whole.symm.trans line.text)
    have same : l.shown = lead := (all ▸ List.prefix_append _ _ : l.shown <+: lead).eq_of_length_le
      shown
    exact line.trimmed (same ▸ isReturn)
  · intro other
    rcases line.prefix_or_behind_return holds whole with inside | ⟨isReturn, next⟩
    · exact inside.length_le
    · -- The error would be between the characters of a line ending.
      have stops := stopsAt_of_settled settled whole start
        (line.getLast?_eq_return_iff.mpr isReturn)
      refine absurd ⟨?_, isReturn⟩ other
      cases rest : place.rest with
      | nil => rfl
      | cons ch more =>
        have first : place.rest.head? = some ch := by rw [rest]; rfl
        exact Bool.noConfusion ((stops ch first).symm.trans (next ch first))

/-- The excerpt of the error that refuses a text has carets and nothing else below the line.  As
many characters are in front of the first caret as in front of its column, unless the error stands
at the end of the text behind a carriage return. -/
theorem caret_below_column_iff {σ : Type} [Builder σ] {settings : Settings} {target : σ}
    (h : (elaborate settings target source).1 = .error e) (path : String) :
    let m := LineMap.ofString source
    let place := m.position e.extent.start
    ∃ (padding : List Char) (more : Nat),
      e.toDiagnostic.excerpt path m =
        Diagnostic.layout e.toDiagnostic.headline path place (m.lineText place.line)
          (String.ofList padding ++ repeated (more + 1) '^') ∧
      '^' ∉ padding ∧ (padding.length + 1 = place.column ↔ ¬ e.AtFinalReturn source) := by
  intro m place
  obtain ⟨l, lead, line, holds, start, below⟩ := (within_of_elaborate h).exists_line
  have position : place = ⟨l.number, lead.length + 1⟩ := by
    rw [← LineMap.position_of_line line holds, ← start]
    rfl
  have start' : e.toDiagnostic.extent.start = Utf8.byteLength (l.before ++ lead) := start
  obtain ⟨more, row⟩ := Diagnostic.exists_rowBelow l.shown lead l.number
    (m.position e.toDiagnostic.extent.stop)
  refine ⟨(l.shown.take lead.length).map Diagnostic.blank, more, ?_,
    Diagnostic.caret_not_mem_blanks _, ?_⟩
  · have shown : m.lineText l.number = String.ofList l.shown := LineMap.lineText_of_line line
    rw [position, shown, ← row]
    exact Diagnostic.excerpt_of_line line holds start' path
  · rw [position, ← below, List.length_map, List.length_take]
    dsimp only
    omega

/-- Here the carriage return is not the last character. -/
theorem caret_below_column_iff_before_feed :
    ∃ e, (elaborate .standard (⟨0⟩ : Counter) "module\r\n").1 = .error e ∧
      ¬ e.AtFinalReturn "module\r\n" ∧
      let m := LineMap.ofString "module\r\n"
      let place := m.position e.extent.start
      ∃ (padding : List Char) (more : Nat),
        e.toDiagnostic.excerpt "main.ira" m =
          Diagnostic.layout e.toDiagnostic.headline "main.ira" place (m.lineText place.line)
            (String.ofList padding ++ repeated (more + 1) '^') ∧
        '^' ∉ padding ∧ (padding.length + 1 = place.column ↔ ¬ e.AtFinalReturn "module\r\n") := by
  have refused : (match (elaborate .standard (⟨0⟩ : Counter) "module\r\n").1 with
    | .error _ => true
    | .ok _ => false) = true := by
    decide +kernel
  split at refused
  · next e read =>
    refine ⟨e, read, ?_, caret_below_column_iff read "main.ira"⟩
    exact fun last => absurd last.2 (by decide +kernel)
  · cases refused

/-- The column counts the carriage return that ends the text, and the row of the caret leaves it
out. -/
theorem caret_left_of_column :
    ∃ e, (elaborate .standard (⟨0⟩ : Counter) "module\r").1 = .error e ∧
      e.toDiagnostic.excerptRows "main.ira" (.ofString "module\r") =
        ["error[E0001]: expected global identifier, found end of input", " --> main.ira:1:8", "  |",
          "1 | module", "  |       ^"] := by
  have refused : (match (elaborate .standard (⟨0⟩ : Counter) "module\r").1 with
    | .error e => some (e.toDiagnostic.excerptRows "main.ira" (.ofString "module\r"))
    | .ok _ => none) = some ["error[E0001]: expected global identifier, found end of input",
      " --> main.ira:1:8", "  |", "1 | module", "  |       ^"] := by
    decide +kernel
  split at refused
  · next e read => exact ⟨e, read, Option.some.inj refused⟩
  · cases refused

end SyntaxError

end SigilAsm
