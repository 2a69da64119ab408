import SigilAsm.Proofs.Text.Positions

/-! # Texts of lines

The lines of a text, one after the other, are the text (`TextLine.AllOf`), and a
line is told apart from the others by its number alone.  So what a line map
shows of lines and where it says that places are fit together
(`LineMap.lineText_spec`).
-/

namespace SigilAsm

/-- A line ends with its only line feed, or with the text. -/
theorem LineEnding.feed_or_last {ending after : List Char} (h : LineEnding ending after) :
    (ending.count '\n' = 1 ∧ ∃ front, ending = front ++ ['\n']) ∨
      ending.count '\n' = 0 ∧ after = [] := by
  cases h with
  | feed returns => exact .inl ⟨by simp [List.count_replicate], _, rfl⟩
  | last returns => exact .inr ⟨by simp [List.count_replicate], rfl⟩

namespace TextLine

/-- The line with what it ends in. -/
def whole (l : TextLine) : List Char := l.shown ++ l.ending

/-- These are all lines of the text, in order. -/
structure AllOf (lines : List TextLine) (text : List Char) : Prop where
  whole : text = lines.flatMap whole
  line : ∀ row l, lines[row]? = some l →
    l.Of text ∧ l.number = row + 1 ∧ l.before = (lines.take row).flatMap TextLine.whole

variable {l l' : TextLine} {lines : List TextLine} {text before lead back : List Char}

/-! ## A text is its lines -/

/-- Where a line may begin, one does. -/
theorem exists_line_behind (back : List Char)
    (begins : before = [] ∨ ∃ earlier, before = earlier ++ ['\n']) :
    ∃ l : TextLine, l.Of (before ++ back) ∧ l.before = before := by
  obtain ⟨l, lead, line, holds, rfl⟩ := exists_line before back
  refine ⟨l, line, ?_⟩
  rcases List.eq_nil_or_concat lead with rfl | ⟨lead, ch, rfl⟩
  · rw [List.append_nil]
  · -- The place would be behind a line feed of its own line.
    rcases begins with none | ⟨earlier, behind⟩
    · simp at none
    · have feed : ch = '\n' := by
        have last := congrArg List.getLast? behind
        simpa using last
      exact absurd (by simp [feed]) holds.single

theorem exists_lines_behind (before back : List Char)
    (begins : before = [] ∨ ∃ earlier, before = earlier ++ ['\n']) :
    ∃ lines : List TextLine, back = lines.flatMap whole ∧ lines.length = back.count '\n' + 1 ∧
      ∀ row l, lines[row]? = some l →
        l.Of (before ++ back) ∧ l.number = before.count '\n' + row + 1 ∧
          l.before = before ++ (lines.take row).flatMap whole := by
  obtain ⟨l, line, rfl⟩ := exists_line_behind back begins
  have split : back = l.whole ++ l.after := by
    have text := line.text
    rw [List.append_cancel_left_eq] at text
    rw [text, whole, List.append_assoc]
  have count : l.whole.count '\n' = l.ending.count '\n' := by
    rw [whole, List.count_append, List.count_eq_zero_of_not_mem line.single, Nat.zero_add]
  rcases line.ending.feed_or_last with ⟨one, front, ending⟩ | ⟨none, last⟩
  · have next : l.before ++ l.whole = l.before ++ (l.shown ++ front) ++ ['\n'] := by
      simp [whole, ending]
    have less : l.after.length < back.length := by
      simp only [split, whole, ending, List.length_append, List.length_singleton]
      omega
    obtain ⟨lines, after, length, each⟩ :=
      exists_lines_behind (l.before ++ l.whole) l.after (.inr ⟨_, next⟩)
    refine ⟨l :: lines, by rw [List.flatMap_cons, ← after, split], ?_, fun row l' here => ?_⟩
    · rw [List.length_cons, length, split, List.count_append, count, one]
      omega
    · cases row with
      | zero =>
        cases here
        exact ⟨line, rfl, by simp⟩
      | succ row =>
        obtain ⟨isLine, number, stands⟩ := each row l' here
        rw [List.append_assoc, ← split] at isLine
        refine ⟨isLine, ?_, by simp [stands]⟩
        rw [number, List.count_append, count, one]
        omega
  · refine ⟨[l], by simp [split, last], by simp [split, count, none, last], fun row l' here => ?_⟩
    cases row with
    | zero =>
      cases here
      exact ⟨line, rfl, by simp⟩
    | succ row => cases here
termination_by back.length
decreasing_by exact less

/-- A text is all its lines, one more than it has line feeds. -/
theorem exists_allOf (text : List Char) :
    ∃ lines, AllOf lines text ∧ lines.length = text.count '\n' + 1 := by
  obtain ⟨lines, whole, length, each⟩ := exists_lines_behind [] text (.inl rfl)
  exact ⟨lines, ⟨whole, by simpa using each⟩, length⟩

/-! ## Lines and their numbers -/

/-- Between two places where lines begin, one further on than the other, is a line feed. -/
theorem eq_nil_of_count_feed {more : List Char} (begins : l.before = l'.before ++ more)
    (line : l.Of text) (same : l.number = l'.number) : more = [] := by
  have none : '\n' ∉ more := by
    simp only [number, begins, List.count_append] at same
    exact List.count_eq_zero.mp (by omega)
  rcases List.eq_nil_or_concat more with rfl | ⟨more, ch, rfl⟩
  · rfl
  · rcases line.begins with first | ⟨earlier, behind⟩
    · simp [begins] at first
    · have feed : ch = '\n' := by
        have last := congrArg List.getLast? (begins.symm.trans behind)
        simpa using last
      exact absurd (by simp [feed]) none

/-- The number of a line tells where it begins. -/
theorem Of.before_unique (h : l.Of text) (h' : l'.Of text) (same : l.number = l'.number) :
    l.before = l'.before := by
  rcases List.append_eq_append_iff.mp (h.text.symm.trans h'.text) with
    ⟨more, begins, -⟩ | ⟨more, begins, -⟩
  · rw [begins, eq_nil_of_count_feed begins h' same.symm, List.append_nil]
  · rw [begins, eq_nil_of_count_feed begins h same, List.append_nil]

/-- Every line of the text is in its row. -/
theorem AllOf.exists_getElem? (all : AllOf lines text) (count : lines.length = text.count '\n' + 1)
    (h : l.Of text) : ∃ l', lines[l.number - 1]? = some l' ∧ l'.Of text ∧ l'.before = l.before ∧
      l'.number = l.number := by
  have inside : l.number - 1 < lines.length := by
    rw [count, h.text, List.count_append, number]
    omega
  have here := List.getElem?_eq_getElem inside
  obtain ⟨line, number, -⟩ := all.line _ _ here
  have same : (lines[l.number - 1]).number = l.number := by
    rw [number, TextLine.number]
    rfl
  exact ⟨_, here, line, line.before_unique h same, same⟩

end TextLine

namespace LineMap

open TextLine (AllOf)

variable {l : TextLine} {text lead back : List Char} {n : Nat}

/-- A number that is no line's shows nothing. -/
theorem lineText_of_not_line (h : n = 0 ∨ (ofText text).lineCount < n) :
    (ofText text).lineText n = "" := by
  cases n with
  | zero => rfl
  | succ n =>
    have none : (ofText text).starts[n]? = none := by
      refine List.getElem?_eq_none ?_
      simpa [lineCount, Nat.lt_succ_iff] using h
    simp only [lineText, none]

/-- The place between two parts of the text is on the line.  Its column counts what is in front of
it there, which is the beginning of the text of the line, or the place is inside what is dropped. -/
def Leads (m : LineMap) (l : TextLine) (p : Position) (front back : List Char) : Prop :=
  ∃ lead, front = l.before ++ lead ∧ p.column = lead.length + 1 ∧
    ((m.lineText p.line).toList.take (p.column - 1) = lead ∨ l.Drops lead back)

theorem leads_of_line (line : l.Of text) (holds : l.Holds lead)
    (split : text = l.before ++ lead ++ back) :
    (ofText text).Leads l ((ofText text).position (Utf8.byteLength (l.before ++ lead)))
      (l.before ++ lead) back := by
  rw [position_of_line line holds]
  refine ⟨lead, rfl, rfl, ?_⟩
  rcases line.prefix_or_drops holds split with shown | dropped
  · refine .inl ?_
    rw [lineText_of_line line, String.toList_ofList, Nat.add_sub_cancel]
    exact (List.prefix_iff_eq_take.mp shown).symm
  · exact .inr dropped

/-- The lines of a source are the source, and a line map has as many of them as there are line feeds
and one more.  It shows what stands on a line, and nothing for other numbers.  The position of a
place gives the line that it is on and leads up to the place in the text of that line. -/
theorem lineText_spec (source : String) :
    (ofString source).lineCount = source.toByteArray.data.toList.count 0x0a + 1 ∧
    ∃ lines, AllOf lines source.toList ∧ lines.length = (ofString source).lineCount ∧
      (∀ row l, lines[row]? = some l →
        (ofString source).lineText (row + 1) = String.ofList l.shown) ∧
      (∀ n, n = 0 ∨ (ofString source).lineCount < n → (ofString source).lineText n = "") ∧
      ∀ front back : String, source = front ++ back →
        let p := (ofString source).position front.utf8ByteSize
        ∃ l, lines[p.line - 1]? = some l ∧ l.number = p.line ∧
          (ofString source).Leads l p front.toList back.toList := by
  have count : (ofString source).lineCount = source.toList.count '\n' + 1 := by
    simp only [lineCount, ofString, ofText, List.length_cons, length_lineStartsFrom]
  obtain ⟨lines, all, length⟩ := TextLine.exists_allOf source.toList
  refine ⟨?_, lines, all, length.trans count.symm, fun row l here => ?_,
    fun _ => lineText_of_not_line, fun front back split => ?_⟩
  · rw [count, ← Utf8.toByteArray_encode, List.toList_data_toByteArray, Utf8.count_feed_encode]
  · obtain ⟨line, number, -⟩ := all.line row l here
    rw [← number, ofString, lineText_of_line line]
  · have whole : source.toList = front.toList ++ back.toList := by rw [split, String.toList_append]
    obtain ⟨l', lead, line', holds', front_eq⟩ := TextLine.exists_line front.toList back.toList
    rw [← whole] at line'
    obtain ⟨l, here, line, before, number⟩ := all.exists_getElem? length line'
    -- The two lines begin at the same place, so what leads up to the place stands on both.
    rw [← before] at front_eq
    rw [front_eq] at whole
    have holds := line.holds (whole.trans (List.append_assoc ..)) holds'.single
    have place : front.utf8ByteSize = Utf8.byteLength (l.before ++ lead) := by
      rw [← front_eq, Utf8.byteLength_toList]
    have position := position_of_line line holds
    have leads := leads_of_line line holds whole
    rw [← place, ← front_eq] at leads
    rw [← place] at position
    refine ⟨l, ?_, ?_, leads⟩
    · rw [ofString, position, ← here, number]
    · rw [ofString, position]

/-- A place between a carriage return and the line feed after it has a column that is past the text
of its line, and the end of this source is behind another carriage return. -/
theorem lineText_spec_returns :
    (ofString "é\r\n\r").lineCount = 2 ∧ ∃ lines, AllOf lines "é\r\n\r".toList ∧
      (∃ l, lines[0]? = some l ∧
        (ofString "é\r\n\r").Leads l ⟨1, 3⟩ ['é', '\r'] ['\n', '\r']) ∧
      ∃ l, lines[1]? = some l ∧
        (ofString "é\r\n\r").Leads l ⟨2, 2⟩ ['é', '\r', '\n', '\r'] [] := by
  obtain ⟨count, lines, all, -, -, -, places⟩ := lineText_spec "é\r\n\r"
  have returns : (ofString "é\r\n\r").position ("é\r".utf8ByteSize) = ⟨1, 3⟩ :=
    position_byteLength (show _ = ['é', '\r'] ++ ['\n', '\r'] from rfl)
  have last : (ofString "é\r\n\r").position ("é\r\n\r".utf8ByteSize) = ⟨2, 2⟩ :=
    position_byteLength (show _ = ['é', '\r', '\n', '\r'] ++ [] from rfl)
  obtain ⟨l, here, -, leads⟩ := places "é\r" "\n\r" (by decide)
  obtain ⟨l', here', -, leads'⟩ := places "é\r\n\r" "" (by decide)
  rw [returns] at here leads
  rw [last] at here' leads'
  exact ⟨count, lines, all, ⟨l, here, leads⟩, l', here', leads'⟩

end LineMap

end SigilAsm
