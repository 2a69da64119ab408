import Mathlib.Data.List.Infix
import Mathlib.Data.List.Induction
import SigilAsm.Proofs.Text.Search

/-! # Lines of a text

A line begins after a line feed or at the start of the text.  It ends in
carriage returns and a line feed, or in carriage returns at the end of the text,
and none of these are shown.  `TextLine.Of` says so without reference to line
maps.

A line map agrees: the position of a place is told by the line feeds in front of
its line and the characters in front of it on the line
(`LineMap.position_of_line`), and the text of a line is what is shown of it
(`LineMap.lineText_of_line`).  Every place is on some line
(`TextLine.exists_line`).
-/

namespace SigilAsm

/-- A line with the text around it: what is shown of it, and the characters it ends in. -/
structure TextLine where
  before : List Char
  shown : List Char
  ending : List Char
  after : List Char

/-- How a line may end, where the text goes on with `after`. -/
inductive LineEnding : List Char → List Char → Prop
  | feed (returns : Nat) (after : List Char) :
      LineEnding (List.replicate returns '\r' ++ ['\n']) after
  -- The last line has no line feed.
  | last (returns : Nat) : LineEnding (List.replicate returns '\r') []

namespace LineEnding

variable {ending after : List Char}

theorem returns_or_feed (h : LineEnding ending after) : ∀ ch ∈ ending, ch = '\r' ∨ ch = '\n' := by
  intro ch member
  cases h with
  | feed returns =>
    rcases List.mem_append.mp member with here | here
    · exact .inl (List.eq_of_mem_replicate here)
    · exact .inr (List.mem_singleton.mp here)
  | last returns => exact .inl (List.eq_of_mem_replicate member)

theorem after_eq_nil (h : LineEnding ending after) (noFeed : '\n' ∉ ending) : after = [] := by
  cases h with
  | feed returns => exact absurd (by simp) noFeed
  | last returns => rfl

end LineEnding

namespace TextLine

/-- The line is one of the text, and nothing of its ending is shown. -/
structure Of (l : TextLine) (text : List Char) : Prop where
  text : text = l.before ++ (l.shown ++ (l.ending ++ l.after))
  begins : l.before = [] ∨ ∃ earlier, l.before = earlier ++ ['\n']
  single : '\n' ∉ l.shown
  trimmed : l.shown.getLast? ≠ some '\r'
  ending : LineEnding l.ending l.after

/-- Lines are numbered from one on. -/
def number (l : TextLine) : Nat := l.before.count '\n' + 1

/-- The place after `lead` is on the line. -/
structure Holds (l : TextLine) (lead : List Char) : Prop where
  inside : lead <+: l.shown ++ l.ending
  single : '\n' ∉ lead

variable {l : TextLine} {text lead back : List Char}

/-- All line feeds in front of a place are in front of its line. -/
theorem Holds.count_feed (h : l.Holds lead) :
    (l.before ++ lead).count '\n' = l.before.count '\n' := by
  rw [List.count_append, List.count_eq_zero_of_not_mem h.single, Nat.add_zero]

/-! ## Every place is on a line -/

/-- What leads up to a place without a line feed stands on the line. -/
theorem Of.holds {back : List Char} (h : l.Of text) (split : text = l.before ++ (lead ++ back))
    (single : '\n' ∉ lead) : l.Holds lead := by
  refine ⟨?_, single⟩
  have whole : lead ++ back = (l.shown ++ l.ending) ++ l.after := by
    have whole := split.symm.trans h.text
    rw [List.append_assoc]
    exact List.append_cancel_left whole
  have line : l.shown ++ l.ending <+: lead ++ back := whole ▸ List.prefix_append _ _
  rcases List.prefix_or_prefix_of_prefix (List.prefix_append lead back) line with
    here | ⟨more, further⟩
  · exact here
  · -- A line feed would end the line in front of the place.
    have noFeed : '\n' ∉ l.ending := fun member =>
      single (further ▸ List.mem_append_left _ (List.mem_append_right _ member))
    rw [h.ending.after_eq_nil noFeed, List.append_nil] at whole
    exact whole ▸ List.prefix_append _ _

/-- The part of a text that stands on its last line. -/
theorem exists_lastLine (front : List Char) :
    ∃ before lead, front = before ++ lead ∧ '\n' ∉ lead ∧
      (before = [] ∨ ∃ earlier, before = earlier ++ ['\n']) := by
  induction front using List.reverseRecOn with
  | nil => exact ⟨[], [], rfl, List.not_mem_nil, .inl rfl⟩
  | append_singleton front ch ih =>
    by_cases feed : ch = '\n'
    · subst feed
      exact ⟨front ++ ['\n'], [], (List.append_nil _).symm, List.not_mem_nil, .inr ⟨front, rfl⟩⟩
    · obtain ⟨before, lead, rfl, single, begins⟩ := ih
      refine ⟨before, lead ++ [ch], List.append_assoc .., ?_, begins⟩
      simp [single, Ne.symm feed]

/-- The part of a text that stands on its first line, the line feed after it and the rest. -/
theorem exists_firstLine (back : List Char) :
    ∃ tail feed after, back = tail ++ (feed ++ after) ∧ '\n' ∉ tail ∧
      (feed = ['\n'] ∨ feed = [] ∧ after = []) := by
  induction back with
  | nil => exact ⟨[], [], [], rfl, List.not_mem_nil, .inr ⟨rfl, rfl⟩⟩
  | cons ch back ih =>
    by_cases feed : ch = '\n'
    · subst feed
      exact ⟨[], ['\n'], back, rfl, List.not_mem_nil, .inl rfl⟩
    · obtain ⟨tail, feed', after, rfl, single, ends⟩ := ih
      exact ⟨ch :: tail, feed', after, rfl, by simp [single, Ne.symm feed], ends⟩

theorem exists_trimmed (cs : List Char) :
    ∃ shown returns, cs = shown ++ List.replicate returns '\r' ∧ shown.getLast? ≠ some '\r' := by
  induction cs using List.reverseRecOn with
  | nil => exact ⟨[], 0, rfl, nofun⟩
  | append_singleton cs ch ih =>
    by_cases isReturn : ch = '\r'
    · obtain ⟨shown, returns, rfl, trimmed⟩ := ih
      refine ⟨shown, returns + 1, ?_, trimmed⟩
      rw [isReturn, List.replicate_succ', List.append_assoc]
    · exact ⟨cs ++ [ch], 0, (List.append_nil _).symm, by simpa using isReturn⟩

/-- Between any two parts of a text is a place on one of its lines. -/
theorem exists_line (front back : List Char) :
    ∃ (l : TextLine) (lead : List Char),
      l.Of (front ++ back) ∧ l.Holds lead ∧ front = l.before ++ lead := by
  obtain ⟨before, lead, rfl, single, begins⟩ := exists_lastLine front
  obtain ⟨tail, feed, after, rfl, single', ends⟩ := exists_firstLine back
  obtain ⟨shown, returns, whole, trimmed⟩ := exists_trimmed (lead ++ tail)
  have alone : '\n' ∉ shown := by
    have none : '\n' ∉ lead ++ tail := by simp [single, single']
    exact fun member => none (whole ▸ List.mem_append_left _ member)
  have ending : LineEnding (List.replicate returns '\r' ++ feed) after := by
    rcases ends with rfl | ⟨rfl, rfl⟩
    · exact .feed returns after
    · rw [List.append_nil]
      exact .last returns
  have text : before ++ lead ++ (tail ++ (feed ++ after)) =
      before ++ (shown ++ ((List.replicate returns '\r' ++ feed) ++ after)) :=
    calc before ++ lead ++ (tail ++ (feed ++ after))
      _ = before ++ ((lead ++ tail) ++ (feed ++ after)) := by simp
      _ = before ++ (shown ++ ((List.replicate returns '\r' ++ feed) ++ after)) := by
        rw [whole]
        simp
  have line : Of ⟨before, shown, List.replicate returns '\r' ++ feed, after⟩
      (before ++ lead ++ (tail ++ (feed ++ after))) :=
    ⟨text, begins, alone, trimmed, ending⟩
  exact ⟨_, lead, line, line.holds (List.append_assoc ..) single, rfl⟩

/-- No line begins behind a carriage return. -/
theorem Of.getLast?_eq_return_iff (h : l.Of text) :
    (l.before ++ lead).getLast? = some '\r' ↔ lead.getLast? = some '\r' := by
  rcases List.eq_nil_or_concat lead with rfl | ⟨front, ch, rfl⟩
  · rcases h.begins with first | ⟨earlier, behind⟩
    · simp [first]
    · simp [behind]
  · simp

/-! ## What is not shown -/

/-- The place after `lead`, in front of `back`, is inside what is dropped at the end of the line:
behind some of it, and behind all of it only at the end of the text. -/
def Drops (l : TextLine) (lead back : List Char) : Prop :=
  ∃ returns more, returns ≠ [] ∧ lead = l.shown ++ returns ∧ l.ending = returns ++ more ∧
    back = more ++ l.after ∧ (more = [] → back = [])

/-- What leads up to a place is shown as far as it goes, or the place is inside the ending. -/
theorem Of.prefix_or_drops (h : l.Of text) (holds : l.Holds lead)
    (split : text = l.before ++ lead ++ back) : lead <+: l.shown ∨ l.Drops lead back := by
  rcases List.prefix_or_prefix_of_prefix holds.inside (List.prefix_append _ _) with
    here | ⟨returns, rfl⟩
  · exact .inl here
  · obtain ⟨more, ending⟩ : returns <+: l.ending :=
      (List.prefix_append_right_inj _).mp holds.inside
    have back_eq : back = more ++ l.after := by
      have whole := h.text.symm.trans split
      rw [← ending] at whole
      simpa using whole.symm
    by_cases none : returns = []
    · exact .inl (by simp [none])
    · refine .inr ⟨returns, more, none, rfl, ending.symm, back_eq, ?_⟩
      -- No line feed ends the line, so it is the last one.
      rintro rfl
      rw [List.append_nil] at ending
      have open' : '\n' ∉ l.ending := fun member =>
        holds.single (List.mem_append_right _ (ending ▸ member))
      rw [back_eq, h.ending.after_eq_nil open', List.append_nil]

/-- What leads up to a place is shown as far as it goes, or the place is behind carriage returns of
the ending, in front of more of it or at the end of the text. -/
theorem Of.prefix_or_behind_return (h : l.Of text) (holds : l.Holds lead)
    (split : text = l.before ++ lead ++ back) :
    lead <+: l.shown ∨ lead.getLast? = some '\r' ∧
      ∀ ch, back.head? = some ch → LineMap.isLineEnd ch = true := by
  refine (h.prefix_or_drops holds split).imp_right ?_
  rintro ⟨returns, more, some, rfl, ending, back_eq, atEnd⟩
  obtain ⟨returns, last, rfl⟩ := (List.eq_nil_or_concat returns).resolve_left some
  constructor
  · rcases h.ending.returns_or_feed last (by simp [ending]) with rfl | rfl
    · simp
    · exact absurd (by simp) holds.single
  · intro first head
    cases more with
    | nil =>
      rw [atEnd rfl] at head
      cases head
    | cons ch more =>
      rw [back_eq] at head
      cases head
      rcases h.ending.returns_or_feed first (by simp [ending]) with rfl | rfl <;> rfl

/-- A piece of text in which no line ends is shown with all that leads up to it. -/
theorem exists_line_of_plain {piece : List Char} (front back : List Char) (some : piece ≠ [])
    (plain : ∀ ch ∈ piece, LineMap.isLineEnd ch = false) :
    ∃ (l : TextLine) (lead behind : List Char),
      l.Of (front ++ (piece ++ back)) ∧ l.Holds lead ∧ l.Holds (lead ++ piece) ∧
        front = l.before ++ lead ∧ l.shown = lead ++ (piece ++ behind) := by
  obtain ⟨l, lead, line, holds, rfl⟩ := exists_line front (piece ++ back)
  have split : l.before ++ lead ++ (piece ++ back) = l.before ++ (lead ++ piece) ++ back := by simp
  have single : '\n' ∉ lead ++ piece := by
    rw [List.mem_append]
    rintro (here | here)
    · exact holds.single here
    · exact Bool.noConfusion (plain _ here)
  have holds' := line.holds (split.trans (List.append_assoc ..)) single
  rcases line.prefix_or_behind_return holds' split with ⟨behind, shown⟩ | ⟨isReturn, -⟩
  · rw [List.append_assoc] at shown
    exact ⟨l, lead, behind, line, holds, holds', rfl, shown.symm⟩
  · rw [List.getLast?_append_of_ne_nil _ some] at isReturn
    exact Bool.noConfusion (plain _ (List.mem_of_getLast? isReturn))

end TextLine

/-! ## Line maps -/

section LineStarts

variable {offset : Nat} {cs : List Char}

theorem lineStartsFrom_append (offset : Nat) (cs ds : List Char) :
    lineStartsFrom offset (cs ++ ds) =
      lineStartsFrom offset cs ++ lineStartsFrom (offset + Utf8.byteLength cs) ds := by
  induction cs generalizing offset with
  | nil => rfl
  | cons c cs ih =>
    simp only [List.cons_append, lineStartsFrom, ih, Utf8.byteLength_cons, Nat.add_assoc]
    split <;> rfl

theorem lineStartsFrom_of_not_mem (h : '\n' ∉ cs) : lineStartsFrom offset cs = [] := by
  induction cs generalizing offset with
  | nil => rfl
  | cons c cs ih =>
    simp only [List.mem_cons, not_or] at h
    simp only [lineStartsFrom, if_neg (Ne.symm h.1), ih h.2]

theorem length_lineStartsFrom (offset : Nat) (cs : List Char) :
    (lineStartsFrom offset cs).length = cs.count '\n' := by
  induction cs generalizing offset with
  | nil => rfl
  | cons c cs ih =>
    by_cases feed : c = '\n' <;> simp [lineStartsFrom, feed, ih]

/-- Lines start behind the first byte, and not behind the end. -/
theorem mem_lineStartsFrom {n : Nat} (h : n ∈ lineStartsFrom offset cs) :
    offset < n ∧ n ≤ offset + Utf8.byteLength cs := by
  induction cs generalizing offset with
  | nil => cases h
  | cons c cs ih =>
    have taken := Char.utf8Size_pos c
    rw [Utf8.byteLength_cons]
    have later (h : n ∈ lineStartsFrom (offset + c.utf8Size) cs) :
        offset < n ∧ n ≤ offset + (c.utf8Size + Utf8.byteLength cs) := by
      obtain ⟨lower, upper⟩ := ih h
      omega
    rw [lineStartsFrom] at h
    split at h
    · rcases List.mem_cons.mp h with rfl | h
      · omega
      · exact later h
    · exact later h

end LineStarts

namespace LineMap

open TextLine (Of Holds)

variable {l : TextLine} {text lead : List Char}

/-- The lines up to the given one start in front of it, as many as its number says, and it starts
last. -/
theorem starts_up_to_line (h : l.Of text) :
    (0 :: lineStartsFrom 0 l.before).length = l.number ∧
      (0 :: lineStartsFrom 0 l.before).getLast? = some (Utf8.byteLength l.before) := by
  refine ⟨by rw [List.length_cons, length_lineStartsFrom, TextLine.number], ?_⟩
  rcases h.begins with first | ⟨earlier, split⟩
  · rw [first]
    rfl
  · have feed : lineStartsFrom (0 + Utf8.byteLength earlier) ['\n'] =
        [Utf8.byteLength l.before] := by
      rw [split, Utf8.byteLength_append, Nat.zero_add]
      rfl
    rw [split, lineStartsFrom_append, feed, ← List.cons_append, List.getLast?_concat, split]

theorem starts_ofText {front back : List Char} (split : text = front ++ back) :
    (ofText text).starts =
      (0 :: lineStartsFrom 0 front) ++ lineStartsFrom (Utf8.byteLength front) back := by
  simp only [ofText, split, lineStartsFrom_append, Nat.zero_add, List.cons_append]

/-- The table holds the start of a line in the row that is told by the line feeds before it. -/
theorem getElem?_starts (h : l.Of text) :
    (ofText text).starts[l.before.count '\n']? = some (Utf8.byteLength l.before) := by
  obtain ⟨count, last⟩ := starts_up_to_line h
  rw [starts_ofText h.text, List.getElem?_append_left (by simp [length_lineStartsFrom])]
  rw [List.getLast?_eq_getElem?, count] at last
  exact last

/-- The line feeds in front of an offset tell its row, if no line starts between them and it. -/
theorem cut_starts {front back : List Char} {offset : Nat} (split : text = front ++ back)
    (lower : Utf8.byteLength front ≤ offset)
    (upper : ∀ start ∈ lineStartsFrom (Utf8.byteLength front) back, offset < start) :
    Cut (ofText text).starts offset (front.count '\n' + 1) := by
  have upTo : ∀ start ∈ 0 :: lineStartsFrom 0 front, start ≤ offset := by
    intro start member
    rcases List.mem_cons.mp member with rfl | member
    · exact Nat.zero_le _
    · have inside := (mem_lineStartsFrom member).2
      omega
  have cut := cut_append upTo upper
  rwa [← starts_ofText split, List.length_cons, length_lineStartsFrom] at cut

/-- A place on a line is told by the number of the line and by the characters in front of it. -/
theorem position_of_line (h : l.Of text) (holds : l.Holds lead) :
    (ofText text).position (Utf8.byteLength (l.before ++ lead)) =
      ⟨l.number, lead.length + 1⟩ := by
  obtain ⟨rest, inside⟩ := holds.inside
  have split : text = l.before ++ (lead ++ (rest ++ l.after)) := by
    rw [h.text, ← List.append_assoc lead, inside, List.append_assoc]
  have row : (ofText text).row? (Utf8.byteLength (l.before ++ lead)) =
      some (l.before.count '\n') := by
    rw [← holds.count_feed]
    refine row?_of_cut (cut_starts (split.trans (List.append_assoc ..).symm) (Nat.le_refl _) ?_)
    exact fun start member => (mem_lineStartsFrom member).1
  have inText : min (Utf8.byteLength (l.before ++ lead)) (Utf8.byteLength text) =
      Utf8.byteLength (l.before ++ lead) := by
    rw [split, ← List.append_assoc, Utf8.byteLength_append (l.before ++ lead)]
    exact Nat.min_eq_left (Nat.le_add_right _ _)
  have slice : Utf8.slice? (Utf8.byteLength l.before) (Utf8.byteLength (l.before ++ lead)) text =
      some lead := by
    rw [split, Utf8.byteLength_append, Utf8.slice?_byteLength_append]
  simp only [position, text_ofText, inText, row, getElem?_starts h, Option.getD_some, slice,
    TextLine.number]

/-- The text of a line is what is shown of it. -/
theorem lineText_of_line (h : l.Of text) :
    (ofText text).lineText l.number = String.ofList l.shown := by
  have split : text = l.before ++ ((l.shown ++ l.ending) ++ l.after) := by
    rw [h.text, List.append_assoc]
  have starts := starts_ofText split
  -- The next line starts where this one ends, or there is none and the text ends there.
  have stop : (ofText text).starts[l.before.count '\n' + 1]?.getD (Utf8.byteLength text) =
      Utf8.byteLength l.before + Utf8.byteLength (l.shown ++ l.ending) := by
    have next : (ofText text).starts[l.before.count '\n' + 1]? =
        (lineStartsFrom (Utf8.byteLength l.before) ((l.shown ++ l.ending) ++ l.after))[0]? := by
      rw [starts, List.getElem?_append_right (by simp [length_lineStartsFrom])]
      simp [length_lineStartsFrom]
    rw [next, split]
    generalize ending : l.ending = e, behind : l.after = a
    have ends := h.ending
    rw [ending, behind] at ends
    cases ends with
    | feed returns =>
      have line : '\n' ∉ l.shown ++ List.replicate returns '\r' := by
        simp [h.single]
      rw [← List.append_assoc l.shown, List.append_assoc, lineStartsFrom_append,
        lineStartsFrom_of_not_mem line]
      simp [lineStartsFrom]
      rfl
    | last returns =>
      have line : '\n' ∉ l.shown ++ List.replicate returns '\r' := by
        simp [h.single]
      rw [List.append_nil, lineStartsFrom_of_not_mem line]
      simp
  have slice : Utf8.slice? (Utf8.byteLength l.before)
      (Utf8.byteLength l.before + Utf8.byteLength (l.shown ++ l.ending)) text =
      some (l.shown ++ l.ending) := by
    rw [split, Utf8.slice?_byteLength_append]
  have all : ∀ ch ∈ l.ending.reverse, isLineEnd ch = true := by
    intro ch member
    rcases h.ending.returns_or_feed ch (List.mem_reverse.mp member) with rfl | rfl <;> rfl
  have trimmed : ((l.shown ++ l.ending).reverse.dropWhile isLineEnd).reverse = l.shown := by
    rw [List.reverse_append, List.dropWhile_append_of_pos all]
    rcases List.eq_nil_or_concat l.shown with none | ⟨front, ch, some⟩
    · simp [none]
    · have noReturn : ch ≠ '\r' := fun isReturn => h.trimmed (by simp [some, isReturn])
      have noFeed : ch ≠ '\n' := fun isFeed => h.single (by simp [some, isFeed])
      simp [some, isLineEnd, noReturn, noFeed]
  simp only [lineText, TextLine.number, getElem?_starts h, text_ofText, stop, slice,
    Option.getD_some, trimmed]

end LineMap

end SigilAsm
