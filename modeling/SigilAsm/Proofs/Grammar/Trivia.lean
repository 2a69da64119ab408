import SigilAsm.Text.Cursor

/-! # What trivia is

`Trivia` says which texts mean nothing, without reference to how they are
skipped, and `Cursor.skipTrivia_of_trivia` and `Cursor.trivia_skipTrivia` say
that skipping takes exactly such a text and as much of it as there is.

Whether a text is trivia depends on what follows it: a comment without a line
feed has to reach the end of the source.
-/

namespace SigilAsm

/-- `Trivia text rest`: the text is blanks and comments and nothing else, with `rest` after it. -/
inductive Trivia : List Char → List Char → Prop
  | nil {rest : List Char} : Trivia [] rest
  | blank {ch : Char} {text rest : List Char} :
      Cursor.isBlank ch = true → Trivia text rest → Trivia (ch :: text) rest
  | comment {body text rest : List Char} :
      '\n' ∉ body → Trivia text rest → Trivia ('#' :: (body ++ '\n' :: text)) rest
  | lastComment {body : List Char} : '\n' ∉ body → Trivia ('#' :: body) []

/-- Nothing more is trivia: the text is over, or goes on with a character that is neither a blank
nor the start of a comment. -/
def Significant (text : List Char) : Prop :=
  ∀ ch, text.head? = some ch → Cursor.isBlank ch = false ∧ ch ≠ '#'

theorem not_isBlank_hash : Cursor.isBlank '#' = false := rfl

/-- A comment stays one when a character other than the line feed is put into it. -/
theorem Trivia.insertIntoComment {ch : Char} {text rest : List Char} (h : Trivia ('#' :: text) rest)
    (inside : ch ≠ '\n') : Trivia ('#' :: ch :: text) rest := by
  generalize whole : '#' :: text = comment at h
  cases h with
  | nil => cases whole
  | blank blank _ =>
    cases whole
    cases not_isBlank_hash ▸ blank
  | @comment body text _ closed more =>
    cases whole
    have closed' : '\n' ∉ ch :: body := by simp [closed, inside.symm]
    exact .comment closed' more
  | lastComment closed =>
    cases whole
    have closed' : '\n' ∉ ch :: text := by simp [closed, inside.symm]
    exact .lastComment closed'

namespace Cursor

/-- `c.Over text next`: reading the text takes the cursor from `c` to `next`. -/
structure Over (c : Cursor) (text : List Char) (next : Cursor) : Prop where
  rest : c.rest = text ++ next.rest
  offset : next.offset = c.offset + Utf8.byteLength text

theorem Over.refl (c : Cursor) : c.Over [] c := ⟨rfl, rfl⟩

theorem Over.trans {a b c : Cursor} {first second : List Char} (h₁ : a.Over first b)
    (h₂ : b.Over second c) : a.Over (first ++ second) c where
  rest := by rw [h₁.rest, h₂.rest, List.append_assoc]
  offset := by rw [h₂.offset, h₁.offset, Utf8.byteLength_append, Nat.add_assoc]

theorem Over.unique {c a b : Cursor} {text : List Char} (h₁ : c.Over text a) (h₂ : c.Over text b) :
    a = b := by
  have rest : a.rest = b.rest := List.append_cancel_left (h₁.rest.symm.trans h₂.rest)
  have offset : a.offset = b.offset := h₁.offset.trans h₂.offset.symm
  cases a
  cases b
  simp_all

theorem Over.text_unique {c next : Cursor} {a b : List Char} (h₁ : c.Over a next)
    (h₂ : c.Over b next) : a = b :=
  List.append_cancel_right (h₁.rest.symm.trans h₂.rest)

theorem over_skip {c : Cursor} {text rest : List Char} (h : c.rest = text ++ rest) :
    c.Over text (c.skip text.length) where
  rest := by simp [skip, h]
  offset := by simp [skip, h]

theorem Over.behind {c middle next : Cursor} {first second : List Char}
    (h : c.Over (first ++ second) next) (h₁ : c.Over first middle) : middle.Over second next where
  rest := by
    have whole := h₁.rest.symm.trans h.rest
    rw [List.append_assoc] at whole
    exact List.append_cancel_left whole
  offset := by rw [h.offset, h₁.offset, Utf8.byteLength_append, Nat.add_assoc]

theorem Over.eq_skip {c next : Cursor} {text : List Char} (h : c.Over text next) :
    next = c.skip text.length :=
  h.unique (over_skip h.rest)

theorem Over.remaining {c next : Cursor} {text : List Char} (h : c.Over text next) :
    c.remaining = text.length + next.remaining := by
  simp [Cursor.remaining, h.rest]

/-! ## Skipping -/

/-- Inside a comment, everything up to its line feed is skipped. -/
theorem significantFrom_comment (offset : Nat) (body text : List Char) (closed : '\n' ∉ body) :
    significantFrom true offset (body ++ '\n' :: text) =
      significantFrom false (offset + Utf8.byteLength body + 1) text := by
  induction body generalizing offset with
  | nil => rfl
  | cons ch body ih =>
    simp only [List.mem_cons, not_or] at closed
    have goesOn : (ch != '\n') = true := by simpa using Ne.symm closed.1
    simp only [List.cons_append, significantFrom, goesOn, if_true, Utf8.byteLength_cons]
    rw [ih (offset + ch.utf8Size) closed.2]
    congr 1
    omega

/-- A comment without a line feed is skipped up to the end. -/
theorem significantFrom_lastComment (offset : Nat) (body : List Char) (closed : '\n' ∉ body) :
    significantFrom true offset body = ⟨offset + Utf8.byteLength body, []⟩ := by
  induction body generalizing offset with
  | nil => rfl
  | cons ch body ih =>
    simp only [List.mem_cons, not_or] at closed
    have goesOn : (ch != '\n') = true := by simpa using Ne.symm closed.1
    simp only [significantFrom, goesOn, if_true, Utf8.byteLength_cons]
    rw [ih (offset + ch.utf8Size) closed.2, Nat.add_assoc]

theorem significantFrom_trivia {gap rest : List Char} (h : Trivia gap rest) (offset : Nat) :
    significantFrom false offset (gap ++ rest) =
      significantFrom false (offset + Utf8.byteLength gap) rest := by
  induction h generalizing offset with
  | nil => rfl
  | @blank ch text rest blank _ ih =>
    simp only [List.cons_append, significantFrom, blank, if_true, Bool.false_eq_true, if_false,
      Utf8.byteLength_cons]
    rw [ih, Nat.add_assoc]
  | @comment body text rest closed _ ih =>
    have shape : '#' :: (body ++ '\n' :: text) ++ rest =
        '#' :: (body ++ '\n' :: (text ++ rest)) := by
      simp
    rw [shape]
    simp only [significantFrom, not_isBlank_hash, Bool.false_eq_true, if_false, beq_self_eq_true,
      if_true]
    rw [significantFrom_comment _ _ _ closed, ih]
    congr 1
    simp only [Utf8.byteLength_cons, Utf8.byteLength_append]
    have one : '\n'.utf8Size = 1 := rfl
    omega
  | @lastComment body closed =>
    simp only [List.append_nil, significantFrom, not_isBlank_hash, Bool.false_eq_true, if_false,
      beq_self_eq_true, if_true]
    rw [significantFrom_lastComment _ _ closed, Utf8.byteLength_cons, Nat.add_assoc]

theorem significantFrom_of_significant {text : List Char} (h : Significant text) (offset : Nat) :
    significantFrom false offset text = ⟨offset, text⟩ := by
  cases text with
  | nil => rfl
  | cons ch rest =>
    obtain ⟨notBlank, notComment⟩ := h ch rfl
    simp [significantFrom, notBlank, notComment]

/-- Skipping takes a whole text of trivia, and nothing of what follows. -/
theorem skipTrivia_of_trivia {c start : Cursor} {gap : List Char} (covers : c.Over gap start)
    (trivia : Trivia gap start.rest) (significant : Significant start.rest) :
    c.skipTrivia = start := by
  rw [skipTrivia, covers.rest, significantFrom_trivia trivia,
    significantFrom_of_significant significant, ← covers.offset]

/-- What is skipped from a place inside or outside a comment.  Inside one, the text is trivia
together with the `#` in front of it. -/
theorem trivia_significantFrom (inComment : Bool) (offset : Nat) (text : List Char) :
    ∃ gap, (⟨offset, text⟩ : Cursor).Over gap (significantFrom inComment offset text) ∧
      Trivia (if inComment then '#' :: gap else gap) (significantFrom inComment offset text).rest ∧
      Significant (significantFrom inComment offset text).rest := by
  induction text generalizing inComment offset with
  | nil =>
    refine ⟨[], .refl _, ?_, fun _ h => by cases h⟩
    cases inComment with
    | false => exact .nil
    | true => exact .lastComment (by simp)
  | cons ch rest ih =>
    have step : (⟨offset, ch :: rest⟩ : Cursor).Over [ch] ⟨offset + ch.utf8Size, rest⟩ :=
      ⟨rfl, by simp⟩
    cases inComment with
    | true =>
      obtain ⟨gap, covers, trivia, significant⟩ := ih (ch != '\n') (offset + ch.utf8Size)
      refine ⟨ch :: gap, step.trans covers, ?_, significant⟩
      simp only [significantFrom, if_true]
      -- A line feed ends the comment that the `#` began; any other character is put into it.
      by_cases h : ch = '\n'
      · subst h
        exact Trivia.comment (List.not_mem_nil) (by simpa using trivia)
      · refine Trivia.insertIntoComment ?_ h
        simpa [h] using trivia
    | false =>
      simp only [significantFrom, Bool.false_eq_true, if_false]
      by_cases blank : isBlank ch = true
      · obtain ⟨gap, covers, trivia, significant⟩ := ih false (offset + ch.utf8Size)
        rw [if_pos blank]
        exact ⟨ch :: gap, step.trans covers, .blank blank trivia, significant⟩
      · rw [if_neg blank]
        by_cases comment : ch = '#'
        · obtain ⟨gap, covers, trivia, significant⟩ := ih true (offset + ch.utf8Size)
          subst comment
          exact ⟨'#' :: gap, step.trans covers, trivia, significant⟩
        · have stays : (ch == '#') = false := by simpa using comment
          rw [if_neg (by simp [stays])]
          refine ⟨[], .refl _, .nil, ?_⟩
          intro first h
          cases h
          exact ⟨by simpa using blank, comment⟩

/-- What is skipped is trivia, and none follows. -/
theorem trivia_skipTrivia (c : Cursor) :
    ∃ gap, c.Over gap c.skipTrivia ∧ Trivia gap c.skipTrivia.rest ∧
      Significant c.skipTrivia.rest :=
  trivia_significantFrom false c.offset c.rest

end Cursor

end SigilAsm
