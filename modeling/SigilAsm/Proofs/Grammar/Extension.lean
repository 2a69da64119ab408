import SigilAsm.Proofs.Grammar.Acceptance

/-! # Text that is appended

Lexemes stay what they are when more text follows a line feed after them: no
lexeme goes on over a line feed, and trivia between lexemes never reached the
end of the text.  So the statements of an accepted text are the first that are
read of any text that goes on after it on a new line.
-/

namespace SigilAsm

/-- Trivia that something follows is trivia whatever follows. -/
theorem Trivia.of_ne_nil {text rest : List Char} (h : Trivia text rest) (followed : rest ≠ [])
    (other : List Char) : Trivia text other := by
  induction h with
  | nil => exact .nil
  | blank blank _ ih => exact .blank blank (ih followed)
  | comment closed _ ih => exact .comment closed (ih followed)
  | lastComment _ => cases followed rfl

namespace Cursor

/-- The same place, with more text after the end. -/
def extend (c : Cursor) (more : List Char) : Cursor := ⟨c.offset, c.rest ++ more⟩

variable {c next : Cursor} {text more : List Char}

theorem Over.extend (h : c.Over text next) (more : List Char) :
    (c.extend more).Over text (next.extend more) where
  rest := by simp only [Cursor.extend, h.rest, List.append_assoc]
  offset := h.offset

/-- A lexeme is read as before if what is appended begins with a line feed. -/
theorem at_extend {l : Lexeme} (h : l.At c text next) (more : List Char) :
    l.At (c.extend ('\n' :: more)) text (next.extend ('\n' :: more)) where
  covers := h.covers.extend _
  spelling := h.spelling
  longest := by
    have ends := (longest_iff_ends h.spelling).mp h.longest
    refine (longest_iff_ends h.spelling).mpr fun ch head => ?_
    cases left : next.rest with
    | nil =>
      simp only [Cursor.extend, left, List.nil_append, List.head?_cons, Option.some.injEq] at head
      exact l.goesOn_trivia text (.inl (head ▸ rfl))
    | cons first rest =>
      simp only [Cursor.extend, left, List.cons_append, List.head?_cons, Option.some.injEq] at head
      exact ends ch (by rw [left, ← head, List.head?_cons])
  located := h.located

theorem Spells.extend {ls : List Lexeme} (h : c.Spells ls next) (more : List Char) :
    (c.extend ('\n' :: more)).Spells ls (next.extend ('\n' :: more)) := by
  induction h with
  | nil => exact .nil _
  | @cons c start middle next gap text l ls covers trivia at_ _ ih =>
    have followed : start.rest ≠ [] := by
      rw [at_.covers.rest]
      exact List.append_ne_nil_of_left_ne_nil at_.spelling.ne_nil _
    exact .cons (covers.extend _) (trivia.of_ne_nil followed _) (at_extend at_ more) ih

theorem ofString_append_line (s t : String) :
    Cursor.ofString (s ++ "\n" ++ t) = (Cursor.ofString s).extend ('\n' :: t.toList) := by
  simp [Cursor.ofString, Cursor.extend]

end Cursor

/-- Of a text that begins with the text of a tree and a line feed, the statements of the tree are
read first. -/
theorem Tree.Module.IsTreeOf.exists_items_read_append {m : Tree.Module} {limit : Nat} {s : String}
    (h : m.IsTreeOf limit s) (t : String)
    (short : (s ++ "\n" ++ t).utf8ByteSize ≤ maxSourceBytes) :
    ∃ more, (Statement.read limit (s ++ "\n" ++ t)).items = m.statements ++ more := by
  obtain ⟨⟨stop, spells, -⟩, admissible⟩ := h
  have longer := spells.extend t.toList
  rw [← Cursor.ofString_append_line] at longer
  rw [Statement.read, if_pos short]
  exact Grammar.exists_items_wholeModule_of_spells admissible longer

end SigilAsm
