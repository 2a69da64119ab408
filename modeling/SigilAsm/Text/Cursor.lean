import SigilAsm.Text.Utf8

/-! # Reading positions

A cursor is what is left to read of a source text, together with the byte
offset it starts at.  It only ever moves over whole characters, so a position
inside a character cannot be expressed.  That a reader of bytes, which might get
there, stands at the same positions is shown by `ByteReader.run_askAll`.

Blank characters and comments mean nothing and are called *trivia*.  A comment
runs from `#` up to the end of its line.
-/

namespace SigilAsm

/-- A place in a source text: its byte offset and the characters from there on. -/
structure Cursor where
  offset : Nat
  rest : List Char
  deriving DecidableEq, Repr

namespace Cursor

def ofString (source : String) : Cursor := ⟨0, source.toList⟩

/-- The place `n` characters further on. -/
def skip (n : Nat) (c : Cursor) : Cursor :=
  ⟨c.offset + Utf8.byteLength (c.rest.take n), c.rest.drop n⟩

/-- The number of characters still to be read; every loop over a text is bounded by it. -/
def remaining (c : Cursor) : Nat := c.rest.length

/-- Space, tab, line feed, carriage return, vertical tab and form feed. -/
def isBlank (ch : Char) : Bool :=
  ch == ' ' || ch == '\t' || ch == '\n' || ch == '\r' || ch == '\x0b' || ch == '\x0c'

/-- The first place that is not trivia, where `inComment` tells whether the text starts inside a
comment. -/
def significantFrom (inComment : Bool) (offset : Nat) : List Char → Cursor
  | [] => ⟨offset, []⟩
  | ch :: rest =>
    if inComment then significantFrom (ch != '\n') (offset + ch.utf8Size) rest
    else if isBlank ch then significantFrom false (offset + ch.utf8Size) rest
    else if ch == '#' then significantFrom true (offset + ch.utf8Size) rest
    else ⟨offset, ch :: rest⟩

/-- The place after all trivia. -/
def skipTrivia (c : Cursor) : Cursor := significantFrom false c.offset c.rest

def peekChar (c : Cursor) : Option Char := c.skipTrivia.rest.head?

/-- The first byte of the next character that is not trivia. -/
def peekByte (c : Cursor) : Option UInt8 :=
  c.peekChar.bind fun ch => (String.utf8EncodeChar ch).head?

@[simp] theorem remaining_skip (n : Nat) (c : Cursor) :
    (c.skip n).remaining = c.remaining - n := by
  simp [skip, remaining]

@[simp] theorem skip_zero (c : Cursor) : c.skip 0 = c := by simp [skip]

theorem skip_skip (m n : Nat) (c : Cursor) : (c.skip m).skip n = c.skip (m + n) := by
  simp [skip, List.take_add, Nat.add_assoc]

theorem head?_skip (n : Nat) (c : Cursor) : (c.skip n).rest.head? = c.rest[n]? := List.head?_drop

theorem remaining_significantFrom_le (inComment : Bool) (offset : Nat) (cs : List Char) :
    (significantFrom inComment offset cs).remaining ≤ cs.length := by
  induction cs generalizing inComment offset with
  | nil => simp [significantFrom, remaining]
  | cons ch rest ih =>
    simp only [significantFrom, List.length_cons]
    split
    · exact Nat.le_succ_of_le (ih _ _)
    · split
      · exact Nat.le_succ_of_le (ih _ _)
      · split
        · exact Nat.le_succ_of_le (ih _ _)
        · simp [remaining]

theorem remaining_skipTrivia_le (c : Cursor) : c.skipTrivia.remaining ≤ c.remaining :=
  remaining_significantFrom_le false c.offset c.rest

end Cursor

end SigilAsm
