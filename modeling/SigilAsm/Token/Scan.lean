import SigilAsm.Text.Cursor
import SigilAsm.Token.Fault

/-! # Scanning

Tokens are read on demand, since the reading of data expressions takes two
hexadecimal digits where the rest of the language takes words and numbers.

`Cursor.scan` reads the next token and `Cursor.scanByte` the next hexadecimal
byte.  Both also say where reading goes on after an error.  Whatever
succeeds, the end of input apart, leaves fewer characters to be read
(`remaining_scan_lt`, `remaining_scanByte_lt`), which is what bounds every loop
of the grammar.
-/

namespace SigilAsm

namespace Token

/-- Letters of ASCII, underscore and full stop begin a bare name. -/
def isWordStart (ch : Char) : Bool := ch.isAlpha || ch == '_' || ch == '.'

/-- A bare name goes on with what may begin one and with digits. -/
def isWordPart (ch : Char) : Bool := isWordStart ch || ch.isDigit

/-- Control characters: U+0000 to U+001F and U+007F to U+009F. -/
def isControl (ch : Char) : Bool := ch.toNat < 0x20 || (0x7f ≤ ch.toNat && ch.toNat < 0xa0)

/-- What may stand between the quotes of a quoted name. -/
def isQuotable (ch : Char) : Bool := ch != '\'' && !isControl ch

/-- What may stand between the quotes of a string: printable ASCII except the quote. -/
def isStringPart (ch : Char) : Bool := ' ' ≤ ch && ch ≤ '~' && ch != '"'

/-- The value of a hexadecimal digit in either case. -/
def hexDigit? (ch : Char) : Option UInt8 :=
  if ch.isDigit then some (ch.toNat - '0'.toNat).toUInt8
  else if 'a' ≤ ch && ch ≤ 'f' then some (ch.toNat - 'a'.toNat + 10).toUInt8
  else if 'A' ≤ ch && ch ≤ 'F' then some (ch.toNat - 'A'.toNat + 10).toUInt8
  else none

end Token

namespace Cursor

open Token (isWordStart isWordPart isQuotable isStringPart hexDigit?)

/-- The token made of the next `length` characters, whose payload leaves out the first `opening`
and the last `closing` of them. -/
def lexeme (c : Cursor) (kind : Token.Kind) (length opening closing : Nat) :
    Except SyntaxError Token × Cursor :=
  let stop := c.skip length
  let inside := (c.rest.take (length - closing)).drop opening
  let first := (c.skip opening).offset
  (.ok {
    kind
    extent := .between c.offset stop.offset
    payload := .between first (first + Utf8.byteLength inside)
    text := String.ofList inside }, stop)

/-- Refuses the text from `c` to `stop`; reading would go on at `next`. -/
def refuse {α : Type} (c : Cursor) (fault : Fault) (stop : Nat) (next : Cursor) :
    Except SyntaxError α × Cursor :=
  (.error ⟨fault, .between c.offset stop⟩, next)

/-- The token of a quoted name, of which the first `opening` characters lead up to the text
between the quotes. -/
def scanQuoted (c : Cursor) (kind : Token.Kind) (opening : Nat) :
    Except SyntaxError Token × Cursor :=
  let inside := c.skip opening
  let length := (inside.rest.takeWhile isQuotable).length
  let stop := inside.skip length
  match stop.rest with
  | [] => (c.skip (opening - 1)).refuse .unclosedName stop.offset stop
  | ch :: _ =>
    if ch == '\'' then c.lexeme kind (opening + length + 1) opening 1
    else stop.refuse .controlInName (stop.offset + ch.utf8Size) inside

def scanString (c : Cursor) : Except SyntaxError Token × Cursor :=
  let inside := c.skip 1
  let length := (inside.rest.takeWhile isStringPart).length
  let stop := inside.skip length
  match stop.rest with
  | [] => c.refuse .unclosedString stop.offset stop
  | ch :: _ =>
    if ch == '"' then c.lexeme .string (length + 2) 1 1
    else if ch == '\n' || ch == '\r' then c.refuse .unclosedString stop.offset stop
    else stop.refuse .unprintableInString (stop.offset + 1) stop

def scanName (c : Cursor) (sigil : Sigil) : Except SyntaxError Token × Cursor :=
  let inside := c.skip 1
  let bare := c.refuse (.bareSigil sigil) inside.offset inside
  match inside.rest with
  | [] => bare
  | ch :: _ =>
    if ch == '\'' then c.scanQuoted (.name sigil) 2
    else if isWordStart ch then
      c.lexeme (.name sigil) (1 + (inside.rest.takeWhile isWordPart).length) 1 0
    else bare

/-- The token that the given first character begins. -/
def scanAt (c : Cursor) (ch : Char) : Except SyntaxError Token × Cursor :=
  if ch == '=' then
    if c.rest[1]? == some '>' then c.lexeme .arrow 2 0 0 else c.lexeme .equals 1 0 0
  else if ch == '"' then c.scanString
  else if ch == '\'' then c.scanQuoted .quoted 1
  else if ch.isDigit then c.lexeme .integer (c.rest.takeWhile Char.isDigit).length 0 0
  else if isWordStart ch then c.lexeme .word (c.rest.takeWhile isWordPart).length 0 0
  else
    match Token.Kind.ofMark? ch, Sigil.ofChar? ch with
    | some kind, _ => c.lexeme kind 1 0 0
    | none, some sigil => c.scanName sigil
    | none, none => c.refuse (.strayCharacter ch) (c.offset + ch.utf8Size) c

/-- Reads the next token, the longest that the text begins with after its trivia. -/
def scan (c : Cursor) : Except SyntaxError Token × Cursor :=
  let c := c.skipTrivia
  match c.rest with
  | [] => c.lexeme .endOfInput 0 0 0
  | ch :: _ => c.scanAt ch

def peek (c : Cursor) : Except SyntaxError Token := c.scan.1

/-- Reads two hexadecimal digits, not followed by a third, as one byte. -/
def scanByte (c : Cursor) : Except SyntaxError (UInt8 × Extent) × Cursor :=
  let c := c.skipTrivia
  match c.rest.head?.bind hexDigit?, c.rest[1]?.bind hexDigit? with
  | some high, some low =>
    let stop := c.skip 2
    if (stop.rest.head?.bind hexDigit?).isSome then c.refuse .longByte (stop.offset + 1) stop
    else (.ok (high * 16 + low, .between c.offset stop.offset), stop)
  | _, _ => c.refuse .noDataElement c.offset c

/-! ## Progress -/

theorem remaining_lexeme_lt {c next : Cursor} {kind : Token.Kind} {length opening closing : Nat}
    {t : Token} (h : c.lexeme kind length opening closing = (.ok t, next))
    (hlength : 0 < length) (hrest : c.rest ≠ []) : next.remaining < c.remaining := by
  simp only [lexeme, Prod.mk.injEq] at h
  have : 0 < c.remaining := List.length_pos_iff.mpr hrest
  rw [← h.2, remaining_skip]
  omega

theorem kind_lexeme {c next : Cursor} {kind : Token.Kind} {length opening closing : Nat}
    {t : Token} (h : c.lexeme kind length opening closing = (.ok t, next)) : t.kind = kind := by
  simp only [lexeme, Prod.mk.injEq, Except.ok.injEq] at h
  rw [← h.1]

theorem length_takeWhile_pos {p : Char → Bool} {ch : Char} {cs : List Char} (h : p ch = true) :
    0 < ((ch :: cs).takeWhile p).length := by
  simp [h]

theorem remaining_scanQuoted_lt {c next : Cursor} {kind : Token.Kind} {opening : Nat} {t : Token}
    (h : c.scanQuoted kind opening = (.ok t, next)) (hrest : c.rest ≠ []) :
    next.remaining < c.remaining := by
  simp only [scanQuoted, refuse] at h
  split at h
  · simp at h
  · split at h
    · exact remaining_lexeme_lt h (by omega) hrest
    · simp at h

theorem remaining_scanString_lt {c next : Cursor} {t : Token}
    (h : c.scanString = (.ok t, next)) (hrest : c.rest ≠ []) : next.remaining < c.remaining := by
  simp only [scanString, refuse] at h
  split at h
  · simp at h
  · split at h
    · exact remaining_lexeme_lt h (by omega) hrest
    · split at h <;> simp at h

theorem remaining_scanName_lt {c next : Cursor} {sigil : Sigil} {t : Token}
    (h : c.scanName sigil = (.ok t, next)) (hrest : c.rest ≠ []) :
    next.remaining < c.remaining := by
  simp only [scanName, refuse] at h
  split at h
  · simp at h
  · split at h
    · exact remaining_scanQuoted_lt h hrest
    · split at h
      · exact remaining_lexeme_lt h (by omega) hrest
      · simp at h

theorem remaining_scanAt_lt {c next : Cursor} {ch : Char} {cs : List Char} {t : Token}
    (h : c.scanAt ch = (.ok t, next)) (hrest : c.rest = ch :: cs) :
    next.remaining < c.remaining := by
  have some : c.rest ≠ [] := by simp [hrest]
  unfold scanAt at h
  repeat' split at h
  · exact remaining_lexeme_lt h (by omega) some
  · exact remaining_lexeme_lt h (by omega) some
  · exact remaining_scanString_lt h some
  · exact remaining_scanQuoted_lt h some
  · exact remaining_lexeme_lt h (by rw [hrest]; exact length_takeWhile_pos ‹_›) some
  · refine remaining_lexeme_lt h ?_ some
    rw [hrest]
    exact length_takeWhile_pos (by simp_all [isWordPart])
  · exact remaining_lexeme_lt h (by omega) some
  · exact remaining_scanName_lt h some
  · simp [refuse] at h

theorem remaining_scan_lt {c next : Cursor} {t : Token} (h : c.scan = (.ok t, next))
    (hkind : t.kind ≠ .endOfInput) : next.remaining < c.remaining := by
  have blank := c.remaining_skipTrivia_le
  simp only [scan] at h
  split at h
  · exact absurd (kind_lexeme h) hkind
  · exact Nat.lt_of_lt_of_le (remaining_scanAt_lt h ‹_›) blank

theorem remaining_scanByte_lt {c next : Cursor} {b : UInt8 × Extent}
    (h : c.scanByte = (.ok b, next)) : next.remaining < c.remaining := by
  have blank := c.remaining_skipTrivia_le
  simp only [scanByte, refuse] at h
  split at h
  · split at h
    · simp at h
    · simp only [Prod.mk.injEq] at h
      have digit : c.skipTrivia.rest ≠ [] := by
        intro empty
        simp_all
      have : 0 < c.skipTrivia.remaining := List.length_pos_iff.mpr digit
      rw [← h.2, remaining_skip]
      omega
  · simp at h

/-! ## All tokens -/

/-- The tokens from a place on, of which the last is the end of input, or those in front of the
first error. -/
def tokens (c : Cursor) : List Token × Option SyntaxError :=
  match scanned : c.scan with
  | (.error e, _) => ([], some e)
  | (.ok t, next) =>
    if last : t.kind = .endOfInput then ([t], none)
    else
      have := remaining_scan_lt scanned last
      let more := next.tokens
      (t :: more.1, more.2)
termination_by c.remaining

theorem tokens_of_error {c next : Cursor} {e : SyntaxError} (h : c.scan = (.error e, next)) :
    c.tokens = ([], some e) := by
  rw [tokens]
  split
  · next scanned => cases h.symm.trans scanned; rfl
  · next scanned => cases h.symm.trans scanned

theorem tokens_of_last {c next : Cursor} {t : Token} (h : c.scan = (.ok t, next))
    (last : t.kind = .endOfInput) : c.tokens = ([t], none) := by
  rw [tokens]
  split
  · next scanned => cases h.symm.trans scanned
  · next scanned =>
    cases h.symm.trans scanned
    rw [dif_pos last]

theorem tokens_of_scan {c next : Cursor} {t : Token} (h : c.scan = (.ok t, next))
    (some : t.kind ≠ .endOfInput) : c.tokens = (t :: next.tokens.1, next.tokens.2) := by
  rw [tokens]
  split
  · next scanned => cases h.symm.trans scanned
  · next scanned =>
    cases h.symm.trans scanned
    rw [dif_neg some]

end Cursor

end SigilAsm
