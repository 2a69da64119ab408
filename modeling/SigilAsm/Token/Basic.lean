import SigilAsm.Text.Extent

/-! # Tokens

The words, names, numbers, strings and marks that a source text is made of.
Names come in three families told apart by a leading *sigil*: `$` for builtin
vocabulary, `@` for what a whole module shares, `%` for what one function body
declares.
-/

namespace SigilAsm

/-- The family of a name, written as the character in front of it. -/
inductive Sigil where
  -- `$name`: an operation or type of the vocabulary.
  | builtin
  -- `@name`: a module, global or function.
  | global
  -- `%name`: a local or block of one function body.
  | inner
  deriving DecidableEq, Repr

namespace Sigil

def char : Sigil → Char
  | builtin => '$'
  | global => '@'
  | inner => '%'

def ofChar? : Char → Option Sigil
  | '$' => some builtin
  | '@' => some global
  | '%' => some inner
  | _ => none

@[simp] theorem ofChar?_char (s : Sigil) : ofChar? s.char = some s := by
  cases s <;> rfl

theorem ofChar?_eq_some_iff {ch : Char} {s : Sigil} : ofChar? ch = some s ↔ ch = s.char := by
  constructor
  · intro h
    unfold ofChar? at h
    split at h <;> simp_all [char] <;> subst h <;> rfl
  · rintro rfl
    exact ofChar?_char s

end Sigil

namespace Token

inductive Kind where
  -- The end of the text, a token of no characters.
  | endOfInput
  -- A bare word; keywords are words.
  | word
  -- A name in single quotes without a sigil.
  | quoted
  -- A sigil and the name right after it.
  | name (sigil : Sigil)
  | integer
  -- Printable ASCII in double quotes.
  | string
  | semicolon
  | equals
  | comma
  | star
  | openBracket
  | closeBracket
  | openBrace
  | closeBrace
  | arrow
  deriving DecidableEq, Repr

namespace Kind

def describe : Kind → String
  | endOfInput => "end of input"
  | word => "identifier"
  | quoted => "quoted identifier"
  | name .builtin => "builtin identifier"
  | name .global => "global identifier"
  | name .inner => "local identifier"
  | integer => "integer"
  | string => "string literal"
  | semicolon => "';'"
  | equals => "'='"
  | comma => "','"
  | star => "'*'"
  | openBracket => "'['"
  | closeBracket => "']'"
  | openBrace => "'\x7b'"
  | closeBrace => "'\x7d'"
  | arrow => "'=>'"

/-- The kinds that are spelt by one character of their own.  An equals sign is not among them,
since it may begin an arrow. -/
def ofMark? : Char → Option Kind
  | ';' => some semicolon
  | ',' => some comma
  | '*' => some star
  | '[' => some openBracket
  | ']' => some closeBracket
  | '{' => some openBrace
  | '}' => some closeBrace
  | _ => none

end Kind

end Token

/-- A token, where it stands, and what it says.  The payload leaves out sigil and quotes; it is
given both by its place in the source and as text. -/
structure Token where
  kind : Token.Kind
  extent : Extent
  payload : Extent
  text : String
  deriving DecidableEq, Repr

namespace Token

def isWord (t : Token) (word : String) : Bool := t.kind == .word && t.text == word

/-- How an error message refers to the token: words and numbers are shown as written. -/
def describe (t : Token) : String :=
  match t.kind with
  | .word | .integer => "'" ++ t.text ++ "'"
  | kind => kind.describe

end Token

/-- A name as it was used somewhere: its text without sigil and quotes, and the extent it covers
with them. -/
structure Ident where
  name : String
  extent : Extent
  deriving DecidableEq, Repr

end SigilAsm
