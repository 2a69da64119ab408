import SigilAsm.Proofs.Grammar.Trivia
import SigilAsm.Statement.Rule

/-! # Lexemes

The terminal symbols of the grammar, how each may be written, and what it means
for a source text to be a sequence of them.  Nothing here refers to the scanner:
`Lexeme.Spelling` lists the written forms, and `Cursor.Spells` reads lexemes one
after the other, each as long as it can be, with trivia in front of them.
-/

namespace SigilAsm

/-- The lexemes that are always written the same way. -/
inductive Mark where
  | semicolon
  | equals
  | comma
  | star
  | openBracket
  | closeBracket
  | openBrace
  | closeBrace
  | arrow
  deriving DecidableEq, Repr

namespace Mark

def kind : Mark → Token.Kind
  | semicolon => .semicolon
  | equals => .equals
  | comma => .comma
  | star => .star
  | openBracket => .openBracket
  | closeBracket => .closeBracket
  | openBrace => .openBrace
  | closeBrace => .closeBrace
  | arrow => .arrow

/-- How the mark is written. -/
def chars : Mark → List Char
  | semicolon => [';']
  | equals => ['=']
  | comma => [',']
  | star => ['*']
  | openBracket => ['[']
  | closeBracket => [']']
  | openBrace => ['\x7b']
  | closeBrace => ['\x7d']
  | arrow => ['=', '>']

theorem kind_injective {a b : Mark} (h : a.kind = b.kind) : a = b := by
  cases a <;> cases b <;> first | rfl | cases h

end Mark

/-- A terminal symbol of the grammar, with what it says.  A name also tells where it stands. -/
inductive Lexeme where
  -- A bare word; keywords are words.
  | word (text : String)
  -- A name in single quotes without a sigil, which no rule of the grammar admits.
  | quoted (text : String)
  | name (sigil : Sigil) (ident : Ident)
  | integer (value : Nat)
  | string (text : String)
  -- Two hexadecimal digits; only the data of a global is made of these.
  | byte (value : UInt8)
  | mark (mark : Mark)
  deriving DecidableEq, Repr

namespace Lexeme

/-- Text that can be a name without quotes: a letter, underscore or full stop, and then digits as
well. -/
def IsBareName : List Char → Prop
  | [] => False
  | ch :: rest => Token.isWordStart ch = true ∧ ∀ ch ∈ rest, Token.isWordPart ch = true

/-- `l.Spelling text`: the text is a written form of the lexeme. -/
inductive Spelling : Lexeme → List Char → Prop
  | word {text : List Char} : IsBareName text → Spelling (.word (String.ofList text)) text
  | quoted {text : List Char} : (∀ ch ∈ text, Token.isQuotable ch = true) →
      Spelling (.quoted (String.ofList text)) ('\'' :: (text ++ ['\'']))
  | bareName {sigil : Sigil} {text : List Char} {extent : Extent} : IsBareName text →
      Spelling (.name sigil ⟨String.ofList text, extent⟩) (sigil.char :: text)
  | quotedName {sigil : Sigil} {text : List Char} {extent : Extent} :
      (∀ ch ∈ text, Token.isQuotable ch = true) →
      Spelling (.name sigil ⟨String.ofList text, extent⟩)
        (sigil.char :: '\'' :: (text ++ ['\'']))
  | integer {digits : List Char} : digits ≠ [] → (∀ ch ∈ digits, ch.isDigit = true) →
      Spelling (.integer (Rule.decimalValue digits)) digits
  | string {text : List Char} : (∀ ch ∈ text, Token.isStringPart ch = true) →
      Spelling (.string (String.ofList text)) ('"' :: (text ++ ['"']))
  | byte {high low : Char} {h l : UInt8} : Token.hexDigit? high = some h →
      Token.hexDigit? low = some l → Spelling (.byte (h * 16 + l)) [high, low]
  | mark (mark : Mark) : Spelling (.mark mark) mark.chars

def IsByte : Lexeme → Prop
  | byte _ => True
  | _ => False

/-- The text is read as far as it goes: with `rest` after it, no longer piece of the source is a
lexeme.  Bytes do not compete with the other lexemes, since the place decides between them; a byte
is over when no third digit follows. -/
def Longest (l : Lexeme) (text rest : List Char) : Prop :=
  match l with
  | .byte _ => ∀ ch, rest.head? = some ch → Token.hexDigit? ch = none
  | _ => ∀ more, more ≠ [] → more <+: rest → ∀ other : Lexeme, ¬ other.IsByte →
      ¬ other.Spelling (text ++ more)

/-- A name tells the extent that it covers, sigil and quotes included. -/
def Located (l : Lexeme) (start stop : Nat) : Prop :=
  match l with
  | .name _ ident => ident.extent = .between start stop
  | _ => True

/-- `l.At start text next`: the lexeme is read as `text`, from `start` up to `next`. -/
structure At (l : Lexeme) (start : Cursor) (text : List Char) (next : Cursor) : Prop where
  covers : start.Over text next
  spelling : l.Spelling text
  longest : l.Longest text next.rest
  located : l.Located start.offset next.offset

theorem Spelling.ne_nil {l : Lexeme} {text : List Char} (h : l.Spelling text) : text ≠ [] := by
  cases h with
  | word bare => exact fun empty => by simp [empty, IsBareName] at bare
  | integer digits _ => exact digits
  | mark mark => cases mark <;> simp [Mark.chars]
  | _ => simp

/-- A class of characters that has no blank in it and no `#`. -/
theorem significant_of_class {p : Char → Bool} {ch : Char} {rest : List Char} (h : p ch = true)
    (none : [' ', '\t', '\n', '\r', '\x0b', '\x0c', '#'].any p = false) :
    Significant (ch :: rest) := by
  rintro _ ⟨⟩
  have differs : ∀ b ∈ [' ', '\t', '\n', '\r', '\x0b', '\x0c', '#'], ch ≠ b := by
    rintro b member rfl
    exact absurd (List.any_eq_true.mpr ⟨ch, member, h⟩) (Bool.eq_false_iff.mp none)
  simp only [List.mem_cons, List.not_mem_nil, or_false, forall_eq_or_imp, forall_eq] at differs
  simp [Cursor.isBlank, differs]

theorem Spelling.significant {l : Lexeme} {text : List Char} (h : l.Spelling text)
    (rest : List Char) : Significant (text ++ rest) := by
  cases h with
  | @word text bare =>
    cases text with
    | nil => cases bare
    | cons ch text => exact significant_of_class bare.1 rfl
  | @integer digits some all =>
    cases text with
    | nil => cases some rfl
    | cons ch text => exact significant_of_class (all ch (by simp)) rfl
  | byte high _ =>
    exact significant_of_class (p := fun ch => (Token.hexDigit? ch).isSome) (by simp [high])
      rfl
  | @bareName sigil | @quotedName sigil =>
    cases sigil <;>
      · rintro _ ⟨⟩
        decide
  | mark mark =>
    cases mark <;>
      · rintro _ ⟨⟩
        decide
  | quoted _ | string _ =>
    rintro _ ⟨⟩
    decide

end Lexeme

/-! ## Forms of tokens -/

/-- The text does not begin with a character of the class. -/
def StopsAt (p : Char → Bool) (rest : List Char) : Prop :=
  ∀ ch, rest.head? = some ch → p ch = false

open Lexeme (IsBareName) in
/-- `kind.Form opening inside closing rest`: a token of the kind that shows `inside` is written with
`opening` before and `closing` after it, where the text goes on with `rest`.  Numbers, words and
bare names are as long as they can be, and an equals sign is none if it begins an arrow. -/
inductive Token.Kind.Form : Token.Kind → List Char → List Char → List Char → List Char → Prop
  | endOfInput : Form .endOfInput [] [] [] []
  | mark {m : Mark} {rest : List Char} : (m = .equals → rest.head? ≠ some '>') →
      Form m.kind [] m.chars [] rest
  | integer {digits rest : List Char} : digits ≠ [] → (∀ ch ∈ digits, ch.isDigit = true) →
      StopsAt Char.isDigit rest → Form .integer [] digits [] rest
  | word {name rest : List Char} : IsBareName name → StopsAt Token.isWordPart rest →
      Form .word [] name [] rest
  | quoted {name rest : List Char} : (∀ ch ∈ name, Token.isQuotable ch = true) →
      Form .quoted ['\''] name ['\''] rest
  | bareName {sigil : Sigil} {name rest : List Char} : IsBareName name →
      StopsAt Token.isWordPart rest → Form (.name sigil) [sigil.char] name [] rest
  | quotedName {sigil : Sigil} {name rest : List Char} :
      (∀ ch ∈ name, Token.isQuotable ch = true) →
      Form (.name sigil) [sigil.char, '\''] name ['\''] rest
  | string {text rest : List Char} : (∀ ch ∈ text, Token.isStringPart ch = true) →
      Form .string ['"'] text ['"'] rest

/-- Only the end of input has no characters. -/
theorem Token.Kind.Form.ne_nil {kind : Token.Kind} {opening inside closing rest : List Char}
    (h : kind.Form opening inside closing rest) (some : kind ≠ .endOfInput) :
    opening ++ (inside ++ closing) ≠ [] := by
  cases h with
  | endOfInput => exact absurd rfl some
  | @mark m => cases m <;> simp [Mark.chars]
  | integer digits => simpa using digits
  | word bare => exact fun empty => by simp_all [Lexeme.IsBareName]
  | quoted _ | bareName _ _ | quotedName _ | string _ => simp

/-- The end of input has nothing after it. -/
theorem Token.Kind.Form.eq_nil {kind : Token.Kind} {opening inside closing rest : List Char}
    (h : kind.Form opening inside closing rest) (last : kind = .endOfInput) :
    opening ++ (inside ++ closing) = [] ∧ rest = [] := by
  cases h with
  | endOfInput => exact ⟨rfl, rfl⟩
  | @mark m => cases m <;> cases last
  | integer _ _ _ | word _ _ | quoted _ | bareName _ _ | quotedName _ | string _ => cases last

namespace Cursor

/-- `c.Spells ls next`: from `c` on, the lexemes are read one after the other, each after trivia
that may be empty, and `next` is the place right after the last. -/
inductive Spells : Cursor → List Lexeme → Cursor → Prop
  | nil (c : Cursor) : Spells c [] c
  | cons {c start middle next : Cursor} {gap text : List Char} {l : Lexeme} {ls : List Lexeme} :
      c.Over gap start → Trivia gap start.rest → l.At start text middle →
      Spells middle ls next → Spells c (l :: ls) next

namespace Spells

variable {a b c : Cursor} {l : Lexeme} {ls first second : List Lexeme}

@[simp] theorem nil_iff : a.Spells [] b ↔ b = a := by
  constructor
  · intro h
    cases h
    rfl
  · rintro rfl
    exact .nil _

theorem cons_iff : a.Spells (l :: ls) c ↔ ∃ b, a.Spells [l] b ∧ b.Spells ls c := by
  constructor
  · intro h
    cases h with
    | cons covers trivia at_ more => exact ⟨_, .cons covers trivia at_ (.nil _), more⟩
  · rintro ⟨b, h, more⟩
    cases h with
    | cons covers trivia at_ none =>
      cases none
      exact .cons covers trivia at_ more

theorem append (h₁ : a.Spells first b) (h₂ : b.Spells second c) : a.Spells (first ++ second) c := by
  induction h₁ with
  | nil => exact h₂
  | cons covers trivia at_ _ ih => exact .cons covers trivia at_ (ih h₂)

theorem append_iff :
    a.Spells (first ++ second) c ↔ ∃ b, a.Spells first b ∧ b.Spells second c := by
  constructor
  · intro h
    induction first generalizing a with
    | nil => exact ⟨a, .nil a, h⟩
    | cons l ls ih =>
      obtain ⟨middle, hl, more⟩ := cons_iff.mp h
      obtain ⟨b, h₁, h₂⟩ := ih more
      exact ⟨b, cons_iff.mpr ⟨middle, hl, h₁⟩, h₂⟩
  · rintro ⟨b, h₁, h₂⟩
    exact h₁.append h₂

theorem remaining_le (h : a.Spells ls b) : b.remaining ≤ a.remaining := by
  induction h with
  | nil => exact Nat.le_refl _
  | cons covers _ at_ _ ih =>
    rw [covers.remaining, at_.covers.remaining]
    omega

theorem remaining_lt (h : a.Spells ls b) (some : ls ≠ []) : b.remaining < a.remaining := by
  cases h with
  | nil => cases some rfl
  | cons covers _ at_ more =>
    have taken := List.length_pos_iff.mpr at_.spelling.ne_nil
    have rest := more.remaining_le
    rw [covers.remaining, at_.covers.remaining]
    omega

end Spells

end Cursor

end SigilAsm
