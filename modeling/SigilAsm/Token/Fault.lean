import SigilAsm.Token.Basic

/-! # Faults of form

A source text that does not follow the grammar is refused with a
`SyntaxError`: the cause, as a `Fault`, and the part of the text it concerns.
All wording is in `Fault.message`.
-/

namespace SigilAsm

/-- The longest source, in bytes, that is read at all. -/
def maxSourceBytes : Nat := 0xffffffff

/-- How many levels of brackets a data expression may have. -/
def maxDataDepth : Nat := 64

/-- What a place of the grammar admits. -/
inductive Expectation where
  | keyword (word : String)
  | kind (kind : Token.Kind)
  -- After a module header or a finished declaration.
  | declaration
  -- After a function header.
  | functionBody
  -- After a labelled block.
  | anotherBlock
  | instruction
  | operand
  deriving DecidableEq, Repr

def Expectation.describe : Expectation → String
  | keyword word => "'" ++ word ++ "'"
  | kind k => k.describe
  | declaration => "'global', 'function' or end of input"
  | functionBody => "';' or '\x7b'"
  | anotherBlock => "'block' or '\x7d'"
  | instruction => "an instruction"
  | operand => "an operand"

/-- Why a text was refused. -/
inductive Fault where
  -- A character that begins no token.
  | strayCharacter (ch : Char)
  -- A sigil without a name right after it.
  | bareSigil (sigil : Sigil)
  -- A control character inside a quoted name.
  | controlInName
  | unclosedName
  -- A character other than printable ASCII inside a string.
  | unprintableInString
  | unclosedString
  -- A data element was due, and the text begins none.
  | noDataElement
  -- A third hexadecimal digit.
  | longByte
  | unexpected (expected : Expectation) (found : Token)
  -- A number that 64 bits do not hold.
  | hugeNumber (digits : String)
  -- A signature count that 8 bits do not hold.
  | hugeCount (value : UInt64)
  | dataTooDeep
  | dataTooLong (limit : Nat)
  | sourceTooLong (bytes : Nat)
  deriving DecidableEq, Repr

/-- A number in hexadecimal, in lower case and without leading zeros. -/
def hexadecimal (n : Nat) : String := String.ofList (Nat.toDigits 16 n)

/-- A character as shown inside a message: printable ASCII as it is, quotes and backslash behind a
backslash, everything else by name or by code point. -/
def escapedCharacter (ch : Char) : String :=
  if ch == '\t' then "\\t"
  else if ch == '\r' then "\\r"
  else if ch == '\n' then "\\n"
  else if ch == '\'' || ch == '"' || ch == '\\' then String.ofList ['\\', ch]
  else if ' ' ≤ ch && ch ≤ '~' then String.ofList [ch]
  else "\\u\x7b" ++ hexadecimal ch.toNat ++ "\x7d"

def Fault.message : Fault → String
  | strayCharacter ch => "unexpected character '" ++ escapedCharacter ch ++ "'"
  | bareSigil sigil => "expected identifier after '" ++ String.ofList [sigil.char] ++ "'"
  | controlInName => "quoted identifier may only contain printable characters"
  | unclosedName => "unterminated quoted identifier"
  | unprintableInString => "string literal may only contain printable ASCII characters"
  | unclosedString => "unterminated string literal"
  | noDataElement => "expected a two-digit hexadecimal byte, string literal or repetition"
  | longByte => "hexadecimal byte literal must have exactly two digits"
  | unexpected expected found => "expected " ++ expected.describe ++ ", found " ++ found.describe
  | hugeNumber digits => "integer '" ++ digits ++ "' is out of range"
  | hugeCount value => "signature count " ++ toString value.toNat ++ " exceeds 255"
  | dataTooDeep => "data expression nested deeper than " ++ toString maxDataDepth ++ " levels"
  | dataTooLong limit => "data expression exceeds " ++ toString limit ++ " bytes"
  | sourceTooLong bytes =>
    "source is " ++ toString bytes ++ " bytes, more than the " ++ toString maxSourceBytes
      ++ " byte limit"

structure SyntaxError where
  fault : Fault
  extent : Extent
  deriving DecidableEq, Repr

end SigilAsm
