import SigilAsm.Token.Scan

/-! # Queries

What a reader may ask of a cursor, one question after the other.  Reading a
token or a byte moves the cursor, also where it fails; looking ahead leaves it
in front of the same token, although it may be taken over trivia.
-/

namespace SigilAsm

namespace Cursor

inductive Query where
  | token
  -- Read the next hexadecimal byte.
  | byte
  | peek
  -- Look where the next character stands that is not trivia.
  | offset
  -- Look at the first byte of that character.
  | firstByte
  deriving DecidableEq, Repr

/-- Whether a query leaves everything to be read that was. -/
def Query.looksAhead : Query → Bool
  | token | byte => false
  | peek | offset | firstByte => true

inductive Answer where
  | token (result : Except SyntaxError Token)
  | byte (result : Except SyntaxError (UInt8 × Extent))
  | offset (value : Nat)
  -- There is no byte at the end of input.
  | firstByte (value : Option UInt8)

def ask (c : Cursor) : Query → Answer × Cursor
  | .token => let (result, next) := c.scan; (.token result, next)
  | .byte => let (result, next) := c.scanByte; (.byte result, next)
  | .peek => (.token c.peek, c)
  | .offset => (.offset c.skipTrivia.offset, c.skipTrivia)
  | .firstByte => (.firstByte c.peekByte, c.skipTrivia)

/-- The answers to queries in order, whether or not some of them are errors. -/
def askAll (c : Cursor) : List Query → List Answer × Cursor
  | [] => ([], c)
  | query :: rest =>
    let (answer, next) := c.ask query
    let (answers, stop) := next.askAll rest
    (answer :: answers, stop)

end Cursor

end SigilAsm
