import SigilAsm.Instruction
import SigilAsm.Token.Basic

/-! # Statements

A source text is a sequence of statements, and this is what is left of it when
layout, comments and ways of quoting are forgotten.  Names are still names: a
statement does not know what they stand for.
-/

namespace SigilAsm

/-- What an operation is applied to, as written. -/
inductive Argument where
  | name (sigil : Sigil) (ident : Ident)
  | number (value : UInt64)
  deriving DecidableEq, Repr

/-- One step of a source text. -/
inductive Statement where
  | module (name : String)
  | global (ident : Ident) (mutability : Mutability) (data : List UInt8)
  -- The header of a function; what belongs to its body follows.
  | function (ident : Ident) (signature : Signature)
  | localName (ident : Ident)
  -- The header of a block; its instructions follow.
  | block (ident : Ident) (signature : Signature)
  -- The start of the instructions of a body that has no labelled blocks.
  | entryBlock
  | call (target : Ident) (signature : Option Signature)
  -- An operation, of which `closed` says whether it was read up to its semicolon.  One that a
  -- fault of form cuts short still shows the names that stand before the fault.
  | operation (head : Ident) (arguments : List Argument) (closed : Bool)
  deriving DecidableEq, Repr

end SigilAsm
