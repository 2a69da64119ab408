import SigilAsm.Token.Fault

/-! # Diagnostics

What is reported about a source text: names that are unknown, declared twice or
declared with another signature, none of which stops the assembly of the rest,
and the fault of form that does.
-/

namespace SigilAsm

inductive Entity where
  | global
  | function
  | localName
  | block
  | operation
  | operandType
  deriving DecidableEq, Repr

def Entity.label : Entity → String
  | global => "global"
  | function => "function"
  | localName => "local"
  | block => "block"
  | operation => "builtin function"
  | operandType => "builtin type"

inductive Problem where
  -- A name that stands for nothing.
  | unknown (entity : Entity) (name : String)
  -- A second signature for a name, unlike its first.
  | conflicting (entity : Entity) (name : String)
  -- A second declaration of a name.
  | duplicate (entity : Entity) (name : String)
  -- A text that does not follow the grammar.
  | malformed (message : String)
  deriving DecidableEq, Repr

/-- A problem and the part of the source that shows it. -/
structure Diagnostic where
  problem : Problem
  extent : Extent
  deriving DecidableEq, Repr

namespace Problem

def code : Problem → String
  | malformed _ => "E0001"
  | unknown .. => "E0101"
  | conflicting .. => "E0102"
  | duplicate .. => "E0103"

def message : Problem → String
  | unknown entity name => "unknown " ++ entity.label ++ " name '" ++ name ++ "'"
  | conflicting entity name =>
    "conflicting signature in " ++ entity.label ++ " declaration named '" ++ name ++ "'"
  | duplicate entity name => "duplicate " ++ entity.label ++ " declaration named '" ++ name ++ "'"
  | malformed message => message

/-- The remark that stands beside the underlined source text. -/
def annotation? : Problem → Option String
  | unknown .. => some "used here"
  | conflicting .. | duplicate .. => some "second declaration here"
  | malformed _ => none

def name? : Problem → Option String
  | unknown _ name | conflicting _ name | duplicate _ name => some name
  | malformed _ => none

def entity? : Problem → Option Entity
  | unknown entity _ | conflicting entity _ | duplicate entity _ => some entity
  | malformed _ => none

/-- Whether nothing after the problem can be read. -/
def isFatal : Problem → Bool
  | malformed _ => true
  | _ => false

end Problem

def Diagnostic.headline (d : Diagnostic) : String :=
  "error[" ++ d.problem.code ++ "]: " ++ d.problem.message

def SyntaxError.toDiagnostic (e : SyntaxError) : Diagnostic :=
  ⟨.malformed e.fault.message, e.extent⟩

end SigilAsm
