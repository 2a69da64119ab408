import SigilAsm.Proofs.Grammar.Lexeme

/-! # Syntax trees

A tree is a derivation in the grammar: it has one node for each use of a rule
and keeps the names with the extents that they cover.  `lexemes` writes a tree
out, rule by rule, and `Module.IsTreeOf` says that a source text is a tree
written out, with trivia wherever the writer liked.

Numbers are bounded by their types: 64 bits for arguments and for counts of
repetitions, 8 bits for the counts of a signature.  What the types do not bound
is in `Data.Admissible`: how deep brackets nest and how many bytes they denote.
-/

namespace SigilAsm

namespace Tree

/-! ## Data -/

mutual

/-- `element := byte | string | "[" data "]" "*" number` -/
inductive Element where
  | byte (value : UInt8)
  | string (text : String)
  | repetition (contents : Data) (count : UInt64)

/-- `data := element ("," element)*` -/
inductive Data where
  | one (element : Element)
  | more (element : Element) (rest : Data)

end

mutual

def Element.lexemes : Element → List Lexeme
  | .byte value => [.byte value]
  | .string text => [.string text]
  | .repetition contents count =>
    .mark .openBracket ::
      (contents.lexemes ++ [.mark .closeBracket, .mark .star, .integer count.toNat])

def Data.lexemes : Data → List Lexeme
  | .one element => element.lexemes
  | .more element rest => element.lexemes ++ .mark .comma :: rest.lexemes

end

mutual

/-- The bytes that an element denotes; a repetition denotes its contents `count` times. -/
def Element.bytes : Element → List UInt8
  | .byte value => [value]
  | .string text => Utf8.encode text.toList
  | .repetition contents count => (List.replicate count.toNat contents.bytes).flatten

def Data.bytes : Data → List UInt8
  | .one element => element.bytes
  | .more element rest => element.bytes ++ rest.bytes

end

mutual

/-- How deep brackets nest. -/
def Element.depth : Element → Nat
  | .byte _ | .string _ => 0
  | .repetition contents _ => contents.depth + 1

def Data.depth : Data → Nat
  | .one element => element.depth
  | .more element rest => max element.depth rest.depth

end

mutual

/-- The expressions that stand in brackets, at any depth. -/
def Element.bracketed : Element → List Data
  | .byte _ | .string _ => []
  | .repetition contents _ => contents :: contents.bracketed

def Data.bracketed : Data → List Data
  | .one element => element.bracketed
  | .more element rest => element.bracketed ++ rest.bracketed

end

/-- Brackets nest as deep as they may, and neither the whole nor anything in brackets denotes more
than `limit` bytes. -/
structure Data.Admissible (limit : Nat) (data : Data) : Prop where
  depth : data.depth ≤ maxDataDepth
  size : ∀ part ∈ data :: data.bracketed, part.bytes.length ≤ limit

/-! ## Instructions -/

/-- `signature := "[" number "=>" number "]"`, where it is given. -/
def signatureLexemes : Option Signature → List Lexeme
  | none => []
  | some s =>
    [.mark .openBracket, .integer s.input.toNat, .mark .arrow, .integer s.output.toNat,
      .mark .closeBracket]

/-- `argument := %name | @name | $name | number` -/
def argumentLexeme : Argument → Lexeme
  | .name sigil ident => .name sigil ident
  | .number value => .integer value.toNat

/-- `(argument ("," argument)*)?` -/
def argumentLexemes : List Argument → List Lexeme
  | [] => []
  | first :: rest =>
    argumentLexeme first :: rest.flatMap fun argument => [.mark .comma, argumentLexeme argument]

inductive Instruction where
  -- `"call" @name signature? ";"`
  | call (target : Ident) (signature : Option Signature)
  -- `$name (argument ("," argument)*)? ";"`
  | operation (head : Ident) (arguments : List Argument)
  deriving DecidableEq, Repr

namespace Instruction

def lexemes : Instruction → List Lexeme
  | call target signature =>
    .word "call" :: .name .global target :: (signatureLexemes signature ++ [.mark .semicolon])
  | operation head arguments =>
    .name .builtin head :: (argumentLexemes arguments ++ [.mark .semicolon])

def statement : Instruction → Statement
  | call target signature => .call target signature
  | operation head arguments => .operation head arguments true

end Instruction

/-! ## Bodies -/

/-- `block := "block" %name signature? "{" instruction* "}"` -/
structure Block where
  label : Ident
  signature : Option Signature
  instructions : List Instruction
  deriving DecidableEq, Repr

namespace Block

def lexemes (b : Block) : List Lexeme :=
  .word "block" :: .name .inner b.label :: (signatureLexemes b.signature ++
    .mark .openBrace :: (b.instructions.flatMap Instruction.lexemes ++ [.mark .closeBrace]))

def statements (b : Block) : List Statement :=
  .block b.label (b.signature.getD .none) :: b.instructions.map Instruction.statement

end Block

/-- `block+ | instruction*` -/
inductive Contents where
  | blocks (first : Block) (rest : List Block)
  | instructions (instructions : List Instruction)
  deriving DecidableEq, Repr

namespace Contents

def lexemes : Contents → List Lexeme
  | blocks first rest => (first :: rest).flatMap Block.lexemes
  | instructions list => list.flatMap Instruction.lexemes

def statements : Contents → List Statement
  | blocks first rest => (first :: rest).flatMap Block.statements
  | instructions list => .entryBlock :: list.map Instruction.statement

end Contents

/-- `local := "local" %name ";"` -/
def localLexemes (name : Ident) : List Lexeme :=
  [.word "local", .name .inner name, .mark .semicolon]

/-- `body := "{" local* (block+ | instruction*) "}"` -/
structure Body where
  locals : List Ident
  contents : Contents
  deriving DecidableEq, Repr

namespace Body

def lexemes (b : Body) : List Lexeme :=
  .mark .openBrace :: (b.locals.flatMap localLexemes ++ (b.contents.lexemes ++ [.mark .closeBrace]))

def statements (b : Body) : List Statement :=
  b.locals.map .localName ++ b.contents.statements

end Body

/-! ## Modules -/

/-- `"const"?` -/
def constLexemes : Mutability → List Lexeme
  | .mutable => []
  | .immutable => [.word "const"]

/-- `";" | body` -/
def restLexemes : Option Body → List Lexeme
  | none => [.mark .semicolon]
  | some body => body.lexemes

def restStatements : Option Body → List Statement
  | none => []
  | some body => body.statements

/-- A global, or a function whose body may be missing. -/
inductive Declaration where
  -- `"global" "const"? @name "=" data ";"`
  | global (mutability : Mutability) (name : Ident) (data : Data)
  -- `"function" @name signature? (";" | body)`
  | function (name : Ident) (signature : Option Signature) (body : Option Body)

namespace Declaration

def lexemes : Declaration → List Lexeme
  | global mutability name data =>
    .word "global" :: (constLexemes mutability ++
      .name .global name :: .mark .equals :: (data.lexemes ++ [.mark .semicolon]))
  | function name signature body =>
    .word "function" :: .name .global name :: (signatureLexemes signature ++ restLexemes body)

def statements : Declaration → List Statement
  | global mutability name data => [.global name mutability data.bytes]
  | function name signature body =>
    .function name (signature.getD .none) :: restStatements body

def Admissible (limit : Nat) : Declaration → Prop
  | global _ _ data => data.Admissible limit
  | function .. => True

end Declaration

/-- `module := "module" @name ";" (global | function)*` -/
structure Module where
  name : Ident
  declarations : List Declaration

namespace Module

def lexemes (m : Module) : List Lexeme :=
  .word "module" :: .name .global m.name :: .mark .semicolon ::
    m.declarations.flatMap Declaration.lexemes

def statements (m : Module) : List Statement :=
  .module m.name.name :: m.declarations.flatMap Declaration.statements

/-- The source text is the tree written out, and its data keeps within the limits. -/
structure IsTreeOf (m : Module) (limit : Nat) (source : String) : Prop where
  spells : ∃ stop, (Cursor.ofString source).Spells m.lexemes stop ∧ Trivia stop.rest []
  admissible : ∀ d ∈ m.declarations, d.Admissible limit

end Module

end Tree

end SigilAsm
