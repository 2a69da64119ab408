import SigilAsm.Statement.Data
import SigilAsm.Statement.Reading

/-! # The grammar

`Statement.read` turns a source text into its statements.  Which statements
there are, and whether the text is accepted, depends on the text and the data
limit alone.

    module      := "module" @name ";" (global | function)*
    global      := "global" "const"? @name "=" data ";"
    function    := "function" @name signature? (";" | body)
    signature   := "[" number "=>" number "]"
    body        := "{" local* (block+ | instruction*) "}"
    local       := "local" %name ";"
    block       := "block" %name signature? "{" instruction* "}"
    instruction := "call" @name signature? ";"
                 | $name (argument ("," argument)*)? ";"
    argument    := %name | @name | $name | number
    data        := element ("," element)*
    element     := byte | string | "[" data "]" "*" number
-/

namespace SigilAsm

namespace Grammar

open Rule (expect ident keyword keyword? signature? dataExpression)

/-! ## Instructions -/

def argument : Rule Argument := do
  let t ← Rule.peek
  match t.kind with
  | .name sigil => return .name sigil (← ident sigil)
  | .integer => return .number (← Rule.number).1
  | _ => Rule.unexpected .operand t

def nextArgument : Rule Argument := do
  let _ ← expect .comma
  argument

theorem advances_argument : argument.Advances := by
  refine Rule.keeps_peek.bind_advances fun t => ?_
  split
  · exact (Rule.advances_ident _).bind fun _ => Rule.keeps_pure _
  · exact Rule.advances_number.bind fun _ => Rule.keeps_pure _
  · exact Rule.advances_unexpected _ _

theorem advances_nextArgument : nextArgument.Advances :=
  (Rule.advances_expect (by simp)).bind fun _ => advances_argument.keeps

/-- The arguments of an operation, up to the semicolon. -/
def arguments : Cursor → Reading Argument :=
  .byNext fun t c =>
    if t.kind = .semicolon then ⟨[], .ok c⟩
    else (Reading.one argument c).andThen <|
      .repeatWhile (·.kind == .comma) (.one nextArgument)
        (Reading.advances_one advances_nextArgument)

theorem keeps_arguments : Reading.Keeps arguments := by
  refine Reading.keeps_byNext fun t c next h => ?_
  split at h
  · cases h
    exact Nat.le_refl _
  · exact (Reading.advances_one advances_argument).keeps.andThen
      (Reading.keeps_repeatWhile _ _ _) c next h

/-- An operation.  Its head and the arguments before a fault are read even so. -/
def operation (c : Cursor) : Reading Statement :=
  match (ident .builtin).run c with
  | .error e => .refuse e
  | .ok (head, c) =>
    let read := (arguments c).andThen (.mark .semicolon)
    ⟨[.operation head read.items read.result.isOk], read.result⟩

theorem advances_operation : Reading.Advances operation := by
  intro c next h
  unfold operation at h
  split at h
  · cases h
  · next head middle hhead =>
    have more := keeps_arguments.andThen (Reading.advances_mark (by simp)).keeps middle next h
    exact Nat.lt_of_le_of_lt more (Rule.advances_ident _ c head middle hhead)

def callInstruction : Rule Statement := do
  keyword "call"
  let target ← ident .global
  let signature ← signature?
  let _ ← expect .semicolon
  return .call target signature

theorem advances_callInstruction : callInstruction.Advances := by
  refine (Rule.advances_keyword _).bind fun _ => ?_
  refine (Rule.advances_ident _).keeps.bind fun _ => ?_
  refine Rule.keeps_signature?.bind fun _ => ?_
  exact (Rule.advances_expect (by simp)).keeps.bind fun _ => Rule.keeps_pure _

def instruction : Cursor → Reading Statement :=
  .byNext fun t c =>
    if t.isWord "call" then .one callInstruction c
    else if t.kind = .name .builtin then operation c
    else .one (Rule.unexpected .instruction t) c

theorem advances_instruction : Reading.Advances instruction := by
  refine Reading.advances_byNext fun t c next h => ?_
  split at h
  · exact Reading.advances_one advances_callInstruction c next h
  · split at h
    · exact advances_operation c next h
    · exact Reading.advances_one (Rule.advances_unexpected _ _) c next h

def instructions : Cursor → Reading Statement :=
  .repeatWhile (·.kind != .closeBrace) instruction advances_instruction

/-! ## Function bodies -/

def localDeclaration : Rule Statement := do
  keyword "local"
  let name ← ident .inner
  let _ ← expect .semicolon
  return .localName name

theorem advances_localDeclaration : localDeclaration.Advances := by
  refine (Rule.advances_keyword _).bind fun _ => ?_
  refine (Rule.advances_ident _).keeps.bind fun _ => ?_
  exact (Rule.advances_expect (by simp)).keeps.bind fun _ => Rule.keeps_pure _

def locals : Cursor → Reading Statement :=
  .repeatWhile (·.isWord "local") (.one localDeclaration)
    (Reading.advances_one advances_localDeclaration)

def blockHeader : Rule Statement := do
  keyword "block"
  let name ← ident .inner
  let signature ← signature?
  return .block name (signature.getD .none)

theorem advances_blockHeader : blockHeader.Advances := by
  refine (Rule.advances_keyword _).bind fun _ => ?_
  refine (Rule.advances_ident _).keeps.bind fun _ => ?_
  exact Rule.keeps_signature?.bind fun _ => Rule.keeps_pure _

def blockBody (c : Cursor) : Reading Statement :=
  ((Reading.mark .openBrace c).andThen instructions).andThen (.mark .closeBrace)

/-- A labelled block, in a place that admits nothing else but the closing brace. -/
def block : Cursor → Reading Statement :=
  .byNext fun t c =>
    if t.isWord "block" then (Reading.one blockHeader c).andThen blockBody
    else .one (Rule.unexpected .anotherBlock t) c

theorem keeps_blockBody : Reading.Keeps blockBody :=
  ((Reading.advances_mark (by simp)).keeps.andThen (Reading.keeps_repeatWhile _ _ _)).andThen
    (Reading.advances_mark (by simp)).keeps

theorem advances_block : Reading.Advances block := by
  refine Reading.advances_byNext fun t c next h => ?_
  split at h
  · exact (Reading.advances_one advances_blockHeader).andThen keeps_blockBody c next h
  · exact Reading.advances_one (Rule.advances_unexpected _ _) c next h

def blocks : Cursor → Reading Statement :=
  .repeatWhile (·.kind != .closeBrace) block advances_block

/-- What follows the locals of a body: labelled blocks if the first is there, otherwise
instructions, which are those of the entry block. -/
def blocksOrInstructions : Cursor → Reading Statement :=
  .byNext fun t c =>
    if t.isWord "block" then blocks c
    else (⟨[.entryBlock], .ok c⟩ : Reading Statement).andThen instructions

def body (c : Cursor) : Reading Statement :=
  (((Reading.mark .openBrace c).andThen locals).andThen blocksOrInstructions).andThen
    (.mark .closeBrace)

theorem keeps_blocksOrInstructions : Reading.Keeps blocksOrInstructions := by
  refine Reading.keeps_byNext fun t c next h => ?_
  split at h
  · exact Reading.keeps_repeatWhile _ _ _ c next h
  · exact Reading.keeps_repeatWhile _ _ _ c next h

theorem keeps_body : Reading.Keeps body :=
  (((Reading.advances_mark (by simp)).keeps.andThen (Reading.keeps_repeatWhile _ _ _)).andThen
    keeps_blocksOrInstructions).andThen (Reading.advances_mark (by simp)).keeps

/-! ## Declarations -/

def globalDefinition (limit : Nat) : Rule Statement := do
  keyword "global"
  let constant ← keyword? "const"
  let name ← ident .global
  let _ ← expect .equals
  let data ← dataExpression limit
  let _ ← expect .semicolon
  return .global name (if constant then .immutable else .mutable) data

theorem advances_globalDefinition (limit : Nat) : (globalDefinition limit).Advances := by
  refine (Rule.advances_keyword _).bind fun _ => ?_
  refine (Rule.keeps_keyword? _).bind fun _ => ?_
  refine (Rule.advances_ident _).keeps.bind fun _ => ?_
  refine (Rule.advances_expect (by simp)).keeps.bind fun _ => ?_
  refine (Rule.advances_dataExpression limit).keeps.bind fun _ => ?_
  exact (Rule.advances_expect (by simp)).keeps.bind fun _ => Rule.keeps_pure _

def functionHeader : Rule Statement := do
  keyword "function"
  let name ← ident .global
  let signature ← signature?
  return .function name (signature.getD .none)

theorem advances_functionHeader : functionHeader.Advances := by
  refine (Rule.advances_keyword _).bind fun _ => ?_
  refine (Rule.advances_ident _).keeps.bind fun _ => ?_
  exact Rule.keeps_signature?.bind fun _ => Rule.keeps_pure _

/-- What follows a function header: a semicolon, or the body. -/
def functionRest : Cursor → Reading Statement :=
  .byNext fun t c =>
    if t.kind = .semicolon then .mark .semicolon c
    else if t.kind = .openBrace then body c
    else .one (Rule.unexpected .functionBody t) c

theorem keeps_functionRest : Reading.Keeps functionRest := by
  refine Reading.keeps_byNext fun t c next h => ?_
  split at h
  · exact (Reading.advances_mark (by simp)).keeps c next h
  · split at h
    · exact keeps_body c next h
    · exact (Reading.advances_one (Rule.advances_unexpected _ _)).keeps c next h

def declaration (limit : Nat) : Cursor → Reading Statement :=
  .byNext fun t c =>
    if t.isWord "global" then .one (globalDefinition limit) c
    else if t.isWord "function" then (Reading.one functionHeader c).andThen functionRest
    else .one (Rule.unexpected .declaration t) c

theorem advances_declaration (limit : Nat) : Reading.Advances (declaration limit) := by
  refine Reading.advances_byNext fun t c next h => ?_
  split at h
  · exact Reading.advances_one (advances_globalDefinition limit) c next h
  · split at h
    · exact (Reading.advances_one advances_functionHeader).andThen keeps_functionRest c next h
    · exact Reading.advances_one (Rule.advances_unexpected _ _) c next h

def moduleHeader : Rule Statement := do
  keyword "module"
  let name ← ident .global
  let _ ← expect .semicolon
  return .module name.name

/-- A whole module, up to the end of input. -/
def wholeModule (limit : Nat) (c : Cursor) : Reading Statement :=
  (Reading.one moduleHeader c).andThen <|
    .repeatWhile (·.kind != .endOfInput) (declaration limit) (advances_declaration limit)

end Grammar

/-- The statements of a source text whose data expressions may have `limit` bytes each. -/
def Statement.read (limit : Nat) (source : String) : Reading Statement :=
  if source.utf8ByteSize ≤ maxSourceBytes then Grammar.wholeModule limit (.ofString source)
  else .refuse ⟨.sourceTooLong source.utf8ByteSize, .point 0⟩

end SigilAsm
