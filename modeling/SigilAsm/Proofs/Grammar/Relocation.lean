import SigilAsm.Proofs.Grammar.Tree

/-! # Trees of another place

Two texts that differ in layout have the same tree, but for the places that it
gives to its names.  `relocate` gives every name another place, and it does so
alike for lexemes, for trees and for the statements that are read of them.
-/

namespace SigilAsm

variable (f : Extent → Extent)

def Ident.relocate (i : Ident) : Ident := { i with extent := f i.extent }

def Lexeme.relocate : Lexeme → Lexeme
  | .name sigil ident => .name sigil (ident.relocate f)
  | l => l

def Argument.relocate : Argument → Argument
  | .name sigil ident => .name sigil (ident.relocate f)
  | .number value => .number value

def Statement.relocate : Statement → Statement
  | .module name => .module name
  | .global ident mutability data => .global (ident.relocate f) mutability data
  | .function ident signature => .function (ident.relocate f) signature
  | .localName ident => .localName (ident.relocate f)
  | .block ident signature => .block (ident.relocate f) signature
  | .entryBlock => .entryBlock
  | .call target signature => .call (target.relocate f) signature
  | .operation head arguments closed =>
    .operation (head.relocate f) (arguments.map (·.relocate f)) closed

@[simp] theorem Ident.name_relocate (i : Ident) : (i.relocate f).name = i.name := rfl

namespace Statement

/-- Names stay where they are. -/
theorem relocate_id (s : Statement) : s.relocate id = s := by
  have argument (a : Argument) : a.relocate id = a := by cases a <;> rfl
  cases s with
  | operation head arguments closed =>
    simp only [relocate, argument, List.map_id']
    rfl
  | «module» _ | global _ _ _ | function _ _ | localName _ | block _ _ | entryBlock | call _ _ =>
    rfl

end Statement

namespace Tree

/-! ## Lexemes without names -/

mutual

theorem map_relocate_element (e : Element) : e.lexemes.map (Lexeme.relocate f) = e.lexemes := by
  cases e with
  | byte value => rfl
  | string text => rfl
  | repetition contents count =>
    simp only [Element.lexemes, List.map_cons, List.map_append, map_relocate_data contents]
    rfl

theorem map_relocate_data (d : Data) : d.lexemes.map (Lexeme.relocate f) = d.lexemes := by
  cases d with
  | one element => exact map_relocate_element element
  | more element rest =>
    simp only [Data.lexemes, List.map_cons, List.map_append, map_relocate_element element,
      map_relocate_data rest]
    rfl

end

theorem map_relocate_signature (s : Option Signature) :
    (signatureLexemes s).map (Lexeme.relocate f) = signatureLexemes s := by
  cases s <;> rfl

theorem map_relocate_const (m : Mutability) :
    (constLexemes m).map (Lexeme.relocate f) = constLexemes m := by
  cases m <;> rfl

/-! ## Trees -/

theorem map_relocate_arguments (arguments : List Argument) :
    (argumentLexemes arguments).map (Lexeme.relocate f) =
      argumentLexemes (arguments.map (·.relocate f)) := by
  have single (a : Argument) :
      (argumentLexeme a).relocate f = argumentLexeme (a.relocate f) := by cases a <;> rfl
  cases arguments with
  | nil => rfl
  | cons a rest =>
    simp only [argumentLexemes, List.map_cons, List.map_flatMap, List.flatMap_map, single]
    rfl

def Instruction.relocate : Instruction → Instruction
  | .call target signature => .call (target.relocate f) signature
  | .operation head arguments =>
    .operation (head.relocate f) (arguments.map (·.relocate f))

namespace Instruction

theorem lexemes_relocate (i : Instruction) :
    (i.relocate f).lexemes = i.lexemes.map (Lexeme.relocate f) := by
  cases i with
  | call target signature =>
    simp only [relocate, lexemes, List.map_cons, List.map_append, map_relocate_signature]
    rfl
  | operation head arguments =>
    simp only [relocate, lexemes, List.map_cons, List.map_append, map_relocate_arguments]
    rfl

theorem statement_relocate (i : Instruction) :
    (i.relocate f).statement = i.statement.relocate f := by
  cases i <;> rfl

end Instruction

theorem flatMap_relocate {α β : Type} {write : α → List β} {move : α → α} {g : β → β}
    (h : ∀ a, write (move a) = (write a).map g) (list : List α) :
    (list.map move).flatMap write = (list.flatMap write).map g := by
  simp only [List.flatMap_map, List.map_flatMap, h]

def Block.relocate (b : Block) : Block where
  label := b.label.relocate f
  signature := b.signature
  instructions := b.instructions.map (·.relocate f)

namespace Block

theorem lexemes_relocate (b : Block) :
    (b.relocate f).lexemes = b.lexemes.map (Lexeme.relocate f) := by
  simp only [relocate, lexemes, List.map_cons, List.map_append, map_relocate_signature,
    flatMap_relocate (Instruction.lexemes_relocate f)]
  rfl

theorem statements_relocate (b : Block) :
    (b.relocate f).statements = b.statements.map (Statement.relocate f) := by
  simp only [relocate, statements, List.map_cons, List.map_map, Function.comp_def,
    Instruction.statement_relocate]
  rfl

end Block

def Contents.relocate : Contents → Contents
  | .blocks first rest => .blocks (first.relocate f) (rest.map (·.relocate f))
  | .instructions list => .instructions (list.map (·.relocate f))

namespace Contents

theorem lexemes_relocate (c : Contents) :
    (c.relocate f).lexemes = c.lexemes.map (Lexeme.relocate f) := by
  cases c with
  | blocks first rest => exact flatMap_relocate (Block.lexemes_relocate f) (first :: rest)
  | instructions list => exact flatMap_relocate (Instruction.lexemes_relocate f) list

theorem statements_relocate (c : Contents) :
    (c.relocate f).statements = c.statements.map (Statement.relocate f) := by
  cases c with
  | blocks first rest => exact flatMap_relocate (Block.statements_relocate f) (first :: rest)
  | instructions list =>
    simp only [relocate, statements, List.map_cons, List.map_map, Function.comp_def,
      Instruction.statement_relocate]
    rfl

end Contents

def Body.relocate (b : Body) : Body where
  locals := b.locals.map (·.relocate f)
  contents := b.contents.relocate f

namespace Body

theorem lexemes_relocate (b : Body) :
    (b.relocate f).lexemes = b.lexemes.map (Lexeme.relocate f) := by
  have named : ∀ i : Ident, localLexemes (i.relocate f) =
      (localLexemes i).map (Lexeme.relocate f) := fun _ => rfl
  simp only [relocate, lexemes, List.map_cons, List.map_append, flatMap_relocate named,
    Contents.lexemes_relocate]
  rfl

theorem statements_relocate (b : Body) :
    (b.relocate f).statements = b.statements.map (Statement.relocate f) := by
  simp only [relocate, statements, List.map_append, List.map_map, Contents.statements_relocate]
  rfl

end Body

def Declaration.relocate : Declaration → Declaration
  | .global mutability name data => .global mutability (name.relocate f) data
  | .function name signature body =>
    .function (name.relocate f) signature (body.map (·.relocate f))

namespace Declaration

theorem lexemes_relocate (d : Declaration) :
    (d.relocate f).lexemes = d.lexemes.map (Lexeme.relocate f) := by
  cases d with
  | global mutability name data =>
    simp only [relocate, lexemes, List.map_cons, List.map_append, map_relocate_const,
      map_relocate_data]
    rfl
  | function name signature body =>
    have rest : restLexemes (body.map (·.relocate f)) =
        (restLexemes body).map (Lexeme.relocate f) := by
      cases body with
      | none => rfl
      | some body => exact body.lexemes_relocate f
    simp only [relocate, lexemes, List.map_cons, List.map_append, map_relocate_signature, rest]
    rfl

theorem statements_relocate (d : Declaration) :
    (d.relocate f).statements = d.statements.map (Statement.relocate f) := by
  cases d with
  | global mutability name data => rfl
  | function name signature body =>
    cases body with
    | none => rfl
    | some body =>
      simp only [relocate, statements, restStatements, Option.map_some, List.map_cons,
        Body.statements_relocate]
      rfl

theorem admissible_relocate {limit : Nat} {d : Declaration} (h : d.Admissible limit) :
    (d.relocate f).Admissible limit := by
  cases d <;> exact h

end Declaration

def Module.relocate (m : Module) : Module where
  name := m.name.relocate f
  declarations := m.declarations.map (·.relocate f)

namespace Module

theorem lexemes_relocate (m : Module) :
    (m.relocate f).lexemes = m.lexemes.map (Lexeme.relocate f) := by
  simp only [relocate, lexemes, List.map_cons, flatMap_relocate (Declaration.lexemes_relocate f)]
  rfl

theorem statements_relocate (m : Module) :
    (m.relocate f).statements = m.statements.map (Statement.relocate f) := by
  simp only [relocate, statements, List.map_cons,
    flatMap_relocate (Declaration.statements_relocate f)]
  rfl

end Module

end Tree

end SigilAsm
