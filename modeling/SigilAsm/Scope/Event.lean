import SigilAsm.Scope.Basic

/-! # Events of a scope

Everything that can happen to a scope, as data.  Statements cause these events
in the orders that the grammar allows; what holds of a scope after any events
in any order does not depend on the grammar.
-/

namespace SigilAsm

namespace Scope

inductive Event where
  | beginModule (name : String)
  | declareGlobal (ident : Ident) (mutability : Mutability) (data : List UInt8)
  | declareFunction (ident : Ident) (signature : Signature)
  | referenceFunction (ident : Ident) (signature : Option Signature)
  | resolveGlobal (ident : Ident)
  | resolveLocal (ident : Ident)
  | resolveOperation (ident : Ident)
  | resolveType (ident : Ident)
  | declareLocal (ident : Ident)
  | declareBlock (ident : Ident) (signature : Signature)
  | enterEntryBlock
  | emit (instruction : Instruction)
  | reportUnknown (entity : Entity) (ident : Ident)
  | reportConflicting (entity : Entity) (ident : Ident)
  | reportDuplicate (entity : Entity) (ident : Ident)
  deriving DecidableEq, Repr

inductive Reply where
  | nothing
  | global (id : Option GlobalId)
  | function (id : Option FunctionId)
  | entry (entry : FunctionEntry)
  | localName (id : Option LocalId)
  | block (id : Option BlockId)
  | operation (id : Option OperationId)
  | operandType (id : Option TypeId)
  deriving DecidableEq, Repr

variable {σ : Type} [Builder σ]

def handle (s : Scope σ) : Event → Reply × Scope σ
  | .beginModule name => (.nothing, s.beginModule name)
  | .declareGlobal ident mutability data =>
    let (id, s) := s.declareGlobal ident mutability data; (.global id, s)
  | .declareFunction ident signature =>
    let (entry, s) := s.declareFunction ident signature; (.entry entry, s)
  | .referenceFunction ident signature =>
    let (id, s) := s.referenceFunction ident signature; (.function id, s)
  | .resolveGlobal ident => let (id, s) := s.resolveGlobal ident; (.global id, s)
  | .resolveLocal ident => let (id, s) := s.resolveLocal ident; (.localName id, s)
  | .resolveOperation ident => let (id, s) := s.resolveOperation ident; (.operation id, s)
  | .resolveType ident => let (id, s) := s.resolveType ident; (.operandType id, s)
  | .declareLocal ident => let (id, s) := s.declareLocal ident; (.localName id, s)
  | .declareBlock ident signature =>
    let (id, s) := s.declareBlock ident signature; (.block id, s)
  | .enterEntryBlock => let (id, s) := s.enterEntryBlock; (.block id, s)
  | .emit instruction => (.nothing, s.emit instruction)
  | .reportUnknown entity ident => (.nothing, s.reportUnknown entity ident)
  | .reportConflicting entity ident => (.nothing, s.reportConflicting entity ident)
  | .reportDuplicate entity ident => (.nothing, s.reportDuplicate entity ident)

def handleAll (s : Scope σ) (events : List Event) : Scope σ :=
  events.foldl (fun s event => (s.handle event).2) s

end Scope

end SigilAsm
