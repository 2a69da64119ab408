import SigilAsm.Name.Vocabulary

/-! # Signatures and instructions

A function or block takes and leaves a small number of values; the two counts
are its *signature*.  An instruction names everything it refers to by a handle,
which is the number its target was given when it was registered.
-/

namespace SigilAsm

/-- How many values go in and how many come out. -/
structure Signature where
  input : UInt8
  output : UInt8
  deriving DecidableEq, Repr

namespace Signature

/-- The signature of a header that gives none. -/
def none : Signature := ⟨0, 0⟩

/-- The written form, `[in=>out]`. -/
def render (s : Signature) : String :=
  "[" ++ toString s.input.toNat ++ "=>" ++ toString s.output.toNat ++ "]"

end Signature

/-- Whether the data of a global may change. -/
inductive Mutability where
  | mutable
  | immutable
  deriving DecidableEq, Repr

structure FunctionId where
  index : Nat
  deriving DecidableEq, Repr

structure GlobalId where
  index : Nat
  deriving DecidableEq, Repr

structure LocalId where
  index : Nat
  deriving DecidableEq, Repr

structure BlockId where
  index : Nat
  deriving DecidableEq, Repr

inductive Operand where
  | ofLocal (id : LocalId)
  | ofGlobal (id : GlobalId)
  | ofType (id : TypeId)
  | immediate (value : UInt64)
  deriving DecidableEq, Repr

/-- An instruction all of whose names are resolved. -/
inductive Instruction where
  | call (target : FunctionId)
  | operation (id : OperationId) (operands : List Operand)
  deriving DecidableEq, Repr

end SigilAsm
