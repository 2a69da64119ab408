import SigilAsm.Instruction

/-! # WebAssembly modules, as the specification has them

The abstract syntax of modules, without the parts that lowered programs have no
use for: imports, tables, a start function, and most instructions.
-/

namespace SigilAsm.Wasm.Core

inductive ValueType where
  | i32
  | i64
  | f32
  | f64
  deriving DecidableEq, Repr

structure FunctionType where
  parameters : List ValueType
  results : List ValueType
  deriving DecidableEq, Repr

inductive Instruction where
  | unreachable
  | i32Const (value : BitVec 32)
  deriving DecidableEq, Repr

/-- The sizes that a memory may have, in pages. -/
structure Limits where
  least : Nat
  most : Option Nat
  deriving DecidableEq, Repr

structure Global where
  type : ValueType
  mutability : Mutability
  initial : List Instruction
  deriving DecidableEq, Repr

inductive ExternalKind where
  | function
  | table
  | memory
  | global
  deriving DecidableEq, Repr

structure Export where
  name : String
  kind : ExternalKind
  index : Nat
  deriving DecidableEq, Repr

/-- The locals of a function, as groups of one type each, and its instructions. -/
structure Code where
  locals : List (Nat × ValueType)
  body : List Instruction
  deriving DecidableEq, Repr

inductive Segment where
  -- Written to a memory when the module is instantiated.
  | active (memory : Nat) (offset : List Instruction) (bytes : List UInt8)
  | passive (bytes : List UInt8)
  deriving DecidableEq, Repr

inductive Section where
  | types (types : List FunctionType)
  -- The type of each function, by its index.
  | functions (types : List Nat)
  | memories (memories : List Limits)
  | globals (globals : List Global)
  | exports (exports : List Export)
  | codes (codes : List Code)
  | segments (segments : List Segment)
  deriving DecidableEq, Repr

/-- A module that has each of the sections once. -/
structure Module where
  types : List FunctionType
  functions : List Nat
  memories : List Limits
  globals : List Global
  exports : List Export
  codes : List Code
  segments : List Segment
  deriving DecidableEq, Repr

/-- The sections in the order in which they stand in a binary module. -/
def Module.sections (m : Module) : List Section :=
  [.types m.types, .functions m.functions, .memories m.memories, .globals m.globals,
    .exports m.exports, .codes m.codes, .segments m.segments]

end SigilAsm.Wasm.Core
