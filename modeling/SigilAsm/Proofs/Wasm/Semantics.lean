import SigilAsm.Proofs.Wasm.Syntax

/-! # Validation and instantiation

What the specification asks of a module before it may run, and what comes of
instantiating it: its globals take their initial values, its memories begin
with zeros, and its active segments are written to them one after the other.
-/

namespace SigilAsm.Wasm.Core

/-! ## Validation -/

/-- The instruction turns a stack of the first types into one of the second. -/
inductive Instruction.Types : Instruction → List ValueType → List ValueType → Prop
  -- What comes after a trap may be anything.
  | unreachable (before after : List ValueType) : Types .unreachable before after
  | i32Const (value : BitVec 32) (before : List ValueType) :
      Types (.i32Const value) before (before ++ [.i32])

inductive Typed : List Instruction → List ValueType → List ValueType → Prop
  | nil (stack : List ValueType) : Typed [] stack stack
  | cons {i : Instruction} {rest : List Instruction} {before middle after : List ValueType} :
      i.Types before middle → Typed rest middle after → Typed (i :: rest) before after

def Instruction.isConstant : Instruction → Bool
  | .i32Const _ => true
  | .unreachable => false

/-- The instructions are a constant expression of the type. -/
structure Constant (type : ValueType) (is : List Instruction) : Prop where
  typed : Typed is [] [type]
  constant : ∀ i ∈ is, i.isConstant = true

structure Limits.Valid (l : Limits) : Prop where
  least : l.least ≤ 65536
  most : ∀ n, l.most = some n → l.least ≤ n ∧ n ≤ 65536

namespace Module

/-- How many things of a kind there are to be exported. -/
def count (m : Module) : ExternalKind → Nat
  | .function => m.functions.length
  | .table => 0
  | .memory => m.memories.length
  | .global => m.globals.length

structure Valid (m : Module) : Prop where
  types : ∀ t ∈ m.functions, t < m.types.length
  codes : m.codes.length = m.functions.length
  bodies : ∀ (i : Nat) (code : Code) (t : Nat) (type : FunctionType), m.codes[i]? = some code →
    m.functions[i]? = some t → m.types[t]? = some type → Typed code.body [] type.results
  memories : m.memories.length ≤ 1
  limits : ∀ l ∈ m.memories, l.Valid
  globals : ∀ g ∈ m.globals, Constant g.type g.initial
  exports : ∀ e ∈ m.exports, e.index < m.count e.kind
  names : (m.exports.map (·.name)).Nodup
  segments : ∀ memory offset bytes, .active memory offset bytes ∈ m.segments →
    memory < m.memories.length ∧ Constant .i32 offset

end Module

/-! ## Instantiation -/

/-- The stack after the instructions, unless they trap. -/
def run : List Instruction → List (BitVec 32) → Option (List (BitVec 32))
  | [], stack => some stack
  | .unreachable :: _, _ => none
  | .i32Const value :: rest, stack => run rest (value :: stack)

/-- The value of a constant expression. -/
def evaluate (is : List Instruction) : Option (BitVec 32) :=
  match run is [] with
  | some [value] => some value
  | _ => none

/-- The memory with bytes written to it, unless they reach past its end. -/
def write? (memory : List UInt8) (start : Nat) (bytes : List UInt8) : Option (List UInt8) :=
  if start + bytes.length ≤ memory.length then
    some (memory.take start ++ bytes ++ memory.drop (start + bytes.length))
  else none

def Segment.run (memories : List (List UInt8)) : Segment → Option (List (List UInt8))
  | active index offset bytes => do
    let start ← evaluate offset
    let memory ← memories[index]?
    let memory ← write? memory start.toNat bytes
    return memories.set index memory
  | passive _ => some memories

/-- What can be seen of an instance from outside. -/
structure Instance where
  globals : List (BitVec 32)
  memories : List (List UInt8)
  exports : List Export
  deriving DecidableEq, Repr

/-- The instance of a module, unless instantiation traps. -/
def Module.instantiate (m : Module) : Option Instance := do
  let globals ← m.globals.mapM fun g => evaluate g.initial
  let memories := m.memories.map fun l => List.replicate (l.least * 65536) (0 : UInt8)
  let memories ← m.segments.foldlM Segment.run memories
  return ⟨globals, memories, m.exports⟩

namespace Instance

/-- What is exported under a name, if it is of the given kind; `parts` are all of that kind. -/
def exported? {α : Type} (i : Instance) (kind : ExternalKind) (parts : List α) (name : String) :
    Option α := do
  let e ← i.exports.find? (·.name == name)
  if e.kind = kind then parts[e.index]? else none

/-- The value of an exported global. -/
def global? (i : Instance) (name : String) : Option (BitVec 32) :=
  i.exported? .global i.globals name

def memory? (i : Instance) (name : String) : Option (List UInt8) :=
  i.exported? .memory i.memories name

end Instance

end SigilAsm.Wasm.Core
