import SigilAsm.Scope.Builder

/-! # Programs

A program is a module as it was recorded: its parts in the order of their
registration, each known by its place in that order.  Programs are builders, so
that a source can be elaborated straight into one.
-/

namespace SigilAsm

namespace Program

structure Function where
  name : String
  signature : Signature
  locals : Array LocalId
  blocks : Array BlockId
  deriving DecidableEq, Repr

structure Global where
  name : String
  mutability : Mutability
  data : List UInt8
  deriving DecidableEq, Repr

structure Local where
  name : String
  function : FunctionId
  deriving DecidableEq, Repr

structure Block where
  function : FunctionId
  signature : Signature
  instructions : Array Instruction
  deriving DecidableEq, Repr

end Program

/-- The recorded parts of a module.  A handle is a place in the array of its sort, unless there are
more parts than handles. -/
structure Program where
  name : Option String
  functions : Array Program.Function
  globals : Array Program.Global
  locals : Array Program.Local
  blocks : Array Program.Block
  deriving DecidableEq, Repr

namespace Program

def empty : Program := ⟨none, #[], #[], #[], #[]⟩

def function? (p : Program) (id : FunctionId) : Option Function := p.functions[id.index]?

def global? (p : Program) (id : GlobalId) : Option Global := p.globals[id.index]?

def local? (p : Program) (id : LocalId) : Option Local := p.locals[id.index]?

def block? (p : Program) (id : BlockId) : Option Block := p.blocks[id.index]?

/-- The first function of a name. -/
def functionNamed? (p : Program) (name : String) : Option Function :=
  p.functions.find? (·.name == name)

def globalNamed? (p : Program) (name : String) : Option Global :=
  p.globals.find? (·.name == name)

/-- The handle of the next part of a sort of which there are `size` already.  Handles have 32 bits,
and whatever does not fit in them shares the last one. -/
def nextIndex (size : Nat) : Nat := min size 0xffffffff

theorem nextIndex_of_le {size : Nat} (h : size ≤ 0xffffffff) : nextIndex size = size :=
  Nat.min_eq_left h

def beginModule (p : Program) (name : String) : Program := { p with name := some name }

def addFunction (p : Program) (name : String) (signature : Signature) : FunctionId × Program :=
  (⟨nextIndex p.functions.size⟩,
    { p with functions := p.functions.push ⟨name, signature, #[], #[]⟩ })

def addGlobal (p : Program) (name : String) (mutability : Mutability) (data : List UInt8) :
    GlobalId × Program :=
  (⟨nextIndex p.globals.size⟩,
    { p with globals := p.globals.push ⟨name, mutability, data⟩ })

def addLocal (p : Program) (function : FunctionId) (name : String) : LocalId × Program :=
  let id : LocalId := ⟨nextIndex p.locals.size⟩
  (id, { p with
    locals := p.locals.push ⟨name, function⟩
    functions := p.functions.modify function.index fun f => { f with locals := f.locals.push id } })

def addBlock (p : Program) (function : FunctionId) (signature : Signature) : BlockId × Program :=
  let id : BlockId := ⟨nextIndex p.blocks.size⟩
  (id, { p with
    blocks := p.blocks.push ⟨function, signature, #[]⟩
    functions := p.functions.modify function.index fun f => { f with blocks := f.blocks.push id } })

def emit (p : Program) (block : BlockId) (instruction : Instruction) : Program :=
  { p with
    blocks := p.blocks.modify block.index fun b =>
      { b with instructions := b.instructions.push instruction } }

instance : Builder Program where
  beginModule := beginModule
  addFunction := addFunction
  addGlobal := addGlobal
  addLocal := addLocal
  addBlock := addBlock
  emit p _ block instruction := p.emit block instruction

end Program

end SigilAsm
