import SigilAsm.Instruction

/-! # Builders

A builder takes up the parts of a module in the order in which they are
declared and hands out a handle for each.  Whoever registers parts keeps the
handles and never looks inside the builder, so anything can stand behind the
interface: `Counter` forgets the parts and numbers them, `Logged` keeps a record
of what another builder was told.
-/

namespace SigilAsm

/-- What takes up the parts of a module. -/
class Builder (σ : Type) where
  beginModule : σ → String → σ
  addFunction : σ → String → Signature → FunctionId × σ
  addGlobal : σ → String → Mutability → List UInt8 → GlobalId × σ
  addLocal : σ → FunctionId → String → LocalId × σ
  addBlock : σ → FunctionId → Signature → BlockId × σ
  emit : σ → FunctionId → BlockId → Instruction → σ

/-- Numbers the parts one after the other, whatever their sort. -/
structure Counter where
  next : Nat
  deriving DecidableEq, Repr

instance : Builder Counter where
  beginModule s _ := s
  addFunction s _ _ := (⟨s.next⟩, ⟨s.next + 1⟩)
  addGlobal s _ _ _ := (⟨s.next⟩, ⟨s.next + 1⟩)
  addLocal s _ _ := (⟨s.next⟩, ⟨s.next + 1⟩)
  addBlock s _ _ := (⟨s.next⟩, ⟨s.next + 1⟩)
  emit s _ _ _ := s

inductive Registration where
  | module (name : String)
  | function (name : String) (signature : Signature) (id : FunctionId)
  | global (name : String) (mutability : Mutability) (data : List UInt8) (id : GlobalId)
  | localName (function : FunctionId) (name : String) (id : LocalId)
  | block (function : FunctionId) (signature : Signature) (id : BlockId)
  | instruction (function : FunctionId) (block : BlockId) (instruction : Instruction)
  deriving DecidableEq, Repr

/-- A builder and the record of what it was told. -/
structure Logged (σ : Type) where
  target : σ
  registrations : Array Registration

namespace Logged

variable {σ : Type}

def start (target : σ) : Logged σ := ⟨target, #[]⟩

def record (s : Logged σ) (target : σ) (r : Registration) : Logged σ :=
  ⟨target, s.registrations.push r⟩

instance [Builder σ] : Builder (Logged σ) where
  beginModule s name := s.record (Builder.beginModule s.target name) (.module name)
  addFunction s name signature :=
    let (id, target) := Builder.addFunction s.target name signature
    (id, s.record target (.function name signature id))
  addGlobal s name mutability data :=
    let (id, target) := Builder.addGlobal s.target name mutability data
    (id, s.record target (.global name mutability data id))
  addLocal s function name :=
    let (id, target) := Builder.addLocal s.target function name
    (id, s.record target (.localName function name id))
  addBlock s function signature :=
    let (id, target) := Builder.addBlock s.target function signature
    (id, s.record target (.block function signature id))
  emit s function block instruction :=
    s.record (Builder.emit s.target function block instruction)
      (.instruction function block instruction)

end Logged

end SigilAsm
