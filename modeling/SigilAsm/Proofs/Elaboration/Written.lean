import Mathlib.Data.List.Basic
import SigilAsm.Proofs.Elaboration.Clause

/-! # Bodies as they are written

The bodies of a module in the order of the source, each with the names that it
declares and the instructions of its blocks.  The clauses of a module are taken
apart along its bodies once (`Module.filterMap_clauses`); what they declare and
which instructions stand in which block is read off that.
-/

namespace SigilAsm

namespace Tree

/-- A block as it is recorded: one with a label, or all instructions of a body that has none. -/
inductive Code where
  | labelled (block : Block)
  | entry (instructions : List Instruction)

namespace Code

def label? : Code → Option String
  | labelled block => some block.label.name
  | entry _ => none

/-- The signature, unless it is that of the function. -/
def signature? : Code → Option Signature
  | labelled block => some (block.signature.getD .none)
  | entry _ => none

def instructions : Code → List Instruction
  | labelled block => block.instructions
  | entry list => list

def key (body : BodyKey) (c : Code) : BlockKey := ⟨body, c.label?⟩

/-- The clause that begins the block. -/
def head (body : BodyKey) : Code → Clause
  | labelled block => .block body block.label (block.signature.getD .none)
  | entry _ => .entry body

def clauses (body : BodyKey) (c : Code) : List Clause :=
  c.head body :: c.instructions.map (.instruction (c.key body))

end Code

def Contents.code : Contents → List Code
  | blocks first rest => (first :: rest).map .labelled
  | instructions list => [.entry list]

/-- The blocks of a body. -/
def Body.code (b : Body) : List Code := b.contents.code

/-- The names that a body declares. -/
def Body.localNames (b : Body) : List String := b.locals.map (·.name)

def Declaration.body? (place : Nat) : Declaration → Option (BodyKey × Body)
  | function name _ (some body) => some (⟨place, name.name⟩, body)
  | _ => none

/-- The body that a declaration gives to a function. -/
def Declaration.bodyOf? (f : String) : Declaration → Option Body
  | function name _ (some body) => if name.name = f then some body else none
  | _ => none

def Declaration.global? : Declaration → Option Program.Global
  | global mutability name data => some ⟨name.name, mutability, data.bytes⟩
  | _ => none

namespace Module

/-- All bodies of a module. -/
def bodies (m : Module) : List (BodyKey × Body) :=
  m.declarations.zipIdx.flatMap fun (d, place) => (d.body? place).toList

/-- The bodies that a module gives to a function, in the order of the source. -/
def bodiesOf (m : Module) (f : String) : List Body :=
  m.declarations.filterMap (Declaration.bodyOf? f)

/-- All blocks of a module, each with the body that it stands in. -/
def code (m : Module) : List (BodyKey × Code) :=
  m.bodies.flatMap fun (key, b) => b.code.map (key, ·)

def globals (m : Module) : List Program.Global := m.declarations.filterMap Declaration.global?

end Module

variable {m : Module} {f : String} {key : BodyKey}

/-! ## Bodies -/

theorem Declaration.bodyOf?_eq (d : Declaration) (f : String) (place : Nat) :
    (d.bodyOf? f).toList = ((d.body? place).toList.filter (·.1.function = f)).map Prod.snd := by
  rcases d with _ | ⟨name, signature, _ | body⟩
  · rfl
  · rfl
  · by_cases same : name.name = f <;> simp [bodyOf?, body?, same]

theorem Module.bodiesOf_eq (m : Module) (f : String) :
    m.bodiesOf f = (m.bodies.filter (·.1.function = f)).map Prod.snd := by
  calc m.bodiesOf f
    _ = (m.declarations.zipIdx.map Prod.fst).flatMap fun d => (d.bodyOf? f).toList := by
      rw [List.zipIdx_map_fst, bodiesOf, List.filterMap_eq_flatMap_toList]
    _ = m.declarations.zipIdx.flatMap fun x =>
        ((x.1.body? x.2).toList.filter (·.1.function = f)).map Prod.snd := by
      rw [List.flatMap_map]
      exact List.flatMap_congr fun x _ => x.1.bodyOf?_eq f x.2
    _ = (m.bodies.filter (·.1.function = f)).map Prod.snd := by
      rw [bodies, List.filter_flatMap, List.map_flatMap]

/-- What the bodies of one function hold, among what all bodies hold. -/
theorem Module.flatMap_bodiesOf {α : Type} (m : Module) (f : String) (parts : Body → List α) :
    (m.bodiesOf f).flatMap parts =
      ((m.bodies.flatMap fun x => (parts x.2).map (x.1, ·)).filter (·.1.function = f)).map
        Prod.snd := by
  rw [bodiesOf_eq]
  induction m.bodies with
  | nil => rfl
  | cons body bodies ih =>
    obtain ⟨key, b⟩ := body
    rw [List.flatMap_cons, List.filter_append, List.map_append, ← ih, List.filter_map, List.map_map]
    by_cases same : key.function = f <;> simp [same, Function.comp_def]

/-! ## Clauses -/

/-- Headers and globals apart, the clauses of a module are those of its bodies. -/
theorem Module.filterMap_clauses {α : Type} {part? : Clause → Option α} (m : Module)
    (noGlobal : ∀ name mutability data, part? (.global name mutability data) = none)
    (noHeader : ∀ body name signature, part? (.header body name signature) = none) :
    m.clauses.filterMap part? =
      m.bodies.flatMap fun x => (x.2.clauses x.1).filterMap part? := by
  rw [clauses, bodies, List.filterMap_flatMap, List.flatMap_assoc]
  refine List.flatMap_congr fun x _ => ?_
  obtain ⟨d, place⟩ := x
  rcases d with _ | ⟨name, signature, _ | body⟩
  · simp [Declaration.clauses, Declaration.body?, noGlobal]
  · simp [Declaration.clauses, Declaration.body?, noHeader]
  · simp [Declaration.clauses, Declaration.body?, noHeader]

theorem Contents.clauses_eq (c : Contents) : c.clauses key = c.code.flatMap (Code.clauses key) := by
  cases c with
  | blocks first rest =>
    rw [clauses, code, List.flatMap_map]
    rfl
  | instructions list => simp [clauses, code, Code.clauses, Code.head, Code.instructions, Code.key,
      Code.label?]

theorem Body.filterMap_clauses {α : Type} (b : Body) (part? : Clause → Option α) :
    (b.clauses key).filterMap part? =
      b.locals.filterMap (fun name => part? (.localName key name)) ++
        b.code.flatMap fun c => (c.clauses key).filterMap part? := by
  rw [clauses, Contents.clauses_eq, List.filterMap_append, List.filterMap_map,
    List.filterMap_flatMap]
  rfl

/-- What is not said by instructions is said by the names of a body and the heads of its blocks. -/
theorem Body.filterMap_clauses_of_none {α : Type} {part? : Clause → Option α} (b : Body)
    (noInstruction : ∀ block i, part? (.instruction block i) = none) :
    (b.clauses key).filterMap part? =
      b.locals.filterMap (fun name => part? (.localName key name)) ++
        b.code.filterMap fun c => part? (c.head key) := by
  have block (c : Code) : (c.clauses key).filterMap part? = (part? (c.head key)).toList := by
    have none : (c.instructions.map (Clause.instruction (c.key key))).filterMap part? = [] := by
      simp [List.filterMap_map, noInstruction]
    rw [Code.clauses, List.filterMap_cons, none]
    cases part? (c.head key) <;> rfl
  simp only [b.filterMap_clauses, block, List.filterMap_eq_flatMap_toList]

/-! ### What is declared -/

@[simp] theorem Code.global?_head (c : Code) : (c.head key).global? = none := by
  cases c <;> rfl

@[simp] theorem Code.local?_head (c : Code) : (c.head key).local? = none := by
  cases c <;> rfl

@[simp] theorem Code.block?_head (c : Code) :
    (c.head key).block? = some (c.key key, c.signature?) := by
  cases c <;> rfl

theorem Body.globals_clauses (b : Body) : Clauses.globals (b.clauses key) = [] := by
  rw [Clauses.globals, b.filterMap_clauses_of_none fun _ _ => rfl]
  simp only [Code.global?_head]
  simp [Clause.global?]

theorem Body.locals_clauses (b : Body) :
    Clauses.locals (b.clauses key) = b.localNames.map (key, ·) := by
  rw [Clauses.locals, b.filterMap_clauses_of_none fun _ _ => rfl]
  simp only [Code.local?_head]
  simp [Clause.local?, localNames, Function.comp_def]

theorem Body.blocks_clauses (b : Body) :
    Clauses.blocks (b.clauses key) = b.code.map fun c => (c.key key, c.signature?) := by
  rw [Clauses.blocks, b.filterMap_clauses_of_none fun _ _ => rfl]
  simp only [Code.block?_head]
  simp [Clause.block?]

theorem Module.globals_clauses (m : Module) : Clauses.globals m.clauses = m.globals := by
  have declaration (d : Declaration) (place : Nat) :
      Clauses.globals (d.clauses place) = d.global?.toList := by
    rcases d with _ | ⟨name, signature, _ | body⟩
    · rfl
    · rfl
    · rw [Declaration.clauses, Clauses.globals, List.filterMap_cons_none rfl, Option.toList_some,
        List.flatMap_singleton]
      exact body.globals_clauses
  calc Clauses.globals m.clauses
    _ = m.declarations.zipIdx.flatMap fun x => x.1.global?.toList := by
      rw [Clauses.globals, clauses, List.filterMap_flatMap]
      exact List.flatMap_congr fun x _ => declaration x.1 x.2
    _ = (m.declarations.zipIdx.map Prod.fst).flatMap fun d => d.global?.toList := by
      rw [List.flatMap_map]
    _ = m.globals := by
      rw [List.zipIdx_map_fst, globals, List.filterMap_eq_flatMap_toList]

theorem Module.locals_clauses (m : Module) :
    Clauses.locals m.clauses = m.bodies.flatMap fun x => x.2.localNames.map (x.1, ·) := by
  rw [Clauses.locals, m.filterMap_clauses (fun _ _ _ => rfl) fun _ _ _ => rfl]
  exact List.flatMap_congr fun x _ => x.2.locals_clauses

theorem Module.blocks_clauses (m : Module) :
    Clauses.blocks m.clauses = m.code.map fun x => (x.2.key x.1, x.2.signature?) := by
  rw [Clauses.blocks, m.filterMap_clauses (fun _ _ _ => rfl) fun _ _ _ => rfl, code,
    List.map_flatMap]
  refine List.flatMap_congr fun x _ => ?_
  rw [List.map_map]
  exact x.2.blocks_clauses

/-! ### What stands in a block -/

end Tree

/-- The instruction that a clause writes into a block, whether or not its names are known. -/
def Clause.written? (key : BlockKey) : Clause → Option Tree.Instruction
  | instruction inside i => if inside = key then some i else none
  | _ => none

/-- The instructions that are written into a block. -/
def Clauses.written (cs : List Clause) (key : BlockKey) : List Tree.Instruction :=
  cs.filterMap (Clause.written? key)

theorem Clauses.written_snoc (cs : List Clause) (c : Clause) (key : BlockKey) :
    written (cs ++ [c]) key = written cs key ++ (c.written? key).toList := by
  cases h : c.written? key <;> simp [written, h]

namespace Tree

theorem Module.written_clauses (m : Module) (k : BlockKey) : Clauses.written m.clauses k =
    m.code.flatMap fun x => if x.2.key x.1 = k then x.2.instructions else [] := by
  have block (key : BodyKey) (c : Code) : (c.clauses key).filterMap (Clause.written? k) =
      if c.key key = k then c.instructions else [] := by
    have head : (c.head key).written? k = none := by cases c <;> rfl
    rw [Code.clauses, List.filterMap_cons_none head, List.filterMap_map]
    by_cases here : c.key key = k <;> simp [Function.comp_def, Clause.written?, here]
  rw [Clauses.written, m.filterMap_clauses (fun _ _ _ => rfl) fun _ _ _ => rfl, code,
    List.flatMap_assoc]
  refine List.flatMap_congr fun x _ => ?_
  simp [x.2.filterMap_clauses, block, Clause.written?, List.flatMap_map]

/-- Where no two blocks have one key, what is written into a block is what its tree has. -/
theorem Module.written_of_mem {m : Module} {c : Code}
    (nodup : ((Clauses.blocks m.clauses).map Prod.fst).Nodup) (member : (key, c) ∈ m.code) :
    Clauses.written m.clauses (c.key key) = c.instructions := by
  rw [blocks_clauses, List.map_map] at nodup
  obtain ⟨before, after, split⟩ := List.append_of_mem member
  rw [split, List.map_append, List.map_cons, List.nodup_append, List.nodup_cons] at nodup
  obtain ⟨-, ⟨absentAfter, -⟩, apart⟩ := nodup
  have none {others : List (BodyKey × Code)}
      (other : ∀ x ∈ others, x.2.key x.1 ≠ c.key key) :
      (others.flatMap fun x => if x.2.key x.1 = c.key key then x.2.instructions else []) = [] :=
    List.flatMap_eq_nil_iff.mpr fun x member => if_neg (other x member)
  rw [written_clauses, split, List.flatMap_append, List.flatMap_cons, none, none]
  · simp
  · exact fun x later same =>
      absentAfter (List.mem_map.mpr ⟨x, later, same⟩)
  · exact fun x earlier same =>
      apart _ (List.mem_map_of_mem earlier) _ (.head _) same

end Tree

end SigilAsm
