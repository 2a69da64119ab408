import SigilAsm.Program.Basic
import SigilAsm.Proofs.Elaboration.Firsts
import SigilAsm.Proofs.Grammar.Tree

/-! # Clauses

A clause is a statement that knows where it stands: in which body, and in which
block of it.  What a clause means depends on the clauses before it, so what a
module means is put as a function of the list of its clauses, and `Reaches` is
the order in which they can come.
-/

namespace SigilAsm

/-- A body, by the declaration that it belongs to: its place in the module and the name of the
function. -/
structure BodyKey where
  declaration : Nat
  function : String
  deriving DecidableEq, Repr

/-- A block, by its body and its label.  There is no label where a body consists of instructions. -/
structure BlockKey where
  body : BodyKey
  label : Option String
  deriving DecidableEq, Repr

inductive Clause where
  | global (name : Ident) (mutability : Mutability) (data : List UInt8)
  | header (body : BodyKey) (name : Ident) (signature : Signature)
  | localName (body : BodyKey) (name : Ident)
  | block (body : BodyKey) (label : Ident) (signature : Signature)
  -- The start of a body that has no labelled block.
  | entry (body : BodyKey)
  | instruction (block : BlockKey) (instruction : Tree.Instruction)
  deriving DecidableEq, Repr

namespace Clause

def statement : Clause → Statement
  | global name mutability data => .global name mutability data
  | header _ name signature => .function name signature
  | localName _ name => .localName name
  | block _ label signature => .block label signature
  | entry _ => .entryBlock
  | instruction _ i => i.statement

def global? : Clause → Option Program.Global
  | global name mutability data => some ⟨name.name, mutability, data⟩
  | _ => none

def mention? : Clause → Option (String × Signature)
  | header _ name signature => some (name.name, signature)
  | instruction _ (.call target (some signature)) => some (target.name, signature)
  | _ => none

def local? : Clause → Option (BodyKey × String)
  | localName body name => some (body, name.name)
  | _ => none

def block? : Clause → Option (BlockKey × Option Signature)
  | block body label signature => some (⟨body, some label.name⟩, some signature)
  | entry body => some (⟨body, none⟩, none)
  | _ => none

end Clause

/-! ## What a list of clauses declares -/

namespace Clauses

def globals (cs : List Clause) : List Program.Global := cs.filterMap Clause.global?

def mentions (cs : List Clause) : List (String × Signature) := cs.filterMap Clause.mention?

def locals (cs : List Clause) : List (BodyKey × String) := cs.filterMap Clause.local?

def blocks (cs : List Clause) : List (BlockKey × Option Signature) := cs.filterMap Clause.block?

variable {cs : List Clause} {c : Clause}

@[simp] theorem globals_snoc : globals (cs ++ [c]) = globals cs ++ c.global?.toList := by
  cases h : c.global? <;> simp [globals, h]

@[simp] theorem mentions_snoc : mentions (cs ++ [c]) = mentions cs ++ c.mention?.toList := by
  cases h : c.mention? <;> simp [mentions, h]

@[simp] theorem locals_snoc : locals (cs ++ [c]) = locals cs ++ c.local?.toList := by
  cases h : c.local? <;> simp [locals, h]

@[simp] theorem blocks_snoc : blocks (cs ++ [c]) = blocks cs ++ c.block?.toList := by
  cases h : c.block? <;> simp [blocks, h]

theorem globals_append (cs ds : List Clause) : globals (cs ++ ds) = globals cs ++ globals ds :=
  List.filterMap_append

theorem mentions_append (cs ds : List Clause) :
    mentions (cs ++ ds) = mentions cs ++ mentions ds :=
  List.filterMap_append

theorem locals_append (cs ds : List Clause) : locals (cs ++ ds) = locals cs ++ locals ds :=
  List.filterMap_append

theorem mem_locals_snoc {x : BodyKey × String} :
    x ∈ locals (cs ++ [c]) ↔ x ∈ locals cs ∨ c.local? = some x := by
  simp

theorem mem_blocks_snoc {x : BlockKey × Option Signature} :
    x ∈ blocks (cs ++ [c]) ↔ x ∈ blocks cs ∨ c.block? = some x := by
  simp

end Clauses

/-! ## The clauses of a tree -/

namespace Tree

def Block.clauses (body : BodyKey) (b : Block) : List Clause :=
  .block body b.label (b.signature.getD .none) ::
    b.instructions.map (.instruction ⟨body, some b.label.name⟩)

def Contents.clauses (body : BodyKey) : Contents → List Clause
  | blocks first rest => (first :: rest).flatMap (Block.clauses body)
  | instructions list => .entry body :: list.map (.instruction ⟨body, none⟩)

def Body.clauses (key : BodyKey) (b : Body) : List Clause :=
  b.locals.map (.localName key) ++ b.contents.clauses key

def Declaration.clauses (place : Nat) : Declaration → List Clause
  | global mutability name data => [.global name mutability data.bytes]
  | function name signature body =>
    .header ⟨place, name.name⟩ name (signature.getD .none) ::
      body.toList.flatMap (Body.clauses ⟨place, name.name⟩)

def Module.clauses (m : Module) : List Clause :=
  m.declarations.zipIdx.flatMap fun (d, place) => d.clauses place

theorem Block.map_statement_clauses (body : BodyKey) (b : Block) :
    (b.clauses body).map Clause.statement = b.statements := by
  simp [clauses, statements, Clause.statement, Function.comp_def]

theorem Contents.map_statement_clauses (body : BodyKey) (b : Contents) :
    (b.clauses body).map Clause.statement = b.statements := by
  cases b with
  | blocks first rest =>
    simp [clauses, statements, List.map_flatMap, Block.map_statement_clauses]
  | instructions list => simp [clauses, statements, Clause.statement, Function.comp_def]

theorem Declaration.map_statement_clauses (place : Nat) (d : Declaration) :
    (d.clauses place).map Clause.statement = d.statements := by
  rcases d with _ | ⟨name, signature, _ | b⟩
  · rfl
  · rfl
  · simp [clauses, statements, Clause.statement, restStatements, Body.clauses, Body.statements,
      Contents.map_statement_clauses, Function.comp_def]

theorem Module.statements_eq (m : Module) :
    m.statements = .module m.name.name :: m.clauses.map Clause.statement := by
  -- The places go up from any number, so that the induction can move along the list.
  have declarations (ds : List Declaration) (n : Nat) :
      ((ds.zipIdx n).flatMap fun (d, place) => d.clauses place).map Clause.statement =
        ds.flatMap Declaration.statements := by
    induction ds generalizing n with
    | nil => rfl
    | cons d ds ih =>
      rw [List.zipIdx_cons, List.flatMap_cons, List.map_append, ih,
        Declaration.map_statement_clauses, List.flatMap_cons]
  rw [statements, clauses, declarations]

end Tree

/-! ## The order of clauses -/

/-- Where the next clause stands. -/
structure Place where
  -- The number of the next declaration.
  next : Nat
  -- The body of the function whose header came last.
  body : Option BodyKey
  -- The label of the block that was begun last in the body, if one was.
  block : Option (Option String)

/-- `Reaches cs p`: the clauses come in the order of some module, and the next one stands at `p`. -/
inductive Reaches : List Clause → Place → Prop
  | nil : Reaches [] ⟨0, none, none⟩
  | global {cs : List Clause} {p : Place} (name : Ident) (mutability : Mutability)
      (data : List UInt8) : Reaches cs p →
      Reaches (cs ++ [.global name mutability data]) ⟨p.next + 1, p.body, p.block⟩
  | header {cs : List Clause} {p : Place} (name : Ident) (signature : Signature) : Reaches cs p →
      Reaches (cs ++ [.header ⟨p.next, name.name⟩ name signature])
        ⟨p.next + 1, some ⟨p.next, name.name⟩, none⟩
  | localName {cs : List Clause} {n : Nat} {b : BodyKey} (name : Ident) :
      Reaches cs ⟨n, some b, none⟩ → Reaches (cs ++ [.localName b name]) ⟨n, some b, none⟩
  | block {cs : List Clause} {n : Nat} {b : BodyKey} {l : Option (Option String)} (label : Ident)
      (signature : Signature) : l ≠ some none → Reaches cs ⟨n, some b, l⟩ →
      Reaches (cs ++ [.block b label signature]) ⟨n, some b, some (some label.name)⟩
  | entry {cs : List Clause} {n : Nat} {b : BodyKey} :
      Reaches cs ⟨n, some b, none⟩ → Reaches (cs ++ [.entry b]) ⟨n, some b, some none⟩
  | instruction {cs : List Clause} {n : Nat} {b : BodyKey} {l : Option String}
      (i : Tree.Instruction) : Reaches cs ⟨n, some b, some l⟩ →
      Reaches (cs ++ [.instruction ⟨b, l⟩ i]) ⟨n, some b, some l⟩

/-- The body belongs to a declaration that came and to a function that was mentioned. -/
structure Begun (cs : List Clause) (next : Nat) (b : BodyKey) : Prop where
  declaration_lt : b.declaration < next
  mentioned : b.function ∈ (Clauses.mentions cs).map Prod.fst

variable {cs : List Clause} {n : Nat} {b : BodyKey}

theorem Begun.snoc (h : Begun cs n b) (c : Clause) : Begun (cs ++ [c]) n b where
  declaration_lt := h.declaration_lt
  mentioned := by
    rw [Clauses.mentions_snoc, List.map_append]
    exact List.mem_append_left _ h.mentioned

theorem Begun.next (h : Begun cs n b) (c : Clause) : Begun (cs ++ [c]) (n + 1) b where
  declaration_lt := Nat.lt_succ_of_lt h.declaration_lt
  mentioned := (h.snoc c).mentioned

/-- What the order of clauses keeps.  A body that was left is not entered again, and it has no
block before its first. -/
structure Ordered (cs : List Clause) (p : Place) : Prop where
  body : ∀ b, p.body = some b → Begun cs p.next b
  locals : ∀ b x, (b, x) ∈ Clauses.locals cs → Begun cs p.next b
  blocks : ∀ key s, (key, s) ∈ Clauses.blocks cs → Begun cs p.next key.body
  no_block : ∀ b, p.body = some b → p.block = none → ∀ l s, (⟨b, l⟩, s) ∉ Clauses.blocks cs
  block_begun : ∀ b l, p.body = some b → p.block = some l →
    ⟨b, l⟩ ∈ (Clauses.blocks cs).map Prod.fst

namespace Ordered

variable {p : Place} {c : Clause}

/-- What begins no block keeps the order, if its locals are of the body that it stands in. -/
theorem snoc_of_block?_eq_none (h : Ordered cs p) (noBlock : c.block? = none)
    (inside : ∀ b x, c.local? = some (b, x) → p.body = some b) : Ordered (cs ++ [c]) p where
  body b current := (h.body b current).snoc c
  locals b x member := by
    rcases Clauses.mem_locals_snoc.mp member with old | new
    · exact (h.locals b x old).snoc c
    · exact (h.body b (inside b x new)).snoc c
  blocks key s member := by
    rcases Clauses.mem_blocks_snoc.mp member with old | new
    · exact (h.blocks key s old).snoc c
    · cases noBlock.symm.trans new
  no_block := by simpa [noBlock] using h.no_block
  block_begun := by simpa [noBlock] using h.block_begun

/-- A block begins in the body that it stands in, and the clauses after it stand in the block. -/
theorem snoc_of_block?_eq_some {before : Option (Option String)} {l : Option String}
    {s : Option Signature} (h : Ordered cs ⟨n, some b, before⟩)
    (begins : c.block? = some (⟨b, l⟩, s)) (noLocal : c.local? = none) :
    Ordered (cs ++ [c]) ⟨n, some b, some l⟩ where
  body := by
    rintro _ ⟨⟩
    exact (h.body b rfl).snoc c
  locals b' x member := by
    rcases Clauses.mem_locals_snoc.mp member with old | new
    · exact (h.locals b' x old).snoc c
    · cases noLocal.symm.trans new
  blocks key s' member := by
    rcases Clauses.mem_blocks_snoc.mp member with old | new
    · exact (h.blocks key s' old).snoc c
    · -- The block that begins is of the body that the clauses stand in.
      cases begins.symm.trans new
      exact (h.body b rfl).snoc c
  no_block := by
    rintro _ _ ⟨⟩
  block_begun := by
    rintro _ _ ⟨⟩ ⟨⟩
    simp [begins]

end Ordered

namespace Reaches

variable {p : Place}

theorem ordered (h : Reaches cs p) : Ordered cs p := by
  induction h with
  | nil => constructor <;> simp [Clauses.locals, Clauses.blocks]
  | global name mutability data _ ih =>
    constructor
    · exact fun b h => (ih.body b h).next _
    · simpa [Clause.local?] using fun b x h => (ih.locals b x h).next (.global name mutability data)
    · simpa [Clause.block?] using
        fun key s h => (ih.blocks key s h).next (.global name mutability data)
    · simpa [Clause.block?] using ih.no_block
    · simpa [Clause.block?] using ih.block_begun
  | @header _ p name signature _ ih =>
    constructor
    · rintro _ ⟨⟩
      exact ⟨Nat.lt_succ_self _, by simp [Clause.mention?]⟩
    · simpa [Clause.local?] using
        fun b x h => (ih.locals b x h).next (.header ⟨p.next, name.name⟩ name signature)
    · simpa [Clause.block?] using
        fun key s h => (ih.blocks key s h).next (.header ⟨p.next, name.name⟩ name signature)
    · rintro _ ⟨⟩ - l s h
      -- A block of the body that begins here would belong to a declaration that came before.
      have old := ih.blocks _ s (by simpa [Clause.block?] using h)
      exact absurd old.declaration_lt (Nat.lt_irrefl _)
    · rintro _ _ ⟨⟩ ⟨⟩
  | localName name _ ih =>
    exact ih.snoc_of_block?_eq_none rfl fun _ _ same => by cases same; rfl
  | block label signature _ _ ih => exact ih.snoc_of_block?_eq_some rfl rfl
  | entry _ ih => exact ih.snoc_of_block?_eq_some rfl rfl
  | instruction i _ ih => exact ih.snoc_of_block?_eq_none rfl nofun

/-! ### Trees are written in order -/

theorem instructions {l : Option String} (list : List Tree.Instruction)
    (h : Reaches cs ⟨n, some b, some l⟩) :
    Reaches (cs ++ list.map (.instruction ⟨b, l⟩)) ⟨n, some b, some l⟩ := by
  induction list generalizing cs with
  | nil => simpa using h
  | cons i list ih => simpa using ih (h.instruction i)

theorem blocks {before : Option (Option String)} (list : List Tree.Block)
    (labelled : before ≠ some none) (h : Reaches cs ⟨n, some b, before⟩) :
    ∃ after, Reaches (cs ++ list.flatMap (Tree.Block.clauses b)) ⟨n, some b, after⟩ := by
  induction list generalizing cs before with
  | nil => exact ⟨before, by simpa using h⟩
  | cons first list ih =>
    have begun := h.block first.label (first.signature.getD .none) labelled
    obtain ⟨after, more⟩ := ih (by simp) (begun.instructions first.instructions)
    exact ⟨after, by simpa [Tree.Block.clauses] using more⟩

theorem locals (names : List Ident) (h : Reaches cs ⟨n, some b, none⟩) :
    Reaches (cs ++ names.map (.localName b)) ⟨n, some b, none⟩ := by
  induction names generalizing cs with
  | nil => simpa using h
  | cons name names ih => simpa using ih (h.localName name)

theorem body (t : Tree.Body) (h : Reaches cs ⟨n, some b, none⟩) :
    ∃ after, Reaches (cs ++ t.clauses b) ⟨n, some b, after⟩ := by
  obtain ⟨names, contents⟩ := t
  have declared := h.locals names
  cases contents with
  | blocks first rest =>
    obtain ⟨after, more⟩ := declared.blocks (first :: rest) (by simp)
    exact ⟨after, by simpa [Tree.Body.clauses, Tree.Contents.clauses] using more⟩
  | instructions list =>
    have more := declared.entry.instructions list
    exact ⟨_, by simpa [Tree.Body.clauses, Tree.Contents.clauses] using more⟩

theorem declaration (d : Tree.Declaration) (h : Reaches cs p) :
    ∃ p', p'.next = p.next + 1 ∧ Reaches (cs ++ d.clauses p.next) p' := by
  cases d with
  | global mutability name data => exact ⟨_, rfl, h.global name mutability data.bytes⟩
  | function name signature rest =>
    have begun := h.header name (signature.getD .none)
    cases rest with
    | none => exact ⟨_, rfl, begun⟩
    | some t =>
      obtain ⟨after, more⟩ := begun.body t
      exact ⟨_, rfl, by simpa [Tree.Declaration.clauses] using more⟩

theorem declarations (ds : List Tree.Declaration) (h : Reaches cs p) :
    ∃ p', Reaches (cs ++ (ds.zipIdx p.next).flatMap fun (d, place) => d.clauses place) p' := by
  induction ds generalizing cs p with
  | nil => exact ⟨p, by simpa using h⟩
  | cons d ds ih =>
    obtain ⟨p', next, begun⟩ := h.declaration d
    obtain ⟨stop, more⟩ := ih begun
    exact ⟨stop, by simpa [List.zipIdx_cons, next] using more⟩

end Reaches

theorem Tree.Module.exists_reaches (m : Tree.Module) : ∃ p, Reaches m.clauses p := by
  obtain ⟨p, h⟩ := Reaches.nil.declarations m.declarations
  exact ⟨p, by simpa [clauses] using h⟩

end SigilAsm
