import SigilAsm.Program.Listing
import SigilAsm.Proofs.Program.Consistency

/-! # Listings miss nothing

`Program.listing?` is the listing without a way out: a handle or number that
leads nowhere leaves it without an answer.  Of a consistent program it is the
listing, so no name in a listing stands for one that cannot be told.
-/

namespace SigilAsm

namespace Program

def operandText? (p : Program) (vocabulary : Vocabulary) : Operand → Option String
  | .ofLocal id => (p.local? id).map ("%" ++ ·.name)
  | .ofGlobal id => (p.global? id).map ("@" ++ ·.name)
  | .ofType id => (vocabulary.typeName? id).map ("$" ++ ·)
  | .immediate value => some (toString value.toNat)

def instructionText? (p : Program) (vocabulary : Vocabulary) : Instruction → Option String
  | .call target => (p.function? target).map ("call @" ++ ·.name)
  | .operation id operands =>
    (vocabulary.operationName? id).bind fun name =>
      (operands.mapM (p.operandText? vocabulary)).map fun
        | [] => "$" ++ name
        | texts => "$" ++ name ++ " " ++ ", ".intercalate texts

def localRow? (p : Program) (id : LocalId) : Option String :=
  (p.local? id).map ("  local %" ++ ·.name)

def blockRows? (p : Program) (vocabulary : Vocabulary) (id : BlockId) : Option (List String) :=
  (p.block? id).bind fun block =>
    (block.instructions.toList.mapM (p.instructionText? vocabulary)).map fun texts =>
      ("  block #" ++ toString id.index ++ block.signature.render) :: texts.map ("    " ++ ·)

def functionRows? (p : Program) (vocabulary : Vocabulary) (f : Function) : Option (List String) :=
  (f.locals.toList.mapM p.localRow?).bind fun locals =>
    (f.blocks.toList.mapM (p.blockRows? vocabulary)).map fun blocks =>
      ("function @" ++ f.name ++ f.signature.render) :: locals ++ blocks.flatten

def listing? (p : Program) (vocabulary : Vocabulary) : Option String :=
  (p.functions.toList.mapM (p.functionRows? vocabulary)).map fun functions =>
    String.join (((("module @" ++ p.name.getD missingName)
      :: p.globals.toList.map Global.row ++ functions.flatten)).map (· ++ "\n"))

theorem mapM_of_eq_some {α β : Type} {part? : α → Option β} {part : α → β} {l : List α}
    (h : ∀ a ∈ l, part? a = some (part a)) : l.mapM part? = some (l.map part) := by
  induction l with
  | nil => rfl
  | cons a rest ih =>
    have others := ih fun b member => h b (List.mem_cons_of_mem a member)
    simp [h a List.mem_cons_self, others]

variable {p : Program} {vocabulary : Vocabulary} {owner : FunctionId}

theorem exists_of_localOwner? {id : LocalId} (h : p.localOwner? id = some owner) :
    ∃ l, p.local? id = some l ∧ l.function = owner :=
  Option.map_eq_some_iff.mp h

theorem operandText?_of_admits {o : Operand} (h : p.AdmitsOperand vocabulary owner o) :
    p.operandText? vocabulary o = some (p.operandText vocabulary o) := by
  cases o with
  | ofLocal id =>
    obtain ⟨l, found, -⟩ := exists_of_localOwner? h
    simp [operandText?, operandText, found]
  | ofGlobal id =>
    have found : p.global? id = some p.globals[id.index] := Array.getElem?_eq_getElem h
    simp [operandText?, operandText, found]
  | ofType id =>
    have found : vocabulary.typeName? id = some vocabulary.types.entries[id.index].1 := by
      rw [Vocabulary.typeName?, List.getElem?_eq_getElem h, Option.map_some]
    simp [operandText?, operandText, found]
  | immediate value => rfl

theorem instructionText?_of_admits {i : Instruction} (h : p.Admits vocabulary owner i) :
    p.instructionText? vocabulary i = some (p.instructionText vocabulary i) := by
  cases i with
  | call target =>
    have found : p.function? target = some p.functions[target.index] := Array.getElem?_eq_getElem h
    simp [instructionText?, instructionText, found]
  | operation id operands =>
    obtain ⟨lt, admitted⟩ := h
    have found : vocabulary.operationName? id = some vocabulary.operations.entries[id.index].1 := by
      rw [Vocabulary.operationName?, List.getElem?_eq_getElem lt, Option.map_some]
    have texts := mapM_of_eq_some fun o member => operandText?_of_admits (admitted o member)
    cases operands with
    | nil => simp [instructionText?, instructionText, found]
    | cons first rest => simp [instructionText?, instructionText, found, texts]

namespace Consistent

theorem localRow?_eq_some (h : p.Consistent vocabulary) {f : FunctionId} {row : Function}
    (there : p.function? f = some row) {id : LocalId} (listed : id ∈ row.locals) :
    p.localRow? id = some (p.localRow id) := by
  have list : p.localsOf? f = some row.locals := by
    rw [localsOf?, there, Option.map_some]
  obtain ⟨l, found, -⟩ := exists_of_localOwner? ((h.locals.mem_iff f _ list id).mp listed)
  simp [Program.localRow?, localRow, found]

theorem blockRows?_eq_some (h : p.Consistent vocabulary) {f : FunctionId} {row : Function}
    (there : p.function? f = some row) {id : BlockId} (listed : id ∈ row.blocks) :
    p.blockRows? vocabulary id = some (p.blockRows vocabulary id) := by
  have list : p.blocksOf? f = some row.blocks := by
    rw [blocksOf?, there, Option.map_some]
  obtain ⟨b, found, -⟩ := Option.map_eq_some_iff.mp ((h.blocks.mem_iff f _ list id).mp listed)
  have texts := mapM_of_eq_some fun i member => instructionText?_of_admits
    (h.instructions id b found i (Array.mem_toList_iff.mp member))
  rw [Program.blockRows?, found, Option.bind_some, texts, blockRows, found]
  simp

theorem functionRows?_eq_some (h : p.Consistent vocabulary) {f : FunctionId} {row : Function}
    (there : p.function? f = some row) :
    p.functionRows? vocabulary row = some (p.functionRows vocabulary row) := by
  have locals := mapM_of_eq_some fun id member =>
    h.localRow?_eq_some there (Array.mem_toList_iff.mp member)
  have blocks := mapM_of_eq_some fun id member =>
    h.blockRows?_eq_some there (Array.mem_toList_iff.mp member)
  rw [Program.functionRows?, locals, Option.bind_some, blocks, functionRows, List.flatMap]
  rfl

theorem listing?_eq_some (h : p.Consistent vocabulary) :
    p.listing? vocabulary = some (p.listing vocabulary) := by
  have rows : p.functions.toList.mapM (p.functionRows? vocabulary) =
      some (p.functions.toList.map (p.functionRows vocabulary)) := by
    refine mapM_of_eq_some fun row member => ?_
    -- A row of the array is that of the handle with its place.
    obtain ⟨i, found⟩ := List.mem_iff_getElem?.mp member
    rw [Array.getElem?_toList] at found
    exact h.functionRows?_eq_some (f := ⟨i⟩) found
  rw [Program.listing?, rows, listing, listingRows, List.flatMap]
  rfl

end Consistent

/-- A consistent program, as those who read it rely on it: each local and each block stands once in
the list of its function, and a listing finds all that it looks for. -/
structure Integrity (p : Program) (vocabulary : Vocabulary) : Prop
    extends p.Consistent vocabulary where
  local_once : ∀ id l, p.local? id = some l →
    ∃ f, p.function? l.function = some f ∧ f.locals.count id = 1
  block_once : ∀ id b, p.block? id = some b →
    ∃ f, p.function? b.function = some f ∧ f.blocks.count id = 1
  listing : p.listing? vocabulary = some (p.listing vocabulary)

theorem Consistent.integrity (h : p.Consistent vocabulary) : p.Integrity vocabulary where
  toConsistent := h
  local_once id l found := by
    have owned : p.localOwner? id = some l.function := by
      rw [localOwner?, found, Option.map_some]
    obtain ⟨list, listed, once⟩ := h.locals.count_eq_one owned
    obtain ⟨f, there, rfl⟩ := Option.map_eq_some_iff.mp listed
    exact ⟨f, there, once⟩
  block_once id b found := by
    have owned : p.blockOwner? id = some b.function := by
      rw [blockOwner?, found, Option.map_some]
    obtain ⟨list, listed, once⟩ := h.blocks.count_eq_one owned
    obtain ⟨f, there, rfl⟩ := Option.map_eq_some_iff.mp listed
    exact ⟨f, there, once⟩
  listing := h.listing?_eq_some

end Program

end SigilAsm
