import SigilAsm.Program.Basic

/-! # Programs that hold together

In a consistent program every handle leads to a part of its sort, every local
and every block is listed once and by the function that owns it, and what an
instruction refers to may be referred to where the instruction stands.  Each
registration keeps that, as long as there are handles left.
-/

namespace SigilAsm

/-! ## Lists of parts -/

theorem getElem?_modify_function {α : Type} (rows : Array α) (change : α → α) (f g : FunctionId) :
    (rows.modify f.index change)[g.index]? =
      if g = f then rows[f.index]?.map change else rows[g.index]? := by
  obtain ⟨i⟩ := f
  obtain ⟨j⟩ := g
  rw [Array.getElem?_modify]
  by_cases same : i = j
  · simp [same]
  · simp [same, Ne.symm same]

/-- Every part is in the list of its owner and in no other, and lists go up. -/
structure Lists {ι : Type} (index : ι → Nat) (list? : FunctionId → Option (Array ι))
    (owner? : ι → Option FunctionId) : Prop where
  mem_iff : ∀ f list, list? f = some list → ∀ id, id ∈ list ↔ owner? id = some f
  isSome : ∀ id f, owner? id = some f → (list? f).isSome = true
  increasing : ∀ f list, list? f = some list → list.toList.Pairwise (index · < index ·)

namespace Lists

variable {ι : Type} {index : ι → Nat} {list? : FunctionId → Option (Array ι)}
  {owner? : ι → Option FunctionId} {f : FunctionId}

theorem new (h : Lists index list? owner?) (absent : list? f = none) :
    Lists index (fun g => if g = f then some #[] else list? g) owner? where
  mem_iff g list found id := by
    by_cases same : g = f
    · rw [if_pos same] at found
      cases found
      -- Who owns a part has a list, and there was none for the new function.
      have foreign : owner? id ≠ some g := by
        intro owned
        have listed := h.isSome id g owned
        rw [same, absent] at listed
        cases listed
      simp [foreign]
    · rw [if_neg same] at found
      exact h.mem_iff g list found id
  isSome id g owned := by
    by_cases same : g = f
    · rw [if_pos same]
      rfl
    · rw [if_neg same]
      exact h.isSome id g owned
  increasing g list found := by
    by_cases same : g = f
    · rw [if_pos same] at found
      cases found
      exact .nil
    · rw [if_neg same] at found
      exact h.increasing g list found

theorem push [DecidableEq ι] (h : Lists index list? owner?) {list : Array ι} {id : ι}
    (here : list? f = some list)
    (last : ∀ other g, owner? other = some g → index other < index id) :
    Lists index (fun g => if g = f then some (list.push id) else list? g)
      (fun other => if other = id then some f else owner? other) where
  mem_iff g list' found other := by
    -- The new part comes after all owned ones, so it is none of them.
    have unowned : owner? id ≠ some g := fun owned => Nat.lt_irrefl _ (last id g owned)
    by_cases same : g = f
    · rw [if_pos same] at found
      cases found
      subst same
      rw [Array.mem_push, h.mem_iff g list here]
      by_cases this : other = id <;> simp [this]
    · rw [if_neg same] at found
      rw [h.mem_iff g list' found]
      by_cases this : other = id
      · simp [this, unowned, Ne.symm same]
      · simp [this]
  isSome other g owned := by
    by_cases same : g = f
    · rw [if_pos same]
      rfl
    · rw [if_neg same]
      by_cases this : other = id
      · rw [if_pos this] at owned
        cases owned
        exact absurd rfl same
      · rw [if_neg this] at owned
        exact h.isSome other g owned
  increasing g list' found := by
    by_cases same : g = f
    · rw [if_pos same] at found
      cases found
      rw [Array.toList_push, List.pairwise_append]
      refine ⟨h.increasing f list here, List.pairwise_singleton _ _, ?_⟩
      -- What is listed is owned, and the new part comes after all that is.
      intro other member new isNew
      rw [List.mem_singleton.mp isNew]
      exact last other f ((h.mem_iff f list here other).mp (Array.mem_toList_iff.mp member))
    · rw [if_neg same] at found
      exact h.increasing g list' found

theorem count_eq_one [DecidableEq ι] (h : Lists index list? owner?) {id : ι}
    (owned : owner? id = some f) : ∃ list, list? f = some list ∧ list.count id = 1 := by
  obtain ⟨list, found⟩ := Option.isSome_iff_exists.mp (h.isSome id f owned)
  refine ⟨list, found, ?_⟩
  have member := (h.mem_iff f list found id).mpr owned
  have nodup : list.toList.Nodup :=
    (h.increasing f list found).imp fun less same => Nat.ne_of_lt less (congrArg index same)
  rw [← Array.count_toList, nodup.count, if_pos (Array.mem_toList_iff.mpr member)]

/-! ### Lists in rows

A function is known by the place of its row, which holds its lists, `part` the one in question. -/

section

variable {α : Type} {rows : Array α} {part : α → Array ι} {change : α → α}

theorem push_row (h : Lists index (fun g => rows[g.index]?.map part) owner?) {row : α}
    (empty : part row = #[]) :
    Lists index (fun g => (rows.push row)[g.index]?.map part) owner? := by
  have lists : (fun g : FunctionId => (rows.push row)[g.index]?.map part) = fun g =>
      if g = ⟨rows.size⟩ then some #[] else rows[g.index]?.map part := by
    funext g
    obtain ⟨i⟩ := g
    rw [Array.getElem?_push, apply_ite (Option.map part), Option.map_some, empty]
    simp only [FunctionId.mk.injEq]
  rw [lists]
  exact h.new (by rw [Array.getElem?_size, Option.map_none])

/-- A change of one row shows in no list that it leaves as it is. -/
theorem modify_keep (h : Lists index (fun g => rows[g.index]?.map part) owner?)
    (f : FunctionId) (kept : ∀ row, part (change row) = part row) :
    Lists index (fun g => (rows.modify f.index change)[g.index]?.map part) owner? := by
  have lists : (fun g : FunctionId => (rows.modify f.index change)[g.index]?.map part) = fun g =>
      rows[g.index]?.map part := by
    funext g
    rw [getElem?_modify_function]
    by_cases same : g = f
    · rw [if_pos same, Option.map_map, same]
      exact congrArg (rows[f.index]?.map ·) (funext kept)
    · rw [if_neg same]
  rw [lists]
  exact h

/-- A change of one row that puts a new part to the end of its list. -/
theorem modify_push [DecidableEq ι] (h : Lists index (fun g => rows[g.index]?.map part) owner?)
    {id : ι} (there : f.index < rows.size)
    (pushed : ∀ row, part (change row) = (part row).push id)
    (last : ∀ other g, owner? other = some g → index other < index id) :
    Lists index (fun g => (rows.modify f.index change)[g.index]?.map part)
      (fun other => if other = id then some f else owner? other) := by
  have here : rows[f.index]?.map part = some (part rows[f.index]) := by
    rw [Array.getElem?_eq_getElem there, Option.map_some]
  have lists : (fun g : FunctionId => (rows.modify f.index change)[g.index]?.map part) = fun g =>
      if g = f then some ((part rows[f.index]).push id) else rows[g.index]?.map part := by
    funext g
    rw [getElem?_modify_function, Array.getElem?_eq_getElem there, apply_ite (Option.map part),
      Option.map_some, Option.map_some, pushed]
  rw [lists]
  exact h.push here last

end

end Lists

namespace Program

/-! ## Consistency -/

def localsOf? (p : Program) (f : FunctionId) : Option (Array LocalId) :=
  (p.function? f).map (·.locals)

def blocksOf? (p : Program) (f : FunctionId) : Option (Array BlockId) :=
  (p.function? f).map (·.blocks)

def localOwner? (p : Program) (id : LocalId) : Option FunctionId := (p.local? id).map (·.function)

def blockOwner? (p : Program) (id : BlockId) : Option FunctionId := (p.block? id).map (·.function)

/-- What an operand may be in a block of the function `owner`. -/
def AdmitsOperand (p : Program) (vocabulary : Vocabulary) (owner : FunctionId) : Operand → Prop
  | .ofLocal id => p.localOwner? id = some owner
  | .ofGlobal id => id.index < p.globals.size
  | .ofType id => id.index < vocabulary.types.size
  | .immediate _ => True

/-- What an instruction may be in a block of the function `owner`. -/
def Admits (p : Program) (vocabulary : Vocabulary) (owner : FunctionId) : Instruction → Prop
  | .call target => target.index < p.functions.size
  | .operation id operands =>
    id.index < vocabulary.operations.size ∧ ∀ o ∈ operands, p.AdmitsOperand vocabulary owner o

structure Consistent (p : Program) (vocabulary : Vocabulary) : Prop where
  locals : Lists (·.index) p.localsOf? p.localOwner?
  blocks : Lists (·.index) p.blocksOf? p.blockOwner?
  instructions : ∀ id b, p.block? id = some b → ∀ i ∈ b.instructions,
    p.Admits vocabulary b.function i

theorem empty_consistent (vocabulary : Vocabulary) : empty.Consistent vocabulary where
  locals := ⟨nofun, nofun, nofun⟩
  blocks := ⟨nofun, nofun, nofun⟩
  instructions := nofun

/-! ## More of a program -/

/-- Whatever may be referred to in the first program may be referred to in the second. -/
structure Extends (p p' : Program) : Prop where
  functions : p.functions.size ≤ p'.functions.size
  globals : p.globals.size ≤ p'.globals.size
  localOwner : ∀ id f, p.localOwner? id = some f → p'.localOwner? id = some f
  blockOwner : ∀ id f, p.blockOwner? id = some f → p'.blockOwner? id = some f

variable {p p' : Program} {vocabulary : Vocabulary} {owner f : FunctionId}

theorem Extends.admitsOperand (h : p.Extends p') {o : Operand}
    (admits : p.AdmitsOperand vocabulary owner o) : p'.AdmitsOperand vocabulary owner o := by
  cases o with
  | ofLocal id => exact h.localOwner id owner admits
  | ofGlobal id => exact Nat.lt_of_lt_of_le admits h.globals
  | ofType id => exact admits
  | immediate value => trivial

theorem Extends.admits (h : p.Extends p') {i : Instruction} (admits : p.Admits vocabulary owner i) :
    p'.Admits vocabulary owner i := by
  cases i with
  | call target => exact Nat.lt_of_lt_of_le admits h.functions
  | operation id operands => exact ⟨admits.1, fun o member => h.admitsOperand (admits.2 o member)⟩

/-- Where the blocks stay as they are, their instructions go on to be right. -/
theorem Consistent.instructions_of_extends (h : p.Consistent vocabulary) (more : p.Extends p')
    {id : BlockId} {b : Block} (found : p.block? id = some b) :
    ∀ i ∈ b.instructions, p'.Admits vocabulary b.function i :=
  fun i member => more.admits (h.instructions id b found i member)

/-! ## Registrations -/

theorem isSome_function?_iff : (p.function? f).isSome = true ↔ f.index < p.functions.size := by
  simp [function?]

theorem beginModule_extends (p : Program) (x : String) : p.Extends (p.beginModule x) :=
  ⟨Nat.le_refl _, Nat.le_refl _, fun _ _ => id, fun _ _ => id⟩

theorem Consistent.beginModule (h : p.Consistent vocabulary) (x : String) :
    (p.beginModule x).Consistent vocabulary where
  locals := h.locals
  blocks := h.blocks
  instructions _ _ found := h.instructions_of_extends (p.beginModule_extends x) found

/-! ### Globals -/

theorem addGlobal_extends (p : Program) (x : String) (m : Mutability) (data : List UInt8) :
    p.Extends (p.addGlobal x m data).2 where
  functions := Nat.le_refl _
  globals := by simp [addGlobal]
  localOwner _ _ := id
  blockOwner _ _ := id

theorem Consistent.addGlobal (h : p.Consistent vocabulary) (x : String) (m : Mutability)
    (data : List UInt8) : (p.addGlobal x m data).2.Consistent vocabulary where
  locals := h.locals
  blocks := h.blocks
  instructions _ _ found := h.instructions_of_extends (p.addGlobal_extends x m data) found

/-! ### Functions -/

theorem addFunction_extends (p : Program) (x : String) (s : Signature) :
    p.Extends (p.addFunction x s).2 where
  functions := by simp [addFunction]
  globals := Nat.le_refl _
  localOwner _ _ := id
  blockOwner _ _ := id

theorem Consistent.addFunction (h : p.Consistent vocabulary) (x : String) (s : Signature) :
    (p.addFunction x s).2.Consistent vocabulary where
  locals := h.locals.push_row rfl
  blocks := h.blocks.push_row rfl
  instructions _ _ found := h.instructions_of_extends (p.addFunction_extends x s) found

/-! ### Locals -/

theorem local?_addLocal (room : p.locals.size ≤ 0xffffffff) (x : String) (id : LocalId) :
    (p.addLocal f x).2.local? id =
      if id = (p.addLocal f x).1 then some ⟨x, f⟩ else p.local? id := by
  obtain ⟨i⟩ := id
  simp only [local?, addLocal, Array.getElem?_push, nextIndex_of_le room, LocalId.mk.injEq]

theorem index_lt_of_localOwner? {id : LocalId} (h : p.localOwner? id = some f) :
    id.index < p.locals.size := by
  obtain ⟨l, found, -⟩ := Option.map_eq_some_iff.mp h
  exact (Array.getElem?_eq_some_iff.mp found).1

/-- The next local has no owner yet, and it comes after all that have. -/
theorem last_local (room : p.locals.size ≤ 0xffffffff) (x : String) (id : LocalId) (g : FunctionId)
    (owned : p.localOwner? id = some g) : id.index < (p.addLocal f x).1.index := by
  change _ < nextIndex _
  rw [nextIndex_of_le room]
  exact index_lt_of_localOwner? owned

theorem localOwner?_addLocal (room : p.locals.size ≤ 0xffffffff) (x : String) :
    (p.addLocal f x).2.localOwner? = fun id =>
      if id = (p.addLocal f x).1 then some f else p.localOwner? id := by
  funext id
  rw [localOwner?, local?_addLocal room, apply_ite (Option.map _)]
  rfl

theorem localOwner?_next (room : p.locals.size ≤ 0xffffffff) (f : FunctionId) (x : String) :
    (p.addLocal f x).2.localOwner? (p.addLocal f x).1 = some f := by
  rw [localOwner?_addLocal room]
  exact if_pos rfl

theorem addLocal_extends (room : p.locals.size ≤ 0xffffffff) (f : FunctionId) (x : String) :
    p.Extends (p.addLocal f x).2 where
  functions := by simp [addLocal]
  globals := Nat.le_refl _
  localOwner id g owned := by
    have other : id ≠ (p.addLocal f x).1 := fun same =>
      Nat.ne_of_lt (last_local room x id g owned) (congrArg LocalId.index same)
    rw [localOwner?_addLocal room]
    exact (if_neg other).trans owned
  blockOwner _ _ := id

theorem Consistent.addLocal (h : p.Consistent vocabulary) (room : p.locals.size ≤ 0xffffffff)
    (there : f.index < p.functions.size) (x : String) :
    (p.addLocal f x).2.Consistent vocabulary where
  locals := by
    rw [localOwner?_addLocal room]
    exact h.locals.modify_push there (fun _ => rfl) (last_local room x)
  blocks := h.blocks.modify_keep f fun _ => rfl
  instructions _ _ found := h.instructions_of_extends (addLocal_extends room f x) found

/-! ### Blocks -/

theorem block?_addBlock (room : p.blocks.size ≤ 0xffffffff) (s : Signature) (id : BlockId) :
    (p.addBlock f s).2.block? id =
      if id = (p.addBlock f s).1 then some ⟨f, s, #[]⟩ else p.block? id := by
  obtain ⟨i⟩ := id
  simp only [block?, addBlock, Array.getElem?_push, nextIndex_of_le room, BlockId.mk.injEq]

theorem index_lt_of_blockOwner? {id : BlockId} (h : p.blockOwner? id = some f) :
    id.index < p.blocks.size := by
  obtain ⟨b, found, -⟩ := Option.map_eq_some_iff.mp h
  exact (Array.getElem?_eq_some_iff.mp found).1

theorem last_block (room : p.blocks.size ≤ 0xffffffff) (s : Signature) (id : BlockId)
    (g : FunctionId) (owned : p.blockOwner? id = some g) :
    id.index < (p.addBlock f s).1.index := by
  change _ < nextIndex _
  rw [nextIndex_of_le room]
  exact index_lt_of_blockOwner? owned

theorem blockOwner?_addBlock (room : p.blocks.size ≤ 0xffffffff) (s : Signature) :
    (p.addBlock f s).2.blockOwner? = fun id =>
      if id = (p.addBlock f s).1 then some f else p.blockOwner? id := by
  funext id
  rw [blockOwner?, block?_addBlock room, apply_ite (Option.map _)]
  rfl

theorem blockOwner?_next (room : p.blocks.size ≤ 0xffffffff) (f : FunctionId) (s : Signature) :
    (p.addBlock f s).2.blockOwner? (p.addBlock f s).1 = some f := by
  rw [blockOwner?_addBlock room]
  exact if_pos rfl

theorem addBlock_extends (room : p.blocks.size ≤ 0xffffffff) (f : FunctionId) (s : Signature) :
    p.Extends (p.addBlock f s).2 where
  functions := by simp [addBlock]
  globals := Nat.le_refl _
  localOwner _ _ := id
  blockOwner id g owned := by
    have other : id ≠ (p.addBlock f s).1 := fun same =>
      Nat.ne_of_lt (last_block room s id g owned) (congrArg BlockId.index same)
    rw [blockOwner?_addBlock room]
    exact (if_neg other).trans owned

theorem Consistent.addBlock (h : p.Consistent vocabulary) (room : p.blocks.size ≤ 0xffffffff)
    (there : f.index < p.functions.size) (s : Signature) :
    (p.addBlock f s).2.Consistent vocabulary where
  locals := h.locals.modify_keep f fun _ => rfl
  blocks := by
    rw [blockOwner?_addBlock room]
    exact h.blocks.modify_push there (fun _ => rfl) (last_block room s)
  instructions id b known := by
    rw [block?_addBlock room] at known
    by_cases new : id = (p.addBlock f s).1
    · rw [if_pos new] at known
      cases known
      exact fun i member => absurd member (Array.not_mem_empty i)
    · rw [if_neg new] at known
      exact h.instructions_of_extends (addBlock_extends room f s) known

/-! ### Instructions -/

theorem block?_emit (p : Program) (k id : BlockId) (i : Instruction) :
    (p.emit k i).block? id = if id = k then
      (p.block? k).map fun b => { b with instructions := b.instructions.push i }
    else p.block? id := by
  obtain ⟨j⟩ := id
  obtain ⟨n⟩ := k
  simp only [block?, emit, Array.getElem?_modify, BlockId.mk.injEq]
  by_cases same : n = j
  · simp [same]
  · simp [same, Ne.symm same]

theorem blockOwner?_emit (p : Program) (k : BlockId) (i : Instruction) :
    (p.emit k i).blockOwner? = p.blockOwner? := by
  funext id
  rw [blockOwner?, block?_emit]
  by_cases same : id = k
  · rw [if_pos same, Option.map_map, same]
    rfl
  · rw [if_neg same, blockOwner?]

theorem emit_extends (p : Program) (k : BlockId) (i : Instruction) : p.Extends (p.emit k i) where
  functions := Nat.le_refl _
  globals := Nat.le_refl _
  localOwner _ _ := id
  blockOwner id f owned := by rwa [blockOwner?_emit]

theorem Consistent.emit (h : p.Consistent vocabulary) {k : BlockId} {i : Instruction}
    (owned : p.blockOwner? k = some owner) (admits : p.Admits vocabulary owner i) :
    (p.emit k i).Consistent vocabulary where
  locals := h.locals
  blocks := by
    rw [blockOwner?_emit]
    exact h.blocks
  instructions id b found j member := by
    have more := p.emit_extends k i
    rw [block?_emit] at found
    by_cases same : id = k
    · rw [if_pos same] at found
      obtain ⟨old, here, rfl⟩ := Option.map_eq_some_iff.mp found
      rw [blockOwner?, here] at owned
      cases owned
      -- The earlier instructions were right before; only the new one needs `admits`.
      rcases Array.mem_push.mp member with earlier | rfl
      · exact h.instructions_of_extends more here j earlier
      · exact more.admits admits
    · rw [if_neg same] at found
      exact h.instructions_of_extends more found j member

end Program

end SigilAsm
