import SigilAsm.Proofs.Elaboration.Clause

/-! # What a module means

The program of a module, told from its clauses: each part in the order of first
declarations, with what the first declaration says of it, and in each block the
instructions written under its label whose names are all known where they stand.

`Program.ofDeclared` puts the parts together, and its lemmas say what one more
declaration does to it, which is what the registrations of a builder do.
-/

namespace SigilAsm

namespace Program

/-- What is declared, in the order of the source and with every repetition, and the instructions
of each block. -/
structure Declared where
  globals : List Global
  mentions : List (String × Signature)
  locals : List (BodyKey × String)
  blocks : List (BlockKey × Option Signature)
  code : BlockKey → List Instruction

namespace Declared

variable (d : Declared)

def functionId (name : String) : FunctionId := ⟨placeOf Prod.fst name d.mentions⟩

/-- The signature of a function is that of its first mention. -/
def signature (name : String) : Signature := (d.mentions.lookup name).getD .none

/-- A function has the locals and blocks of all bodies that are given for it. -/
def functionRow (mention : String × Signature) : Function where
  name := mention.1
  signature := mention.2
  locals := ((placesWhere (·.1.function = mention.1) (firsts id d.locals)).map LocalId.mk).toArray
  blocks := ((placesWhere (·.1.body.function = mention.1) (firsts Prod.fst d.blocks)).map
    BlockId.mk).toArray

def localRow (x : BodyKey × String) : Local := ⟨x.2, d.functionId x.1.function⟩

/-- A block without a label has the signature of its function. -/
def blockRow (b : BlockKey × Option Signature) : Block where
  function := d.functionId b.1.body.function
  signature := b.2.getD (d.signature b.1.body.function)
  instructions := (d.code b.1).toArray

end Declared

/-- The program of what is declared, where a repeated declaration counts for nothing. -/
def ofDeclared (name : String) (d : Declared) : Program where
  name := some name
  functions := ((firsts Prod.fst d.mentions).map d.functionRow).toArray
  globals := (firsts (·.name) d.globals).toArray
  locals := ((firsts id d.locals).map d.localRow).toArray
  blocks := ((firsts Prod.fst d.blocks).map d.blockRow).toArray

theorem mem_functions_ofDeclared {name : String} {d : Declared} {f : Function} :
    f ∈ (ofDeclared name d).functions.toList ↔
      ∃ mention ∈ firsts Prod.fst d.mentions, d.functionRow mention = f :=
  List.mem_map

/-! ## One more declaration -/

namespace Declared

/-- Bodies are those of mentioned functions, instructions are those of begun blocks, and there are
handles for everything. -/
structure Valid (d : Declared) : Prop where
  locals_mentioned : ∀ x ∈ d.locals, x.1.function ∈ d.mentions.map Prod.fst
  blocks_mentioned : ∀ b ∈ d.blocks, b.1.body.function ∈ d.mentions.map Prod.fst
  code_eq_nil : ∀ key, key ∉ d.blocks.map Prod.fst → d.code key = []
  globals_le : d.globals.length ≤ 0xffffffff
  mentions_le : d.mentions.length ≤ 0xffffffff
  locals_le : d.locals.length ≤ 0xffffffff
  blocks_le : d.blocks.length ≤ 0xffffffff

def withGlobal (d : Declared) (g : Global) : Declared := { d with globals := d.globals ++ [g] }

def withMention (d : Declared) (name : String) (signature : Signature) : Declared :=
  { d with mentions := d.mentions ++ [(name, signature)] }

def withLocal (d : Declared) (body : BodyKey) (name : String) : Declared :=
  { d with locals := d.locals ++ [(body, name)] }

def withBlock (d : Declared) (key : BlockKey) (signature : Option Signature) : Declared :=
  { d with blocks := d.blocks ++ [(key, signature)] }

def withInstruction (d : Declared) (key : BlockKey) (i : Instruction) : Declared :=
  { d with code := fun other => if other = key then d.code other ++ [i] else d.code other }

end Declared

variable {name : String} {d : Declared}

/-! ### Globals -/

theorem addGlobal_ofDeclared (name : String) (valid : d.Valid) {g : Global}
    (fresh : g.name ∉ d.globals.map (·.name)) :
    (ofDeclared name d).addGlobal g.name g.mutability g.data =
      (⟨(firsts (·.name) d.globals).length⟩, ofDeclared name (d.withGlobal g)) := by
  have index : nextIndex (firsts (·.name) d.globals).length = (firsts (·.name) d.globals).length :=
    nextIndex_of_le (Nat.le_trans (length_firsts_le _) valid.globals_le)
  have added : (firsts (·.name) d.globals).toArray.push g =
      (firsts (·.name) (d.globals ++ [g])).toArray := by
    rw [firsts_snoc_of_not_mem fresh, List.push_toArray]
  simp only [addGlobal, ofDeclared, List.size_toArray, index, added]
  rfl

theorem ofDeclared_withGlobal_of_mem {g : Global} (taken : g.name ∈ d.globals.map (·.name)) :
    ofDeclared name (d.withGlobal g) = ofDeclared name d := by
  have same : firsts (·.name) (d.globals ++ [g]) = firsts (·.name) d.globals :=
    firsts_snoc_of_mem taken
  simp only [ofDeclared, Declared.withGlobal, same]
  rfl

/-! ### Functions -/

namespace Declared

theorem functionId_withMention {f : String} (known : f ∈ d.mentions.map Prod.fst) (x : String)
    (signature : Signature) : (d.withMention x signature).functionId f = d.functionId f :=
  congrArg FunctionId.mk (placeOf_snoc_of_mem known _)

theorem signature_withMention {f : String} (known : f ∈ d.mentions.map Prod.fst) (x : String)
    (signature : Signature) : (d.withMention x signature).signature f = d.signature f := by
  obtain ⟨first, found⟩ := Option.isSome_iff_exists.mp (isSome_lookup_iff.mpr known)
  simp [Declared.signature, withMention, List.lookup_append, found]

theorem functionId_withMention_of_not_mem {f : String} (fresh : f ∉ d.mentions.map Prod.fst)
    (signature : Signature) :
    (d.withMention f signature).functionId f = ⟨(firsts Prod.fst d.mentions).length⟩ :=
  congrArg FunctionId.mk (placeOf_snoc_of_not_mem (a := (f, signature)) fresh)

theorem signature_withMention_of_not_mem {f : String} (fresh : f ∉ d.mentions.map Prod.fst)
    (signature : Signature) : (d.withMention f signature).signature f = signature := by
  have absent : d.mentions.lookup f = none :=
    Option.not_isSome_iff_eq_none.mp (mt isSome_lookup_iff.mp fresh)
  simp [Declared.signature, withMention, List.lookup_append, absent]

theorem Valid.localRows (valid : d.Valid) (f : String) (signature : Signature) :
    (firsts id d.locals).map (d.withMention f signature).localRow =
      (firsts id d.locals).map d.localRow := by
  refine List.map_congr_left fun x member => ?_
  have known := valid.locals_mentioned x (mem_of_mem_firsts member)
  rw [localRow, localRow, functionId_withMention known]

theorem Valid.blockRows (valid : d.Valid) (f : String) (signature : Signature) :
    (firsts Prod.fst d.blocks).map (d.withMention f signature).blockRow =
      (firsts Prod.fst d.blocks).map d.blockRow := by
  refine List.map_congr_left fun b member => ?_
  have known := valid.blocks_mentioned b (mem_of_mem_firsts member)
  rw [blockRow, blockRow, functionId_withMention known, signature_withMention known]
  rfl

theorem Valid.functionRow_of_not_mem (valid : d.Valid) {f : String}
    (fresh : f ∉ d.mentions.map Prod.fst) (signature : Signature) :
    d.functionRow (f, signature) = ⟨f, signature, #[], #[]⟩ := by
  have noLocal : placesWhere (·.1.function = f) (firsts id d.locals) = [] := by
    refine placesWhere_eq_nil fun x member => ?_
    have other : x.1.function ≠ f := by
      rintro rfl
      exact fresh (valid.locals_mentioned x (mem_of_mem_firsts member))
    simpa using other
  have noBlock : placesWhere (·.1.body.function = f) (firsts Prod.fst d.blocks) = [] := by
    refine placesWhere_eq_nil fun b member => ?_
    have other : b.1.body.function ≠ f := by
      rintro rfl
      exact fresh (valid.blocks_mentioned b (mem_of_mem_firsts member))
    simpa using other
  simp [functionRow, noLocal, noBlock]

end Declared

theorem ofDeclared_withMention (valid : d.Valid) (f : String) (signature : Signature) :
    ofDeclared name (d.withMention f signature) = { ofDeclared name d with
      functions :=
        ((firsts Prod.fst (d.mentions ++ [(f, signature)])).map d.functionRow).toArray } := by
  have locals := valid.localRows f signature
  have blocks := valid.blockRows f signature
  change Program.mk _ _ _ ((firsts id d.locals).map (d.withMention f signature).localRow).toArray
    ((firsts Prod.fst d.blocks).map (d.withMention f signature).blockRow).toArray = _
  rw [locals, blocks]
  rfl

theorem ofDeclared_withMention_of_mem (valid : d.Valid) {f : String}
    (taken : f ∈ d.mentions.map Prod.fst) (signature : Signature) :
    ofDeclared name (d.withMention f signature) = ofDeclared name d := by
  rw [ofDeclared_withMention valid, firsts_snoc_of_mem (a := (f, signature)) taken]
  rfl

theorem addFunction_ofDeclared (name : String) (valid : d.Valid) {f : String}
    (fresh : f ∉ d.mentions.map Prod.fst) (signature : Signature) :
    (ofDeclared name d).addFunction f signature =
      (⟨(firsts Prod.fst d.mentions).length⟩, ofDeclared name (d.withMention f signature)) := by
  have index : nextIndex (firsts Prod.fst d.mentions).length =
      (firsts Prod.fst d.mentions).length :=
    nextIndex_of_le (Nat.le_trans (length_firsts_le _) valid.mentions_le)
  rw [ofDeclared_withMention valid, firsts_snoc_of_not_mem (a := (f, signature)) fresh,
    List.map_append, List.map_singleton, valid.functionRow_of_not_mem fresh]
  simp [addFunction, ofDeclared, index]

/-! ### Locals -/

theorem addLocal_ofDeclared (name : String) (valid : d.Valid) {b : BodyKey} {x : String}
    (fresh : (b, x) ∉ d.locals) :
    (ofDeclared name d).addLocal (d.functionId b.function) x =
      (⟨(firsts id d.locals).length⟩, ofDeclared name (d.withLocal b x)) := by
  have added : firsts id (d.locals ++ [(b, x)]) = firsts id d.locals ++ [(b, x)] :=
    firsts_snoc_of_not_mem (by simpa using fresh)
  have index : nextIndex (firsts id d.locals).length = (firsts id d.locals).length :=
    nextIndex_of_le (Nat.le_trans (length_firsts_le _) valid.locals_le)
  -- The list of the owner gets one more handle, and no other row changes.
  have functions : ((firsts Prod.fst d.mentions).map d.functionRow).toArray.modify
      (placeOf Prod.fst b.function d.mentions)
      (fun f => { f with locals := f.locals.push ⟨(firsts id d.locals).length⟩ }) =
      ((firsts Prod.fst d.mentions).map (d.withLocal b x).functionRow).toArray := by
    refine modify_map_firsts d.mentions b.function (fun m same => ?_) (fun m other => ?_)
    · simp [Declared.functionRow, Declared.withLocal, added, placesWhere_snoc, same]
    · simp [Declared.functionRow, Declared.withLocal, added, placesWhere_snoc, Ne.symm other]
  have rows : ((firsts id d.locals).map d.localRow).toArray.push ⟨x, d.functionId b.function⟩ =
      ((firsts id (d.locals ++ [(b, x)])).map d.localRow).toArray := by
    rw [added, List.map_append, List.push_toArray]
    rfl
  simp only [addLocal, ofDeclared, List.size_toArray, List.length_map, index, rows]
  rw [Declared.functionId, functions]
  rfl

theorem ofDeclared_withLocal_of_mem {b : BodyKey} {x : String} (taken : (b, x) ∈ d.locals) :
    ofDeclared name (d.withLocal b x) = ofDeclared name d := by
  have same : firsts id (d.locals ++ [(b, x)]) = firsts id d.locals :=
    firsts_snoc_of_mem (by simpa using taken)
  have rows : (d.withLocal b x).functionRow = d.functionRow := by
    funext m
    simp only [Declared.functionRow, Declared.withLocal, same]
  rw [ofDeclared, rows]
  simp only [Declared.withLocal, same]
  rfl

/-! ### Blocks -/

theorem addBlock_ofDeclared (name : String) (valid : d.Valid) {key : BlockKey}
    (signature : Option Signature) (fresh : key ∉ d.blocks.map Prod.fst) :
    (ofDeclared name d).addBlock (d.functionId key.body.function)
        (signature.getD (d.signature key.body.function)) =
      (⟨(firsts Prod.fst d.blocks).length⟩, ofDeclared name (d.withBlock key signature)) := by
  have added : firsts Prod.fst (d.blocks ++ [(key, signature)]) =
      firsts Prod.fst d.blocks ++ [(key, signature)] := firsts_snoc_of_not_mem fresh
  have index : nextIndex (firsts Prod.fst d.blocks).length = (firsts Prod.fst d.blocks).length :=
    nextIndex_of_le (Nat.le_trans (length_firsts_le _) valid.blocks_le)
  have functions : ((firsts Prod.fst d.mentions).map d.functionRow).toArray.modify
      (placeOf Prod.fst key.body.function d.mentions)
      (fun f => { f with blocks := f.blocks.push ⟨(firsts Prod.fst d.blocks).length⟩ }) =
      ((firsts Prod.fst d.mentions).map (d.withBlock key signature).functionRow).toArray := by
    refine modify_map_firsts d.mentions key.body.function (fun m same => ?_) (fun m other => ?_)
    · simp [Declared.functionRow, Declared.withBlock, added, placesWhere_snoc, same]
    · simp [Declared.functionRow, Declared.withBlock, added, placesWhere_snoc, Ne.symm other]
  have rows : ((firsts Prod.fst d.blocks).map d.blockRow).toArray.push
      ⟨d.functionId key.body.function, signature.getD (d.signature key.body.function), #[]⟩ =
      ((firsts Prod.fst (d.blocks ++ [(key, signature)])).map d.blockRow).toArray := by
    rw [added, List.map_append, List.push_toArray, List.map_singleton, Declared.blockRow,
      valid.code_eq_nil key fresh]
  simp only [addBlock, ofDeclared, List.size_toArray, List.length_map, index, rows]
  rw [Declared.functionId, functions]
  rfl

theorem ofDeclared_withBlock_of_mem {key : BlockKey} (taken : key ∈ d.blocks.map Prod.fst)
    (signature : Option Signature) :
    ofDeclared name (d.withBlock key signature) = ofDeclared name d := by
  have same : firsts Prod.fst (d.blocks ++ [(key, signature)]) = firsts Prod.fst d.blocks :=
    firsts_snoc_of_mem taken
  have rows : (d.withBlock key signature).functionRow = d.functionRow := by
    funext m
    simp only [Declared.functionRow, Declared.withBlock, same]
  rw [ofDeclared, rows]
  simp only [Declared.withBlock, same]
  rfl

/-! ### Instructions -/

theorem emit_ofDeclared (key : BlockKey) (i : Instruction) :
    (ofDeclared name d).emit ⟨placeOf Prod.fst key d.blocks⟩ i =
      ofDeclared name (d.withInstruction key i) := by
  have rows : ((firsts Prod.fst d.blocks).map d.blockRow).toArray.modify
      (placeOf Prod.fst key d.blocks)
      (fun b => { b with instructions := b.instructions.push i }) =
      ((firsts Prod.fst d.blocks).map (d.withInstruction key i).blockRow).toArray := by
    refine modify_map_firsts d.blocks key (fun b same => ?_) (fun b other => ?_)
    · simp only [Declared.blockRow, Declared.withInstruction, if_pos same, List.push_toArray]
      rfl
    · simp only [Declared.blockRow, Declared.withInstruction, if_neg other]
      rfl
  simp only [emit, ofDeclared, rows]
  rfl

end Program

/-! ## Instructions -/

namespace Clauses

/-- What an argument in a body stands for, if its name is known. -/
def resolveArgument (vocabulary : Vocabulary) (cs : List Clause) (body : BodyKey) :
    Argument → Option Operand
  | .number value => some (.immediate value)
  | .name .inner x => (placeOf? id (body, x.name) (locals cs)).map fun i => .ofLocal ⟨i⟩
  | .name .global x => (placeOf? (·.name) x.name (globals cs)).map fun i => .ofGlobal ⟨i⟩
  | .name .builtin x => (vocabulary.types.lookup? x.name).map .ofType

def resolveArguments (vocabulary : Vocabulary) (cs : List Clause) (body : BodyKey) :
    List Argument → Option (List Operand)
  | [] => some []
  | first :: rest =>
    (resolveArgument vocabulary cs body first).bind fun operand =>
      (resolveArguments vocabulary cs body rest).map (operand :: ·)

/-- An instruction in a body, if all its names are known. -/
def resolve (vocabulary : Vocabulary) (cs : List Clause) (body : BodyKey) :
    Tree.Instruction → Option Instruction
  | .call target _ => (placeOf? Prod.fst target.name (mentions cs)).map fun i => .call ⟨i⟩
  | .operation head arguments =>
    (vocabulary.operations.lookup? head.name).bind fun id =>
      (resolveArguments vocabulary cs body arguments).map (.operation id)

/-- The instruction that a clause gives to a block, the clauses `cs` being those up to it. -/
def emitted? (vocabulary : Vocabulary) (cs : List Clause) (key : BlockKey) :
    Clause → Option Instruction
  | .instruction block i => if block = key then resolve vocabulary cs key.body i else none
  | _ => none

/-- The instructions of a block, in the order of the source. -/
def instructions (vocabulary : Vocabulary) (cs : List Clause) (key : BlockKey) : List Instruction :=
  (precededBy [] cs).filterMap fun (before, c) => emitted? vocabulary (before ++ [c]) key c

theorem instructions_snoc (vocabulary : Vocabulary) (cs : List Clause) (c : Clause)
    (key : BlockKey) : instructions vocabulary (cs ++ [c]) key =
      instructions vocabulary cs key ++ (emitted? vocabulary (cs ++ [c]) key c).toList := by
  rw [instructions, precededBy_snoc, List.filterMap_append]
  cases h : emitted? vocabulary (cs ++ [c]) key c <;> simp [instructions, h]

def declared (vocabulary : Vocabulary) (cs : List Clause) : Program.Declared where
  globals := globals cs
  mentions := mentions cs
  locals := locals cs
  blocks := blocks cs
  code := instructions vocabulary cs

end Clauses

/-- The program that a module means. -/
def Tree.Module.program (vocabulary : Vocabulary) (m : Tree.Module) : Program :=
  .ofDeclared m.name.name (Clauses.declared vocabulary m.clauses)

end SigilAsm
