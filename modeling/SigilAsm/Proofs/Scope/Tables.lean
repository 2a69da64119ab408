import SigilAsm.Proofs.Elaboration.Diagnostics
import SigilAsm.Proofs.Elaboration.Integrity
import SigilAsm.Proofs.Program.Retention
import SigilAsm.Proofs.Scope.Effects

/-! # Tables and the recorded program

The tables of a scope say what its program says.  Those of globals and functions
list the parts of the program, each at its own place; those of locals and blocks
and the current block belong to the current function, which is in the table of
functions.  No event of a scope, whenever it happens, breaks that, as long as
there are handles left.
-/

namespace SigilAsm

namespace Program

/-- The entries that the table of globals ought to have. -/
def globalEntries (p : Program) : List (String × GlobalId) :=
  p.globals.toList.mapIdx fun k g => (g.name, ⟨k⟩)

/-- The entries that the table of functions ought to have. -/
def functionEntries (p : Program) : List (String × FunctionEntry) :=
  p.functions.toList.mapIdx fun k f => (f.name, ⟨⟨k⟩, f.signature⟩)

/-- The handle is that of a local of this name, in the list of the function that owns it. -/
def HasLocal (p : Program) (f : FunctionId) (name : String) (id : LocalId) : Prop :=
  p.local? id = some ⟨name, f⟩ ∧ ∃ row, p.function? f = some row ∧ id ∈ row.locals

/-- The handle is that of a block of this signature, in the list of the function that owns it. -/
def HasBlock (p : Program) (f : FunctionId) (signature : Signature) (id : BlockId) : Prop :=
  (∃ b, p.block? id = some b ∧ b.function = f ∧ b.signature = signature) ∧
    ∃ row, p.function? f = some row ∧ id ∈ row.blocks

variable {p p' : Program} {f : FunctionId}

/-! ## Parts of functions -/

theorem Retains.hasLocal (more : p.Retains p') {x : String} {id : LocalId}
    (h : p.HasLocal f x id) : p'.HasLocal f x id := by
  obtain ⟨found, row, owner, listed⟩ := h
  obtain ⟨row', owner', grows⟩ := more.function? owner
  refine ⟨more.local? found, row', owner', ?_⟩
  exact Array.mem_toList_iff.mp (grows.locals.subset (Array.mem_toList_iff.mpr listed))

theorem Retains.hasBlock (more : p.Retains p') {s : Signature} {id : BlockId}
    (h : p.HasBlock f s id) : p'.HasBlock f s id := by
  obtain ⟨⟨b, found, function, signature⟩, row, owner, listed⟩ := h
  obtain ⟨row', owner', grows⟩ := more.function? owner
  obtain ⟨b', found', same⟩ := more.block? found
  refine ⟨⟨b', found', same.function.trans function, same.signature.trans signature⟩, row', owner',
    ?_⟩
  exact Array.mem_toList_iff.mp (grows.blocks.subset (Array.mem_toList_iff.mpr listed))

theorem Retains.small (more : p.Retains p') {n : Nat} (small : p'.Small n) : p.Small n where
  functions := Nat.le_trans more.functions.size_le small.functions
  globals := Nat.le_trans more.globals.size_le small.globals
  locals := Nat.le_trans more.locals.size_le small.locals
  blocks := Nat.le_trans more.blocks.size_le small.blocks

theorem hasLocal_addLocal (room : p.locals.size ≤ 0xffffffff) (there : f.index < p.functions.size)
    (x : String) : (p.addLocal f x).2.HasLocal f x (p.addLocal f x).1 := by
  obtain ⟨row, found⟩ := Option.isSome_iff_exists.mp (isSome_function?_iff.mpr there)
  refine ⟨by rw [local?_addLocal room, if_pos rfl], ?_⟩
  refine ⟨{ row with locals := row.locals.push (p.addLocal f x).1 }, ?_, Array.mem_push_self⟩
  rw [function?] at found
  simp only [function?, addLocal, getElem?_modify_function, if_pos, found, Option.map_some]

theorem hasBlock_addBlock (room : p.blocks.size ≤ 0xffffffff) (there : f.index < p.functions.size)
    (s : Signature) : (p.addBlock f s).2.HasBlock f s (p.addBlock f s).1 := by
  obtain ⟨row, found⟩ := Option.isSome_iff_exists.mp (isSome_function?_iff.mpr there)
  refine ⟨⟨⟨f, s, #[]⟩, by rw [block?_addBlock room, if_pos rfl], rfl, rfl⟩, ?_⟩
  refine ⟨{ row with blocks := row.blocks.push (p.addBlock f s).1 }, ?_, Array.mem_push_self⟩
  rw [function?] at found
  simp only [function?, addBlock, getElem?_modify_function, if_pos, found, Option.map_some]

/-! ## Entries -/

theorem globalEntries_addGlobal (room : p.globals.size ≤ 0xffffffff) (x : String) (m : Mutability)
    (data : List UInt8) : (p.addGlobal x m data).2.globalEntries =
      p.globalEntries ++ [(x, (p.addGlobal x m data).1)] := by
  simp only [globalEntries, addGlobal, Array.toList_push, List.mapIdx_append, List.mapIdx_cons,
    List.mapIdx_nil, Nat.zero_add, Array.length_toList, nextIndex_of_le room]

theorem functionEntries_addFunction (room : p.functions.size ≤ 0xffffffff) (x : String)
    (s : Signature) : (p.addFunction x s).2.functionEntries =
      p.functionEntries ++ [(x, ⟨(p.addFunction x s).1, s⟩)] := by
  simp only [functionEntries, addFunction, Array.toList_push, List.mapIdx_append, List.mapIdx_cons,
    List.mapIdx_nil, Nat.zero_add, Array.length_toList, nextIndex_of_le room]

/-- Longer lists of locals or blocks do not show in the table of functions. -/
theorem functionEntries_modify (place : Nat) {change : Function → Function}
    (grows : ∀ row, Function.Grows row (change row))
    (same : p'.functions = p.functions.modify place change) :
    p'.functionEntries = p.functionEntries := by
  refine List.ext_getElem? fun k => ?_
  simp only [functionEntries, same, List.getElem?_mapIdx, Array.getElem?_toList,
    Array.getElem?_modify]
  by_cases here : place = k
  · rw [if_pos here, Option.map_map]
    cases p.functions[k]? with
    | none => rfl
    | some row => simp [(grows row).name, (grows row).signature]
  · rw [if_neg here]

theorem index_lt_of_mem_functionEntries {x : String} {e : FunctionEntry}
    (h : (x, e) ∈ p.functionEntries) : e.id.index < p.functions.size := by
  obtain ⟨k, there, entry⟩ := List.mem_mapIdx.mp h
  cases entry
  simpa using there

end Program

namespace Scope

/-- The tables, the current function and the current block agree with the recorded program. -/
structure Mirrors (s : Scope Program) : Prop where
  globals : s.globals.entries = s.target.globalEntries
  functions : s.functions.entries = s.target.functionEntries
  locals : ∀ x id, (x, id) ∈ s.locals.entries →
    ∃ f, s.function = some f ∧ s.target.HasLocal f.id x id
  blocks : ∀ x b, (x, b) ∈ s.blocks.entries →
    ∃ f, s.function = some f ∧ s.target.HasBlock f.id b.signature b.id
  function : ∀ f, s.function = some f → ∃ x, (x, f) ∈ s.functions.entries
  block : ∀ k, s.block = some k →
    ∃ f signature, s.function = some f ∧ s.target.HasBlock f.id signature k

variable {s s' : Scope Program}

theorem Reports.mirrors {ds : List Diagnostic} (h : s.Reports ds s') (mirrors : s.Mirrors) :
    s'.Mirrors := by
  rw [h.same]
  exact ⟨mirrors.globals, mirrors.functions, mirrors.locals, mirrors.blocks, mirrors.function,
    mirrors.block⟩

namespace Mirrors

/-! ## What is added -/

/-- Parts that are added to the program are added to the tables of globals and functions. -/
theorem extend (h : s.Mirrors) {p : Program} {globals : NameTable GlobalId}
    {functions : NameTable FunctionEntry} (more : s.target.Retains p)
    (listed : globals.entries = p.globalEntries) (listed' : functions.entries = p.functionEntries)
    (kept : s.functions.entries ⊆ functions.entries) :
    Mirrors { s with target := p, globals := globals, functions := functions } where
  globals := listed
  functions := listed'
  locals x id bound := by
    obtain ⟨f, current, has⟩ := h.locals x id bound
    exact ⟨f, current, more.hasLocal has⟩
  blocks x b bound := by
    obtain ⟨f, current, has⟩ := h.blocks x b bound
    exact ⟨f, current, more.hasBlock has⟩
  function f current := by
    obtain ⟨x, bound⟩ := h.function f current
    exact ⟨x, kept bound⟩
  block k inside := by
    obtain ⟨f, signature, current, has⟩ := h.block k inside
    exact ⟨f, signature, current, more.hasBlock has⟩

theorem with_target (h : s.Mirrors) {p : Program} (more : s.target.Retains p)
    (globals : p.globalEntries = s.target.globalEntries)
    (functions : p.functionEntries = s.target.functionEntries) :
    Mirrors { s with target := p } :=
  h.extend more (h.globals.trans globals.symm) (h.functions.trans functions.symm)
    (List.Subset.refl _)

theorem with_local (h : s.Mirrors) {f : FunctionEntry} (current : s.function = some f)
    {x : String} {id : LocalId} (has : s.target.HasLocal f.id x id) :
    Mirrors { s with locals := s.locals.insert x id } :=
  { h with
    locals := fun y id' bound => by
      rcases NameTable.mem_entries_insert bound with old | ⟨rfl, rfl⟩
      · exact h.locals y id' old
      · exact ⟨f, current, has⟩ }

theorem with_block (h : s.Mirrors) {f : FunctionEntry} (current : s.function = some f)
    (x : String) {b : BlockEntry} (has : s.target.HasBlock f.id b.signature b.id) :
    Mirrors { s with blocks := s.blocks.insert x b, block := some b.id } :=
  { h with
    blocks := fun y b' bound => by
      rcases NameTable.mem_entries_insert bound with old | ⟨rfl, rfl⟩
      · exact h.blocks y b' old
      · exact ⟨f, current, has⟩
    block := fun k inside => by
      cases inside
      exact ⟨f, b.signature, current, has⟩ }

theorem index_lt (h : s.Mirrors) {f : FunctionEntry} (current : s.function = some f) :
    f.id.index < s.target.functions.size := by
  obtain ⟨x, bound⟩ := h.function f current
  exact Program.index_lt_of_mem_functionEntries (h.functions ▸ bound)

/-! ## Declarations -/

theorem declareGlobal (h : s.Mirrors) (room : s.target.Small 0xffffffff) (ident : Ident)
    (mutability : Mutability) (data : List UInt8) :
    (s.declareGlobal ident mutability data).2.Mirrors := by
  by_cases taken : s.globals.contains ident.name = true
  · rw [declareGlobal_of_contains taken]
    exact (Reports.report s _).mirrors h
  · rw [declareGlobal_of_not_contains taken]
    have absent : s.globals.lookup? ident.name = none := by
      simpa [NameTable.contains] using taken
    have entries := NameTable.entries_insert_of_lookup?_eq_none
      (s.target.addGlobal ident.name mutability data).1 absent
    rw [h.globals, ← Program.globalEntries_addGlobal room.globals] at entries
    exact (Reports.note _ _).mirrors
      (h.extend (.addGlobal s.target ident.name mutability data) entries h.functions
        (List.Subset.refl _))

theorem mentionFunction (h : s.Mirrors) (room : s.target.Small 0xffffffff) (ident : Ident)
    (signature : Signature) :
    (s.mentionFunction ident signature).2.Mirrors ∧
      ∃ x, (x, (s.mentionFunction ident signature).1) ∈
        (s.mentionFunction ident signature).2.functions.entries := by
  cases known : s.functions.lookup? ident.name with
  | some entry =>
    have bound := NameTable.mem_entries_of_lookup? known
    rw [mentionFunction_of_eq_some known]
    dsimp only
    split
    · exact ⟨h, _, bound⟩
    · exact ⟨(Reports.report s _).mirrors h, _, bound⟩
  | none =>
    rw [mentionFunction_of_eq_none known]
    have entries := NameTable.entries_insert_of_lookup?_eq_none
      (⟨(s.target.addFunction ident.name signature).1, signature⟩ : FunctionEntry) known
    have bound : (ident.name, (⟨(s.target.addFunction ident.name signature).1, signature⟩ :
        FunctionEntry)) ∈ (s.functions.insert ident.name
          ⟨(s.target.addFunction ident.name signature).1, signature⟩).entries := by
      rw [entries]
      exact List.mem_append_right _ List.mem_cons_self
    have kept : s.functions.entries ⊆ (s.functions.insert ident.name
        ⟨(s.target.addFunction ident.name signature).1, signature⟩).entries := by
      rw [entries]
      exact List.subset_append_left _ _
    rw [h.functions, ← Program.functionEntries_addFunction room.functions] at entries
    exact ⟨(Reports.note _ _).mirrors
      (h.extend (.addFunction s.target ident.name signature) h.globals entries kept), _, bound⟩

theorem declareFunction (h : s.Mirrors) (room : s.target.Small 0xffffffff) (ident : Ident)
    (signature : Signature) : (s.declareFunction ident signature).2.Mirrors := by
  obtain ⟨mentioned, x, bound⟩ := h.mentionFunction room ident signature
  exact { mentioned with
    locals := fun _ _ => nofun
    blocks := fun _ _ => nofun
    function := fun f current => by
      cases current
      exact ⟨x, bound⟩
    block := nofun }

theorem referenceFunction (h : s.Mirrors) (room : s.target.Small 0xffffffff) (ident : Ident)
    (signature : Option Signature) : (s.referenceFunction ident signature).2.Mirrors := by
  cases signature with
  | some signature => exact (h.mentionFunction room ident signature).1
  | none =>
    obtain ⟨ds, reports⟩ := exists_reports_resolve s s.functions .function ident
    exact reports.mirrors h

theorem declareLocal (h : s.Mirrors) (room : s.target.Small 0xffffffff) (ident : Ident) :
    (s.declareLocal ident).2.Mirrors := by
  cases current : s.function with
  | none => simpa only [Scope.declareLocal, current] using h
  | some f =>
    by_cases taken : s.locals.contains ident.name = true
    · rw [declareLocal_of_contains current taken]
      exact (Reports.report s _).mirrors h
    · rw [declareLocal_of_not_contains current taken]
      have added := h.with_target (.addLocal s.target f.id ident.name) rfl
        (Program.functionEntries_modify f.id.index (·.grows_push_local _) rfl)
      exact (Reports.note _ _).mirrors (added.with_local current
        (Program.hasLocal_addLocal room.locals (h.index_lt current) ident.name))

theorem addBlock (h : s.Mirrors) (room : s.target.Small 0xffffffff) {f : FunctionEntry}
    (current : s.function = some f) (x : String) (signature : Signature) :
    Mirrors { s with
      target := (s.target.addBlock f.id signature).2
      blocks := s.blocks.insert x ⟨(s.target.addBlock f.id signature).1, signature⟩
      block := some (s.target.addBlock f.id signature).1 } :=
  (h.with_target (.addBlock s.target f.id signature) rfl
    (Program.functionEntries_modify f.id.index (·.grows_push_block _) rfl)).with_block current x
      (Program.hasBlock_addBlock room.blocks (h.index_lt current) signature)

theorem declareBlock (h : s.Mirrors) (room : s.target.Small 0xffffffff) (ident : Ident)
    (signature : Signature) : (s.declareBlock ident signature).2.Mirrors := by
  cases current : s.function with
  | none => simpa only [Scope.declareBlock, current] using h
  | some f =>
    cases known : s.blocks.lookup? ident.name with
    | some entry =>
      rw [declareBlock_of_eq_some current known]
      obtain ⟨g, same, has⟩ := h.blocks _ _ (NameTable.mem_entries_of_lookup? known)
      have reported := (Reports.report s ⟨.duplicate .block ident.name, ident.extent⟩).mirrors h
      exact { reported with
        block := fun k inside => by
          cases inside
          exact ⟨g, entry.signature, same, has⟩ }
    | none =>
      rw [declareBlock_of_eq_none current known]
      exact (Reports.note _ _).mirrors (h.addBlock room current ident.name signature)

theorem enterEntryBlock (h : s.Mirrors) (room : s.target.Small 0xffffffff) :
    s.enterEntryBlock.2.Mirrors := by
  cases current : s.function with
  | none => simpa only [Scope.enterEntryBlock, current] using h
  | some f =>
    rw [enterEntryBlock_of_current current]
    exact h.addBlock room current entryBlockName f.signature

theorem emit (h : s.Mirrors) (i : Instruction) : (s.emit i).Mirrors := by
  unfold Scope.emit
  split
  · exact h.with_target (.emit s.target _ i) rfl rfl
  · exact h

/-! ## Events -/

theorem handle (h : s.Mirrors) (room : s.target.Small 0xffffffff) (event : Event) :
    (s.handle event).2.Mirrors := by
  cases event with
  | beginModule name =>
    have begun := h.with_target (.beginModule s.target name) rfl rfl
    exact { (Reports.note { s with target := s.target.beginModule name }
      (.moduleCreated name)).mirrors begun with }
  | declareGlobal ident mutability data => exact h.declareGlobal room ident mutability data
  | declareFunction ident signature => exact h.declareFunction room ident signature
  | referenceFunction ident signature => exact h.referenceFunction room ident signature
  | resolveGlobal ident =>
    obtain ⟨ds, reports⟩ := exists_reports_resolve s s.globals .global ident
    exact reports.mirrors h
  | resolveLocal ident =>
    obtain ⟨ds, reports⟩ :=
      exists_reports_resolve (s.note (.localLookup ident.name)) s.locals .localName ident
    exact reports.mirrors ((Reports.note s _).mirrors h)
  | resolveOperation ident =>
    obtain ⟨ds, reports⟩ := exists_reports_resolve s s.vocabulary.operations .operation ident
    exact reports.mirrors h
  | resolveType ident =>
    obtain ⟨ds, reports⟩ := exists_reports_resolve s s.vocabulary.types .operandType ident
    exact reports.mirrors h
  | declareLocal ident => exact h.declareLocal room ident
  | declareBlock ident signature => exact h.declareBlock room ident signature
  | enterEntryBlock => exact h.enterEntryBlock room
  | emit instruction => exact h.emit instruction
  | reportUnknown entity ident => exact (Reports.report s _).mirrors h
  | reportConflicting entity ident => exact (Reports.report s _).mirrors h
  | reportDuplicate entity ident => exact (Reports.report s _).mirrors h

end Mirrors

/-! ## Runs -/

theorem Effect.retains {emitted : Option Instruction} {p : Program} {globals : NameTable GlobalId}
    {functions : NameTable FunctionEntry} (h : s.Effect emitted p globals functions) :
    s.target.Retains p := by
  cases h with
  | nothing => exact .refl _
  | «module» name => exact .beginModule s.target name
  | global name mutability data => exact .addGlobal s.target name mutability data
  | function name signature => exact .addFunction s.target name signature
  | localName f name => exact .addLocal s.target f name
  | block f signature => exact .addBlock s.target f signature
  | instruction current inside i => exact .emit s.target _ i
  | outside nowhere i => exact .refl _

/-- No event takes a part of the program away. -/
theorem retains_handle (s : Scope Program) (event : Event) :
    s.target.Retains (s.handle event).2.target :=
  (effect_handle s event).retains

theorem handleAll_snoc {σ : Type} [Builder σ] (s : Scope σ) (events : List Event) (event : Event) :
    s.handleAll (events ++ [event]) = ((s.handleAll events).handle event).2 := by
  simp only [handleAll, List.foldl_append, List.foldl_cons, List.foldl_nil]

theorem start_mirrors (lines : LineMap) (vocabulary : Vocabulary) :
    (start lines vocabulary Program.empty).Mirrors where
  globals := rfl
  functions := rfl
  locals := fun _ _ => nofun
  blocks := fun _ _ => nofun
  function := nofun
  block := nofun

/-- Whatever happens to a fresh scope over an empty program, in whatever order: with fewer than 2^32
parts of each sort the tables, the current function and the current block agree with the program. -/
theorem handleAll_mirrors (lines : LineMap) (vocabulary : Vocabulary) (events : List Event)
    (room : ((start lines vocabulary Program.empty).handleAll events).target.Small 0xffffffff) :
    ((start lines vocabulary Program.empty).handleAll events).Mirrors := by
  induction events using List.reverseRecOn with
  | nil => exact start_mirrors lines vocabulary
  | append_singleton events event ih =>
    rw [handleAll_snoc] at room ⊢
    -- The program only grows, so there was room before the last event as well.
    have before := (retains_handle _ event).small room
    exact (ih before).handle before event

/-- A local without a function, a function that is declared twice with different signatures, an
entry block that is entered twice, and a block that takes the name of the entry block. -/
theorem handleAll_mirrors_out_of_order :
    let events : List Event := [
      .declareLocal ⟨"x", .point 0⟩,
      .referenceFunction ⟨"g", .point 1⟩ (some ⟨1, 0⟩),
      .declareFunction ⟨"f", .point 2⟩ ⟨0, 0⟩,
      .enterEntryBlock,
      .enterEntryBlock,
      .declareBlock ⟨"@entry", .point 3⟩ ⟨2, 0⟩,
      .declareFunction ⟨"g", .point 4⟩ ⟨0, 1⟩,
      .declareLocal ⟨"x", .point 5⟩,
      .declareBlock ⟨"b", .point 6⟩ ⟨0, 0⟩,
      .emit (.call ⟨7⟩)]
    let s := (start (.ofString "") .standard Program.empty).handleAll events
    s.target.Small 0xffffffff ∧ s.Mirrors ∧ s.functions.entries.map Prod.fst = ["g", "f"] ∧
      s.locals.entries = [("x", ⟨0⟩)] ∧ s.block = some ⟨2⟩ := by
  intro events s
  have small : s.target.Small 0xffffffff :=
    ⟨by decide +kernel, by decide +kernel, by decide +kernel, by decide +kernel⟩
  exact ⟨small, handleAll_mirrors _ _ events small, by decide +kernel, by decide +kernel,
    by decide +kernel⟩

end Scope

end SigilAsm
