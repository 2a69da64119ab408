import SigilAsm.Proofs.Elaboration.Diagnostics
import SigilAsm.Proofs.Grammar.Thrift
import SigilAsm.Proofs.Program.Listing

/-! # What is recorded holds together

Statements in any order keep a scope grounded: the program is consistent, and
the tables, the current function and the current block only have handles of it.
So this holds after a fault as well, where the statements end anywhere.
-/

namespace SigilAsm

namespace Program

/-- There are at most `n` parts of each sort. -/
structure Small (p : Program) (n : Nat) : Prop where
  functions : p.functions.size ≤ n
  globals : p.globals.size ≤ n
  locals : p.locals.size ≤ n
  blocks : p.blocks.size ≤ n

theorem Small.mono {p : Program} {n m : Nat} (h : p.Small n) (le : n ≤ m) : p.Small m :=
  ⟨Nat.le_trans h.functions le, Nat.le_trans h.globals le, Nat.le_trans h.locals le,
    Nat.le_trans h.blocks le⟩

end Program

namespace Scope

/-- Every handle that a scope can come up with is one of its program, and those of locals and
blocks belong to the current function. -/
structure Grounded (s : Scope Program) (vocabulary : Vocabulary) (n : Nat) : Prop where
  consistent : s.target.Consistent vocabulary
  vocabulary : s.vocabulary = vocabulary
  small : s.target.Small n
  globals : ∀ x id, s.globals.lookup? x = some id → id.index < s.target.globals.size
  functions : ∀ x e, s.functions.lookup? x = some e → e.id.index < s.target.functions.size
  function : ∀ e, s.function = some e → e.id.index < s.target.functions.size
  locals : ∀ e, s.function = some e → ∀ x id, s.locals.lookup? x = some id →
    s.target.localOwner? id = some e.id
  blocks : ∀ e, s.function = some e → ∀ x b, s.blocks.lookup? x = some b →
    s.target.blockOwner? b.id = some e.id
  block : ∀ e k, s.function = some e → s.block = some k → s.target.blockOwner? k = some e.id

variable {s s' : Scope Program} {vocabulary : Vocabulary} {n : Nat}

theorem Reports.grounded {ds : List Diagnostic} (h : s.Reports ds s')
    (grounded : s.Grounded vocabulary n) : s'.Grounded vocabulary n := by
  rw [h.same]
  exact ⟨grounded.consistent, grounded.vocabulary, grounded.small, grounded.globals,
    grounded.functions, grounded.function, grounded.locals, grounded.blocks, grounded.block⟩

namespace Grounded

theorem mono (h : s.Grounded vocabulary n) : s.Grounded vocabulary (n + 1) :=
  { h with small := h.small.mono (Nat.le_succ n) }

theorem extend {p : Program} {m : Nat} (h : s.Grounded vocabulary n) (more : s.target.Extends p)
    (consistent : p.Consistent vocabulary) (small : p.Small m) :
    Grounded { s with target := p } vocabulary m where
  vocabulary := h.vocabulary
  consistent := consistent
  small := small
  globals x id found := Nat.lt_of_lt_of_le (h.globals x id found) more.globals
  functions x e found := Nat.lt_of_lt_of_le (h.functions x e found) more.functions
  function e current := Nat.lt_of_lt_of_le (h.function e current) more.functions
  locals e current x id found := more.localOwner _ _ (h.locals e current x id found)
  blocks e current x b found := more.blockOwner _ _ (h.blocks e current x b found)
  block e k current inside := more.blockOwner _ _ (h.block e k current inside)

theorem with_global (h : s.Grounded vocabulary n) (x : String) {id : GlobalId}
    (lt : id.index < s.target.globals.size) :
    Grounded { s with globals := s.globals.insert x id } vocabulary n :=
  { h with
    globals := fun y id' found => by
      rcases NameTable.eq_some_or_eq_of_lookup?_insert found with old | rfl
      · exact h.globals y id' old
      · exact lt }

theorem with_function (h : s.Grounded vocabulary n) (x : String) {e : FunctionEntry}
    (lt : e.id.index < s.target.functions.size) :
    Grounded { s with functions := s.functions.insert x e } vocabulary n :=
  { h with
    functions := fun y e' found => by
      rcases NameTable.eq_some_or_eq_of_lookup?_insert found with old | rfl
      · exact h.functions y e' old
      · exact lt }

theorem with_local (h : s.Grounded vocabulary n) (x : String) {id : LocalId}
    (owned : ∀ e, s.function = some e → s.target.localOwner? id = some e.id) :
    Grounded { s with locals := s.locals.insert x id } vocabulary n :=
  { h with
    locals := fun e current y id' found => by
      rcases NameTable.eq_some_or_eq_of_lookup?_insert found with old | rfl
      · exact h.locals e current y id' old
      · exact owned e current }

theorem with_block (h : s.Grounded vocabulary n) (x : String) {b : BlockEntry}
    (owned : ∀ e, s.function = some e → s.target.blockOwner? b.id = some e.id) :
    Grounded { s with blocks := s.blocks.insert x b, block := some b.id } vocabulary n :=
  { h with
    blocks := fun e current y b' found => by
      rcases NameTable.eq_some_or_eq_of_lookup?_insert found with old | rfl
      · exact h.blocks e current y b' old
      · exact owned e current
    block := fun e k current inside => by
      cases inside
      exact owned e current }

/-! ## Declarations -/

theorem declareGlobal (h : s.Grounded vocabulary n) (ident : Ident) (mutability : Mutability)
    (data : List UInt8) (room : n ≤ 0xffffffff) :
    (s.declareGlobal ident mutability data).2.Grounded vocabulary (n + 1) := by
  by_cases taken : s.globals.contains ident.name = true
  · rw [declareGlobal_of_contains taken]
    exact (Reports.report s _).grounded h.mono
  · rw [declareGlobal_of_not_contains taken]
    have small : (s.target.addGlobal ident.name mutability data).2.Small (n + 1) :=
      { h.small.mono (Nat.le_succ n) with
        globals := by simpa [Program.addGlobal] using h.small.globals }
    have grown := h.extend (s.target.addGlobal_extends ident.name mutability data)
      (h.consistent.addGlobal ident.name mutability data) small
    refine (Reports.note _ _).grounded (grown.with_global ident.name ?_)
    -- There is room, so the handle is the place of the new row and not the last handle of all.
    change Program.nextIndex _ < _
    rw [Program.nextIndex_of_le (Nat.le_trans h.small.globals room)]
    simp [Program.addGlobal]

theorem mentionFunction (h : s.Grounded vocabulary n) (ident : Ident) (signature : Signature)
    (room : n ≤ 0xffffffff) :
    (s.mentionFunction ident signature).2.Grounded vocabulary (n + 1) ∧
      (s.mentionFunction ident signature).1.id.index <
        (s.mentionFunction ident signature).2.target.functions.size := by
  cases found : s.functions.lookup? ident.name with
  | some entry =>
    have known := h.functions ident.name entry found
    rw [mentionFunction_of_eq_some found]
    dsimp only
    split
    · exact ⟨h.mono, known⟩
    · exact ⟨(Reports.report s _).grounded h.mono, known⟩
  | none =>
    rw [mentionFunction_of_eq_none found]
    have full := Nat.le_trans h.small.functions room
    have small : (s.target.addFunction ident.name signature).2.Small (n + 1) :=
      { h.small.mono (Nat.le_succ n) with
        functions := by simpa [Program.addFunction] using h.small.functions }
    have grown := h.extend (s.target.addFunction_extends ident.name signature)
      (h.consistent.addFunction ident.name signature) small
    have lt : (s.target.addFunction ident.name signature).1.index <
        (s.target.addFunction ident.name signature).2.functions.size := by
      simp [Program.addFunction, Program.nextIndex_of_le full]
    have bound := grown.with_function ident.name
      (e := ⟨(s.target.addFunction ident.name signature).1, signature⟩) lt
    exact ⟨(Reports.note _ _).grounded bound, lt⟩

theorem declareFunction (h : s.Grounded vocabulary n) (ident : Ident) (signature : Signature)
    (room : n ≤ 0xffffffff) :
    (s.declareFunction ident signature).2.Grounded vocabulary (n + 1) := by
  obtain ⟨grounded, lt⟩ := h.mentionFunction ident signature room
  exact { grounded with
    function := fun e current => by
      cases current
      exact lt
    locals := fun _ _ _ _ => nofun
    blocks := fun _ _ _ _ => nofun
    block := fun _ _ _ => nofun }

theorem declareLocal (h : s.Grounded vocabulary n) (ident : Ident) (room : n ≤ 0xffffffff) :
    (s.declareLocal ident).2.Grounded vocabulary (n + 1) := by
  cases current : s.function with
  | none =>
    simp only [Scope.declareLocal, current]
    exact h.mono
  | some function =>
    by_cases taken : s.locals.contains ident.name = true
    · rw [declareLocal_of_contains current taken]
      exact (Reports.report s _).grounded h.mono
    · rw [declareLocal_of_not_contains current taken]
      have full := Nat.le_trans h.small.locals room
      have small : (s.target.addLocal function.id ident.name).2.Small (n + 1) :=
        { h.small.mono (Nat.le_succ n) with
          functions := by simpa [Program.addLocal] using (h.small.mono (Nat.le_succ n)).functions
          locals := by simpa [Program.addLocal] using h.small.locals }
      have grown := h.extend (Program.addLocal_extends full function.id ident.name)
        (h.consistent.addLocal full (h.function function current) ident.name) small
      refine (Reports.note _ _).grounded (grown.with_local ident.name fun e same => ?_)
      cases current.symm.trans same
      exact Program.localOwner?_next full function.id ident.name

/-- The next block belongs to the current function and receives the instructions that follow. -/
theorem addBlock (h : s.Grounded vocabulary n) {function : FunctionEntry}
    (current : s.function = some function) (x : String) (signature : Signature)
    (room : n ≤ 0xffffffff) :
    Grounded { s with
      target := (s.target.addBlock function.id signature).2
      blocks := s.blocks.insert x ⟨(s.target.addBlock function.id signature).1, signature⟩
      block := some (s.target.addBlock function.id signature).1 } vocabulary (n + 1) := by
  have full := Nat.le_trans h.small.blocks room
  have small : (s.target.addBlock function.id signature).2.Small (n + 1) :=
    { h.small.mono (Nat.le_succ n) with
      functions := by simpa [Program.addBlock] using (h.small.mono (Nat.le_succ n)).functions
      blocks := by simpa [Program.addBlock] using h.small.blocks }
  have grown := h.extend (Program.addBlock_extends full function.id signature)
    (h.consistent.addBlock full (h.function function current) signature) small
  refine grown.with_block x (b := ⟨(s.target.addBlock function.id signature).1, signature⟩)
    fun e same => ?_
  cases current.symm.trans same
  exact Program.blockOwner?_next full function.id signature

theorem declareBlock (h : s.Grounded vocabulary n) (ident : Ident) (signature : Signature)
    (room : n ≤ 0xffffffff) : (s.declareBlock ident signature).2.Grounded vocabulary (n + 1) := by
  cases current : s.function with
  | none =>
    simp only [Scope.declareBlock, current]
    exact h.mono
  | some function =>
    cases found : s.blocks.lookup? ident.name with
    | some entry =>
      rw [declareBlock_of_eq_some current found]
      have owned := h.blocks function current ident.name entry found
      have reported :=
        (Reports.report s ⟨.duplicate .block ident.name, ident.extent⟩).grounded h.mono
      -- The block of the label becomes the current one, and it is of the current function.
      exact { reported with
        block := fun e k same inside => by
          cases current.symm.trans same
          cases inside
          exact owned }
    | none =>
      rw [declareBlock_of_eq_none current found]
      exact (Reports.note _ _).grounded (h.addBlock current ident.name signature room)

theorem enterEntryBlock (h : s.Grounded vocabulary n) (room : n ≤ 0xffffffff) :
    s.enterEntryBlock.2.Grounded vocabulary (n + 1) := by
  cases current : s.function with
  | none =>
    simp only [Scope.enterEntryBlock, current]
    exact h.mono
  | some function =>
    rw [enterEntryBlock_of_current current]
    exact h.addBlock current entryBlockName function.signature room

/-! ## Instructions -/

theorem emit (h : s.Grounded vocabulary n) {i : Instruction}
    (admits : ∀ e, s.function = some e → s.target.Admits vocabulary e.id i) :
    (s.emit i).Grounded vocabulary n := by
  cases current : s.function with
  | none =>
    have same : s.emit i = s := by simp only [Scope.emit, current]
    rwa [same]
  | some function =>
    cases inside : s.block with
    | none =>
      have same : s.emit i = s := by simp only [Scope.emit, current, inside]
      rwa [same]
    | some k =>
      rw [emit_of_current current inside]
      have owned := h.block function k current inside
      have small : (s.target.emit k i).Small n :=
        { h.small with blocks := by simpa [Program.emit] using h.small.blocks }
      exact h.extend (s.target.emit_extends k i)
        (h.consistent.emit owned (admits function current)) small

theorem fst_resolveArgument (h : s.Grounded vocabulary n) {a : Argument} {o : Operand}
    (found : (s.resolveArgument a).1 = some o) {e : FunctionEntry} (current : s.function = some e) :
    s.target.AdmitsOperand vocabulary e.id o := by
  rcases a with ⟨sigil, ident⟩ | value
  · cases sigil with
    | inner =>
      simp only [resolveArgument, resolveLocal, fst_resolve, Option.map_eq_some_iff] at found
      obtain ⟨id, known, rfl⟩ := found
      exact h.locals e current ident.name id known
    | global =>
      simp only [resolveArgument, resolveGlobal, fst_resolve, Option.map_eq_some_iff] at found
      obtain ⟨id, known, rfl⟩ := found
      exact h.globals ident.name id known
    | builtin =>
      simp only [resolveArgument, resolveType, fst_resolve, Option.map_eq_some_iff] at found
      obtain ⟨id, known, rfl⟩ := found
      rw [h.vocabulary] at known
      exact vocabulary.types_index_lt _ (NameTable.mem_entries_of_lookup? known)
  · cases found
    trivial

theorem fst_resolveArguments (h : s.Grounded vocabulary n) {arguments : List Argument}
    {operands : List Operand} (found : (s.resolveArguments arguments).1 = some operands)
    {e : FunctionEntry} (current : s.function = some e) :
    ∀ o ∈ operands, s.target.AdmitsOperand vocabulary e.id o := by
  induction arguments generalizing s operands with
  | nil =>
    cases found
    exact nofun
  | cons a rest ih =>
    obtain ⟨o, first, found⟩ := Option.bind_eq_some_iff.mp found
    obtain ⟨others, more, rfl⟩ := Option.map_eq_some_iff.mp found
    -- What the first argument reports leaves the program and the current function alone.
    obtain ⟨ds, reports⟩ := exists_reports_resolveArgument s a
    have admitted := ih (reports.grounded h) more (reports.function.trans current)
    rw [reports.target] at admitted
    intro o' member
    rcases List.mem_cons.mp member with rfl | member
    · exact h.fst_resolveArgument first current
    · exact admitted o' member

theorem call (h : s.Grounded vocabulary n) (target : Ident) (signature : Option Signature)
    (room : n ≤ 0xffffffff) : (s.step (.call target signature)).Grounded vocabulary (n + 1) := by
  cases signature with
  | some signature =>
    obtain ⟨grounded, lt⟩ := h.mentionFunction target signature room
    exact grounded.emit fun _ _ => lt
  | none =>
    simp only [Scope.step, referenceFunction, resolve]
    cases found : s.functions.lookup? target.name with
    | some entry => exact h.mono.emit fun _ _ => h.functions target.name entry found
    | none => exact (Reports.report s _).grounded h.mono

theorem operation (h : s.Grounded vocabulary n) (head : Ident) (arguments : List Argument)
    (closed : Bool) : (s.step (.operation head arguments closed)).Grounded vocabulary n := by
  obtain ⟨ds, first⟩ := exists_reports_resolve s s.vocabulary.operations .operation head
  have named : (s.resolveOperation head).2.Grounded vocabulary n := first.grounded h
  obtain ⟨ds', others⟩ := exists_reports_resolveArguments (s.resolveOperation head).2 arguments
  have looked := others.grounded named
  simp only [Scope.step]
  split
  next id operands foundId foundOperands =>
    refine looked.emit fun e current => ⟨?_, ?_⟩
    · rw [resolveOperation, fst_resolve, h.vocabulary] at foundId
      exact vocabulary.operations_index_lt _ (NameTable.mem_entries_of_lookup? foundId)
    · rw [others.target]
      exact named.fst_resolveArguments foundOperands (others.function.symm.trans current)
  next => exact looked

/-- One more statement adds one part of each sort at most. -/
theorem step (h : s.Grounded vocabulary n) (room : n ≤ 0xffffffff) (statement : Statement) :
    (s.step statement).Grounded vocabulary (n + 1) := by
  cases statement with
  | «module» name =>
    have named := h.extend (s.target.beginModule_extends name) (h.consistent.beginModule name)
      ⟨h.small.functions, h.small.globals, h.small.locals, h.small.blocks⟩
    have begun : (s.beginModule name).Grounded vocabulary n :=
      ⟨named.consistent, named.vocabulary, named.small, named.globals, named.functions,
        named.function, named.locals, named.blocks, named.block⟩
    exact begun.mono
  | global ident mutability data => exact h.declareGlobal ident mutability data room
  | function ident signature => exact h.declareFunction ident signature room
  | localName ident => exact h.declareLocal ident room
  | block ident signature => exact h.declareBlock ident signature room
  | entryBlock => exact h.enterEntryBlock room
  | call target signature => exact h.call target signature room
  | operation head arguments closed => exact (h.operation head arguments closed).mono

theorem run (h : s.Grounded vocabulary n) (statements : List Statement)
    (room : n + statements.length ≤ 0xffffffff) :
    (s.run statements).Grounded vocabulary (n + statements.length) := by
  induction statements generalizing s n with
  | nil => exact h
  | cons statement rest ih =>
    -- The bound on the parts goes up with each statement, and the text bounds the statements.
    rw [List.length_cons] at room ⊢
    have taken := h.step (by omega) statement
    have more := ih taken (by omega)
    rwa [Nat.add_right_comm, Nat.add_assoc] at more

end Grounded

theorem start_grounded (lines : LineMap) (vocabulary : Vocabulary) :
    (start lines vocabulary Program.empty).Grounded vocabulary 0 where
  consistent := Program.empty_consistent vocabulary
  vocabulary := rfl
  small := ⟨Nat.le_refl _, Nat.le_refl _, Nat.le_refl _, Nat.le_refl _⟩
  globals := nofun
  functions := nofun
  function := nofun
  locals := nofun
  blocks := nofun
  block := nofun

end Scope

/-- Whether a text is accepted or not, what was recorded of it holds together. -/
theorem elaborate_integrity (settings : Settings) (source : String) :
    (elaborate settings Program.empty source).2.target.Integrity settings.vocabulary := by
  have room := Statement.length_items_read_le settings.maxDataBytes source
  have grounded := (Scope.start_grounded (.ofString source) settings.vocabulary).run
    (Statement.read settings.maxDataBytes source).items (by rwa [Nat.zero_add])
  unfold elaborate
  dsimp only
  -- A fault only keeps the summary from being made; the statements before it were taken in.
  split
  · exact grounded.consistent.integrity
  · exact grounded.consistent.integrity

end SigilAsm
