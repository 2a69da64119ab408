import Mathlib.Data.List.Forall2
import SigilAsm.Proofs.Elaboration.Diagnostics

/-! # Builders are interchangeable

A scope keeps the handles that its builder hands out and gives them back later,
and it never looks at one.  So two builders are told the same, whatever they
answer: a `Correspondence` says how the states and the handles of two builders
compare, and `Scope.Alike` is kept by every statement for each of them.

Taking for handles those that the same call returned, it follows that the n-th
call is the same with every builder.  Taking for states those of a builder with
and without a record, it follows that keeping the record changes nothing.
-/

namespace SigilAsm

/-! ## Handles -/

/-- Which handles of one builder stand for which handles of another, for each sort. -/
structure HandleRelation where
  function : FunctionId → FunctionId → Prop
  global : GlobalId → GlobalId → Prop
  localName : LocalId → LocalId → Prop
  block : BlockId → BlockId → Prop

namespace HandleRelation

/-- What the first relates, the second relates too. -/
structure Within (R R' : HandleRelation) : Prop where
  function : ∀ f g, R.function f g → R'.function f g
  global : ∀ x y, R.global x y → R'.global x y
  localName : ∀ x y, R.localName x y → R'.localName x y
  block : ∀ k l, R.block k l → R'.block k l

theorem Within.refl (R : HandleRelation) : R.Within R :=
  ⟨fun _ _ => id, fun _ _ => id, fun _ _ => id, fun _ _ => id⟩

/-- Operands that differ in their handles only. -/
inductive SameOperand (R : HandleRelation) : Operand → Operand → Prop
  | ofLocal {x y : LocalId} : R.localName x y → R.SameOperand (.ofLocal x) (.ofLocal y)
  | ofGlobal {x y : GlobalId} : R.global x y → R.SameOperand (.ofGlobal x) (.ofGlobal y)
  | ofType (id : TypeId) : R.SameOperand (.ofType id) (.ofType id)
  | immediate (value : UInt64) : R.SameOperand (.immediate value) (.immediate value)

inductive SameInstruction (R : HandleRelation) : Instruction → Instruction → Prop
  | call {f g : FunctionId} : R.function f g → R.SameInstruction (.call f) (.call g)
  | operation {operands operands' : List Operand} (id : OperationId) :
      List.Forall₂ R.SameOperand operands operands' →
      R.SameInstruction (.operation id operands) (.operation id operands')

def SameFunction (R : HandleRelation) (e e' : FunctionEntry) : Prop :=
  R.function e.id e'.id ∧ e.signature = e'.signature

def SameBlock (R : HandleRelation) (b b' : BlockEntry) : Prop :=
  R.block b.id b'.id ∧ b.signature = b'.signature

end HandleRelation

/-! ## Options and tables -/

section Options

variable {α β : Type} {r r' : α → β → Prop} {x : Option α} {y : Option β}

theorem rel_mono (h : Option.Rel r x y) (more : ∀ a b, r a b → r' a b) : Option.Rel r' x y := by
  cases h with
  | some same => exact .some (more _ _ same)
  | none => exact .none

theorem exists_of_rel_some {a : α} (h : Option.Rel r x y) (known : x = some a) :
    ∃ b, y = some b ∧ r a b := by
  cases h with
  | some same =>
    cases known
    exact ⟨_, rfl, same⟩
  | none => cases known

theorem eq_none_of_rel (h : Option.Rel r x y) (absent : x = none) : y = none := by
  cases h with
  | some same => cases absent
  | none => rfl

theorem rel_map {γ δ : Type} {q : γ → δ → Prop} {f : α → γ} {g : β → δ} (h : Option.Rel r x y)
    (maps : ∀ a b, r a b → q (f a) (g b)) : Option.Rel q (x.map f) (y.map g) := by
  cases h with
  | some same => exact .some (maps _ _ same)
  | none => exact .none

end Options

namespace NameTable

variable {α β : Type} {r r' : α → β → Prop} {t : NameTable α} {u : NameTable β}

/-- The same names in the same order, and related values. -/
def Alike (r : α → β → Prop) (t : NameTable α) (u : NameTable β) : Prop :=
  List.Forall₂ (fun x y => x.1 = y.1 ∧ r x.2 y.2) t.entries u.entries

theorem Alike.refl (t : NameTable α) : Alike Eq t t :=
  List.forall₂_same.mpr fun _ _ => ⟨rfl, rfl⟩

theorem Alike.mono (h : Alike r t u) (more : ∀ x y, r x y → r' x y) : Alike r' t u :=
  List.Forall₂.imp (fun _ _ same => ⟨same.1, more _ _ same.2⟩) h

theorem Alike.lookup? (h : Alike r t u) (name : String) :
    Option.Rel r (t.lookup? name) (u.lookup? name) := by
  have entries {l : List (String × α)} {m : List (String × β)}
      (h : List.Forall₂ (fun x y => x.1 = y.1 ∧ r x.2 y.2) l m) :
      Option.Rel r (l.lookup name) (m.lookup name) := by
    induction h with
    | nil => exact .none
    | @cons x y l m same _ ih =>
      obtain ⟨names, values⟩ := same
      rw [List.lookup_cons, List.lookup_cons, ← names]
      by_cases here : (name == x.1) = true
      · simpa only [here] using Option.Rel.some values
      · simpa only [here] using ih
  exact entries h

theorem Alike.exists_lookup? (h : Alike r t u) {name : String} {x : α}
    (known : t.lookup? name = some x) : ∃ y, u.lookup? name = some y ∧ r x y :=
  exists_of_rel_some (h.lookup? name) known

theorem Alike.lookup?_eq_none (h : Alike r t u) {name : String} (absent : t.lookup? name = none) :
    u.lookup? name = none :=
  eq_none_of_rel (h.lookup? name) absent

theorem Alike.contains (h : Alike r t u) (name : String) : t.contains name = u.contains name := by
  unfold NameTable.contains
  cases known : t.lookup? name with
  | some x =>
    obtain ⟨y, known', -⟩ := h.exists_lookup? known
    rw [known']
    rfl
  | none =>
    rw [h.lookup?_eq_none known]
    rfl

theorem Alike.insert (h : Alike r t u) (name : String) {x : α} {y : β} (same : r x y) :
    Alike r (t.insert name x) (u.insert name y) := by
  cases known : t.lookup? name with
  | some old =>
    obtain ⟨old', known', -⟩ := h.exists_lookup? known
    rw [NameTable.insert, NameTable.insert, bind_of_lookup?_eq_some x known,
      bind_of_lookup?_eq_some y known']
    exact h
  | none =>
    unfold Alike
    rw [entries_insert_of_lookup?_eq_none x known,
      entries_insert_of_lookup?_eq_none y (h.lookup?_eq_none known)]
    exact List.rel_append h (.cons ⟨rfl, same⟩ .nil)

end NameTable

/-! ## Builders -/

/-- How the states of two builders compare, and the handles that they have handed out in them. -/
structure Comparison (σ τ : Type) where
  related : σ → τ → Prop
  handles : σ → τ → HandleRelation

/-- The later states compare as well, and handles that stood for each other still do. -/
structure Comparison.Leads {σ τ : Type} (C : Comparison σ τ) (s : σ) (t : τ) (s' : σ) (t' : τ) :
    Prop where
  related : C.related s' t'
  handles : (C.handles s t).Within (C.handles s' t')

/-- A comparison that every call keeps, if its handles compare.  The answers then compare too. -/
structure Correspondence (σ τ : Type) [Builder σ] [Builder τ] extends Comparison σ τ where
  beginModule {s : σ} {t : τ} (name : String) : related s t →
    toComparison.Leads s t (Builder.beginModule s name) (Builder.beginModule t name)
  addFunction {s : σ} {t : τ} (name : String) (signature : Signature) : related s t →
    toComparison.Leads s t (Builder.addFunction s name signature).2
      (Builder.addFunction t name signature).2 ∧
    (handles (Builder.addFunction s name signature).2
      (Builder.addFunction t name signature).2).function
        (Builder.addFunction s name signature).1 (Builder.addFunction t name signature).1
  addGlobal {s : σ} {t : τ} (name : String) (mutability : Mutability) (data : List UInt8) :
    related s t →
    toComparison.Leads s t (Builder.addGlobal s name mutability data).2
      (Builder.addGlobal t name mutability data).2 ∧
    (handles (Builder.addGlobal s name mutability data).2
      (Builder.addGlobal t name mutability data).2).global
        (Builder.addGlobal s name mutability data).1 (Builder.addGlobal t name mutability data).1
  addLocal {s : σ} {t : τ} {f g : FunctionId} (name : String) : related s t →
    (handles s t).function f g →
    toComparison.Leads s t (Builder.addLocal s f name).2 (Builder.addLocal t g name).2 ∧
    (handles (Builder.addLocal s f name).2 (Builder.addLocal t g name).2).localName
      (Builder.addLocal s f name).1 (Builder.addLocal t g name).1
  addBlock {s : σ} {t : τ} {f g : FunctionId} (signature : Signature) : related s t →
    (handles s t).function f g →
    toComparison.Leads s t (Builder.addBlock s f signature).2 (Builder.addBlock t g signature).2 ∧
    (handles (Builder.addBlock s f signature).2 (Builder.addBlock t g signature).2).block
      (Builder.addBlock s f signature).1 (Builder.addBlock t g signature).1
  emit {s : σ} {t : τ} {f g : FunctionId} {k l : BlockId} {i j : Instruction} : related s t →
    (handles s t).function f g → (handles s t).block k l → (handles s t).SameInstruction i j →
    toComparison.Leads s t (Builder.emit s f k i) (Builder.emit t g l j)

/-! ## Scopes -/

namespace Scope

variable {σ τ : Type} {R R' : HandleRelation} {s : Scope σ} {t : Scope τ}

/-- The scopes differ in their builders and in handles that stand for each other. -/
structure Alike (R : HandleRelation) (s : Scope σ) (t : Scope τ) : Prop where
  lines : s.lines = t.lines
  vocabulary : s.vocabulary = t.vocabulary
  moduleName : s.moduleName = t.moduleName
  globals : s.globals.Alike R.global t.globals
  functions : s.functions.Alike R.SameFunction t.functions
  locals : s.locals.Alike R.localName t.locals
  blocks : s.blocks.Alike R.SameBlock t.blocks
  function : Option.Rel R.SameFunction s.function t.function
  block : Option.Rel R.block s.block t.block
  errorCount : s.errorCount = t.errorCount
  diagnostics : s.diagnostics = t.diagnostics
  log : s.log = t.log

namespace Alike

theorem mono (h : s.Alike R t) (more : R.Within R') : s.Alike R' t :=
  { h with
    globals := h.globals.mono more.global
    functions := h.functions.mono fun _ _ same => ⟨more.function _ _ same.1, same.2⟩
    locals := h.locals.mono more.localName
    blocks := h.blocks.mono fun _ _ same => ⟨more.block _ _ same.1, same.2⟩
    function := rel_mono h.function fun _ _ same => ⟨more.function _ _ same.1, same.2⟩
    block := rel_mono h.block more.block }

theorem with_target (h : s.Alike R t) (x : σ) (y : τ) :
    Alike R { s with target := x } { t with target := y } :=
  { h with }

theorem note (h : s.Alike R t) (event : LogEvent) : (s.note event).Alike R (t.note event) :=
  { h with log := congrArg (·.push event) h.log }

theorem report (h : s.Alike R t) (d : Diagnostic) : (s.report d).Alike R (t.report d) :=
  { h with
    errorCount := congrArg (· + 1) h.errorCount
    diagnostics := congrArg (·.push d) h.diagnostics
    log := by
      -- The log shows the line and the column, which both scopes tell from the same text.
      simp only [Scope.report, Scope.note, h.lines, h.log] }

/-! ### Names that are looked up -/

theorem resolve (h : s.Alike R t) {α β : Type} {r : α → β → Prop} {table : NameTable α}
    {table' : NameTable β} (same : table.Alike r table') (entity : Entity) (ident : Ident) :
    Option.Rel r (s.resolve table entity ident).1 (t.resolve table' entity ident).1 ∧
      Alike R (s.resolve table entity ident).2 (t.resolve table' entity ident).2 := by
  cases known : table.lookup? ident.name with
  | some x =>
    obtain ⟨y, known', values⟩ := same.exists_lookup? known
    simp only [Scope.resolve, known, known']
    exact ⟨.some values, h⟩
  | none =>
    simp only [Scope.resolve, known, same.lookup?_eq_none known]
    exact ⟨.none, h.report _⟩

theorem resolveOperation (h : s.Alike R t) (ident : Ident) :
    Option.Rel Eq (s.resolveOperation ident).1 (t.resolveOperation ident).1 ∧
      Alike R (s.resolveOperation ident).2 (t.resolveOperation ident).2 := by
  have operations : s.vocabulary.operations.Alike Eq t.vocabulary.operations := by
    rw [h.vocabulary]
    exact .refl _
  exact h.resolve operations .operation ident

theorem resolveArgument (h : s.Alike R t) (a : Argument) :
    Option.Rel R.SameOperand (s.resolveArgument a).1 (t.resolveArgument a).1 ∧
      Alike R (s.resolveArgument a).2 (t.resolveArgument a).2 := by
  rcases a with ⟨sigil, ident⟩ | value
  · cases sigil with
    | inner =>
      obtain ⟨found, alike⟩ :=
        (h.note (.localLookup ident.name)).resolve h.locals .localName ident
      exact ⟨rel_map found fun _ _ => .ofLocal, alike⟩
    | global =>
      obtain ⟨found, alike⟩ := h.resolve h.globals .global ident
      exact ⟨rel_map found fun _ _ => .ofGlobal, alike⟩
    | builtin =>
      have types : s.vocabulary.types.Alike Eq t.vocabulary.types := by
        rw [h.vocabulary]
        exact .refl _
      obtain ⟨found, alike⟩ := h.resolve types .operandType ident
      refine ⟨rel_map found fun _ _ same => ?_, alike⟩
      rw [same]
      exact .ofType _
  · exact ⟨.some (.immediate value), h⟩

theorem resolveArguments (h : s.Alike R t) (arguments : List Argument) :
    Option.Rel (List.Forall₂ R.SameOperand) (s.resolveArguments arguments).1
        (t.resolveArguments arguments).1 ∧
      Alike R (s.resolveArguments arguments).2 (t.resolveArguments arguments).2 := by
  induction arguments generalizing s t with
  | nil => exact ⟨.some .nil, h⟩
  | cons a rest ih =>
    obtain ⟨first, alike⟩ := h.resolveArgument a
    obtain ⟨others, alike⟩ := ih alike
    refine ⟨?_, alike⟩
    simp only [Scope.resolveArguments]
    cases known : (s.resolveArgument a).1 with
    | none =>
      rw [eq_none_of_rel first known]
      exact .none
    | some operand =>
      obtain ⟨operand', known', same⟩ := exists_of_rel_some first known
      rw [known']
      exact rel_map others fun _ _ more => .cons same more

end Alike

/-! ### Statements -/

/-- The scopes are alike in what their builders have handed out, and the builders compare. -/
structure Related (C : Comparison σ τ) (s : Scope σ) (t : Scope τ) : Prop where
  target : C.related s.target t.target
  alike : s.Alike (C.handles s.target t.target) t

namespace Related

variable {C : Comparison σ τ}

theorem leads (h : s.Related C t) {x : σ} {y : τ} (more : C.Leads s.target t.target x y) :
    Related C { s with target := x } { t with target := y } :=
  ⟨more.related, (h.alike.mono more.handles).with_target x y⟩

theorem note (h : s.Related C t) (event : LogEvent) : (s.note event).Related C (t.note event) :=
  ⟨h.target, h.alike.note event⟩

theorem report (h : s.Related C t) (d : Diagnostic) : (s.report d).Related C (t.report d) :=
  ⟨h.target, h.alike.report d⟩

/-- Names were looked up, of which the builders were told nothing. -/
theorem of_reports (h : s.Related C t) {s' : Scope σ} {t' : Scope τ} {ds ds' : List Diagnostic}
    (reports : s.Reports ds s') (reports' : t.Reports ds' t')
    (alike : s'.Alike (C.handles s.target t.target) t') : s'.Related C t' := by
  rw [← reports.target, ← reports'.target] at alike
  refine ⟨?_, alike⟩
  rw [reports.target, reports'.target]
  exact h.target

end Related

theorem start_related (C : Comparison σ τ) {a : σ} {b : τ} (h : C.related a b) (lines : LineMap)
    (vocabulary : Vocabulary) :
    (start lines vocabulary a).Related C (start lines vocabulary b) where
  target := h
  alike := ⟨rfl, rfl, rfl, .nil, .nil, .nil, .nil, .none, .none, rfl, rfl, rfl⟩

variable [Builder σ] [Builder τ] {C : Correspondence σ τ}

namespace Related

theorem beginModule (h : s.Related C.toComparison t) (name : String) :
    (s.beginModule name).Related C.toComparison (t.beginModule name) := by
  have begun := (h.leads (C.beginModule name h.target)).note (.moduleCreated name)
  exact ⟨begun.target, { begun.alike with moduleName := rfl }⟩

theorem declareGlobal (h : s.Related C.toComparison t) (ident : Ident) (mutability : Mutability)
    (data : List UInt8) :
    (s.declareGlobal ident mutability data).2.Related C.toComparison
      (t.declareGlobal ident mutability data).2 := by
  have same := h.alike.globals.contains ident.name
  by_cases taken : s.globals.contains ident.name = true
  · rw [declareGlobal_of_contains taken, declareGlobal_of_contains (same ▸ taken)]
    exact h.report _
  · rw [declareGlobal_of_not_contains taken, declareGlobal_of_not_contains (same ▸ taken)]
    obtain ⟨more, handed⟩ := C.addGlobal ident.name mutability data h.target
    have told := (h.leads more).note (.globalRegistered ident.name mutability data.length)
    exact ⟨told.target, { told.alike with globals := told.alike.globals.insert _ handed }⟩

theorem mentionFunction (h : s.Related C.toComparison t) (ident : Ident) (signature : Signature) :
    (s.mentionFunction ident signature).2.Related C.toComparison
        (t.mentionFunction ident signature).2 ∧
      (C.handles (s.mentionFunction ident signature).2.target
        (t.mentionFunction ident signature).2.target).SameFunction
          (s.mentionFunction ident signature).1 (t.mentionFunction ident signature).1 := by
  cases known : s.functions.lookup? ident.name with
  | some entry =>
    obtain ⟨entry', known', same⟩ := h.alike.functions.exists_lookup? known
    rw [mentionFunction_of_eq_some known, mentionFunction_of_eq_some known', ← same.2]
    by_cases agree : entry.signature = signature
    · rw [if_pos agree, if_pos agree]
      exact ⟨h, same⟩
    · rw [if_neg agree, if_neg agree]
      exact ⟨h.report _, same⟩
  | none =>
    have absent := h.alike.functions.lookup?_eq_none known
    rw [mentionFunction_of_eq_none known, mentionFunction_of_eq_none absent]
    obtain ⟨more, handed⟩ := C.addFunction ident.name signature h.target
    have told := (h.leads more).note (.functionRegistered ident.name signature)
    exact ⟨⟨told.target,
      { told.alike with functions := told.alike.functions.insert _ ⟨handed, rfl⟩ }⟩, handed, rfl⟩

theorem declareFunction (h : s.Related C.toComparison t) (ident : Ident) (signature : Signature) :
    (s.declareFunction ident signature).2.Related C.toComparison
      (t.declareFunction ident signature).2 := by
  obtain ⟨mentioned, same⟩ := h.mentionFunction ident signature
  have told := mentioned.note (.scopeReset ident.name)
  exact ⟨told.target, { told.alike with
    function := .some same
    block := .none
    locals := .nil
    blocks := .nil }⟩

theorem declareLocal (h : s.Related C.toComparison t) (ident : Ident) :
    (s.declareLocal ident).2.Related C.toComparison (t.declareLocal ident).2 := by
  cases current : s.function with
  | none =>
    simp only [Scope.declareLocal, current, eq_none_of_rel h.alike.function current]
    exact h
  | some function =>
    obtain ⟨function', current', same⟩ := exists_of_rel_some h.alike.function current
    have names := h.alike.locals.contains ident.name
    by_cases taken : s.locals.contains ident.name = true
    · rw [declareLocal_of_contains current taken, declareLocal_of_contains current' (names ▸ taken)]
      exact h.report _
    · rw [declareLocal_of_not_contains current taken,
        declareLocal_of_not_contains current' (names ▸ taken)]
      obtain ⟨more, handed⟩ := C.addLocal ident.name h.target same.1
      have told := (h.leads more).note (.localRegistered ident.name)
      exact ⟨told.target, { told.alike with locals := told.alike.locals.insert _ handed }⟩

/-- The next block of functions that stand for each other becomes the current one. -/
theorem addBlock (h : s.Related C.toComparison t) {function function' : FunctionEntry}
    (same : (C.handles s.target t.target).SameFunction function function') (name : String)
    (signature : Signature) :
    Related C.toComparison
      { s with
        target := (Builder.addBlock s.target function.id signature).2
        blocks := s.blocks.insert name
          ⟨(Builder.addBlock s.target function.id signature).1, signature⟩
        block := some (Builder.addBlock s.target function.id signature).1 }
      { t with
        target := (Builder.addBlock t.target function'.id signature).2
        blocks := t.blocks.insert name
          ⟨(Builder.addBlock t.target function'.id signature).1, signature⟩
        block := some (Builder.addBlock t.target function'.id signature).1 } := by
  obtain ⟨more, handed⟩ := C.addBlock signature h.target same.1
  have told := h.leads more
  exact ⟨told.target, { told.alike with
    blocks := told.alike.blocks.insert _ ⟨handed, rfl⟩
    block := .some handed }⟩

theorem declareBlock (h : s.Related C.toComparison t) (ident : Ident) (signature : Signature) :
    (s.declareBlock ident signature).2.Related C.toComparison
      (t.declareBlock ident signature).2 := by
  cases current : s.function with
  | none =>
    simp only [Scope.declareBlock, current, eq_none_of_rel h.alike.function current]
    exact h
  | some function =>
    obtain ⟨function', current', same⟩ := exists_of_rel_some h.alike.function current
    cases known : s.blocks.lookup? ident.name with
    | some entry =>
      obtain ⟨entry', known', block⟩ := h.alike.blocks.exists_lookup? known
      rw [declareBlock_of_eq_some current known, declareBlock_of_eq_some current' known']
      have reported := h.report ⟨.duplicate .block ident.name, ident.extent⟩
      exact ⟨reported.target, { reported.alike with block := .some block.1 }⟩
    | none =>
      have absent := h.alike.blocks.lookup?_eq_none known
      rw [declareBlock_of_eq_none current known, declareBlock_of_eq_none current' absent]
      exact (h.addBlock same ident.name signature).note (.blockRegistered ident.name signature)

theorem enterEntryBlock (h : s.Related C.toComparison t) :
    s.enterEntryBlock.2.Related C.toComparison t.enterEntryBlock.2 := by
  cases current : s.function with
  | none =>
    simp only [Scope.enterEntryBlock, current, eq_none_of_rel h.alike.function current]
    exact h
  | some function =>
    obtain ⟨function', current', same⟩ := exists_of_rel_some h.alike.function current
    rw [enterEntryBlock_of_current current, enterEntryBlock_of_current current', ← same.2]
    exact h.addBlock same entryBlockName function.signature

theorem emit (h : s.Related C.toComparison t) {i j : Instruction}
    (same : (C.handles s.target t.target).SameInstruction i j) :
    (s.emit i).Related C.toComparison (t.emit j) := by
  cases current : s.function with
  | none =>
    simp only [Scope.emit, current, eq_none_of_rel h.alike.function current]
    exact h
  | some function =>
    obtain ⟨function', current', functions⟩ := exists_of_rel_some h.alike.function current
    cases inside : s.block with
    | none =>
      simp only [Scope.emit, current, current', inside, eq_none_of_rel h.alike.block inside]
      exact h
    | some block =>
      obtain ⟨block', inside', blocks⟩ := exists_of_rel_some h.alike.block inside
      rw [emit_of_current current inside, emit_of_current current' inside']
      exact h.leads (C.emit h.target functions.1 blocks same)

theorem call (h : s.Related C.toComparison t) (target : Ident) (signature : Option Signature) :
    (s.step (.call target signature)).Related C.toComparison (t.step (.call target signature)) := by
  cases signature with
  | some signature =>
    obtain ⟨mentioned, same⟩ := h.mentionFunction target signature
    exact mentioned.emit (.call same.1)
  | none =>
    simp only [Scope.step, referenceFunction, Scope.resolve]
    cases known : s.functions.lookup? target.name with
    | some entry =>
      obtain ⟨entry', known', same⟩ := h.alike.functions.exists_lookup? known
      rw [known']
      exact h.emit (.call same.1)
    | none =>
      rw [h.alike.functions.lookup?_eq_none known]
      exact h.report _

theorem operation (h : s.Related C.toComparison t) (head : Ident) (arguments : List Argument)
    (closed : Bool) : (s.step (.operation head arguments closed)).Related C.toComparison
      (t.step (.operation head arguments closed)) := by
  obtain ⟨ids, named⟩ := h.alike.resolveOperation head
  obtain ⟨operands, looked⟩ := named.resolveArguments arguments
  -- Looking names up tells the builders nothing, so the handles that compare are still the same.
  obtain ⟨_, first⟩ := exists_reports_resolve s s.vocabulary.operations .operation head
  obtain ⟨_, first'⟩ := exists_reports_resolve t t.vocabulary.operations .operation head
  obtain ⟨_, others⟩ := exists_reports_resolveArguments (s.resolveOperation head).2 arguments
  obtain ⟨_, others'⟩ := exists_reports_resolveArguments (t.resolveOperation head).2 arguments
  have all := first.trans others
  have all' := first'.trans others'
  have related := h.of_reports all all' looked
  rw [← all.target, ← all'.target] at operands
  simp only [Scope.step]
  generalize (s.resolveOperation head).1 = id, (t.resolveOperation head).1 = id' at ids ⊢
  generalize ((s.resolveOperation head).2.resolveArguments arguments).1 = os,
    ((t.resolveOperation head).2.resolveArguments arguments).1 = os' at operands ⊢
  cases closed with
  | false => exact related
  | true =>
    cases ids with
    | none => exact related
    | some same =>
      cases same
      cases operands with
      | none => exact related
      | some operands => exact related.emit (.operation _ operands)

theorem step (h : s.Related C.toComparison t) (statement : Statement) :
    (s.step statement).Related C.toComparison (t.step statement) := by
  cases statement with
  | «module» name => exact h.beginModule name
  | global ident mutability data => exact h.declareGlobal ident mutability data
  | function ident signature => exact h.declareFunction ident signature
  | localName ident => exact h.declareLocal ident
  | block ident signature => exact h.declareBlock ident signature
  | entryBlock => exact h.enterEntryBlock
  | call target signature => exact h.call target signature
  | operation head arguments closed => exact h.operation head arguments closed

theorem run (h : s.Related C.toComparison t) (statements : List Statement) :
    (s.run statements).Related C.toComparison (t.run statements) := by
  induction statements generalizing s t with
  | nil => exact h
  | cons statement rest ih => exact ih (h.step statement)

end Related

end Scope

/-! ## Whole texts -/

/-- What an outline tells apart from handles: the name of the module, the names of its globals, those
of its functions with their signatures, and how many diagnostics were reported. -/
def Outline.withoutHandles (o : Outline) : String × List String × List (String × Signature) × Nat :=
  (o.name, o.globals.entries.map (·.1), o.functions.entries.map fun (x, e) => (x, e.signature),
    o.errorCount)

theorem Scope.Alike.withoutHandles_outline {σ τ : Type} {R : HandleRelation} {s : Scope σ}
    {t : Scope τ} (h : s.Alike R t) : s.outline.withoutHandles = t.outline.withoutHandles := by
  have globals : s.globals.entries.map (·.1) = t.globals.entries.map (·.1) := by
    refine List.forall₂_eq_eq_eq ▸ List.forall₂_map_left_iff.mpr (List.forall₂_map_right_iff.mpr ?_)
    exact h.globals.imp fun _ _ same => same.1
  have functions : (s.functions.entries.map fun (x, e) => (x, e.signature)) =
      t.functions.entries.map fun (x, e) => (x, e.signature) := by
    refine List.forall₂_eq_eq_eq ▸ List.forall₂_map_left_iff.mpr (List.forall₂_map_right_iff.mpr ?_)
    exact h.functions.imp fun _ _ same => Prod.ext same.1 same.2.2
  simp only [Scope.outline, Outline.withoutHandles, globals, functions, h.moduleName, h.errorCount]

variable {σ τ : Type} [Builder σ] [Builder τ]

theorem elaborate_related (C : Correspondence σ τ) {a : σ} {b : τ} (h : C.related a b)
    (settings : Settings) (source : String) :
    (elaborate settings a source).1.map Outline.withoutHandles =
        (elaborate settings b source).1.map Outline.withoutHandles ∧
      (elaborate settings a source).2.Related C.toComparison (elaborate settings b source).2 := by
  have related := (Scope.start_related C.toComparison h (.ofString source) settings.vocabulary).run
    (Statement.read settings.maxDataBytes source).items
  have outlines := related.alike.withoutHandles_outline
  obtain ⟨name, -, -, errors⟩ := by
    simpa only [Outline.withoutHandles, Prod.mk.injEq] using outlines
  unfold elaborate
  dsimp only
  split
  · exact ⟨rfl, related⟩
  · rw [name, errors]
    exact ⟨congrArg Except.ok outlines, related.note _⟩

end SigilAsm
