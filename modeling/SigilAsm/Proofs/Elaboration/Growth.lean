import SigilAsm.Proofs.Elaboration.Calls
import SigilAsm.Proofs.Grammar.Mentions

/-! # What statements add

Taking in statements only ever adds to what a scope has: calls are made after
the earlier ones, globals and functions are bound after those that are bound,
and what is reported comes after what was reported.  Each report is about a name
that the statement mentions, and no mention is reported twice.
-/

namespace SigilAsm

/-- The sigil that names of such things are written with. -/
def Entity.sigil : Entity → Sigil
  | global | function => .global
  | localName | block => .inner
  | operation | operandType => .builtin

/-- The diagnostic is about the mention: it covers all of it, and says the name as that of
something that has such a sigil. -/
structure Diagnostic.PointsAt (d : Diagnostic) (m : Mention) : Prop where
  extent : d.extent = m.ident.extent
  name : d.problem.name? = some m.ident.name
  sigil : d.problem.entity?.map Entity.sigil = some m.sigil

section Lists

variable {α β : Type} {r : α → β → Prop} {as as' : List α} {bs bs' : List β}

theorem prefix_of_eq {l l' : List α} (h : l = l') : l <+: l' := h ▸ List.prefix_refl l

theorem sublistForall₂_append (h : List.SublistForall₂ r as bs)
    (h' : List.SublistForall₂ r as' bs') : List.SublistForall₂ r (as ++ as') (bs ++ bs') := by
  obtain ⟨l, same, inside⟩ := List.sublistForall₂_iff.mp h
  obtain ⟨l', same', inside'⟩ := List.sublistForall₂_iff.mp h'
  exact List.sublistForall₂_iff.mpr ⟨l ++ l', List.rel_append same same', inside.append inside'⟩

theorem exists_mem_of_sublistForall₂ {a : α} (h : List.SublistForall₂ r as bs) (member : a ∈ as) :
    ∃ b ∈ bs, r a b := by
  induction h with
  | nil => cases member
  | cons related _ ih =>
    rcases List.mem_cons.mp member with rfl | member
    · exact ⟨_, List.mem_cons_self, related⟩
    · obtain ⟨b, inside, related⟩ := ih member
      exact ⟨b, List.mem_cons_of_mem _ inside, related⟩
  | cons_right _ ih =>
    obtain ⟨b, inside, related⟩ := ih member
    exact ⟨b, List.mem_cons_of_mem _ inside, related⟩

theorem sublistForall₂_of_sublist (h : List.SublistForall₂ r as bs) (inside : bs.Sublist bs') :
    List.SublistForall₂ r as bs' := by
  obtain ⟨l, same, inside'⟩ := List.sublistForall₂_iff.mp h
  exact List.sublistForall₂_iff.mpr ⟨l, same, inside'.trans inside⟩

end Lists

theorem NameTable.entries_prefix_insert {α : Type} (t : NameTable α) (name : String) (value : α) :
    t.entries <+: (t.insert name value).entries := by
  cases known : t.lookup? name with
  | some old =>
    exact prefix_of_eq (by rw [insert, bind_of_lookup?_eq_some value known])
  | none =>
    rw [entries_insert_of_lookup?_eq_none value known]
    exact List.prefix_append _ _

namespace Scope

variable {σ : Type} {s s' s'' : Scope (Logged σ)} {ms ms' : List Mention}

/-- What the second scope has more than the first, if the statements between them mention `ms`. -/
structure Grows (ms : List Mention) (s s' : Scope (Logged σ)) : Prop where
  calls : s.target.registrations.toList <+: s'.target.registrations.toList
  globals : s.globals.entries <+: s'.globals.entries
  functions : s.functions.entries <+: s'.functions.entries
  diagnostics : ∃ ds, s'.diagnostics.toList = s.diagnostics.toList ++ ds ∧
    List.SublistForall₂ Diagnostic.PointsAt ds ms

namespace Grows

theorem trans (h : s.Grows ms s') (h' : s'.Grows ms' s'') : s.Grows (ms ++ ms') s'' where
  calls := h.calls.trans h'.calls
  globals := h.globals.trans h'.globals
  functions := h.functions.trans h'.functions
  diagnostics := by
    obtain ⟨ds, reported, points⟩ := h.diagnostics
    obtain ⟨ds', reported', points'⟩ := h'.diagnostics
    exact ⟨ds ++ ds', by rw [reported', reported, List.append_assoc],
      sublistForall₂_append points points'⟩

theorem of_reports {ds : List Diagnostic} (h : s.Reports ds s')
    (points : List.SublistForall₂ Diagnostic.PointsAt ds ms) : s.Grows ms s' where
  calls := prefix_of_eq (by rw [h.target])
  globals := prefix_of_eq (by rw [h.same])
  functions := prefix_of_eq (by rw [h.same])
  diagnostics := ⟨ds, h.diagnostics, points⟩

theorem refl (s : Scope (Logged σ)) (ms : List Mention) : s.Grows ms s :=
  .of_reports (.refl s) .nil

theorem report (s : Scope (Logged σ)) {d : Diagnostic} {m : Mention} (h : d.PointsAt m) :
    s.Grows [m] (s.report d) :=
  .of_reports (.report s d) (.cons h .nil)

/-- Nothing is reported, and the builder is told something. -/
theorem silent (s : Scope (Logged σ)) (ms : List Mention) {s' : Scope (Logged σ)}
    {r : Registration} (told : s'.target.registrations = s.target.registrations.push r)
    (globals : s.globals.entries <+: s'.globals.entries)
    (functions : s.functions.entries <+: s'.functions.entries)
    (diagnostics : s'.diagnostics = s.diagnostics) : s.Grows ms s' where
  calls := by
    rw [told, Array.toList_push]
    exact List.prefix_append _ _
  globals := globals
  functions := functions
  diagnostics := ⟨[], by rw [diagnostics, List.append_nil], .nil⟩

end Grows

/-! ## Names that are looked up -/

theorem grows_resolve (s : Scope (Logged σ)) {α : Type} (table : NameTable α) (entity : Entity)
    (ident : Ident) : s.Grows [⟨entity.sigil, ident⟩] (s.resolve table entity ident).2 := by
  unfold resolve
  split
  · exact .refl s _
  · exact .report s ⟨rfl, rfl, rfl⟩

theorem grows_resolveArgument (s : Scope (Logged σ)) (a : Argument) :
    s.Grows a.mentions (s.resolveArgument a).2 := by
  rcases a with ⟨sigil, ident⟩ | value
  · cases sigil with
    | inner =>
      have noted : s.Grows [] (s.note (.localLookup ident.name)) := .of_reports (.note s _) .nil
      exact noted.trans (grows_resolve _ s.locals .localName ident)
    | global => exact grows_resolve s s.globals .global ident
    | builtin => exact grows_resolve s s.vocabulary.types .operandType ident
  · exact .refl s _

theorem grows_resolveArguments (s : Scope (Logged σ)) (arguments : List Argument) :
    s.Grows (arguments.flatMap Argument.mentions) (s.resolveArguments arguments).2 := by
  induction arguments generalizing s with
  | nil => exact .refl s _
  | cons a rest ih => exact (grows_resolveArgument s a).trans (ih (s.resolveArgument a).2)

/-! ## Statements -/

variable [Builder σ]

theorem grows_declareGlobal (s : Scope (Logged σ)) (ident : Ident) (mutability : Mutability)
    (data : List UInt8) :
    s.Grows [⟨.global, ident⟩] (s.declareGlobal ident mutability data).2 := by
  by_cases taken : s.globals.contains ident.name = true
  · rw [declareGlobal_of_contains taken]
    exact .report s ⟨rfl, rfl, rfl⟩
  · rw [declareGlobal_of_not_contains taken]
    exact .silent s _ rfl (s.globals.entries_prefix_insert _ _) (List.prefix_refl _) rfl

theorem grows_mentionFunction (s : Scope (Logged σ)) (ident : Ident) (signature : Signature) :
    s.Grows [⟨.global, ident⟩] (s.mentionFunction ident signature).2 := by
  cases known : s.functions.lookup? ident.name with
  | some entry =>
    rw [mentionFunction_of_eq_some known]
    by_cases agree : entry.signature = signature
    · rw [if_pos agree]
      exact .refl s _
    · rw [if_neg agree]
      exact .report s ⟨rfl, rfl, rfl⟩
  | none =>
    rw [mentionFunction_of_eq_none known]
    exact .silent s _ rfl (List.prefix_refl _) (s.functions.entries_prefix_insert _ _) rfl

/-- A header gives the scope an empty body, in which nothing is that has to stay. -/
theorem grows_declareFunction (s : Scope (Logged σ)) (ident : Ident) (signature : Signature) :
    s.Grows [⟨.global, ident⟩] (s.declareFunction ident signature).2 :=
  { grows_mentionFunction s ident signature with }

theorem grows_declareLocal (s : Scope (Logged σ)) (ident : Ident) :
    s.Grows [⟨.inner, ident⟩] (s.declareLocal ident).2 := by
  cases current : s.function with
  | none =>
    simp only [declareLocal, current]
    exact .refl s _
  | some function =>
    by_cases taken : s.locals.contains ident.name = true
    · rw [declareLocal_of_contains current taken]
      exact .report s ⟨rfl, rfl, rfl⟩
    · rw [declareLocal_of_not_contains current taken]
      exact .silent s _ rfl (List.prefix_refl _) (List.prefix_refl _) rfl

theorem grows_declareBlock (s : Scope (Logged σ)) (ident : Ident) (signature : Signature) :
    s.Grows [⟨.inner, ident⟩] (s.declareBlock ident signature).2 := by
  cases current : s.function with
  | none =>
    simp only [declareBlock, current]
    exact .refl s _
  | some function =>
    cases known : s.blocks.lookup? ident.name with
    | some entry =>
      rw [declareBlock_of_eq_some current known]
      exact { Grows.report s (m := ⟨.inner, ident⟩) ⟨rfl, rfl, rfl⟩ with }
    | none =>
      rw [declareBlock_of_eq_none current known]
      exact .silent s _ rfl (List.prefix_refl _) (List.prefix_refl _) rfl

theorem grows_enterEntryBlock (s : Scope (Logged σ)) : s.Grows [] s.enterEntryBlock.2 := by
  cases current : s.function with
  | none =>
    simp only [enterEntryBlock, current]
    exact .refl s _
  | some function =>
    rw [enterEntryBlock_of_current current]
    exact .silent s _ rfl (List.prefix_refl _) (List.prefix_refl _) rfl

theorem Grows.emit (h : s.Grows ms s') (i : Instruction) : s.Grows ms (s'.emit i) := by
  have emitted : s'.Grows [] (s'.emit i) := by
    unfold Scope.emit
    split
    · exact .silent s' _ rfl (List.prefix_refl _) (List.prefix_refl _) rfl
    · exact .refl s' _
  simpa only [List.append_nil] using h.trans emitted

theorem grows_call (s : Scope (Logged σ)) (target : Ident) (signature : Option Signature) :
    s.Grows [⟨.global, target⟩] (s.step (.call target signature)) := by
  have referenced : s.Grows [⟨.global, target⟩] (s.referenceFunction target signature).2 := by
    cases signature with
    | some signature => exact grows_mentionFunction s target signature
    | none => exact grows_resolve s s.functions .function target
  simp only [step]
  split
  · next id middle read =>
    rw [read] at referenced
    exact referenced.emit _
  · next middle read =>
    rw [read] at referenced
    exact referenced

theorem grows_operation (s : Scope (Logged σ)) (head : Ident) (arguments : List Argument)
    (closed : Bool) :
    s.Grows (Statement.operation head arguments closed).mentions
      (s.step (.operation head arguments closed)) := by
  have looked := (grows_resolve s s.vocabulary.operations .operation head).trans
    (grows_resolveArguments (s.resolveOperation head).2 arguments)
  simp only [step]
  split
  · exact looked.emit _
  · exact looked

theorem grows_step (s : Scope (Logged σ)) (statement : Statement) :
    s.Grows statement.mentions (s.step statement) := by
  cases statement with
  | «module» name => exact .silent s _ rfl (List.prefix_refl _) (List.prefix_refl _) rfl
  | global ident mutability data => exact grows_declareGlobal s ident mutability data
  | function ident signature => exact grows_declareFunction s ident signature
  | localName ident => exact grows_declareLocal s ident
  | block ident signature => exact grows_declareBlock s ident signature
  | entryBlock => exact grows_enterEntryBlock s
  | call target signature => exact grows_call s target signature
  | operation head arguments closed => exact grows_operation s head arguments closed

theorem grows_run (s : Scope (Logged σ)) (statements : List Statement) :
    s.Grows (statements.flatMap Statement.mentions) (s.run statements) := by
  induction statements generalizing s with
  | nil => exact .refl s _
  | cons statement rest ih => exact (grows_step s statement).trans (ih (s.step statement))

end Scope

end SigilAsm
