import SigilAsm.Proofs.Elaboration.Clause
import SigilAsm.Proofs.Grammar.Acceptance

/-! # Which names are reported

Whether an identifier is reported depends on what it is there for and on the
clauses before the one it occurs in.  `Use.problem?` tells for each use, without
reference to tables or scopes, and `Scope.Knows` is the invariant that makes the
tables of a scope agree with it.
-/

namespace SigilAsm

/-! ## Offences -/

/-- What an identifier is there for. -/
inductive Use where
  | newGlobal
  -- A function header, or a call that states a signature.
  | mention (signature : Signature)
  | newLocal (body : BodyKey)
  | newBlock (body : BodyKey)
  -- A call that leaves the signature to an earlier mention.
  | callee
  | operation
  | argument (body : BodyKey) (sigil : Sigil)
  deriving DecidableEq, Repr

structure Occurrence where
  use : Use
  ident : Ident
  deriving DecidableEq, Repr

def Argument.occurrence? (body : BodyKey) : Argument → Option Occurrence
  | .name sigil ident => some ⟨.argument body sigil, ident⟩
  | .number _ => none

/-- The identifiers of a clause, in the order in which they are written. -/
def Clause.occurrences : Clause → List Occurrence
  | global name _ _ => [⟨.newGlobal, name⟩]
  | header _ name signature => [⟨.mention signature, name⟩]
  | localName body name => [⟨.newLocal body, name⟩]
  | block body label _ => [⟨.newBlock body, label⟩]
  | entry _ => []
  | instruction _ (.call target (some signature)) => [⟨.mention signature, target⟩]
  | instruction _ (.call target none) => [⟨.callee, target⟩]
  | instruction inside (.operation head arguments) =>
    ⟨.operation, head⟩ :: arguments.filterMap (Argument.occurrence? inside.body)

/-- What is wrong with a name that is used after the given clauses. -/
def Use.problem? (vocabulary : Vocabulary) (before : List Clause) (name : String) :
    Use → Option Problem
  | newGlobal =>
    if name ∈ (Clauses.globals before).map (·.name) then some (.duplicate .global name) else none
  | mention signature =>
    match (Clauses.mentions before).lookup name with
    | some first => if first = signature then none else some (.conflicting .function name)
    | none => none
  | newLocal body =>
    if (body, name) ∈ Clauses.locals before then some (.duplicate .localName name) else none
  | newBlock body =>
    if ⟨body, some name⟩ ∈ (Clauses.blocks before).map Prod.fst then some (.duplicate .block name)
    else none
  | callee =>
    if name ∈ (Clauses.mentions before).map Prod.fst then none else some (.unknown .function name)
  | operation =>
    if vocabulary.operations.contains name then none else some (.unknown .operation name)
  | argument _ .global =>
    if name ∈ (Clauses.globals before).map (·.name) then none else some (.unknown .global name)
  | argument body .inner =>
    if (body, name) ∈ Clauses.locals before then none else some (.unknown .localName name)
  | argument _ .builtin =>
    if vocabulary.types.contains name then none else some (.unknown .operandType name)

def Occurrence.diagnostic? (vocabulary : Vocabulary) (before : List Clause) (o : Occurrence) :
    Option Diagnostic :=
  (o.use.problem? vocabulary before o.ident.name).map (⟨·, o.ident.extent⟩)

/-- One diagnostic for each offending identifier, in the order of the source. -/
def Clauses.diagnostics (vocabulary : Vocabulary) (cs : List Clause) : List Diagnostic :=
  (precededBy [] cs).flatMap fun (before, c) =>
    c.occurrences.filterMap (Occurrence.diagnostic? vocabulary before)

theorem Clauses.diagnostics_snoc (vocabulary : Vocabulary) (cs : List Clause) (c : Clause) :
    diagnostics vocabulary (cs ++ [c]) =
      diagnostics vocabulary cs ++
        c.occurrences.filterMap (Occurrence.diagnostic? vocabulary cs) := by
  rw [diagnostics, precededBy_snoc, List.flatMap_append]
  simp [diagnostics]

/-! ## Reports -/

namespace Scope

variable {σ : Type}

/-- The second scope is the first with some diagnostics more, and whatever is in the log. -/
structure Reports (s : Scope σ) (ds : List Diagnostic) (s' : Scope σ) : Prop where
  same : s' = { s with
    errorCount := s.errorCount + ds.length, diagnostics := s'.diagnostics, log := s'.log }
  diagnostics : s'.diagnostics.toList = s.diagnostics.toList ++ ds

namespace Reports

variable {s s' s'' : Scope σ} {ds ds' : List Diagnostic}

theorem note (s : Scope σ) (event : LogEvent) : s.Reports [] (s.note event) :=
  ⟨rfl, (List.append_nil _).symm⟩

theorem report (s : Scope σ) (d : Diagnostic) : s.Reports [d] (s.report d) :=
  ⟨rfl, by simp [Scope.report]⟩

theorem refl (s : Scope σ) : s.Reports [] s := ⟨rfl, (List.append_nil _).symm⟩

theorem target (h : s.Reports ds s') : s'.target = s.target := by
  rw [h.same]

theorem function (h : s.Reports ds s') : s'.function = s.function := by
  rw [h.same]

theorem trans (h : s.Reports ds s') (h' : s'.Reports ds' s'') : s.Reports (ds ++ ds') s'' where
  same := by
    rw [h'.same, h.same, List.length_append, ← Nat.add_assoc]
  diagnostics := by rw [h'.diagnostics, h.diagnostics, List.append_assoc]

end Reports

theorem reports_resolve {α : Type} {table : NameTable α} {entity : Entity} {ident : Ident}
    (use : Use) {vocabulary : Vocabulary} (cs : List Clause) {declared : Prop} [Decidable declared]
    (s : Scope σ) (bound : table.contains ident.name = true ↔ declared)
    (problem : use.problem? vocabulary cs ident.name =
      if declared then none else some (.unknown entity ident.name)) :
    s.Reports ([⟨use, ident⟩].filterMap (Occurrence.diagnostic? vocabulary cs))
      (s.resolve table entity ident).2 := by
  by_cases h : declared
  · obtain ⟨found, lookup⟩ := Option.isSome_iff_exists.mp (bound.mpr h)
    simpa [resolve, lookup, Occurrence.diagnostic?, problem, h] using Reports.refl s
  · have lookup : table.lookup? ident.name = none := by
      simpa [NameTable.contains] using fun found => h (bound.mp found)
    simpa [resolve, reportUnknown, lookup, Occurrence.diagnostic?, problem, h] using
      Reports.report s ⟨.unknown entity ident.name, ident.extent⟩

theorem fst_resolve {α : Type} (s : Scope σ) (table : NameTable α) (entity : Entity)
    (ident : Ident) : (s.resolve table entity ident).1 = table.lookup? ident.name := by
  unfold resolve
  cases table.lookup? ident.name <;> rfl

/-- Names that are looked up change nothing but what is reported. -/
theorem exists_reports_resolve {α : Type} (s : Scope σ) (table : NameTable α)
    (entity : Entity) (ident : Ident) : ∃ ds, s.Reports ds (s.resolve table entity ident).2 := by
  unfold resolve
  split
  · exact ⟨[], .refl s⟩
  · exact ⟨_, .report s _⟩

theorem exists_reports_resolveArgument (s : Scope σ) (a : Argument) :
    ∃ ds, s.Reports ds (s.resolveArgument a).2 := by
  rcases a with ⟨sigil, ident⟩ | value
  · cases sigil with
    | inner =>
      obtain ⟨ds, reports⟩ := exists_reports_resolve (s.note (.localLookup ident.name)) s.locals
        .localName ident
      exact ⟨_, (Reports.note s _).trans reports⟩
    | global => exact exists_reports_resolve s s.globals .global ident
    | builtin => exact exists_reports_resolve s s.vocabulary.types .operandType ident
  · exact ⟨[], .refl s⟩

theorem exists_reports_resolveArguments (s : Scope σ) (arguments : List Argument) :
    ∃ ds, s.Reports ds (s.resolveArguments arguments).2 := by
  induction arguments generalizing s with
  | nil => exact ⟨[], .refl s⟩
  | cons a rest ih =>
    obtain ⟨ds, first⟩ := exists_reports_resolveArgument s a
    obtain ⟨ds', others⟩ := ih (s.resolveArgument a).2
    exact ⟨_, first.trans others⟩

/-- The tables of a scope agree with the clauses that it took in. -/
structure Knows (s : Scope σ) (vocabulary : Vocabulary) (cs : List Clause) (p : Place) : Prop where
  vocabulary : s.vocabulary = vocabulary
  globals : ∀ x, s.globals.contains x = true ↔ x ∈ (Clauses.globals cs).map (·.name)
  functions : ∀ f, (s.functions.lookup? f).map (·.signature) = (Clauses.mentions cs).lookup f
  function : ∀ b, p.body = some b → s.function.isSome = true
  locals : ∀ b, p.body = some b → ∀ x, s.locals.contains x = true ↔ (b, x) ∈ Clauses.locals cs
  blocks : ∀ b, p.body = some b → p.block ≠ some none → ∀ x,
    s.blocks.contains x = true ↔ ⟨b, some x⟩ ∈ (Clauses.blocks cs).map Prod.fst

variable {s s' : Scope σ} {vocabulary : Vocabulary} {cs : List Clause} {p : Place} {n : Nat}
  {b : BodyKey}

theorem Reports.knows {ds : List Diagnostic} (h : s.Reports ds s')
    (known : s.Knows vocabulary cs p) : s'.Knows vocabulary cs p := by
  rw [h.same]
  exact ⟨known.vocabulary, known.globals, known.functions, known.function, known.locals,
    known.blocks⟩

/-! ## Arguments -/

theorem reports_resolveArgument (known : s.Knows vocabulary cs p) (body : p.body = some b)
    (a : Argument) :
    s.Reports ((a.occurrence? b).toList.filterMap (Occurrence.diagnostic? vocabulary cs))
      (s.resolveArgument a).2 := by
  rcases a with ⟨sigil, ident⟩ | value
  · cases sigil with
    | inner =>
      exact (Reports.note s (.localLookup ident.name)).trans
        (reports_resolve _ _ _ (known.locals b body ident.name) rfl)
    | global => exact reports_resolve _ _ s (known.globals ident.name) rfl
    | builtin =>
      have types : s.vocabulary.types.contains ident.name = true ↔
          vocabulary.types.contains ident.name = true := by rw [known.vocabulary]
      exact reports_resolve _ _ s types rfl
  · exact .refl s

theorem reports_resolveArguments (known : s.Knows vocabulary cs p) (body : p.body = some b)
    (arguments : List Argument) :
    s.Reports ((arguments.filterMap (Argument.occurrence? b)).filterMap
      (Occurrence.diagnostic? vocabulary cs)) (s.resolveArguments arguments).2 := by
  induction arguments generalizing s with
  | nil => exact .refl s
  | cons a rest ih =>
    have first := reports_resolveArgument known body a
    have more := first.trans (ih (first.knows known))
    rw [← List.filterMap_append] at more
    have inOrder : (a :: rest).filterMap (Argument.occurrence? b) =
        (a.occurrence? b).toList ++ rest.filterMap (Argument.occurrence? b) := by
      cases h : a.occurrence? b <;> simp [h]
    rw [inOrder]
    exact more

/-! ## What a declaration adds to the tables -/

section Tables

variable {c : Clause} {target : σ} {ident : Ident}

theorem Knows.with_global {table : NameTable GlobalId} {mutability : Mutability} {data : List UInt8}
    (h : s.Knows vocabulary cs p)
    (bound : ∀ x, table.contains x = true ↔ s.globals.contains x = true ∨ x = ident.name) :
    Knows { s with target := target, globals := table } vocabulary
      (cs ++ [.global ident mutability data]) ⟨p.next + 1, p.body, p.block⟩ where
  vocabulary := h.vocabulary
  globals x := by
    rw [bound, h.globals]
    simp [Clause.global?, eq_comm]
  functions := by simpa [Clause.mention?] using h.functions
  function := h.function
  locals := by simpa [Clause.local?] using h.locals
  blocks := by simpa [Clause.block?] using h.blocks

theorem Knows.with_mention {table : NameTable FunctionEntry} {signature : Signature}
    (h : s.Knows vocabulary cs p) (mention : c.mention? = some (ident.name, signature))
    (noGlobal : c.global? = none) (noLocal : c.local? = none) (noBlock : c.block? = none)
    (bound : ∀ f, (table.lookup? f).map (·.signature) =
      ((s.functions.lookup? f).map (·.signature)).or
        (if f = ident.name then some signature else none)) :
    Knows { s with target := target, functions := table } vocabulary (cs ++ [c]) p where
  vocabulary := h.vocabulary
  globals := by simpa [noGlobal] using h.globals
  functions f := by
    rw [bound, h.functions, Clauses.mentions_snoc, mention, Option.toList_some, List.lookup_append]
    by_cases same : f = ident.name
    · simp [same]
    · simp [same, List.lookup_cons, beq_false_of_ne same]
  function := h.function
  locals := by simpa [noLocal] using h.locals
  blocks := by simpa [noBlock] using h.blocks

theorem Knows.with_local {table : NameTable LocalId} (h : s.Knows vocabulary cs ⟨n, some b, none⟩)
    (bound : ∀ x, table.contains x = true ↔ s.locals.contains x = true ∨ x = ident.name) :
    Knows { s with target := target, locals := table } vocabulary
      (cs ++ [.localName b ident]) ⟨n, some b, none⟩ where
  vocabulary := h.vocabulary
  globals := by simpa [Clause.global?] using h.globals
  functions := by simpa [Clause.mention?] using h.functions
  function := h.function
  locals := by
    rintro _ ⟨⟩ x
    rw [bound, h.locals b rfl]
    simp [Clause.local?]
  blocks := by simpa [Clause.block?] using h.blocks

theorem Knows.with_block {table : NameTable BlockEntry} {block : BlockId} {signature : Signature}
    {l : Option (Option String)} (h : s.Knows vocabulary cs ⟨n, some b, l⟩)
    (labelled : l ≠ some none)
    (bound : ∀ x, table.contains x = true ↔ s.blocks.contains x = true ∨ x = ident.name) :
    Knows { s with target := target, blocks := table, block := some block } vocabulary
      (cs ++ [.block b ident signature]) ⟨n, some b, some (some ident.name)⟩ where
  vocabulary := h.vocabulary
  globals := by simpa [Clause.global?] using h.globals
  functions := by simpa [Clause.mention?] using h.functions
  function := h.function
  locals := by simpa [Clause.local?] using h.locals
  blocks := by
    rintro _ ⟨⟩ - x
    rw [bound, h.blocks b rfl labelled]
    simp [Clause.block?]

end Tables

/-! ## Declarations -/

/-- The tables agree with the clauses, and so does what was reported. -/
structure Agrees (s : Scope σ) (vocabulary : Vocabulary) (cs : List Clause) (p : Place) : Prop where
  knows : s.Knows vocabulary cs p
  diagnostics : s.diagnostics.toList = Clauses.diagnostics vocabulary cs

section Diagnostics

variable {c : Clause} {use : Use} {ident : Ident}

theorem Agrees.diagnostics_of_problem (h : s.Agrees vocabulary cs p) {problem : Problem}
    (occurrences : c.occurrences = [⟨use, ident⟩])
    (wrong : use.problem? vocabulary cs ident.name = some problem) :
    (s.report ⟨problem, ident.extent⟩).diagnostics.toList =
      Clauses.diagnostics vocabulary (cs ++ [c]) := by
  rw [(Reports.report s _).diagnostics, h.diagnostics, Clauses.diagnostics_snoc, occurrences]
  simp [Occurrence.diagnostic?, wrong]

theorem Agrees.diagnostics_of_fine (h : s.Agrees vocabulary cs p)
    (occurrences : c.occurrences = [⟨use, ident⟩])
    (fine : use.problem? vocabulary cs ident.name = none) :
    s.diagnostics.toList = Clauses.diagnostics vocabulary (cs ++ [c]) := by
  rw [h.diagnostics, Clauses.diagnostics_snoc, occurrences]
  simp [Occurrence.diagnostic?, fine]

end Diagnostics

/-- What declares nothing leaves the tables as they are. -/
theorem Agrees.reports {c : Clause} (h : s.Agrees vocabulary cs p)
    (reports : s.Reports (c.occurrences.filterMap (Occurrence.diagnostic? vocabulary cs)) s')
    (noGlobal : c.global? = none) (noMention : c.mention? = none) (noLocal : c.local? = none)
    (noBlock : c.block? = none) : s'.Agrees vocabulary (cs ++ [c]) p where
  knows := by
    have known := reports.knows h.knows
    exact {
      vocabulary := known.vocabulary
      globals := by simpa [noGlobal] using known.globals
      functions := by simpa [noMention] using known.functions
      function := known.function
      locals := by simpa [noLocal] using known.locals
      blocks := by simpa [noBlock] using known.blocks }
  diagnostics := by rw [reports.diagnostics, h.diagnostics, Clauses.diagnostics_snoc]

variable [Builder σ]

theorem Agrees.declareGlobal (h : s.Agrees vocabulary cs p) (ident : Ident)
    (mutability : Mutability) (data : List UInt8) :
    (s.declareGlobal ident mutability data).2.Agrees vocabulary
      (cs ++ [.global ident mutability data]) ⟨p.next + 1, p.body, p.block⟩ := by
  have bound := h.knows.globals ident.name
  by_cases taken : s.globals.contains ident.name = true
  · rw [declareGlobal_of_contains taken]
    exact ⟨(Reports.report s _).knows
        (h.knows.with_global (NameTable.contains_iff_or_eq_of_contains taken)),
      h.diagnostics_of_problem rfl (by simp only [Use.problem?, if_pos (bound.mp taken)])⟩
  · rw [declareGlobal_of_not_contains taken]
    have known :=
      (Reports.note s (.globalRegistered ident.name mutability data.length)).knows h.knows
    exact ⟨known.with_global (NameTable.contains_insert _ _ _),
      h.diagnostics_of_fine rfl (by simp only [Use.problem?, if_neg (mt bound.mpr taken)])⟩

theorem Agrees.mentionFunction (h : s.Agrees vocabulary cs p) {ident : Ident}
    {signature : Signature} {c : Clause}
    (occurrences : c.occurrences = [⟨.mention signature, ident⟩])
    (mention : c.mention? = some (ident.name, signature)) (noGlobal : c.global? = none)
    (noLocal : c.local? = none) (noBlock : c.block? = none) :
    (s.mentionFunction ident signature).2.Agrees vocabulary (cs ++ [c]) p := by
  have first := h.knows.functions ident.name
  cases found : s.functions.lookup? ident.name with
  | some entry =>
    rw [found, Option.map_some] at first
    -- Whether or not the signatures agree, the entry of the first mention stays.
    have known : s.Knows vocabulary (cs ++ [c]) p := by
      refine h.knows.with_mention mention noGlobal noLocal noBlock fun f => ?_
      by_cases same : f = ident.name
      · simp [same, found]
      · simp [same]
    rw [mentionFunction_of_eq_some found]
    by_cases agree : entry.signature = signature
    · rw [if_pos agree]
      exact ⟨known, h.diagnostics_of_fine occurrences (by simp [Use.problem?, ← first, agree])⟩
    · rw [if_neg agree]
      exact ⟨(Reports.report s _).knows known,
        h.diagnostics_of_problem occurrences (by simp [Use.problem?, ← first, agree])⟩
  | none =>
    rw [found, Option.map_none] at first
    have known := (Reports.note s (.functionRegistered ident.name signature)).knows h.knows
    rw [mentionFunction_of_eq_none found]
    refine ⟨known.with_mention mention noGlobal noLocal noBlock ?_,
      h.diagnostics_of_fine occurrences (by simp [Use.problem?, ← first])⟩
    intro f
    rw [NameTable.lookup?_insert, Option.map_or]
    by_cases same : f = ident.name <;> simp [same, Scope.note]

/-- A header opens a body that no clause belongs to yet. -/
theorem Agrees.declareFunction (h : s.Agrees vocabulary cs p) (ordered : Ordered cs p)
    (ident : Ident) (signature : Signature) :
    (s.declareFunction ident signature).2.Agrees vocabulary
      (cs ++ [.header ⟨p.next, ident.name⟩ ident signature])
      ⟨p.next + 1, some ⟨p.next, ident.name⟩, none⟩ := by
  have mentioned := h.mentionFunction (c := .header ⟨p.next, ident.name⟩ ident signature)
    rfl rfl rfl rfl rfl
  unfold Scope.declareFunction
  refine ⟨⟨mentioned.knows.vocabulary, mentioned.knows.globals, mentioned.knows.functions,
    fun _ _ => rfl, ?_, ?_⟩, mentioned.diagnostics⟩
  · -- Every local that was declared is of an earlier declaration, so the empty table is right.
    rintro _ ⟨⟩ x
    have fresh : (⟨p.next, ident.name⟩, x) ∉ Clauses.locals cs := fun member =>
      Nat.lt_irrefl _ (ordered.locals _ x member).declaration_lt
    simpa [NameTable.contains, Clause.local?] using fresh
  · rintro _ ⟨⟩ - x
    have fresh : ⟨⟨p.next, ident.name⟩, some x⟩ ∉ (Clauses.blocks cs).map Prod.fst := by
      intro member
      obtain ⟨⟨_, signature⟩, member, rfl⟩ := List.mem_map.mp member
      exact Nat.lt_irrefl _ (ordered.blocks _ signature member).declaration_lt
    simpa [NameTable.contains, Clause.block?] using fresh

theorem Agrees.declareLocal (h : s.Agrees vocabulary cs ⟨n, some b, none⟩) (ident : Ident) :
    (s.declareLocal ident).2.Agrees vocabulary (cs ++ [.localName b ident]) ⟨n, some b, none⟩ := by
  obtain ⟨function, current⟩ := Option.isSome_iff_exists.mp (h.knows.function b rfl)
  have bound := h.knows.locals b rfl ident.name
  by_cases taken : s.locals.contains ident.name = true
  · rw [declareLocal_of_contains current taken]
    exact ⟨(Reports.report s _).knows
        (h.knows.with_local (NameTable.contains_iff_or_eq_of_contains taken)),
      h.diagnostics_of_problem rfl (by simp only [Use.problem?, if_pos (bound.mp taken)])⟩
  · rw [declareLocal_of_not_contains current taken]
    have known := (Reports.note s (.localRegistered ident.name)).knows h.knows
    exact ⟨known.with_local (NameTable.contains_insert _ _ _),
      h.diagnostics_of_fine rfl (by simp only [Use.problem?, if_neg (mt bound.mpr taken)])⟩

theorem Agrees.declareBlock {l : Option (Option String)}
    (h : s.Agrees vocabulary cs ⟨n, some b, l⟩) (labelled : l ≠ some none) (ident : Ident)
    (signature : Signature) :
    (s.declareBlock ident signature).2.Agrees vocabulary (cs ++ [.block b ident signature])
      ⟨n, some b, some (some ident.name)⟩ := by
  obtain ⟨function, current⟩ := Option.isSome_iff_exists.mp (h.knows.function b rfl)
  have bound := h.knows.blocks b rfl labelled ident.name
  cases found : s.blocks.lookup? ident.name with
  | some entry =>
    have taken : s.blocks.contains ident.name = true := by simp [NameTable.contains, found]
    have known := (Reports.report s ⟨.duplicate .block ident.name, ident.extent⟩).knows h.knows
    rw [declareBlock_of_eq_some current found]
    exact ⟨known.with_block labelled (NameTable.contains_iff_or_eq_of_contains taken),
      h.diagnostics_of_problem rfl (by simp only [Use.problem?, if_pos (bound.mp taken)])⟩
  | none =>
    have taken : ¬ s.blocks.contains ident.name = true := by simp [NameTable.contains, found]
    have known := (Reports.note s (.blockRegistered ident.name signature)).knows h.knows
    rw [declareBlock_of_eq_none current found]
    exact ⟨known.with_block labelled (NameTable.contains_insert _ _ _),
      h.diagnostics_of_fine rfl (by simp only [Use.problem?, if_neg (mt bound.mpr taken)])⟩

/-- Where the entry block is the current one, no label is looked up any more. -/
theorem Agrees.enterEntryBlock (h : s.Agrees vocabulary cs ⟨n, some b, none⟩) :
    s.enterEntryBlock.2.Agrees vocabulary (cs ++ [.entry b]) ⟨n, some b, some none⟩ := by
  obtain ⟨function, current⟩ := Option.isSome_iff_exists.mp (h.knows.function b rfl)
  rw [enterEntryBlock_of_current current]
  refine ⟨⟨h.knows.vocabulary, ?_, ?_, h.knows.function, ?_, fun _ _ labelled => ?_⟩, ?_⟩
  · simpa [Clause.global?] using h.knows.globals
  · simpa [Clause.mention?] using h.knows.functions
  · simpa [Clause.local?] using h.knows.locals
  · exact absurd rfl labelled
  · simpa [Clauses.diagnostics_snoc, Clause.occurrences] using h.diagnostics

/-! ## Instructions -/

theorem Agrees.emit (h : s.Agrees vocabulary cs p) (i : Instruction) :
    (s.emit i).Agrees vocabulary cs p := by
  unfold Scope.emit
  split
  · exact ⟨⟨h.knows.vocabulary, h.knows.globals, h.knows.functions, h.knows.function,
      h.knows.locals, h.knows.blocks⟩, h.diagnostics⟩
  · exact h

theorem Agrees.instruction {l : Option (Option String)} {place : Option String}
    (h : s.Agrees vocabulary cs ⟨n, some b, l⟩) (i : Tree.Instruction) :
    (s.step i.statement).Agrees vocabulary (cs ++ [.instruction ⟨b, place⟩ i]) ⟨n, some b, l⟩ := by
  cases i with
  | call target signature =>
    cases signature with
    | some signature =>
      exact (h.mentionFunction (c := .instruction ⟨b, place⟩ (.call target (some signature)))
        rfl rfl rfl rfl rfl).emit _
    | none =>
      have bound : s.functions.contains target.name = true ↔
          target.name ∈ (Clauses.mentions cs).map Prod.fst := by
        rw [NameTable.contains, ← Option.isSome_map, h.knows.functions, isSome_lookup_iff]
      have agrees := h.reports (c := .instruction ⟨b, place⟩ (.call target none))
        (reports_resolve _ _ s bound rfl) rfl rfl rfl rfl
      simp only [Tree.Instruction.statement, step, referenceFunction]
      split
      next id s' found =>
        obtain ⟨-, rfl⟩ := Prod.mk.inj found
        exact agrees.emit _
      next s' found =>
        obtain ⟨-, rfl⟩ := Prod.mk.inj found
        exact agrees
  | operation head arguments =>
    have operations : s.vocabulary.operations.contains head.name = true ↔
        vocabulary.operations.contains head.name = true := by rw [h.knows.vocabulary]
    have first := reports_resolve .operation cs s operations rfl
    -- The arguments are looked up even when the operation is unknown.
    have more := first.trans (reports_resolveArguments (first.knows h.knows) rfl arguments)
    rw [← List.filterMap_append] at more
    have agrees := h.reports (c := .instruction ⟨b, place⟩ (.operation head arguments)) more
      rfl rfl rfl rfl
    simp only [Tree.Instruction.statement, step]
    split
    · exact agrees.emit _
    · exact agrees

theorem run_append (s : Scope σ) (first second : List Statement) :
    s.run (first ++ second) = (s.run first).run second :=
  List.foldl_append

theorem run_clauses_snoc (s : Scope σ) (name : String) (cs : List Clause) (c : Clause) :
    s.run (.module name :: (cs ++ [c]).map Clause.statement) =
      (s.run (.module name :: cs.map Clause.statement)).step c.statement := by
  rw [List.map_append, ← List.cons_append, run_append]
  rfl

/-- Clauses that come in order are taken in as the rules of names have it. -/
theorem agrees_run (h : Reaches cs p) (lines : LineMap) (vocabulary : Vocabulary) (target : σ)
    (name : String) :
    ((start lines vocabulary target).run (.module name :: cs.map Clause.statement)).Agrees
      vocabulary cs p := by
  induction h with
  | nil =>
    -- Only the module statement was taken in, and it declares no name that can be looked up.
    refine ⟨⟨rfl, ?_, fun _ => rfl, nofun, nofun, nofun⟩, rfl⟩
    intro x
    exact iff_of_false (by simp [run, step, start, beginModule, NameTable.contains, note])
      (by simp [Clauses.globals])
  | global name mutability data _ ih =>
    rw [run_clauses_snoc]
    exact ih.declareGlobal name mutability data
  | header name signature before ih =>
    rw [run_clauses_snoc]
    exact ih.declareFunction before.ordered name signature
  | localName name _ ih =>
    rw [run_clauses_snoc]
    exact ih.declareLocal name
  | block label signature labelled _ ih =>
    rw [run_clauses_snoc]
    exact ih.declareBlock labelled label signature
  | entry _ ih =>
    rw [run_clauses_snoc]
    exact ih.enterEntryBlock
  | instruction i _ ih =>
    rw [run_clauses_snoc]
    exact ih.instruction i

end Scope

/-- What is reported of the text of a tree. -/
def Tree.Module.diagnostics (vocabulary : Vocabulary) (m : Tree.Module) : List Diagnostic :=
  Clauses.diagnostics vocabulary m.clauses

/-- Of an accepted text exactly the offending identifiers are reported, each once and in the order
in which they are written. -/
theorem elaborate_diagnostics {σ : Type} [Builder σ] (settings : Settings) (target : σ)
    (source : String) (accepted : (elaborate settings target source).1.isOk = true) :
    (∃ m : Tree.Module, m.IsTreeOf settings.maxDataBytes source) ∧
      ∀ m : Tree.Module, m.IsTreeOf settings.maxDataBytes source →
        (elaborate settings target source).2.diagnostics.toList =
          m.diagnostics settings.vocabulary := by
  obtain ⟨stop, read⟩ := elaborate_isOk_iff.mp accepted
  obtain ⟨short, exists_tree⟩ := Statement.exists_isTreeOf_of_read read
  refine ⟨exists_tree, fun m tree => ?_⟩
  -- Whichever tree the text has, its statements are the ones that were read.
  obtain ⟨stop, read⟩ := tree.read short
  obtain ⟨outline, event, elaborated⟩ := elaborate_of_read target read
  obtain ⟨p, reaches⟩ := m.exists_reaches
  rw [elaborated, m.statements_eq]
  exact (Scope.agrees_run reaches _ _ _ _).diagnostics

/-- A function is called with one signature and declared with another, and a local comes twice. -/
theorem elaborate_diagnostics_conflicting_and_duplicate :
    ∃ m : Tree.Module,
      m.IsTreeOf Settings.standard.maxDataBytes
        "module @m; function @f { local %x; local %x; call @g[1=>0]; } function @g;" ∧
      m.diagnostics .standard = [⟨.duplicate .localName "x", .between 41 43⟩,
        ⟨.conflicting .function "g", .between 71 73⟩] := by
  obtain ⟨⟨m, tree⟩, reported⟩ := elaborate_diagnostics Settings.standard (⟨0⟩ : Counter)
    "module @m; function @f { local %x; local %x; call @g[1=>0]; } function @g;" (by decide +kernel)
  refine ⟨m, tree, (reported m tree).symm.trans ?_⟩
  decide +kernel

end SigilAsm
