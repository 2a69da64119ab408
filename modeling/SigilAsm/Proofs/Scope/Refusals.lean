import SigilAsm.Proofs.Scope.Tables

/-! # Operations that report

An operation of a scope that reports a diagnostic changes nothing besides: no
table, and nothing of the builder, which is not told of it (`Scope.Refused`).
Only a function header opens its body all the same, and a label that is taken
leads back to its block.  What is answered is told by `Scope.Refusal`: nothing,
or what was registered when the name came for the first time.

Which time was the first is told from the transcript of the operations so far,
without reference to tables.  `Scope.Remembers` is the invariant that makes the
tables agree with it.
-/

namespace SigilAsm

namespace Scope

/-! ## Transcripts -/

section Transcripts

variable {σ : Type} [Builder σ]

/-- The events, each with the reply to it. -/
def transcript (s : Scope σ) : List Event → List (Event × Reply)
  | [] => []
  | event :: rest => (event, (s.handle event).1) :: (s.handle event).2.transcript rest

theorem transcript_snoc (s : Scope σ) (events : List Event) (event : Event) :
    s.transcript (events ++ [event]) =
      s.transcript events ++ [(event, ((s.handleAll events).handle event).1)] := by
  induction events generalizing s with
  | nil => rfl
  | cons first rest ih => exact congrArg ((first, (s.handle first).1) :: ·) (ih _)

end Transcripts

def Event.isHeader : Event → Bool
  | .declareFunction .. => true
  | _ => false

/-- A function that was mentioned with a signature, and the handle of it that was answered. -/
def mention? : Event × Reply → Option (String × FunctionEntry)
  | (.declareFunction ident signature, .entry entry) => some (ident.name, ⟨entry.id, signature⟩)
  | (.referenceFunction ident (some signature), .function (some id)) =>
    some (ident.name, ⟨id, signature⟩)
  | _ => none

/-- A block that was opened, and its handle. -/
def opening? : Event × Reply → Option (String × BlockId)
  | (.declareBlock ident _, .block (some id)) => some (ident.name, id)
  | (.enterEntryBlock, .block (some id)) => some (entryBlockName, id)
  | _ => none

/-- The part of a transcript since the last function header. -/
def sinceHeader (past : List (Event × Reply)) : List (Event × Reply) :=
  (past.reverse.takeWhile (!·.1.isHeader)).reverse

/-- The function as it was mentioned first. -/
def firstMention? (past : List (Event × Reply)) (name : String) : Option FunctionEntry :=
  (past.filterMap mention?).lookup name

/-- The block of the current body that was opened first under the name. -/
def firstBlock? (past : List (Event × Reply)) (name : String) : Option BlockId :=
  ((sinceHeader past).filterMap opening?).lookup name

section Firsts

variable {α β : Type} {f : α → Option (String × β)} {x : α} (xs : List α) (name : String)

theorem lookup_filterMap_snoc_of_eq_none (told : f x = none) :
    ((xs ++ [x]).filterMap f).lookup name = (xs.filterMap f).lookup name := by
  simp [told]

theorem lookup_filterMap_snoc_of_eq_some {key : String} {value : β}
    (told : f x = some (key, value)) :
    ((xs ++ [x]).filterMap f).lookup name =
      ((xs.filterMap f).lookup name).or (if name = key then some value else none) := by
  rw [List.filterMap_append, List.lookup_append]
  by_cases same : name = key
  · simp [told, same]
  · simp [told, same, List.lookup_cons, beq_false_of_ne same]

variable (past : List (Event × Reply)) {event : Event} (reply : Reply)

theorem sinceHeader_snoc (inside : event.isHeader = false) :
    sinceHeader (past ++ [(event, reply)]) = sinceHeader past ++ [(event, reply)] := by
  simp [sinceHeader, inside]

theorem firstBlock?_header (header : event.isHeader = true) :
    firstBlock? (past ++ [(event, reply)]) name = none := by
  simp [firstBlock?, sinceHeader, header]

end Firsts

/-! ## Tables remember what came first -/

/-- The tables of functions and of blocks hold what was registered first under each name. -/
structure Remembers {σ : Type} (s : Scope σ) (past : List (Event × Reply)) : Prop where
  functions : ∀ name, s.functions.lookup? name = firstMention? past name
  blocks : ∀ name, (s.blocks.lookup? name).map (·.id) = firstBlock? past name

variable {σ : Type} {s s' : Scope σ} {past : List (Event × Reply)}

namespace Remembers

/-- Nothing is mentioned or opened, and the tables stay. -/
theorem still (h : s.Remembers past) {event : Event} {reply : Reply}
    (functions : s'.functions = s.functions) (blocks : s'.blocks = s.blocks)
    (unmentioned : mention? (event, reply) = none) (unopened : opening? (event, reply) = none)
    (inside : event.isHeader = false) : s'.Remembers (past ++ [(event, reply)]) where
  functions name := by
    rw [functions, h.functions, firstMention?, firstMention?,
      lookup_filterMap_snoc_of_eq_none _ _ unmentioned]
  blocks name := by
    rw [blocks, h.blocks, firstBlock?, firstBlock?, sinceHeader_snoc past reply inside,
      lookup_filterMap_snoc_of_eq_none _ _ unopened]

/-- Nothing but a report. -/
theorem report (h : s.Remembers past) {event : Event} {reply : Reply} {ds : List Diagnostic}
    (reports : s.Reports ds s') (unmentioned : mention? (event, reply) = none)
    (unopened : opening? (event, reply) = none) (inside : event.isHeader = false) :
    s'.Remembers (past ++ [(event, reply)]) :=
  h.still (by rw [reports.same]) (by rw [reports.same]) unmentioned unopened inside

/-- A block is opened inside the body, under a name that may be taken. -/
theorem opened (h : s.Remembers past) {event : Event} {reply : Reply} {name : String}
    {entry : BlockEntry} (functions : s'.functions = s.functions)
    (blocks : s'.blocks = s.blocks.insert name entry)
    (unmentioned : mention? (event, reply) = none)
    (opens : opening? (event, reply) = some (name, entry.id)) (inside : event.isHeader = false) :
    s'.Remembers (past ++ [(event, reply)]) where
  functions other := by
    rw [functions, h.functions, firstMention?, firstMention?,
      lookup_filterMap_snoc_of_eq_none _ _ unmentioned]
  blocks other := by
    rw [blocks, NameTable.lookup?_insert, Option.map_or, h.blocks, firstBlock?, firstBlock?,
      sinceHeader_snoc past reply inside, lookup_filterMap_snoc_of_eq_some _ _ opens]
    split <;> rfl

variable [Builder σ]

/-- The first mention of a function decides what is known of it. -/
theorem lookup?_mentionFunction (h : s.Remembers past) (ident : Ident) (signature : Signature)
    (name : String) : (s.mentionFunction ident signature).2.functions.lookup? name =
      (firstMention? past name).or (if name = ident.name then
        some ⟨(s.mentionFunction ident signature).1.id, signature⟩ else none) := by
  cases known : s.functions.lookup? ident.name with
  | some entry =>
    have first := (h.functions ident.name).symm.trans known
    have kept : (s.mentionFunction ident signature).2.functions = s.functions := by
      rw [mentionFunction_of_eq_some known]
      dsimp only
      split <;> rfl
    rw [kept, h.functions]
    by_cases same : name = ident.name
    · rw [same, first, Option.some_or]
    · rw [if_neg same, Option.or_none]
  | none =>
    rw [mentionFunction_of_eq_none known, ← h.functions]
    exact NameTable.lookup?_insert ..

/-- A call with a signature and a header both mention a function. -/
theorem firstMention?_of_mention (h : s.Remembers past) (ident : Ident) (signature : Signature)
    {event : Event} {reply : Reply} (mentions : mention? (event, reply) =
      some (ident.name, ⟨(s.mentionFunction ident signature).1.id, signature⟩)) (name : String) :
    (s.mentionFunction ident signature).2.functions.lookup? name =
      firstMention? (past ++ [(event, reply)]) name := by
  rw [h.lookup?_mentionFunction, firstMention?, firstMention?,
    lookup_filterMap_snoc_of_eq_some _ _ mentions]

theorem blocks_mentionFunction (s : Scope σ) (ident : Ident) (signature : Signature) :
    (s.mentionFunction ident signature).2.blocks = s.blocks := by
  unfold mentionFunction
  split
  · dsimp only
    split <;> rfl
  · rfl

theorem declareFunction (h : s.Remembers past) (ident : Ident) (signature : Signature) :
    (s.declareFunction ident signature).2.Remembers
      (past ++ [(.declareFunction ident signature,
        .entry (s.declareFunction ident signature).1)]) where
  functions name := h.firstMention?_of_mention ident signature rfl name
  blocks _ := (firstBlock?_header _ past _ rfl).symm

theorem referenceFunction (h : s.Remembers past) (ident : Ident) (signature : Option Signature) :
    (s.referenceFunction ident signature).2.Remembers
      (past ++ [(.referenceFunction ident signature,
        .function (s.referenceFunction ident signature).1)]) := by
  cases signature with
  | some signature =>
    refine ⟨fun name => h.firstMention?_of_mention ident signature rfl name, fun name => ?_⟩
    change ((s.mentionFunction ident signature).2.blocks.lookup? name).map _ = _
    rw [blocks_mentionFunction, h.blocks, firstBlock?, firstBlock?, sinceHeader_snoc past _ rfl,
      lookup_filterMap_snoc_of_eq_none _ _ rfl]
  | none =>
    obtain ⟨ds, reports⟩ := exists_reports_resolve s s.functions .function ident
    exact h.report reports rfl rfl rfl

theorem declareBlock (h : s.Remembers past) (ident : Ident) (signature : Signature) :
    (s.declareBlock ident signature).2.Remembers
      (past ++ [(.declareBlock ident signature, .block (s.declareBlock ident signature).1)]) := by
  cases current : s.function with
  | none =>
    simp only [Scope.declareBlock, current]
    exact h.still rfl rfl rfl rfl rfl
  | some function =>
    cases known : s.blocks.lookup? ident.name with
    | some entry =>
      rw [declareBlock_of_eq_some current known]
      -- Binding the name again would change nothing.
      have same : s.blocks = s.blocks.insert ident.name entry := by
        rw [NameTable.insert, NameTable.bind_of_lookup?_eq_some entry known]
      exact h.opened rfl same rfl rfl rfl
    | none =>
      rw [declareBlock_of_eq_none current known]
      exact h.opened rfl rfl rfl rfl rfl

theorem enterEntryBlock (h : s.Remembers past) :
    s.enterEntryBlock.2.Remembers
      (past ++ [(.enterEntryBlock, .block s.enterEntryBlock.1)]) := by
  cases current : s.function with
  | none =>
    simp only [Scope.enterEntryBlock, current]
    exact h.still rfl rfl rfl rfl rfl
  | some function =>
    rw [enterEntryBlock_of_current current]
    exact h.opened rfl rfl rfl rfl rfl

theorem handle (h : s.Remembers past) (event : Event) :
    (s.handle event).2.Remembers (past ++ [(event, (s.handle event).1)]) := by
  cases event with
  | beginModule name => exact h.still rfl rfl rfl rfl rfl
  | declareGlobal ident mutability data =>
    simp only [Scope.handle, declareGlobal]
    split <;> exact h.still rfl rfl rfl rfl rfl
  | declareFunction ident signature => exact h.declareFunction ident signature
  | referenceFunction ident signature => exact h.referenceFunction ident signature
  | resolveGlobal ident =>
    obtain ⟨ds, reports⟩ := exists_reports_resolve s s.globals .global ident
    exact h.report reports rfl rfl rfl
  | resolveLocal ident =>
    obtain ⟨ds, reports⟩ :=
      exists_reports_resolve (s.note (.localLookup ident.name)) s.locals .localName ident
    exact h.report ((Reports.note s _).trans reports) rfl rfl rfl
  | resolveOperation ident =>
    obtain ⟨ds, reports⟩ := exists_reports_resolve s s.vocabulary.operations .operation ident
    exact h.report reports rfl rfl rfl
  | resolveType ident =>
    obtain ⟨ds, reports⟩ := exists_reports_resolve s s.vocabulary.types .operandType ident
    exact h.report reports rfl rfl rfl
  | declareLocal ident =>
    simp only [Scope.handle, declareLocal]
    split
    · exact h.still rfl rfl rfl rfl rfl
    · split <;> exact h.still rfl rfl rfl rfl rfl
  | declareBlock ident signature => exact h.declareBlock ident signature
  | enterEntryBlock => exact h.enterEntryBlock
  | emit instruction =>
    simp only [Scope.handle, emit]
    split <;> exact h.still rfl rfl rfl rfl rfl
  | reportUnknown entity ident => exact h.report (.report s _) rfl rfl rfl
  | reportConflicting entity ident => exact h.report (.report s _) rfl rfl rfl
  | reportDuplicate entity ident => exact h.report (.report s _) rfl rfl rfl

end Remembers

theorem handleAll_remembers [Builder σ] (lines : LineMap) (vocabulary : Vocabulary) (target : σ)
    (events : List Event) :
    ((start lines vocabulary target).handleAll events).Remembers
      ((start lines vocabulary target).transcript events) := by
  induction events using List.reverseRecOn with
  | nil => exact ⟨fun _ => rfl, fun _ => rfl⟩
  | append_singleton events event ih =>
    rw [handleAll_snoc, transcript_snoc]
    exact ih.handle event

/-! ## Refusals -/

/-- `Refusal function? block? event d reply`: the event reports the diagnostic and gets the reply,
where the first entry of a function and the first block of the body are known by their names. -/
inductive Refusal (function? : String → Option FunctionEntry) (block? : String → Option BlockId) :
    Event → Diagnostic → Reply → Prop
  | declareGlobal {ident : Ident} {mutability : Mutability} {data : List UInt8} :
      Refusal function? block? (.declareGlobal ident mutability data)
        ⟨.duplicate .global ident.name, ident.extent⟩ (.global none)
  | declareFunction {ident : Ident} {signature : Signature} {first : FunctionEntry} :
      function? ident.name = some first → first.signature ≠ signature →
      Refusal function? block? (.declareFunction ident signature)
        ⟨.conflicting .function ident.name, ident.extent⟩ (.entry first)
  | referenceFunction {ident : Ident} {signature : Signature} {first : FunctionEntry} :
      function? ident.name = some first → first.signature ≠ signature →
      Refusal function? block? (.referenceFunction ident (some signature))
        ⟨.conflicting .function ident.name, ident.extent⟩ (.function (some first.id))
  | resolveFunction {ident : Ident} :
      Refusal function? block? (.referenceFunction ident none)
        ⟨.unknown .function ident.name, ident.extent⟩ (.function none)
  | resolveGlobal {ident : Ident} :
      Refusal function? block? (.resolveGlobal ident)
        ⟨.unknown .global ident.name, ident.extent⟩ (.global none)
  | resolveLocal {ident : Ident} :
      Refusal function? block? (.resolveLocal ident)
        ⟨.unknown .localName ident.name, ident.extent⟩ (.localName none)
  | resolveOperation {ident : Ident} :
      Refusal function? block? (.resolveOperation ident)
        ⟨.unknown .operation ident.name, ident.extent⟩ (.operation none)
  | resolveType {ident : Ident} :
      Refusal function? block? (.resolveType ident)
        ⟨.unknown .operandType ident.name, ident.extent⟩ (.operandType none)
  | declareLocal {ident : Ident} :
      Refusal function? block? (.declareLocal ident)
        ⟨.duplicate .localName ident.name, ident.extent⟩ (.localName none)
  | declareBlock {ident : Ident} {signature : Signature} {first : BlockId} :
      block? ident.name = some first →
      Refusal function? block? (.declareBlock ident signature)
        ⟨.duplicate .block ident.name, ident.extent⟩ (.block (some first))
  | reportUnknown {entity : Entity} {ident : Ident} :
      Refusal function? block? (.reportUnknown entity ident)
        ⟨.unknown entity ident.name, ident.extent⟩ .nothing
  | reportConflicting {entity : Entity} {ident : Ident} :
      Refusal function? block? (.reportConflicting entity ident)
        ⟨.conflicting entity ident.name, ident.extent⟩ .nothing
  | reportDuplicate {entity : Entity} {ident : Ident} :
      Refusal function? block? (.reportDuplicate entity ident)
        ⟨.duplicate entity ident.name, ident.extent⟩ .nothing

/-- The function that is current after a refused event. -/
def functionAfter (s : Scope σ) : Event → Reply → Option FunctionEntry
  | .declareFunction .., .entry first => some first
  | _, _ => s.function

/-- The block that receives instructions after a refused event.  A label that is taken leads back
to its block. -/
def blockAfter (s : Scope σ) : Event → Reply → Option BlockId
  | .declareFunction .., _ => none
  | .declareBlock .., .block first => first
  | _, _ => s.block

/-- What there is after an event that reported the diagnostic: one diagnostic more, the builder and
the tables as before, and an empty body after a header. -/
structure Refused (s : Scope σ) (event : Event) (d : Diagnostic) (reply : Reply)
    (s' : Scope σ) : Prop where
  diagnostics : s'.diagnostics = s.diagnostics.push d
  errorCount : s'.errorCount = s.errorCount + 1
  target : s'.target = s.target
  globals : s'.globals = s.globals
  functions : s'.functions = s.functions
  locals : s'.locals = if event.isHeader then .empty else s.locals
  blocks : s'.blocks = if event.isHeader then .empty else s.blocks
  function : s'.function = s.functionAfter event reply
  block : s'.block = s.blockAfter event reply

/-- Nothing was reported. -/
def Silent (s s' : Scope σ) : Prop := s'.diagnostics = s.diagnostics ∧ s'.errorCount = s.errorCount

/-- One event either reports nothing or is refused. -/
def Outcome (s : Scope σ) (event : Event) (result : Reply × Scope σ) : Prop :=
  s.Silent result.2 ∨ ∃ d, s.Refused event d result.1 result.2 ∧
    Refusal s.functions.lookup? (fun name => (s.blocks.lookup? name).map (·.id)) event d result.1

section Outcomes

variable {ident : Ident}

theorem Silent.refl (s : Scope σ) : s.Silent s := ⟨rfl, rfl⟩

/-- What is neither a header nor a label that is taken does nothing but report. -/
theorem Refused.of_report {looked : Scope σ} {event : Event} {reply : Reply} (d : Diagnostic)
    (same : looked = { s with log := looked.log }) (inside : event.isHeader = false)
    (function : s.functionAfter event reply = s.function)
    (block : s.blockAfter event reply = s.block) : s.Refused event d reply (looked.report d) := by
  rw [same]
  constructor
  case locals => rw [inside]; rfl
  case blocks => rw [inside]; rfl
  case function => exact function.symm
  case block => exact block.symm
  all_goals rfl

/-- A name that is looked up is known, or unknown and reported. -/
theorem Silent.outcome_resolve {looked : Scope σ} (h : s.Silent looked) {α : Type}
    {table : NameTable α} {entity : Entity} {event : Event} (reply : Option α → Reply)
    (refused : s.Refused event ⟨.unknown entity ident.name, ident.extent⟩ (reply none)
      (looked.reportUnknown entity ident))
    (refusal : Refusal s.functions.lookup? (fun name => (s.blocks.lookup? name).map (·.id)) event
      ⟨.unknown entity ident.name, ident.extent⟩ (reply none)) :
    s.Outcome event
      (reply (looked.resolve table entity ident).1, (looked.resolve table entity ident).2) := by
  unfold resolve
  cases table.lookup? ident.name with
  | some found => exact .inl h
  | none => exact .inr ⟨_, refused, refusal⟩

variable [Builder σ]

/-- A function that is mentioned again is reported if the signature is another one. -/
theorem mentionFunction_cases (s : Scope σ) (ident : Ident) (signature : Signature) :
    s.Silent (s.mentionFunction ident signature).2 ∨
      ∃ first, s.functions.lookup? ident.name = some first ∧ first.signature ≠ signature ∧
        s.mentionFunction ident signature = (first, s.reportConflicting .function ident) := by
  cases known : s.functions.lookup? ident.name with
  | some first =>
    rw [mentionFunction_of_eq_some known]
    by_cases same : first.signature = signature
    · rw [if_pos same]
      exact .inl (.refl s)
    · rw [if_neg same]
      exact .inr ⟨first, rfl, same, rfl⟩
  | none =>
    rw [mentionFunction_of_eq_none known]
    exact .inl ⟨rfl, rfl⟩

theorem outcome_declareFunction (s : Scope σ) (ident : Ident) (signature : Signature) :
    s.Outcome (.declareFunction ident signature) (s.handle (.declareFunction ident signature)) := by
  rcases mentionFunction_cases s ident signature with silent | ⟨first, known, other, reported⟩
  · exact .inl silent
  · simp only [handle, declareFunction, reported]
    exact .inr ⟨_, ⟨rfl, rfl, rfl, rfl, rfl, rfl, rfl, rfl, rfl⟩, .declareFunction known other⟩

theorem outcome_referenceFunction (s : Scope σ) (ident : Ident) (signature : Option Signature) :
    s.Outcome (.referenceFunction ident signature)
      (s.handle (.referenceFunction ident signature)) := by
  cases signature with
  | none =>
    exact (Silent.refl s).outcome_resolve
      (fun entry : Option FunctionEntry => .function (entry.map (·.id)))
      (.of_report _ rfl rfl rfl rfl) .resolveFunction
  | some signature =>
    rcases mentionFunction_cases s ident signature with silent | ⟨first, known, other, reported⟩
    · exact .inl silent
    · simp only [handle, referenceFunction, reported]
      exact .inr ⟨_, .of_report _ rfl rfl rfl rfl, .referenceFunction known other⟩

theorem outcome_declareGlobal (s : Scope σ) (ident : Ident) (mutability : Mutability)
    (data : List UInt8) :
    s.Outcome (.declareGlobal ident mutability data)
      (s.handle (.declareGlobal ident mutability data)) := by
  by_cases taken : s.globals.contains ident.name = true
  · simp only [handle, declareGlobal_of_contains taken]
    exact .inr ⟨_, .of_report _ rfl rfl rfl rfl, .declareGlobal⟩
  · simp only [handle, declareGlobal_of_not_contains taken]
    exact .inl ⟨rfl, rfl⟩

theorem outcome_declareLocal (s : Scope σ) (ident : Ident) :
    s.Outcome (.declareLocal ident) (s.handle (.declareLocal ident)) := by
  cases current : s.function with
  | none =>
    simp only [handle, declareLocal, current]
    exact .inl (.refl s)
  | some function =>
    by_cases taken : s.locals.contains ident.name = true
    · simp only [handle, declareLocal_of_contains current taken]
      exact .inr ⟨_, .of_report _ rfl rfl rfl rfl, .declareLocal⟩
    · simp only [handle, declareLocal_of_not_contains current taken]
      exact .inl ⟨rfl, rfl⟩

theorem outcome_declareBlock (s : Scope σ) (ident : Ident) (signature : Signature) :
    s.Outcome (.declareBlock ident signature) (s.handle (.declareBlock ident signature)) := by
  cases current : s.function with
  | none =>
    simp only [handle, declareBlock, current]
    exact .inl (.refl s)
  | some function =>
    cases known : s.blocks.lookup? ident.name with
    | some first =>
      simp only [handle, declareBlock_of_eq_some current known]
      have opened : (s.blocks.lookup? ident.name).map (·.id) = some first.id := by rw [known]; rfl
      exact .inr ⟨_, ⟨rfl, rfl, rfl, rfl, rfl, rfl, rfl, rfl, rfl⟩, .declareBlock opened⟩
    | none =>
      simp only [handle, declareBlock_of_eq_none current known]
      exact .inl ⟨rfl, rfl⟩

/-- Whatever happens to a scope is silent or a refusal. -/
theorem outcome_handle (s : Scope σ) (event : Event) : s.Outcome event (s.handle event) := by
  cases event with
  | beginModule name => exact .inl ⟨rfl, rfl⟩
  | declareGlobal ident mutability data => exact outcome_declareGlobal s ident mutability data
  | declareFunction ident signature => exact outcome_declareFunction s ident signature
  | referenceFunction ident signature => exact outcome_referenceFunction s ident signature
  | resolveGlobal ident =>
    exact (Silent.refl s).outcome_resolve .global (.of_report _ rfl rfl rfl rfl)
      .resolveGlobal
  | resolveLocal ident =>
    have looked : s.Silent (s.note (.localLookup ident.name)) := ⟨rfl, rfl⟩
    exact looked.outcome_resolve .localName (.of_report _ rfl rfl rfl rfl)
      .resolveLocal
  | resolveOperation ident =>
    exact (Silent.refl s).outcome_resolve .operation (.of_report _ rfl rfl rfl rfl)
      .resolveOperation
  | resolveType ident =>
    exact (Silent.refl s).outcome_resolve .operandType (.of_report _ rfl rfl rfl rfl)
      .resolveType
  | declareLocal ident => exact outcome_declareLocal s ident
  | declareBlock ident signature => exact outcome_declareBlock s ident signature
  | enterEntryBlock =>
    simp only [handle, enterEntryBlock]
    split <;> exact .inl ⟨rfl, rfl⟩
  | emit instruction =>
    simp only [handle, emit]
    split <;> exact .inl ⟨rfl, rfl⟩
  | reportUnknown entity ident =>
    exact .inr ⟨_, .of_report _ rfl rfl rfl rfl, .reportUnknown⟩
  | reportConflicting entity ident =>
    exact .inr ⟨_, .of_report _ rfl rfl rfl rfl, .reportConflicting⟩
  | reportDuplicate entity ident =>
    exact .inr ⟨_, .of_report _ rfl rfl rfl rfl, .reportDuplicate⟩

end Outcomes

/-- Whatever has happened to a scope, in whatever order and with whatever builder: one more event
reports nothing, or it reports one diagnostic and changes nothing else.  The builder is the same
with the record of what it was told. -/
theorem handle_silent_or_refused [Builder σ] (lines : LineMap) (vocabulary : Vocabulary)
    (target : σ) (events : List Event) (event : Event) :
    let fresh := start lines vocabulary (Logged.start target)
    let past := fresh.transcript events
    let s := fresh.handleAll events
    let (reply, s') := s.handle event
    s.Silent s' ∨ ∃ d, s.Refused event d reply s' ∧
      Refusal (firstMention? past) (firstBlock? past) event d reply := by
  intro fresh past s
  have remembers : s.Remembers past :=
    handleAll_remembers lines vocabulary (Logged.start target) events
  have functions : s.functions.lookup? = firstMention? past := funext remembers.functions
  have blocks : (fun name => (s.blocks.lookup? name).map (·.id)) = firstBlock? past :=
    funext remembers.blocks
  rw [← functions, ← blocks]
  exact outcome_handle s event

end Scope

end SigilAsm
