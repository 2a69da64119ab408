import SigilAsm.Statement.Grammar

/-! # The order of statements

Statements come in the order that `Stage.next?` allows: the module header is the
first, locals come before blocks, and instructions stand in a block.  A reading
is a step from one set of stages to another, and readings that are put together
are steps that are put together.  What was read before a fault is in order too.
-/

namespace SigilAsm

/-- The place in a module that is told by the statements so far. -/
inductive Stage where
  | start
  -- After the module header or a global.
  | level
  -- After a function header or a local.
  | body
  -- In the block of a body without labelled blocks.
  | entry
  -- In a labelled block.
  | labelled
  deriving DecidableEq, Repr

namespace Stage

/-- The stage after one more statement, if the statement may stand there. -/
def next? : Stage → Statement → Option Stage
  | start, .module _ => some level
  | start, _ => none
  | _, .global .. => some level
  | _, .function .. => some body
  | body, .localName _ => some body
  | body, .entryBlock => some entry
  | body, .block .. => some labelled
  | labelled, .block .. => some labelled
  | entry, .call .. => some entry
  | entry, .operation .. => some entry
  | labelled, .call .. => some labelled
  | labelled, .operation .. => some labelled
  | _, _ => none

def after? (stage : Stage) (statements : List Statement) : Option Stage :=
  statements.foldlM next? stage

theorem after?_append (stage : Stage) (first second : List Statement) :
    stage.after? (first ++ second) = (stage.after? first).bind (·.after? second) :=
  List.foldlM_append

/-! What is known of the stages on both sides of a statement. -/

section Next

variable {stage next : Stage}

theorem next?_module {name : String} (h : stage.next? (.module name) = some next) :
    stage = start ∧ next = level := by
  cases stage <;> cases h
  exact ⟨rfl, rfl⟩

theorem next?_global {ident : Ident} {mutability : Mutability} {data : List UInt8}
    (h : stage.next? (.global ident mutability data) = some next) :
    stage ≠ start ∧ next = level := by
  cases stage <;> cases h <;> simp

theorem next?_function {ident : Ident} {signature : Signature}
    (h : stage.next? (.function ident signature) = some next) : stage ≠ start ∧ next = body := by
  cases stage <;> cases h <;> simp

theorem next?_localName {ident : Ident} (h : stage.next? (.localName ident) = some next) :
    stage = body ∧ next = body := by
  cases stage <;> cases h
  exact ⟨rfl, rfl⟩

theorem next?_entryBlock (h : stage.next? .entryBlock = some next) :
    stage = body ∧ next = entry := by
  cases stage <;> cases h
  exact ⟨rfl, rfl⟩

end Next

/-- Where a block header may come. -/
def TakesBlocks (stage : Stage) : Prop := stage = body ∨ stage = labelled

/-- Where instructions may come. -/
def TakesInstructions (stage : Stage) : Prop := stage = entry ∨ stage = labelled

theorem TakesBlocks.ne_start {stage : Stage} (h : stage.TakesBlocks) : stage ≠ start := by
  rcases h with rfl | rfl <;> simp

theorem TakesInstructions.ne_start {stage : Stage} (h : stage.TakesInstructions) :
    stage ≠ start := by
  rcases h with rfl | rfl <;> simp

theorem next?_block {stage next : Stage} {ident : Ident} {signature : Signature}
    (h : stage.next? (.block ident signature) = some next) :
    stage.TakesBlocks ∧ next = labelled := by
  cases stage <;> cases h
  · exact ⟨.inl rfl, rfl⟩
  · exact ⟨.inr rfl, rfl⟩

theorem next?_call {stage next : Stage} {target : Ident} {signature : Option Signature}
    (h : stage.next? (.call target signature) = some next) :
    stage.TakesInstructions ∧ next = stage := by
  cases stage <;> cases h
  · exact ⟨.inl rfl, rfl⟩
  · exact ⟨.inr rfl, rfl⟩

theorem next?_operation {stage next : Stage} {head : Ident} {arguments : List Argument}
    {closed : Bool} (h : stage.next? (.operation head arguments closed) = some next) :
    stage.TakesInstructions ∧ next = stage := by
  cases stage <;> cases h
  · exact ⟨.inl rfl, rfl⟩
  · exact ⟨.inr rfl, rfl⟩

/-- The statement may stand at every stage of `P` and leads to one of `Q`. -/
def Leads (P Q : Stage → Prop) (statement : Statement) : Prop :=
  ∀ stage, P stage → ∃ next, stage.next? statement = some next ∧ Q next

theorem leads_global (ident : Ident) (mutability : Mutability) (data : List UInt8) :
    Leads (· ≠ start) (· ≠ start) (.global ident mutability data) := by
  intro stage begun
  cases stage with
  | start => exact absurd rfl begun
  | level | body | entry | labelled => exact ⟨level, rfl, by simp⟩

theorem leads_function (ident : Ident) (signature : Signature) :
    Leads (· ≠ start) (· = body) (.function ident signature) := by
  intro stage begun
  cases stage with
  | start => exact absurd rfl begun
  | level | body | entry | labelled => exact ⟨body, rfl, rfl⟩

theorem leads_block (ident : Ident) (signature : Signature) :
    Leads TakesBlocks (· = labelled) (.block ident signature) := by
  rintro _ (rfl | rfl)
  · exact ⟨labelled, rfl, rfl⟩
  · exact ⟨labelled, rfl, rfl⟩

theorem leads_call {stage : Stage} (takes : stage.TakesInstructions) (target : Ident)
    (signature : Option Signature) :
    Leads (· = stage) (· = stage) (.call target signature) := by
  rintro _ rfl
  rcases takes with rfl | rfl
  · exact ⟨entry, rfl, rfl⟩
  · exact ⟨labelled, rfl, rfl⟩

theorem leads_operation {stage : Stage} (takes : stage.TakesInstructions) (head : Ident)
    (arguments : List Argument) (closed : Bool) :
    Leads (· = stage) (· = stage) (.operation head arguments closed) := by
  rintro _ rfl
  rcases takes with rfl | rfl
  · exact ⟨entry, rfl, rfl⟩
  · exact ⟨labelled, rfl, rfl⟩

end Stage

namespace Rule

variable {α β : Type} {P : β → Prop}

/-- Whatever the rule reads has the property. -/
def Yields (r : Rule α) (P : α → Prop) : Prop :=
  ∀ c a next, r.run c = .ok (a, next) → P a

theorem yields_pure {b : β} (h : P b) : Yields (pure b) P := by
  intro c b' next run
  obtain ⟨rfl, -⟩ := run_pure_eq_ok.mp run
  exact h

theorem yields_bind {r : Rule α} {f : α → Rule β} (h : ∀ a, (f a).Yields P) :
    Yields (r >>= f) P := by
  intro c b next run
  obtain ⟨a, middle, -, run⟩ := run_bind_eq_ok.mp run
  exact h a middle b next run

theorem yields_unexpected (expected : Expectation) (found : Token) :
    Yields (unexpected expected found : Rule β) P := by
  intro c b next run
  cases run

end Rule

namespace Reading

/-- From the stages of `P` the items lead on, and they lead to stages of `Q` unless a fault ends the
reading. -/
def Leads (P Q : Stage → Prop) (f : Cursor → Reading Statement) : Prop :=
  ∀ c stage, P stage → ∃ next, stage.after? (f c).items = some next ∧
    ((f c).result.isOk = true → Q next)

namespace Leads

variable {P P' Q Q' R : Stage → Prop} {f g : Cursor → Reading Statement}

theorem imp (h : Leads P Q f) (before : ∀ stage, P' stage → P stage)
    (after : ∀ stage, Q stage → Q' stage) : Leads P' Q' f := by
  intro c stage here
  obtain ⟨next, items, there⟩ := h c stage (before stage here)
  exact ⟨next, items, fun ok => after next (there ok)⟩

theorem one {r : Rule Statement} (h : r.Yields (Stage.Leads P Q)) : Leads P Q (Reading.one r) := by
  intro c stage here
  unfold Reading.one
  cases read : r.run c with
  | error e => exact ⟨stage, rfl, nofun⟩
  | ok p =>
    obtain ⟨next, step, there⟩ := h c p.1 p.2 read stage here
    refine ⟨next, ?_, fun _ => there⟩
    simpa [Stage.after?] using step

/-- Where something else is read, nothing is. -/
theorem unexpected (expected : Expectation) (t : Token) :
    Leads P Q (Reading.one (Rule.unexpected expected t)) :=
  .one (Rule.yields_unexpected expected t)

theorem mark (kind : Token.Kind) : Leads P P (Reading.mark kind) := by
  intro c stage here
  unfold Reading.mark
  split
  · exact ⟨stage, rfl, fun _ => here⟩
  · exact ⟨stage, rfl, nofun⟩

theorem byNext {choose : Token → Cursor → Reading Statement} (h : ∀ t, Leads P Q (choose t)) :
    Leads P Q (Reading.byNext choose) := by
  intro c stage here
  unfold Reading.byNext
  cases c.peek with
  | error e => exact ⟨stage, rfl, nofun⟩
  | ok t => exact h t c stage here

theorem andThen (hf : Leads P Q f) (hg : Leads Q R g) : Leads P R fun c => (f c).andThen g := by
  intro c stage here
  obtain ⟨middle, items, there⟩ := hf c stage here
  dsimp only [Reading.andThen]
  cases result : (f c).result with
  | error e => exact ⟨middle, items, nofun⟩
  | ok next =>
    rw [result] at there
    obtain ⟨last, more, further⟩ := hg next middle (there rfl)
    refine ⟨last, ?_, further⟩
    rw [Stage.after?_append, items]
    exact more

theorem repeatWhile (goesOn : Token → Bool) (advances : Advances f) (h : Leads P P f) :
    Leads P P (Reading.repeatWhile goesOn f advances) := by
  intro c
  fun_induction Reading.repeatWhile goesOn f advances c with
  | case1 =>
    intro stage here
    exact ⟨stage, rfl, fun ok => absurd ok Bool.false_ne_true⟩
  | case2 c t _ _ e result =>
    intro stage here
    obtain ⟨next, items, -⟩ := h c stage here
    exact ⟨next, items, fun ok => absurd ok Bool.false_ne_true⟩
  | case3 c t _ _ middle result rest ih =>
    intro stage here
    obtain ⟨next, items, there⟩ := h c stage here
    rw [result] at there
    obtain ⟨last, more, further⟩ := ih next (there rfl)
    refine ⟨last, ?_, further⟩
    rw [Stage.after?_append, items]
    exact more
  | case4 => exact fun stage here => ⟨stage, rfl, fun _ => here⟩

end Leads

end Reading

namespace Grammar

open Reading (Leads)

variable {stage : Stage}

/-! ## Instructions -/

theorem leads_operation (takes : stage.TakesInstructions) :
    Leads (· = stage) (· = stage) operation := by
  rintro c _ rfl
  unfold operation
  split
  · exact ⟨_, rfl, nofun⟩
  · next head middle _ =>
    -- An operation that a fault cuts short is an item like any other.
    obtain ⟨next, step, there⟩ := Stage.leads_operation takes head
      ((arguments middle).andThen (.mark .semicolon)).items
      ((arguments middle).andThen (.mark .semicolon)).result.isOk _ rfl
    refine ⟨next, ?_, fun _ => there⟩
    simpa [Stage.after?] using step

theorem leads_instruction (takes : stage.TakesInstructions) :
    Leads (· = stage) (· = stage) instruction := by
  refine .byNext fun t c => ?_
  split
  · refine Leads.one ?_ c
    exact Rule.yields_bind fun _ => Rule.yields_bind fun target => Rule.yields_bind fun signature =>
      Rule.yields_bind fun _ => Rule.yields_pure (Stage.leads_call takes target signature)
  · split
    · exact leads_operation takes c
    · exact Leads.unexpected _ _ c

theorem leads_instructions (takes : stage.TakesInstructions) :
    Leads (· = stage) (· = stage) instructions :=
  .repeatWhile _ _ (leads_instruction takes)

/-! ## Function bodies -/

theorem leads_locals : Leads (· = .body) (· = .body) locals := by
  refine .repeatWhile _ _ (.one ?_)
  refine Rule.yields_bind fun _ => Rule.yields_bind fun name => Rule.yields_bind fun _ => ?_
  refine Rule.yields_pure fun stage here => ?_
  subst here
  exact ⟨.body, rfl, rfl⟩

theorem leads_block : Leads Stage.TakesBlocks Stage.TakesBlocks block := by
  have header : Leads Stage.TakesBlocks (· = .labelled) (Reading.one blockHeader) := by
    refine .one (Rule.yields_bind fun _ => Rule.yields_bind fun name => ?_)
    exact Rule.yields_bind fun signature => Rule.yields_pure (Stage.leads_block name _)
  have inside : Leads (· = .labelled) (· = .labelled) blockBody :=
    ((Leads.mark _).andThen (leads_instructions (.inr rfl))).andThen (.mark _)
  refine .byNext fun t c => ?_
  split
  · exact (header.andThen (inside.imp (fun _ => id) fun _ => .inr)) c
  · exact Leads.unexpected _ _ c

theorem leads_blocksOrInstructions : Leads (· = .body) (· ≠ .start) blocksOrInstructions := by
  refine .byNext fun t => ?_
  split
  · refine (Leads.repeatWhile _ _ leads_block).imp (fun _ => .inl) ?_
    rintro _ (rfl | rfl) <;> simp
  · have entered : Leads (· = .body) (· = .entry)
        fun c => (⟨[.entryBlock], .ok c⟩ : Reading Statement) := by
      rintro c _ rfl
      exact ⟨.entry, rfl, fun _ => rfl⟩
    refine (entered.andThen (leads_instructions (.inl rfl))).imp (fun _ => id) ?_
    rintro _ rfl
    simp

/-! ## Declarations -/

theorem leads_functionRest : Leads (· = .body) (· ≠ .start) functionRest := by
  refine .byNext fun t c => ?_
  split
  · refine ((Leads.mark _).imp (fun _ => id) ?_) c
    rintro _ rfl
    simp
  · split
    · exact ((((Leads.mark _).andThen leads_locals).andThen leads_blocksOrInstructions).andThen
        (.mark _)) c
    · exact Leads.unexpected _ _ c

theorem leads_declaration (limit : Nat) : Leads (· ≠ .start) (· ≠ .start) (declaration limit) := by
  refine .byNext fun t c => ?_
  split
  · refine Leads.one ?_ c
    refine Rule.yields_bind fun _ => Rule.yields_bind fun _ => Rule.yields_bind fun name => ?_
    refine Rule.yields_bind fun _ => Rule.yields_bind fun data => Rule.yields_bind fun _ => ?_
    exact Rule.yields_pure (Stage.leads_global name _ data)
  · split
    · have header : Leads (· ≠ .start) (· = .body) (Reading.one functionHeader) := by
        refine .one (Rule.yields_bind fun _ => Rule.yields_bind fun name => ?_)
        exact Rule.yields_bind fun _ => Rule.yields_pure (Stage.leads_function name _)
      exact (header.andThen leads_functionRest) c
    · exact Leads.unexpected _ _ c

theorem leads_wholeModule (limit : Nat) : Leads (· = .start) (· ≠ .start) (wholeModule limit) := by
  have header : Leads (· = .start) (· ≠ .start) (Reading.one moduleHeader) := by
    refine .one (Rule.yields_bind fun _ => Rule.yields_bind fun name => ?_)
    refine Rule.yields_bind fun _ => Rule.yields_pure ?_
    rintro _ rfl
    exact ⟨.level, rfl, by simp⟩
  exact header.andThen (.repeatWhile _ _ (leads_declaration limit))

end Grammar

/-- The statements of a text are in order, also those before a fault, and a text that is accepted
has some. -/
theorem Statement.read_leads (limit : Nat) (source : String) :
    ∃ stage, Stage.start.after? (Statement.read limit source).items = some stage ∧
      ((Statement.read limit source).result.isOk = true → stage ≠ .start) := by
  unfold Statement.read
  split
  · exact Grammar.leads_wholeModule limit _ .start rfl
  · exact ⟨.start, rfl, nofun⟩

end SigilAsm
