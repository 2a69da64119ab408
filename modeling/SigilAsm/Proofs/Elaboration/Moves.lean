import SigilAsm.Proofs.Elaboration.Calls

/-! # The protocol of calls

Statements are read and calls are made, in turn.  `Obeys` says of the moves so
far which call may come next, in terms of the moves alone: no scope and no
table occurs in it.
-/

namespace SigilAsm

/-- Binds no name in the tables of a module. -/
def Registration.Nameless : Registration → Prop
  | function .. | global .. => False
  | _ => True

/-- What can be seen of a run from outside. -/
inductive Move where
  | read (statement : Statement)
  | call (registration : Registration)
  deriving DecidableEq, Repr

namespace Move

def statement? : Move → Option Statement
  | read statement => some statement
  | call _ => none

def registration? : Move → Option Registration
  | call registration => some registration
  | read _ => none

/-- The name in a function header. -/
def header? : Move → Option String
  | read (.function ident _) => some ident.name
  | _ => none

/-- The label in a block header.  Instructions without labelled blocks have a section without a
label. -/
def label? : Move → Option (Option String)
  | read (.block ident _) => some (some ident.name)
  | read .entryBlock => some none
  | _ => none

/-- Begins no body and no section, and registers no block. -/
def Steady : Move → Prop
  | read (.function ..) | read .entryBlock | read (.block ..) | call (.block ..) => False
  | _ => True

variable {m : Move}

theorem Steady.header?_eq_none (h : m.Steady) : m.header? = none := by
  rcases m with statement | registration
  · cases statement <;> first | rfl | exact h.elim
  · rfl

theorem Steady.label?_eq_none (h : m.Steady) : m.label? = none := by
  rcases m with statement | registration
  · cases statement <;> first | rfl | exact h.elim
  · rfl

end Move

namespace Moves

def statements (moves : List Move) : List Statement := moves.filterMap Move.statement?

def registrations (moves : List Move) : List Registration := moves.filterMap Move.registration?

/-- The name in the last function header. -/
def header? (moves : List Move) : Option String := (moves.filterMap Move.header?).getLast?

/-- The label of the last section. -/
def label? (moves : List Move) : Option (Option String) :=
  (moves.filterMap Move.label?).getLast?

/-- The moves since the last function header. -/
def body (moves : List Move) : List Move := (moves.reverse.takeWhile (·.header?.isNone)).reverse

/-- Calls one after the other, with no statement in between. -/
def ofCalls (calls : List Registration) : List Move := calls.map .call

variable (past more : List Move) (calls : List Registration)

@[simp] theorem statements_append :
    statements (past ++ more) = statements past ++ statements more :=
  List.filterMap_append

@[simp] theorem registrations_append :
    registrations (past ++ more) = registrations past ++ registrations more :=
  List.filterMap_append

@[simp] theorem registrations_read (statement : Statement) :
    registrations (past ++ [.read statement]) = registrations past :=
  (registrations_append _ _).trans (List.append_nil _)

@[simp] theorem registrations_call (r : Registration) :
    registrations (past ++ [.call r]) = registrations past ++ [r] :=
  registrations_append _ _

@[simp] theorem statements_ofCalls : statements (ofCalls calls) = [] := by
  induction calls with
  | nil => rfl
  | cons r rest ih => exact ih

@[simp] theorem registrations_ofCalls : registrations (ofCalls calls) = calls := by
  induction calls with
  | nil => rfl
  | cons r rest ih => exact congrArg (r :: ·) ih

variable {more}

theorem header?_header {m : Move} {name : String} (h : m.header? = some name) :
    header? (past ++ [m]) = some name := by
  simp [header?, h]

theorem label?_label {m : Move} {label : Option String} (h : m.label? = some label) :
    label? (past ++ [m]) = some label := by
  simp [label?, h]

theorem header?_append (within : ∀ m ∈ more, m.header? = none) :
    header? (past ++ more) = header? past := by
  rw [header?, List.filterMap_append, List.filterMap_eq_nil_iff.mpr within, List.append_nil]
  rfl

theorem label?_append (within : ∀ m ∈ more, m.label? = none) :
    label? (past ++ more) = label? past := by
  rw [label?, List.filterMap_append, List.filterMap_eq_nil_iff.mpr within, List.append_nil]
  rfl

theorem body_append (within : ∀ m ∈ more, m.header? = none) :
    body (past ++ more) = body past ++ more := by
  have none : ∀ m ∈ more.reverse, m.header?.isNone = true := fun m member =>
    Option.isNone_iff_eq_none.mpr (within m (List.mem_reverse.mp member))
  rw [body, List.reverse_append, List.takeWhile_append_of_pos none, List.reverse_append,
    List.reverse_reverse]
  rfl

theorem body_header {m : Move} (header : m.header?.isSome = true) : body (past ++ [m]) = [] := by
  simp only [body, List.reverse_append, List.reverse_singleton, List.singleton_append]
  rw [List.takeWhile_cons_of_neg (by simpa [Option.isSome_iff_ne_none] using header)]
  rfl

end Moves

/-! ## The rules -/

section Rules

variable {past more b : List Move} {f : FunctionId} {k : BlockId} {label : Option String}

/-- The handle is the answer for the function whose header came last. -/
def CurrentFunction (past : List Move) (f : FunctionId) : Prop :=
  ∃ name signature, Moves.header? past = some name ∧ .call (.function name signature f) ∈ past

/-- The handle is the answer for the function's block that was registered when the label was read
for the first time in the body. -/
def BlockOf (body : List Move) (label : Option String) (f : FunctionId) (k : BlockId) : Prop :=
  ∃ earlier m signature later, body = earlier ++ m :: .call (.block f signature k) :: later ∧
    m.label? = some label ∧ ∀ m ∈ earlier, m.label? ≠ some label

/-- The handle is the one of the section that is being read. -/
def CurrentBlock (past : List Move) (f : FunctionId) (k : BlockId) : Prop :=
  ∃ label, Moves.label? (Moves.body past) = some label ∧ BlockOf (Moves.body past) label f k

/-- What the call may refer to, and what it may not repeat. -/
def Fits (past : List Move) : Registration → Prop
  | .module _ => True
  | .function name _ _ => ∀ signature f, .call (.function name signature f) ∉ past
  | .global name _ _ _ => ∀ mutability data g, .call (.global name mutability data g) ∉ past
  | .localName f _ _ =>
    CurrentFunction past f ∧ ∀ g signature k, .call (.block g signature k) ∉ Moves.body past
  | .block f _ _ => CurrentFunction past f
  | .instruction f k _ => CurrentFunction past f ∧ CurrentBlock past f k

/-- The call may follow the moves. -/
structure Allowed (past : List Move) (r : Registration) : Prop where
  -- The first call, and no other, is the one of the module.
  first : (∃ name, r = .module name) ↔ Moves.registrations past = []
  fits : Fits past r

/-- Every call is allowed after the moves before it. -/
def Obeys (moves : List Move) : Prop :=
  ∀ before r after, moves = before ++ .call r :: after → Allowed before r

theorem obeys_snoc {m : Move} (h : Obeys past) (allowed : ∀ r, m = .call r → Allowed past r) :
    Obeys (past ++ [m]) := by
  intro before r after split
  rcases List.eq_nil_or_concat after with rfl | ⟨after, last, rfl⟩
  · obtain ⟨rfl, last⟩ := List.append_inj' split rfl
    exact allowed r (List.singleton_inj.mp last)
  · rw [List.concat_eq_append, ← List.cons_append, ← List.append_assoc] at split
    exact h before r after (List.append_inj' split rfl).1

/-- The calls begin with the one of the module, which comes once. -/
theorem Obeys.registrations (h : Obeys past) :
    Moves.registrations past = [] ∨ ∃ name rest, Moves.registrations past = .module name :: rest ∧
      ∀ other, .module other ∉ rest := by
  induction past using List.reverseRecOn with
  | nil => exact .inl rfl
  | append_singleton past m ih =>
    have before : Obeys past := fun before r after split =>
      h before r (after ++ [m]) (by rw [split, List.append_assoc, List.cons_append])
    cases m with
    | read statement =>
      rw [Moves.registrations_read]
      exact ih before
    | call r =>
      have allowed := h past r [] rfl
      rw [Moves.registrations_call]
      rcases ih before with none | ⟨name, rest, some, once⟩
      · obtain ⟨name, rfl⟩ := allowed.first.mpr none
        exact .inr ⟨name, [], by rw [none]; rfl, fun _ => List.not_mem_nil⟩
      · refine .inr ⟨name, rest ++ [r], by rw [some]; rfl, fun other member => ?_⟩
        rcases List.mem_append.mp member with old | new
        · exact once other old
        · have none := allowed.first.mp ⟨other, (List.mem_singleton.mp new).symm⟩
          rw [none] at some
          cases some

theorem CurrentFunction.append (h : CurrentFunction past f)
    (within : ∀ m ∈ more, m.header? = none) : CurrentFunction (past ++ more) f := by
  obtain ⟨name, signature, header, registered⟩ := h
  refine ⟨name, signature, ?_, List.mem_append_left _ registered⟩
  rwa [Moves.header?_append past within]

theorem BlockOf.append (h : BlockOf b label f k) (more : List Move) :
    BlockOf (b ++ more) label f k := by
  obtain ⟨earlier, m, signature, later, rfl, here, first⟩ := h
  exact ⟨earlier, m, signature, later ++ more, by simp, here, first⟩

theorem CurrentBlock.append (h : CurrentBlock past f k) (steady : ∀ m ∈ more, m.Steady) :
    CurrentBlock (past ++ more) f k := by
  obtain ⟨label, last, block⟩ := h
  have body := Moves.body_append past fun m member => (steady m member).header?_eq_none
  refine ⟨label, ?_, ?_⟩
  · rwa [body, Moves.label?_append _ fun m member => (steady m member).label?_eq_none]
  · rw [body]
    exact block.append more

end Rules

/-! ## The moves of a run -/

variable {σ : Type} [Builder σ]

/-- Each statement is read, and then the calls are made that it causes. -/
def Scope.moves (s : Scope (Logged σ)) : List Statement → List Move
  | [] => []
  | statement :: rest =>
    let next := s.step statement
    let calls := next.target.registrations.toList.drop s.target.registrations.size
    .read statement :: (Moves.ofCalls calls ++ next.moves rest)

/-- The moves of the run for a source text, up to the fault if it is refused. -/
def moves (settings : Settings) (target : σ) (source : String) : List Move :=
  (Scope.start (.ofString source) settings.vocabulary (Logged.start target)).moves
    (Statement.read settings.maxDataBytes source).items

end SigilAsm
