import SigilAsm.Statement.Grammar

/-! # The course of a reading

`Grammar` says what is read, and its repetitions are only formed of what is known
to take characters.  Here the same rules are loops that know nothing of progress.
A loop goes on until its own test ends it, and every bracket of a data expression
begins another expression.  A loop is given some number of turns, brackets may
open as many levels, and a reading that needs more than that is `unfinished`.

A reading keeps a journal: of what it reads, of the turns that its loops
complete, and of how deep the data expressions are that it begins.
-/

namespace SigilAsm

/-- The loops that a module is read by. -/
inductive Loop where
  | declarations
  | locals
  | blocks
  | instructions
  | arguments
  -- The elements of a data expression.
  | elements
  deriving DecidableEq, Repr

/-- An entry of the journal. -/
inductive Note where
  -- A loop has completed a turn that led from one place to another.
  | turn (loop : Loop) (start stop : Cursor)
  -- A data expression was begun inside `depth` brackets.
  | expression (depth : Nat)
  | argument (argument : Argument)
  | statement (statement : Statement)
  deriving DecidableEq, Repr

namespace Note

def isTurnOf (loop : Loop) : Note → Bool
  | turn loop' _ _ => loop' == loop
  | expression _ | argument _ | statement _ => false

def argument? : Note → Option Argument
  | argument a => some a
  | turn .. | expression _ | statement _ => none

def statement? : Note → Option Statement
  | statement s => some s
  | turn .. | expression _ | argument _ => none

/-- Whether the entry tells what was read, and not how. -/
def isItem : Note → Bool
  | argument _ | statement _ => true
  | turn .. | expression _ => false

end Note

/-- How a reading comes to an end, if it does. -/
inductive Ending (α : Type) where
  | reached (a : α) (next : Cursor)
  | refused (e : SyntaxError)
  -- A loop had no turn left, or a bracket no level.
  | unfinished
  deriving DecidableEq, Repr

namespace Ending

variable {α : Type}

def ofExcept : Except SyntaxError (α × Cursor) → Ending α
  | .ok (a, next) => reached a next
  | .error e => refused e

def isReached : Ending α → Bool
  | reached .. => true
  | refused _ | unfinished => false

end Ending

structure Course (α : Type) where
  journal : List Note
  ending : Ending α
  deriving DecidableEq, Repr

namespace Course

variable {α β : Type}

/-- How many turns of a loop were completed. -/
def turns (course : Course α) (loop : Loop) : Nat := course.journal.countP (Note.isTurnOf loop)

def arguments (course : Course α) : List Argument := course.journal.filterMap Note.argument?

def statements (course : Course α) : List Statement := course.journal.filterMap Note.statement?

/-- The course without what it tells of loops and of depth. -/
def told (course : Course α) : Course α := ⟨course.journal.filter Note.isItem, course.ending⟩

def andThen (course : Course α) (more : α → Cursor → Course β) : Course β :=
  match course.ending with
  | .reached a next => ⟨course.journal ++ (more a next).journal, (more a next).ending⟩
  | .refused e => ⟨course.journal, .refused e⟩
  | .unfinished => ⟨course.journal, .unfinished⟩

end Course

/-- A rule that keeps a journal. -/
def Tracked (α : Type) : Type := Cursor → Course α

namespace Tracked

variable {α β : Type}

instance instMonadTracked : Monad Tracked where
  pure a := fun c => ⟨[], .reached a c⟩
  bind r f := fun c => (r c).andThen f

def ofRule (r : Rule α) : Tracked α := fun c => ⟨[], .ofExcept (r.run c)⟩

instance instMonadLiftRule : MonadLift Rule Tracked where
  monadLift := ofRule

/-- What a reading reads, where `item` notes each of its items. -/
def ofReading (item : α → Note) (f : Cursor → Reading α) : Tracked Unit := fun c =>
  ⟨(f c).items.map item, .ofExcept ((f c).result.map fun next => ((), next))⟩

def note (n : Note) : Tracked Unit := fun c => ⟨[n], .reached () c⟩

/-- Where reading goes on. -/
def place : Tracked Cursor := fun c => ⟨[], .reached c c⟩

def unfinished : Tracked α := fun _ => ⟨[], .unfinished⟩

/-! ## Loops -/

/-- Notes that the rule has completed a turn, if it has. -/
def turn (loop : Loop) (r : Tracked α) : Tracked α := fun c =>
  (r c).andThen fun a next => ⟨[.turn loop c next], .reached a next⟩

/-- Takes turns while the next token is one that the loop goes on with. -/
def whileNext (loop : Loop) (goesOn : Token → Bool) (body : Tracked Unit) : Nat → Tracked Unit
  | 0 => unfinished
  | turns + 1 => do
    let t ← Rule.peek
    if goesOn t then do
      turn loop body
      whileNext loop goesOn body turns
    else return ()

/-- Takes turns until one says that it was the last.  A turn is handed what the one before it
came to. -/
def repeatUntil (loop : Loop) (body : β → Tracked (β × Bool)) : Nat → β → Tracked β
  | 0, _ => unfinished
  | turns + 1, b => do
    let outcome ← turn loop (body b)
    if outcome.2 then repeatUntil loop body turns outcome.1 else return outcome.1

/-! ## Data expressions -/

/-- The bytes up to the end of an element that has `before` in front of it, where `inside` reads
what stands in brackets. -/
def element (limit : Nat) (inside : Tracked (List UInt8)) (before : List UInt8) :
    Tracked (List UInt8) := do
  let c ← place
  if c.peekChar = some '[' then do
    let _ ← Rule.expect .openBracket
    let contents ← inside
    let bytes ← Rule.dataRepetition limit before.length c.skipTrivia.offset contents
    return before ++ bytes
  else do
    let bytes ← Rule.dataLiteral limit before.length
    return before ++ bytes

/-- Takes a comma if one comes next, and tells whether there was one. -/
def comma? : Tracked Bool := do
  let after ← place
  if after.peekChar = some ',' then do
    let _ ← Rule.expect .comma
    return true
  else return false

def nextElement (limit : Nat) (inside : Tracked (List UInt8)) (before : List UInt8) :
    Tracked (List UInt8 × Bool) := do
  let bytes ← element limit inside before
  let more ← comma?
  return (bytes, more)

/-- A data expression inside `depth` brackets.  The depth is looked at once the expression is
begun. -/
def dataExpression (turns limit : Nat) : Nat → Nat → Tracked (List UInt8)
  | 0, _ => unfinished
  | levels + 1, depth => do
    note (.expression depth)
    let c ← place
    if maxDataDepth < depth then
      (throw ⟨.dataTooDeep, .point c.skipTrivia.offset⟩ : Rule (List UInt8))
    else
      repeatUntil .elements (nextElement limit (dataExpression turns limit levels (depth + 1)))
        turns []

/-! ## The grammar -/

/-- Reads a statement. -/
def read (r : Rule Statement) : Tracked Unit := do
  let s ← r
  note (.statement s)

/-- An argument and the comma after it, if there is one. -/
def nextArgument : Tracked (Unit × Bool) := do
  let a ← Grammar.argument
  note (.argument a)
  let t ← Rule.peek
  if t.kind == .comma then do
    let _ ← Rule.expect .comma
    return ((), true)
  else return ((), false)

def arguments (turns : Nat) : Tracked Unit := do
  let t ← Rule.peek
  if t.kind = .semicolon then return ()
  else repeatUntil .arguments (fun _ => nextArgument) turns ()

/-- Makes one statement of the arguments that are read, up to a fault if there is one. -/
def gather (statement : List Argument → Bool → Statement) (r : Tracked Unit) : Tracked Unit :=
  fun c =>
    let course := r c
    ⟨course.journal.filter (·.argument?.isNone) ++
      [.statement (statement course.arguments course.ending.isReached)], course.ending⟩

def operation (turns : Nat) : Tracked Unit := do
  let head ← Rule.ident .builtin
  gather (.operation head) do
    arguments turns
    let _ ← Rule.expect .semicolon
    return ()

def instruction (turns : Nat) : Tracked Unit := do
  let t ← Rule.peek
  if t.isWord "call" then read Grammar.callInstruction
  else if t.kind = .name .builtin then operation turns
  else read (Rule.unexpected .instruction t)

def instructions (turns : Nat) : Tracked Unit :=
  whileNext .instructions (·.kind != .closeBrace) (instruction turns) turns

def locals (turns : Nat) : Tracked Unit :=
  whileNext .locals (·.isWord "local") (read Grammar.localDeclaration) turns

def block (turns : Nat) : Tracked Unit := do
  read Grammar.blockHeader
  let _ ← Rule.expect .openBrace
  instructions turns
  let _ ← Rule.expect .closeBrace
  return ()

/-- A block, and whether another one follows. -/
def nextBlock (turns : Nat) : Tracked (Unit × Bool) := do
  block turns
  let t ← Rule.peek
  if t.kind = .closeBrace then return ((), false)
  else if t.isWord "block" then return ((), true)
  else (Rule.unexpected .anotherBlock t : Rule (Unit × Bool))

def blocksOrInstructions (turns : Nat) : Tracked Unit := do
  let t ← Rule.peek
  if t.isWord "block" then repeatUntil .blocks (fun _ => nextBlock turns) turns ()
  else do
    note (.statement .entryBlock)
    instructions turns

def body (turns : Nat) : Tracked Unit := do
  let _ ← Rule.expect .openBrace
  locals turns
  blocksOrInstructions turns
  let _ ← Rule.expect .closeBrace
  return ()

def globalDefinition (turns limit : Nat) : Tracked Unit := do
  Rule.keyword "global"
  let constant ← Rule.keyword? "const"
  let name ← Rule.ident .global
  let _ ← Rule.expect .equals
  let data ← dataExpression turns limit turns 0
  let _ ← Rule.expect .semicolon
  note (.statement (.global name (if constant then .immutable else .mutable) data))

def functionRest (turns : Nat) : Tracked Unit := do
  let t ← Rule.peek
  if t.kind = .semicolon then do
    let _ ← Rule.expect .semicolon
    return ()
  else if t.kind = .openBrace then body turns
  else read (Rule.unexpected .functionBody t)

def declaration (turns limit : Nat) : Tracked Unit := do
  let t ← Rule.peek
  if t.isWord "global" then globalDefinition turns limit
  else if t.isWord "function" then do
    read Grammar.functionHeader
    functionRest turns
  else read (Rule.unexpected .declaration t)

def wholeModule (turns limit : Nat) : Tracked Unit := do
  read Grammar.moduleHeader
  whileNext .declarations (·.kind != .endOfInput) (declaration turns limit) turns

end Tracked

/-- The course of reading a source text by loops that may take `turns` turns each. -/
def Statement.course (turns limit : Nat) (source : String) : Course Unit :=
  if source.utf8ByteSize ≤ maxSourceBytes then Tracked.wholeModule turns limit (.ofString source)
  else ⟨[], .refused ⟨.sourceTooLong source.utf8ByteSize, .point 0⟩⟩

/-! ## Courses one after the other -/

variable {α β : Type}

namespace Course

variable {course : Course α}

theorem andThen_of_reached {a : α} {next : Cursor} (h : course.ending = .reached a next)
    (more : α → Cursor → Course β) :
    course.andThen more =
      ⟨course.journal ++ (more a next).journal, (more a next).ending⟩ := by
  rw [andThen, h]

theorem andThen_of_refused {e : SyntaxError} (h : course.ending = .refused e)
    (more : α → Cursor → Course β) : course.andThen more = ⟨course.journal, .refused e⟩ := by
  rw [andThen, h]

theorem andThen_assoc {γ : Type} (course : Course α) (f : α → Cursor → Course β)
    (g : β → Cursor → Course γ) :
    (course.andThen f).andThen g = course.andThen fun a next => (f a next).andThen g := by
  obtain ⟨journal, ending⟩ := course
  cases ending with
  | refused e => rfl
  | unfinished => rfl
  | reached a next =>
    simp only [andThen]
    cases (f a next).ending with
    | refused e => rfl
    | unfinished => rfl
    | reached b stop => simp [List.append_assoc]

theorem andThen_reached (course : Course α) :
    (course.andThen fun a next => ⟨[], .reached a next⟩) = course := by
  obtain ⟨journal, ending⟩ := course
  cases ending <;> simp [andThen]

/-- What is picked out of the items alone is there without the other notes. -/
theorem filterMap_told {γ : Type} (course : Course α) {pick : Note → Option γ}
    (items : ∀ n, n.isItem = false → pick n = none) :
    course.told.journal.filterMap pick = course.journal.filterMap pick := by
  have same : (fun n : Note => if n.isItem = true then pick n else none) = pick := by
    funext n
    cases item : n.isItem with
    | true => rfl
    | false => simp [items n item]
  rw [told, List.filterMap_filter, same]

theorem statements_told (course : Course α) : course.told.statements = course.statements := by
  apply course.filterMap_told
  intro n other
  cases n with
  | turn | expression | argument => rfl
  | statement => cases other

theorem arguments_told (course : Course α) : course.told.arguments = course.arguments := by
  apply course.filterMap_told
  intro n other
  cases n with
  | turn | expression | statement => rfl
  | argument => cases other

end Course

namespace Ending

@[simp] theorem ofExcept_ok (a : α) (next : Cursor) :
    ofExcept (.ok (a, next)) = reached a next := rfl

@[simp] theorem ofExcept_error (e : SyntaxError) :
    (ofExcept (.error e) : Ending α) = refused e := rfl

theorem ofExcept_eq_reached {outcome : Except SyntaxError (α × Cursor)} {a : α} {next : Cursor} :
    ofExcept outcome = reached a next ↔ outcome = .ok (a, next) := by
  rcases outcome with e | ⟨a', next'⟩
  · simp
  · simp

end Ending

namespace Tracked

instance instLawfulMonadTracked : LawfulMonad Tracked := LawfulMonad.mk' Tracked
  (fun r => funext fun c => (r c).andThen_reached)
  (fun _ _ => rfl)
  (fun r _ _ => funext fun c => (r c).andThen_assoc _ _)

theorem run_bind (r : Tracked α) (f : α → Tracked β) (c : Cursor) :
    (r >>= f) c = (r c).andThen f := rfl

theorem run_ofRule_bind (r : Rule α) (f : α → Tracked β) (c : Cursor) :
    (ofRule r >>= f) c = (⟨[], .ofExcept (r.run c)⟩ : Course α).andThen f := rfl

/-! ## Rules -/

theorem liftM_eq (r : Rule α) : (liftM r : Tracked α) = ofRule r := rfl

theorem ofRule_pure (a : α) : ofRule (pure a) = pure a := rfl

theorem ofRule_get : ofRule (get : Rule Cursor) = place := rfl

theorem ofRule_bind (r : Rule α) (f : α → Rule β) :
    ofRule (r >>= f) = ofRule r >>= fun a => ofRule (f a) := by
  funext c
  rw [run_ofRule_bind, ofRule, StateT.run_bind]
  cases r.run c with
  | error e => rfl
  | ok p => rfl

/-! ## Looking ahead -/

theorem run_peek (c : Cursor) : Rule.peek.run c = c.peek.map fun t => (t, c) := by
  simp only [Rule.peek, StateT.run]
  cases c.peek with
  | error e => rfl
  | ok t => rfl

theorem run_peek_bind {c : Cursor} {t : Token} (next : c.peek = .ok t) (f : Token → Tracked α) :
    (ofRule Rule.peek >>= f) c = f t c := by
  rw [run_ofRule_bind, run_peek, next]
  rfl

/-- What is done with the next token is done where that token comes next. -/
theorem peek_bind_congr {f g : Token → Tracked α} (h : ∀ c t, c.peek = .ok t → f t c = g t c) :
    ofRule Rule.peek >>= f = ofRule Rule.peek >>= g := by
  funext c
  cases next : c.peek with
  | error e =>
    rw [run_ofRule_bind, run_ofRule_bind, run_peek, next]
    rfl
  | ok t =>
    rw [run_peek_bind next, run_peek_bind next]
    exact h c t next

/-! ## Readings -/

section OfReading

variable (item : α → Note)

theorem ofReading_one (r : Rule α) :
    ofReading item (.one r) = ofRule r >>= fun a => note (item a) := by
  funext c
  rw [run_ofRule_bind, ofReading, Reading.one]
  cases r.run c with
  | error e => rfl
  | ok p => rfl

theorem ofReading_mark (kind : Token.Kind) :
    ofReading item (.mark kind) = ofRule (Rule.expect kind) >>= fun _ => pure () := by
  funext c
  rw [run_ofRule_bind, ofReading, Reading.mark]
  cases (Rule.expect kind).run c with
  | error e => rfl
  | ok p => rfl

theorem ofReading_byNext (choose : Token → Cursor → Reading α) :
    ofReading item (.byNext choose) =
      ofRule Rule.peek >>= fun t => ofReading item (choose t) := by
  funext c
  rw [run_ofRule_bind, ofReading, Reading.byNext, run_peek]
  cases c.peek with
  | error e => rfl
  | ok t => rfl

theorem ofReading_andThen (f g : Cursor → Reading α) :
    (ofReading item fun c => (f c).andThen g) =
      ofReading item f >>= fun _ => ofReading item g := by
  funext c
  rw [run_bind]
  simp only [ofReading, Reading.andThen]
  cases (f c).result with
  | error e => rfl
  | ok next => simp [Except.map, Course.andThen, ofReading]

theorem ofReading_repeatWhile (goesOn : Token → Bool) (f : Cursor → Reading α)
    (advances : Reading.Advances f) :
    ofReading item (.repeatWhile goesOn f advances) =
      ofRule Rule.peek >>= fun t =>
        if goesOn t then
          ofReading item f >>= fun _ => ofReading item (.repeatWhile goesOn f advances)
        else pure () := by
  have unfolded : Reading.repeatWhile goesOn f advances = .byNext fun t c =>
      if goesOn t then (f c).andThen (.repeatWhile goesOn f advances) else ⟨[], .ok c⟩ := by
    funext c
    rw [Reading.repeatWhile, Reading.byNext]
    cases c.peek with
    | error e => rfl
    | ok t =>
      dsimp only
      split
      · unfold Reading.andThen
        split <;> simp_all
      · rfl
  conv => lhs; rw [unfolded]
  rw [ofReading_byNext]
  congr 1
  funext t
  split
  · exact ofReading_andThen item f _
  · rfl

theorem ofReading_ite (p : Prop) [Decidable p] (f g : Cursor → Reading α) :
    (ofReading item fun c => if p then f c else g c) =
      if p then ofReading item f else ofReading item g := by
  split <;> rfl

end OfReading

/-- The arguments that a reading reads, up to a fault if there is one, as one statement. -/
theorem gather_ofReading (statement : List Argument → Bool → Statement)
    (f : Cursor → Reading Argument) (c : Cursor) :
    gather statement (ofReading .argument f) c =
      ⟨[.statement (statement (f c).items (f c).result.isOk)],
        .ofExcept ((f c).result.map fun next => ((), next))⟩ := by
  have kept : ((f c).items.map Note.argument).filter (·.argument?.isNone) = [] := by
    simp [Note.argument?]
  have gathered : ((f c).items.map Note.argument).filterMap Note.argument? = (f c).items := by
    simp [List.filterMap_map, Function.comp_def, Note.argument?]
  have reached : (Ending.ofExcept ((f c).result.map fun next => ((), next))).isReached =
      (f c).result.isOk := by
    cases (f c).result <;> rfl
  simp only [gather, ofReading, Course.arguments, kept, gathered, reached, List.nil_append]

end Tracked

end SigilAsm
