import SigilAsm.Assembly.Basic
import SigilAsm.Proofs.Elaboration.Protocol

/-! # What the log tells of calls

The log of a run tells of the parts that are registered with the builder.  What
it tells is what the builder was told, in the same order and with the same names
and signatures, except for the block of a body without labelled blocks, of which
it tells nothing (`attempt_announces`).

Each statement adds the same to both logs unless it opens such a block
(`Scope.announces_step`), and the run follows by induction on the statements.
-/

namespace SigilAsm

/-- What a registration and an event of the log both say. -/
inductive Announcement where
  | module (name : String)
  | global (name : String) (mutability : Mutability) (bytes : Nat)
  | function (name : String) (signature : Signature)
  | localName (name : String)
  | block (signature : Signature)
  deriving DecidableEq, Repr

def LogEvent.announcement? : LogEvent → Option Announcement
  | moduleCreated name => some (.module name)
  | globalRegistered name mutability bytes => some (.global name mutability bytes)
  | functionRegistered name signature => some (.function name signature)
  | localRegistered name => some (.localName name)
  | blockRegistered _ signature => some (.block signature)
  | scopeReset _ | localLookup _ | reported .. | readingFinished .. | moduleAssembled .. => none

def Registration.announcement? : Registration → Option Announcement
  | module name => some (.module name)
  | global name mutability data _ => some (.global name mutability data.length)
  | function name signature _ => some (.function name signature)
  | localName _ name _ => some (.localName name)
  | block _ signature _ => some (.block signature)
  | instruction .. => none

/-! ## Moves -/

namespace Moves

/-- The calls of the moves, where `last` is the statement that was read before.  Those that a body
without labelled blocks causes are left out. -/
def announcedAfter (last : Option Statement) : List Move → List Registration
  | [] => []
  | .read statement :: rest => announcedAfter (some statement) rest
  | .call r :: rest =>
    if last = some .entryBlock then announcedAfter last rest else r :: announcedAfter last rest

/-- The calls that are announced in the log. -/
def announced (moves : List Move) : List Registration := announcedAfter none moves

theorem announcedAfter_ofCalls (last : Option Statement) (calls : List Registration)
    (more : List Move) :
    announcedAfter last (ofCalls calls ++ more) =
      (if last = some .entryBlock then [] else calls) ++ announcedAfter last more := by
  induction calls with
  | nil => split <;> rfl
  | cons r rest ih =>
    change (if last = some .entryBlock then announcedAfter last (ofCalls rest ++ more)
      else r :: announcedAfter last (ofCalls rest ++ more)) = _
    rw [ih]
    split <;> rfl

theorem announcedAfter_sublist (last : Option Statement) (moves : List Move) :
    (announcedAfter last moves).Sublist (registrations moves) := by
  fun_induction announcedAfter last moves with
  | case1 => exact .slnil
  | case2 last statement rest ih => exact ih
  | case3 r rest ih => exact ih.cons r
  | case4 last r rest _ ih => exact ih.cons_cons r

end Moves

namespace Scope

variable {σ : Type} {s s' s'' : Scope (Logged σ)} {calls calls' : List Registration}

/-- What the log tells of registrations. -/
def announcements {τ : Type} (s : Scope τ) : List Announcement :=
  s.log.toList.filterMap LogEvent.announcement?

/-- The builder is told of the calls, and the log tells the same. -/
structure Announces (s : Scope (Logged σ)) (calls : List Registration) (s' : Scope (Logged σ)) :
    Prop where
  told : s'.target.registrations.toList = s.target.registrations.toList ++ calls
  log : s'.announcements = s.announcements ++ calls.filterMap Registration.announcement?

namespace Announces

theorem refl (s : Scope (Logged σ)) : s.Announces [] s :=
  ⟨(List.append_nil _).symm, (List.append_nil _).symm⟩

theorem trans (h : s.Announces calls s') (h' : s'.Announces calls' s'') :
    s.Announces (calls ++ calls') s'' where
  told := by rw [h'.told, h.told, List.append_assoc]
  log := by rw [h'.log, h.log, List.filterMap_append, List.append_assoc]

/-- The builder is told nothing, and the log tells of something else. -/
theorem quiet {event : LogEvent} (target : s'.target = s.target) (log : s'.log = s.log.push event)
    (other : event.announcement? = none) : s.Announces [] s' where
  told := by rw [target, List.append_nil]
  log := by simp [announcements, log, other]

/-- The calls are those that the record has gained. -/
theorem drop_eq (h : s.Announces calls s') :
    s'.target.registrations.toList.drop s.target.registrations.size = calls := by
  rw [h.told, ← Array.length_toList, List.drop_left]

theorem one {r : Registration} {event : LogEvent}
    (target : s'.target.registrations = s.target.registrations.push r)
    (log : s'.log = s.log.push event) (same : event.announcement? = r.announcement?) :
    s.Announces [r] s' where
  told := by rw [target, Array.toList_push]
  log := by simp [announcements, log, List.filterMap_cons, same]

end Announces

/-! ## Names that are looked up -/

theorem announces_report (s : Scope (Logged σ)) (d : Diagnostic) : s.Announces [] (s.report d) :=
  .quiet rfl rfl rfl

theorem announces_resolve (s : Scope (Logged σ)) {α : Type} (table : NameTable α) (entity : Entity)
    (ident : Ident) : s.Announces [] (s.resolve table entity ident).2 := by
  unfold resolve
  split
  · exact .refl s
  · exact announces_report s _

theorem announces_resolveArgument (s : Scope (Logged σ)) (a : Argument) :
    s.Announces [] (s.resolveArgument a).2 := by
  rcases a with ⟨sigil, ident⟩ | value
  · cases sigil with
    | inner =>
      have looked : s.Announces [] (s.note (.localLookup ident.name)) := .quiet rfl rfl rfl
      exact looked.trans (announces_resolve _ s.locals .localName ident)
    | global => exact announces_resolve s s.globals .global ident
    | builtin => exact announces_resolve s s.vocabulary.types .operandType ident
  · exact .refl s

theorem announces_resolveArguments (s : Scope (Logged σ)) (arguments : List Argument) :
    s.Announces [] (s.resolveArguments arguments).2 := by
  induction arguments generalizing s with
  | nil => exact .refl s
  | cons a rest ih => exact (announces_resolveArgument s a).trans (ih _)

/-! ## Declarations -/

variable [Builder σ]

theorem announces_mentionFunction (s : Scope (Logged σ)) (ident : Ident) (signature : Signature) :
    ∃ calls, s.Announces calls (s.mentionFunction ident signature).2 := by
  cases known : s.functions.lookup? ident.name with
  | some entry =>
    rw [mentionFunction_of_eq_some known]
    refine ⟨[], ?_⟩
    dsimp only
    split
    · exact .refl s
    · exact announces_report s _
  | none =>
    rw [mentionFunction_of_eq_none known]
    exact ⟨[.function ident.name signature _], .one rfl rfl rfl⟩

theorem announces_declareFunction (s : Scope (Logged σ)) (ident : Ident) (signature : Signature) :
    ∃ calls, s.Announces calls (s.declareFunction ident signature).2 := by
  obtain ⟨calls, mentioned⟩ := announces_mentionFunction s ident signature
  exact ⟨_, mentioned.trans (.quiet rfl rfl rfl)⟩

theorem announces_referenceFunction (s : Scope (Logged σ)) (ident : Ident)
    (signature : Option Signature) :
    ∃ calls, s.Announces calls (s.referenceFunction ident signature).2 := by
  cases signature with
  | some signature => exact announces_mentionFunction s ident signature
  | none => exact ⟨[], announces_resolve s s.functions .function ident⟩

theorem announces_declareGlobal (s : Scope (Logged σ)) (ident : Ident) (mutability : Mutability)
    (data : List UInt8) :
    ∃ calls, s.Announces calls (s.declareGlobal ident mutability data).2 := by
  by_cases taken : s.globals.contains ident.name = true
  · rw [declareGlobal_of_contains taken]
    exact ⟨[], announces_report s _⟩
  · rw [declareGlobal_of_not_contains taken]
    exact ⟨[.global ident.name mutability data _], .one rfl rfl rfl⟩

theorem announces_declareLocal (s : Scope (Logged σ)) (ident : Ident) :
    ∃ calls, s.Announces calls (s.declareLocal ident).2 := by
  cases current : s.function with
  | none => exact ⟨[], by simpa only [declareLocal, current] using .refl s⟩
  | some function =>
    by_cases taken : s.locals.contains ident.name = true
    · rw [declareLocal_of_contains current taken]
      exact ⟨[], announces_report s _⟩
    · rw [declareLocal_of_not_contains current taken]
      exact ⟨[.localName function.id ident.name _], .one rfl rfl rfl⟩

theorem announces_declareBlock (s : Scope (Logged σ)) (ident : Ident) (signature : Signature) :
    ∃ calls, s.Announces calls (s.declareBlock ident signature).2 := by
  cases current : s.function with
  | none => exact ⟨[], by simpa only [declareBlock, current] using .refl s⟩
  | some function =>
    cases known : s.blocks.lookup? ident.name with
    | some entry =>
      rw [declareBlock_of_eq_some current known]
      exact ⟨[], .quiet rfl rfl rfl⟩
    | none =>
      rw [declareBlock_of_eq_none current known]
      exact ⟨[.block function.id signature _], .one rfl rfl rfl⟩

theorem announces_emit (s : Scope (Logged σ)) (i : Instruction) :
    ∃ calls, s.Announces calls (s.emit i) := by
  unfold emit
  split
  · next function block _ _ =>
    exact ⟨[.instruction function.id block i], Array.toList_push, (List.append_nil _).symm⟩
  · exact ⟨[], .refl s⟩

/-! ## Statements -/

/-- Whatever the builder is told because of a statement that opens no block of its own is told by
the log as well. -/
theorem announces_step (s : Scope (Logged σ)) {statement : Statement}
    (other : statement ≠ .entryBlock) : ∃ calls, s.Announces calls (s.step statement) := by
  cases statement with
  | «module» name => exact ⟨[.module name], .one rfl rfl rfl⟩
  | global ident mutability data => exact announces_declareGlobal s ident mutability data
  | function ident signature => exact announces_declareFunction s ident signature
  | localName ident => exact announces_declareLocal s ident
  | block ident signature => exact announces_declareBlock s ident signature
  | entryBlock => exact absurd rfl other
  | call target signature =>
    obtain ⟨calls, mentioned⟩ := announces_referenceFunction s target signature
    simp only [step]
    split
    next id after found =>
      rw [found] at mentioned
      obtain ⟨calls', emitted⟩ := announces_emit after (.call id)
      exact ⟨_, mentioned.trans emitted⟩
    next after found =>
      rw [found] at mentioned
      exact ⟨_, mentioned⟩
  | operation head arguments closed =>
    have looked : s.Announces [] (s.resolveOperation head).2 :=
      announces_resolve s s.vocabulary.operations .operation head
    have mentioned := looked.trans (announces_resolveArguments _ arguments)
    simp only [step]
    split
    · next id operands _ _ =>
      obtain ⟨calls', emitted⟩ := announces_emit
        ((s.resolveOperation head).2.resolveArguments arguments).2 (.operation id operands)
      exact ⟨_, mentioned.trans emitted⟩
    · exact ⟨_, mentioned⟩

/-- The log tells nothing of the block that a body without labelled blocks consists of. -/
theorem announcements_enterEntryBlock (s : Scope (Logged σ)) :
    s.enterEntryBlock.2.announcements = s.announcements := by
  unfold enterEntryBlock
  split <;> rfl

/-- The builder is told of it, though. -/
theorem drop_enterEntryBlock {function : FunctionEntry} (current : s.function = some function) :
    s.enterEntryBlock.2.target.registrations.toList.drop s.target.registrations.size =
      [.block function.id function.signature
        (Builder.addBlock s.target function.id function.signature).1] := by
  have told : s.enterEntryBlock.2.target.registrations =
      s.target.registrations.push (.block function.id function.signature
        (Builder.addBlock s.target function.id function.signature).1) := by
    rw [enterEntryBlock_of_current current]
    rfl
  rw [told, Array.toList_push, ← Array.length_toList, List.drop_left]

/-! ## Runs -/

/-- Statement by statement, the log of a run gains what is announced of its calls. -/
theorem announcements_run (s : Scope (Logged σ)) (statements : List Statement)
    (last : Option Statement) :
    (s.run statements).announcements = s.announcements ++
      (Moves.announcedAfter last (s.moves statements)).filterMap Registration.announcement? := by
  induction statements generalizing s last with
  | nil => exact (List.append_nil _).symm
  | cons statement rest ih =>
    simp only [moves, Moves.announcedAfter, Moves.announcedAfter_ofCalls]
    change ((s.step statement).run rest).announcements = _
    rw [ih (s.step statement) (some statement), List.filterMap_append, ← List.append_assoc]
    congr 1
    -- The first statement is left: it adds to the log what is announced of its calls.
    by_cases entry : statement = .entryBlock
    · rw [entry, if_pos rfl]
      exact (announcements_enterEntryBlock s).trans (List.append_nil _).symm
    · obtain ⟨calls, announces⟩ := announces_step s entry
      rw [if_neg (by simpa using entry), announces.drop_eq, announces.log]

/-- The block of a body without labelled blocks is registered wherever the grammar has one. -/
theorem length_announcements_moves {past : List Move} {stage next : Stage} (h : s.Tracks past stage)
    {statements : List Statement} (order : stage.after? statements = some next)
    (last : Option Statement) :
    ((Moves.registrations (s.moves statements)).filterMap Registration.announcement?).length =
      ((Moves.announcedAfter last (s.moves statements)).filterMap
        Registration.announcement?).length + statements.count .entryBlock := by
  induction statements generalizing s past stage last with
  | nil => rfl
  | cons statement rest ih =>
    obtain ⟨middle, here, order⟩ := Option.bind_eq_some_iff.mp order
    obtain ⟨calls, tracks⟩ := h.step here
    have more := ih tracks order (some statement)
    simp only [moves, Moves.announcedAfter, Moves.announcedAfter_ofCalls]
    change ((Moves.registrations (Moves.ofCalls _ ++ _)).filterMap _).length = _
    rw [Moves.registrations_append, Moves.registrations_ofCalls, List.filterMap_append,
      List.filterMap_append, List.length_append, List.length_append, more]
    by_cases entry : statement = .entryBlock
    · subst entry
      -- Such a block comes in a body, so there is a function for it.
      obtain ⟨rfl, -⟩ := Stage.next?_entryBlock here
      obtain ⟨function, current⟩ := Option.isSome_iff_exists.mp (h.stands.inside (.inl rfl))
      have one := drop_enterEntryBlock current
      change (s.step .entryBlock).target.registrations.toList.drop _ = _ at one
      rw [one, if_pos rfl, List.count_cons_self]
      simp only [List.filterMap_cons, Registration.announcement?, List.filterMap_nil,
        List.length_cons, List.length_nil]
      omega
    · rw [if_neg (by simpa using entry), List.count_cons_of_ne entry]
      omega

end Scope

/-! ## Whole texts -/

theorem Scope.announcements_note {τ : Type} (s : Scope τ) {event : LogEvent}
    (other : event.announcement? = none) : (s.note event).announcements = s.announcements := by
  simp [announcements, note, other]

/-- What is logged at the end of a text is no registration. -/
theorem announcements_elaborate {σ : Type} [Builder σ] (settings : Settings) (target : σ)
    (source : String) :
    (elaborate settings target source).2.announcements =
      (Moves.announced (moves settings target source)).filterMap Registration.announcement? := by
  obtain ⟨-, related⟩ := elaborate_related (Logged.transparent σ) (a := Logged.start target)
    (b := target) rfl settings source
  have same : (elaborate settings (Logged.start target) source).2.announcements =
      (elaborate settings target source).2.announcements := by
    simp only [Scope.announcements, related.alike.log]
  have ran := Scope.announcements_run (Scope.start (.ofString source) settings.vocabulary
    (Logged.start target)) (Statement.read settings.maxDataBytes source).items none
  refine same.symm.trans (Eq.trans ?_ ran)
  unfold elaborate
  dsimp only
  split
  · rfl
  · exact Scope.announcements_note _ rfl

theorem announcements_attempt (settings : Settings) (source : String) :
    (attempt settings source).log.filterMap LogEvent.announcement? =
      (elaborate settings Program.empty source).2.announcements := by
  unfold attempt
  split
  next refused => rw [refused]; rfl
  next accepted =>
    rw [accepted]
    exact Scope.announcements_note _ rfl

/-- The calls that are announced leave out one for each body without labelled blocks. -/
theorem length_announcements_calls {σ : Type} [Builder σ] (settings : Settings) (target : σ)
    (source : String) :
    ((calls settings target source).filterMap Registration.announcement?).length =
      ((Moves.announced (moves settings target source)).filterMap
        Registration.announcement?).length +
      (Statement.read settings.maxDataBytes source).items.count .entryBlock := by
  obtain ⟨stage, order, -⟩ := Statement.read_leads settings.maxDataBytes source
  obtain ⟨-, -, registered, -⟩ := elaborate_protocol settings target source
  rw [← registered]
  exact Scope.length_announcements_moves
    (Scope.start_tracks (.ofString source) settings.vocabulary target) order none

/-- The log of an assembly announces registrations as the builder was told of them, one after the
other, and leaves out those of blocks that were opened for bodies without labelled blocks.  So it
announces all of them exactly if the text has no such body. -/
theorem attempt_announces (settings : Settings) (source : String) :
    (attempt settings source).log.filterMap LogEvent.announcement? =
        (Moves.announced (moves settings Program.empty source)).filterMap
          Registration.announcement? ∧
      ((attempt settings source).log.filterMap LogEvent.announcement? =
          (calls settings Program.empty source).filterMap Registration.announcement? ↔
        Statement.entryBlock ∉ (Statement.read settings.maxDataBytes source).items) := by
  have announced := (announcements_attempt settings source).trans
    (announcements_elaborate settings Program.empty source)
  refine ⟨announced, ?_⟩
  have counted := length_announcements_calls settings Program.empty source
  rw [announced, ← List.count_eq_zero]
  constructor
  · intro all
    rw [all] at counted
    omega
  · intro none
    rw [none, Nat.add_zero] at counted
    have registered := (elaborate_protocol settings Program.empty source).2.2.1
    refine List.Sublist.eq_of_length ?_ counted.symm
    rw [← registered]
    exact (Moves.announcedAfter_sublist _ _).filterMap _

/-- The builder is told of a block, and the log does not mention it. -/
theorem attempt_leaves_out_block :
    (attempt .standard "module @m; function @f \x7b \x7d").log.filterMap LogEvent.announcement? =
        [.module "m", .function "f" ⟨0, 0⟩] ∧
      (calls .standard Program.empty "module @m; function @f \x7b \x7d").filterMap
          Registration.announcement? =
        [.module "m", .function "f" ⟨0, 0⟩, .block ⟨0, 0⟩] := by
  decide +kernel

end SigilAsm
