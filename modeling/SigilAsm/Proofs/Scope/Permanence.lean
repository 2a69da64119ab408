import SigilAsm.Proofs.Elaboration.Growth
import SigilAsm.Proofs.Scope.Tables

/-! # Registrations are permanent

What was registered stays, whatever happens to the scope afterwards and in
whatever order: a global or a function keeps its entry and the place of the
entry in its table, and every part of the program stays where it is
(`Scope.Keeps`).  A header that comes again, a label that is taken and a call
that conflicts find what is there and leave it.

Lists of parts only grow at their ends.  Those of instructions grow in one way
only: an instruction that is emitted goes to the block that is current then, and
to no other (`Scope.gainedAll`).
-/

namespace SigilAsm

/-- All bindings of the first table are in the second, each at its own place. -/
structure NameTable.Continues {α : Type} (t t' : NameTable α) : Prop where
  entries : t.entries <+: t'.entries
  lookup? : ∀ name value, t.lookup? name = some value → t'.lookup? name = some value

namespace NameTable.Continues

variable {α : Type} {t t' t'' : NameTable α}

theorem of_entries (h : t.entries <+: t'.entries) : t.Continues t' where
  entries := h
  lookup? name value found := by
    obtain ⟨more, whole⟩ := h
    rw [NameTable.lookup?] at found ⊢
    rw [← whole, List.lookup_append, found, Option.some_or]

theorem refl (t : NameTable α) : t.Continues t := ⟨List.prefix_refl _, fun _ _ => id⟩

theorem insert (t : NameTable α) (name : String) (value : α) : t.Continues (t.insert name value) :=
  .of_entries (t.entries_prefix_insert name value)

theorem trans (h : t.Continues t') (h' : t'.Continues t'') : t.Continues t'' :=
  .of_entries (h.entries.trans h'.entries)

end NameTable.Continues

namespace Scope

/-! ## Events leave what is there -/

/-- What was registered in the first scope is registered in the second. -/
structure Keeps (s s' : Scope Program) : Prop where
  globals : s.globals.Continues s'.globals
  functions : s.functions.Continues s'.functions
  program : s.target.Retains s'.target

namespace Keeps

variable {s s' s'' : Scope Program}

theorem refl (s : Scope Program) : s.Keeps s := ⟨.refl _, .refl _, .refl _⟩

theorem trans (h : s.Keeps s') (h' : s'.Keeps s'') : s.Keeps s'' :=
  ⟨h.globals.trans h'.globals, h.functions.trans h'.functions, h.program.trans h'.program⟩

end Keeps

/-- A name is bound behind those that are bound, if one is bound at all. -/
theorem Effect.continues {σ : Type} [Builder σ] {s : Scope σ} {emitted : Option Instruction}
    {target : σ} {globals : NameTable GlobalId} {functions : NameTable FunctionEntry}
    (h : s.Effect emitted target globals functions) :
    s.globals.Continues globals ∧ s.functions.Continues functions := by
  cases h with
  | global name mutability data => exact ⟨.insert .., .refl _⟩
  | function name signature => exact ⟨.refl _, .insert ..⟩
  | _ => exact ⟨.refl _, .refl _⟩

theorem keeps_handle (s : Scope Program) (event : Event) : s.Keeps (s.handle event).2 where
  globals := (effect_handle s event).continues.1
  functions := (effect_handle s event).continues.2
  program := retains_handle s event

theorem keeps_handleAll (s : Scope Program) (events : List Event) :
    s.Keeps (s.handleAll events) := by
  induction events generalizing s with
  | nil => exact .refl s
  | cons event rest ih => exact (keeps_handle s event).trans (ih (s.handle event).2)

end Scope

/-! ## Instructions -/

/-- The instructions of a block; there are none if there is no such block. -/
def Program.instructionsOf (p : Program) (k : BlockId) : List Instruction :=
  (p.block? k).elim [] (·.instructions.toList)

namespace Program

theorem instructionsOf_addBlock (p : Program) (f : FunctionId) (s : Signature) (k : BlockId) :
    (p.addBlock f s).2.instructionsOf k = p.instructionsOf k := by
  simp only [instructionsOf, block?, addBlock, Array.getElem?_push]
  split
  · -- There was no such block, and the new one is empty.
    next last => simp [last]
  · rfl

theorem instructionsOf_emit (p : Program) {current : BlockId}
    (there : current.index < p.blocks.size) (i : Instruction) (k : BlockId) :
    (p.emit current i).instructionsOf k =
      p.instructionsOf k ++ if current = k then [i] else [] := by
  rw [instructionsOf, block?_emit]
  by_cases same : current = k
  · subst same
    simp [instructionsOf, block?, Array.getElem?_eq_getElem there]
  · rw [if_neg (Ne.symm same), if_neg same, List.append_nil, instructionsOf]

end Program

namespace Scope

section Gains

variable {σ : Type} [Builder σ]

/-- The instructions that a block gets by an event: what is emitted, if the block is current. -/
def gained (s : Scope σ) (k : BlockId) (event : Event) : List Instruction :=
  if s.block = some k then event.instruction?.toList else []

/-- The instructions that a block gets while the events happen. -/
def gainedAll (s : Scope σ) (k : BlockId) : List Event → List Instruction
  | [] => []
  | event :: rest => s.gained k event ++ (s.handle event).2.gainedAll k rest

end Gains

variable {s : Scope Program}

theorem Effect.instructionsOf {emitted : Option Instruction} {p : Program}
    {globals : NameTable GlobalId} {functions : NameTable FunctionEntry} (h : s.Mirrors)
    (effect : s.Effect emitted p globals functions) (k : BlockId) :
    p.instructionsOf k =
      s.target.instructionsOf k ++ if s.block = some k then emitted.toList else [] := by
  have quiet : s.target.instructionsOf k =
      s.target.instructionsOf k ++ if s.block = some k then Option.toList none else [] := by
    rw [Option.toList_none, ite_self, List.append_nil]
  cases effect with
  | block f signature => exact (s.target.instructionsOf_addBlock f signature k).trans quiet
  | @instruction f current _ inside i =>
    obtain ⟨_, _, -, ⟨b, found, -⟩, -⟩ := h.block current inside
    have there : current.index < s.target.blocks.size := (Array.getElem?_eq_some_iff.mp found).1
    simp only [inside, Option.some.injEq, Option.toList_some]
    exact s.target.instructionsOf_emit there i k
  | outside nowhere i =>
    -- There is no current block where there is no current function.
    have noBlock : s.block ≠ some k := by
      intro inside
      obtain ⟨f, _, current, -⟩ := h.block k inside
      simp [current, inside] at nowhere
    rw [if_neg noBlock, List.append_nil]
  | _ => exact quiet

/-- If there is room in the end there was room all the time. -/
theorem small_of_handleAll {events : List Event}
    (room : (s.handleAll events).target.Small 0xffffffff) : s.target.Small 0xffffffff :=
  (keeps_handleAll s events).program.small room

namespace Mirrors

/-- An event adds to the instructions of the current block, and only what it emits. -/
theorem instructionsOf_handle (h : s.Mirrors) (event : Event) (k : BlockId) :
    (s.handle event).2.target.instructionsOf k =
      s.target.instructionsOf k ++ s.gained k event :=
  (effect_handle s event).instructionsOf h k

theorem handleAll (h : s.Mirrors) (events : List Event)
    (room : (s.handleAll events).target.Small 0xffffffff) : (s.handleAll events).Mirrors := by
  induction events generalizing s with
  | nil => exact h
  | cons event rest ih => exact ih (h.handle (small_of_handleAll room) event) room

theorem instructionsOf_handleAll (h : s.Mirrors) (events : List Event)
    (room : (s.handleAll events).target.Small 0xffffffff) (k : BlockId) :
    (s.handleAll events).target.instructionsOf k =
      s.target.instructionsOf k ++ s.gainedAll k events := by
  induction events generalizing s with
  | nil => exact (List.append_nil _).symm
  | cons event rest ih =>
    have before : s.target.Small 0xffffffff := small_of_handleAll room
    calc ((s.handle event).2.handleAll rest).target.instructionsOf k
      _ = (s.handle event).2.target.instructionsOf k ++ (s.handle event).2.gainedAll k rest :=
        ih (h.handle before event) room
      _ = s.target.instructionsOf k ++ s.gainedAll k (event :: rest) := by
        rw [h.instructionsOf_handle, List.append_assoc, gainedAll]

end Mirrors

/-- Whatever happens to a scope over a program that was empty at first, and whatever happens to it
afterwards, if there are fewer than 2^32 parts of each sort: what was registered stays as it is, up
to the ends of its lists, and each block gets the instructions that are emitted while it is the
current one. -/
theorem handleAll_permanent (lines : LineMap) (vocabulary : Vocabulary)
    (events more : List Event) :
    let s := (start lines vocabulary Program.empty).handleAll events
    let s' := s.handleAll more
    s'.target.Small 0xffffffff → s.Keeps s' ∧
      ∀ k, s'.target.instructionsOf k = s.target.instructionsOf k ++ s.gainedAll k more := by
  intro s s' room
  have mirrors : s.Mirrors :=
    (start_mirrors lines vocabulary).handleAll events (small_of_handleAll room)
  exact ⟨keeps_handleAll s more, mirrors.instructionsOf_handleAll more room⟩

/-- A function gets a second body under another signature: its label names a block of its own, the
label that is taken there leads back to that block, and the first body gets nothing more. -/
theorem handleAll_permanent_second_body :
    let s := (start (.ofString "") .standard Program.empty).handleAll [
      .declareFunction ⟨"f", .point 0⟩ ⟨0, 0⟩,
      .declareLocal ⟨"x", .point 1⟩,
      .declareBlock ⟨"b", .point 2⟩ ⟨0, 0⟩,
      .emit (.call ⟨0⟩)]
    let more : List Event := [
      .emit (.call ⟨1⟩),
      .declareFunction ⟨"f", .point 3⟩ ⟨1, 0⟩,
      .emit (.call ⟨2⟩),
      .declareLocal ⟨"x", .point 4⟩,
      .declareBlock ⟨"b", .point 5⟩ ⟨0, 1⟩,
      .enterEntryBlock,
      .emit (.call ⟨3⟩),
      .declareBlock ⟨"b", .point 6⟩ ⟨0, 0⟩,
      .emit (.call ⟨4⟩)]
    let s' := s.handleAll more
    s'.target.Small 0xffffffff ∧ s.Keeps s' ∧
      s'.target.instructionsOf ⟨0⟩ = s.target.instructionsOf ⟨0⟩ ++ [.call ⟨1⟩] ∧
      s'.target.instructionsOf ⟨1⟩ = s.target.instructionsOf ⟨1⟩ ++ [.call ⟨4⟩] ∧
      s'.target.instructionsOf ⟨2⟩ = s.target.instructionsOf ⟨2⟩ ++ [.call ⟨3⟩] := by
  intro s more s'
  have small : s'.target.Small 0xffffffff :=
    ⟨by decide +kernel, by decide +kernel, by decide +kernel, by decide +kernel⟩
  obtain ⟨keeps, gains⟩ := handleAll_permanent _ _ _ more small
  exact ⟨small, keeps, (gains ⟨0⟩).trans (by decide +kernel), (gains ⟨1⟩).trans (by decide +kernel),
    (gains ⟨2⟩).trans (by decide +kernel)⟩

end Scope

end SigilAsm
