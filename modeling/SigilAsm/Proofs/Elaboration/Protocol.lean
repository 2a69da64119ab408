import SigilAsm.Proofs.Elaboration.Integrity
import SigilAsm.Proofs.Elaboration.Moves
import SigilAsm.Proofs.Grammar.Order

/-! # Calls obey the protocol

A scope tracks the moves of its run: its tables hold what was registered, its
current function and its current block are those of the last header and the last
section.  Therefore each call that a statement causes is allowed, provided that
the statements are in order.
-/

namespace SigilAsm

namespace Scope

/-- The tables of the module have the names that were registered, with their answers. -/
structure Told {σ : Type} (s : Scope (Logged σ)) (past : List Move) : Prop where
  calls : Moves.registrations past = s.target.registrations.toList
  obeys : Obeys past
  functions : ∀ x e, s.functions.lookup? x = some e →
    .call (.function x e.signature e.id) ∈ past
  noFunction : ∀ x, s.functions.lookup? x = none →
    ∀ signature f, .call (.function x signature f) ∉ past
  noGlobal : ∀ x, ¬ s.globals.contains x = true →
    ∀ mutability data g, .call (.global x mutability data g) ∉ past

/-- The current function, its blocks and the current block are those that the moves tell. -/
structure Stands {σ : Type} (s : Scope σ) (past : List Move) (stage : Stage) : Prop where
  begun : Moves.registrations past = [] ↔ stage = .start
  function : ∀ e, s.function = some e → CurrentFunction past e.id
  inside : stage.TakesBlocks → s.function.isSome = true
  unopened : stage = .body → ∀ m ∈ Moves.body past, m.Steady
  blocks : stage.TakesBlocks → ∀ e x b, s.function = some e → s.blocks.lookup? x = some b →
    BlockOf (Moves.body past) (some x) e.id b.id
  noBlock : stage.TakesBlocks → ∀ x, s.blocks.lookup? x = none →
    ∀ m ∈ Moves.body past, m.label? ≠ some (some x)
  block : ∀ e k, s.function = some e → s.block = some k → CurrentBlock past e.id k

structure Tracks {σ : Type} (s : Scope (Logged σ)) (past : List Move) (stage : Stage) : Prop where
  told : s.Told past
  stands : s.Stands past stage

variable {σ : Type} {s s' : Scope (Logged σ)} {past more : List Move} {r : Registration}
  {stage next : Stage}

/-! ## One more move -/

namespace Told

theorem read (h : s.Told past) (statement : Statement) :
    s.Told (past ++ [.read statement]) where
  calls := by rw [Moves.registrations_read, h.calls]
  obeys := obeys_snoc h.obeys nofun
  functions x e found := List.mem_append_left _ (h.functions x e found)
  noFunction x absent signature f := by simpa using h.noFunction x absent signature f
  noGlobal x absent mutability data g := by simpa using h.noGlobal x absent mutability data g

/-- A call that is allowed, if the tables change as the call says. -/
theorem call (h : s.Told past) (allowed : Allowed past r)
    (calls : s'.target.registrations = s.target.registrations.push r)
    (functions : ∀ x e, s'.functions.lookup? x = some e →
      s.functions.lookup? x = some e ∨ r = .function x e.signature e.id)
    (noFunction : ∀ x, s'.functions.lookup? x = none →
      s.functions.lookup? x = none ∧ ∀ signature f, r ≠ .function x signature f)
    (noGlobal : ∀ x, ¬ s'.globals.contains x = true →
      ¬ s.globals.contains x = true ∧ ∀ mutability data g, r ≠ .global x mutability data g) :
    s'.Told (past ++ [.call r]) where
  calls := by rw [Moves.registrations_call, h.calls, calls, Array.toList_push]
  obeys := obeys_snoc h.obeys fun r' same => Move.call.inj same ▸ allowed
  functions x e found := by
    rcases functions x e found with old | rfl
    · exact List.mem_append_left _ (h.functions x e old)
    · exact List.mem_append_right _ List.mem_cons_self
  noFunction x absent signature f member := by
    obtain ⟨old, new⟩ := noFunction x absent
    rcases List.mem_append.mp member with before | last
    · exact h.noFunction x old signature f before
    · exact new signature f (Move.call.inj (List.mem_singleton.mp last)).symm
  noGlobal x absent mutability data g member := by
    obtain ⟨old, new⟩ := noGlobal x absent
    rcases List.mem_append.mp member with before | last
    · exact h.noGlobal x old mutability data g before
    · exact new mutability data g (Move.call.inj (List.mem_singleton.mp last)).symm

theorem nameless (h : s.Told past) (allowed : Allowed past r) (nameless : r.Nameless)
    (calls : s'.target.registrations = s.target.registrations.push r)
    (functions : s'.functions = s.functions) (globals : s'.globals = s.globals) :
    s'.Told (past ++ [.call r]) := by
  refine h.call allowed calls (fun x e found => .inl (functions ▸ found)) (fun x absent => ?_)
    fun x absent => ?_
  · refine ⟨functions ▸ absent, fun _ _ same => ?_⟩
    rw [same] at nameless
    exact nameless
  · refine ⟨globals ▸ absent, fun _ _ _ same => ?_⟩
    rw [same] at nameless
    exact nameless

end Told

namespace Stands

theorem congr (h : s.Stands past stage) (function : s'.function = s.function)
    (blocks : s'.blocks = s.blocks) (block : s'.block = s.block) : s'.Stands past stage where
  begun := h.begun
  function := function ▸ h.function
  inside := function ▸ h.inside
  unopened := h.unopened
  blocks := function ▸ blocks ▸ h.blocks
  noBlock := blocks ▸ h.noBlock
  block := function ▸ block ▸ h.block

theorem registrations_append_ne_nil (h : s.Stands past stage) (begun : stage ≠ .start)
    (more : List Move) : Moves.registrations (past ++ more) ≠ [] := by
  rw [Moves.registrations_append]
  intro none
  exact begun (h.begun.mp (List.append_eq_nil_iff.mp none).1)

theorem append (h : s.Stands past stage) (begun : stage ≠ .start) (steady : ∀ m ∈ more, m.Steady) :
    s.Stands (past ++ more) stage := by
  have within : ∀ m ∈ more, m.header? = none := fun m member => (steady m member).header?_eq_none
  have body := Moves.body_append past within
  exact {
    begun := iff_of_false (h.registrations_append_ne_nil begun more) begun
    function := fun e current => (h.function e current).append within
    inside := h.inside
    unopened := fun here m member => by
      rw [body] at member
      exact (List.mem_append.mp member).elim (h.unopened here m) (steady m)
    blocks := fun here e x b current found => body ▸ (h.blocks here e x b current found).append more
    noBlock := fun here x absent m member => by
      rw [body] at member
      rcases List.mem_append.mp member with old | new
      · exact h.noBlock here x absent m old
      · rw [(steady m new).label?_eq_none]
        exact nofun
    block := fun e k current inside => (h.block e k current inside).append steady }

/-- Outside of bodies, only the function and the block of the last body are left. -/
theorem level (h : s.Stands past stage) (steady : ∀ m ∈ more, m.Steady)
    (begun : Moves.registrations (past ++ more) ≠ []) : s.Stands (past ++ more) .level where
  begun := iff_of_false begun nofun
  function e current :=
    (h.function e current).append fun m member => (steady m member).header?_eq_none
  inside := nofun
  unopened := nofun
  blocks := nofun
  noBlock := nofun
  block e k current inside := (h.block e k current inside).append steady

/-- A section begins, and its block becomes the current one. -/
theorem enter (h : s.Stands past stage) (begun : stage ≠ .start)
    (takes : next.TakesInstructions) {label : Option String} {function : FunctionEntry}
    {k : BlockId} (within : ∀ m ∈ more, m.header? = none) (current : s.function = some function)
    (same : s'.function = some function) (inside : s'.block = some k)
    (last : Moves.label? (Moves.body past ++ more) = some label)
    (block : BlockOf (Moves.body past ++ more) label function.id k)
    (blocks : next.TakesBlocks → ∀ x b, s'.blocks.lookup? x = some b →
      BlockOf (Moves.body past ++ more) (some x) function.id b.id)
    (noBlock : next.TakesBlocks → ∀ x, s'.blocks.lookup? x = none →
      ∀ m ∈ Moves.body past ++ more, m.label? ≠ some (some x)) :
    s'.Stands (past ++ more) next := by
  rw [← Moves.body_append past within] at last block blocks noBlock
  exact {
    begun := by
      refine iff_of_false (h.registrations_append_ne_nil begun more) ?_
      rcases takes with rfl | rfl <;> simp
    function := fun e here => by
      cases same.symm.trans here
      exact (h.function function current).append within
    inside := fun _ => by rw [same]; rfl
    unopened := fun here => by
      rcases takes with rfl | rfl <;> cases here
    blocks := fun here e x b there found => by
      cases same.symm.trans there
      exact blocks here x b found
    noBlock := noBlock
    block := fun e k' here there => by
      cases same.symm.trans here
      cases inside.symm.trans there
      exact ⟨label, last, block⟩ }

end Stands

namespace Tracks

theorem reports (h : s.Tracks past stage) {ds : List Diagnostic} (reported : s.Reports ds s') :
    s'.Tracks past stage := by
  rw [reported.same]
  exact ⟨⟨h.told.calls, h.told.obeys, h.told.functions, h.told.noFunction, h.told.noGlobal⟩,
    h.stands.congr rfl rfl rfl⟩

/-- No call is made. -/
theorem silent (h : s.Tracks past stage) :
    ∃ calls, s.Tracks (past ++ Moves.ofCalls calls) stage :=
  ⟨[], (List.append_nil past).symm ▸ h⟩

/-- After the first call, no other is the one of the module. -/
theorem first (h : s.Tracks past stage) (begun : stage ≠ .start)
    (other : ∀ name, r ≠ .module name) :
    (∃ name, r = .module name) ↔ Moves.registrations past = [] :=
  iff_of_false (fun ⟨name, same⟩ => other name same) (mt h.stands.begun.mp begun)

theorem read (h : s.Tracks past stage) (begun : stage ≠ .start) (statement : Statement)
    (steady : (Move.read statement).Steady) : s.Tracks (past ++ [.read statement]) stage :=
  ⟨h.told.read statement, h.stands.append begun (List.forall_mem_singleton.mpr steady)⟩

/-- A call that is allowed and begins nothing. -/
theorem call (h : s.Tracks past stage) (begun : stage ≠ .start) (told : s'.Told (past ++ [.call r]))
    (steady : (Move.call r).Steady) (function : s'.function = s.function)
    (blocks : s'.blocks = s.blocks) (block : s'.block = s.block) :
    ∃ calls, s'.Tracks (past ++ Moves.ofCalls calls) stage :=
  ⟨[r], told, (h.stands.append begun (List.forall_mem_singleton.mpr steady)).congr function blocks
    block⟩

/-- The section that begins is read for the first time, and a block is registered for it. -/
theorem addBlock (h : s.Tracks past stage) (takes : stage.TakesBlocks)
    (further : next.TakesInstructions) {statement : Statement} {label : Option String}
    {function : FunctionEntry} {signature : Signature} {k : BlockId}
    (opens : (Move.read statement).label? = some label)
    (within : (Move.read statement).header? = none)
    (unread : ∀ m ∈ Moves.body past, m.label? ≠ some label) (current : s.function = some function)
    (registered : s'.target.registrations =
      s.target.registrations.push (.block function.id signature k))
    (functions : s'.functions = s.functions) (globals : s'.globals = s.globals)
    (same : s'.function = s.function) (inside : s'.block = some k)
    (blocks : next.TakesBlocks → ∀ x b, s'.blocks.lookup? x = some b →
      s.blocks.lookup? x = some b ∨ some x = label ∧ b.id = k)
    (noBlock : next.TakesBlocks → ∀ x, s'.blocks.lookup? x = none →
      s.blocks.lookup? x = none ∧ some x ≠ label) :
    ∃ calls, s'.Tracks (past ++ [.read statement] ++ Moves.ofCalls calls) next := by
  have begun := takes.ne_start
  have fits : CurrentFunction (past ++ [.read statement]) function.id :=
    (h.stands.function function current).append (List.forall_mem_singleton.mpr within)
  have first := h.stands.registrations_append_ne_nil begun [.read statement]
  have allowed : Allowed (past ++ [.read statement]) (.block function.id signature k) :=
    ⟨iff_of_false nofun first, fits⟩
  have told : s'.Told (past ++ [.read statement] ++ [.call (.block function.id signature k)]) :=
    (h.told.read statement).nameless allowed trivial registered functions globals
  have block : BlockOf
      (Moves.body past ++ [.read statement, .call (.block function.id signature k)])
      label function.id k :=
    ⟨Moves.body past, .read statement, signature, [], rfl, opens, unread⟩
  have last : Moves.label?
      (Moves.body past ++ [.read statement, .call (.block function.id signature k)]) =
      some label := by
    rw [List.append_cons, Moves.label?_append _ (List.forall_mem_singleton.mpr rfl)]
    exact Moves.label?_label _ opens
  refine ⟨[.block function.id signature k], told, ?_⟩
  rw [List.append_assoc]
  refine h.stands.enter begun further ?_ current (same.trans current) inside last block
    (fun here x b found => ?_) fun here x absent m member => ?_
  · exact List.forall_mem_cons.mpr ⟨within, List.forall_mem_singleton.mpr rfl⟩
  · rcases blocks here x b found with old | ⟨rfl, rfl⟩
    · exact (h.stands.blocks takes function x b current old).append _
    · exact block
  · obtain ⟨old, other⟩ := noBlock here x absent
    rcases List.mem_append.mp member with before | new
    · exact h.stands.noBlock takes x old m before
    · rcases List.mem_pair.mp new with rfl | rfl
      · rw [opens]
        exact fun same => other (Option.some.inj same).symm
      · exact nofun

end Tracks

theorem start_tracks (lines : LineMap) (vocabulary : Vocabulary) (target : σ) :
    (start lines vocabulary (Logged.start target)).Tracks [] .start where
  told := ⟨rfl, fun before r after split => by simp at split, nofun,
    fun _ _ _ _ => List.not_mem_nil, fun _ _ _ _ _ => List.not_mem_nil⟩
  stands := ⟨iff_of_true rfl rfl, nofun, nofun, nofun, nofun, nofun, nofun⟩

variable [Builder σ]

/-! ## Declarations -/

theorem Tracks.declareGlobal (h : s.Tracks past stage) (begun : stage ≠ .start) (ident : Ident)
    (mutability : Mutability) (data : List UInt8) :
    ∃ calls, (s.declareGlobal ident mutability data).2.Tracks (past ++ Moves.ofCalls calls)
      stage := by
  by_cases taken : s.globals.contains ident.name = true
  · rw [declareGlobal_of_contains taken]
    exact (h.reports (.report s _)).silent
  · rw [declareGlobal_of_not_contains taken]
    have allowed : Allowed past (.global ident.name mutability data
        (Builder.addGlobal s.target ident.name mutability data).1) :=
      ⟨h.first begun nofun, h.told.noGlobal _ taken⟩
    refine h.call begun (h.told.call allowed rfl (fun _ _ => .inl)
      (fun _ absent => ⟨absent, nofun⟩) fun x absent => ?_) trivial rfl rfl rfl
    rw [NameTable.contains_insert, not_or] at absent
    refine ⟨absent.1, fun _ _ _ same => absent.2 ?_⟩
    cases same
    rfl

/-- A mention registers the function unless it is known.  It belongs to no body: the scope need not
stand where the moves are. -/
theorem Told.mentionFunction (h : s.Told past) (begun : Moves.registrations past ≠ [])
    (ident : Ident) (signature : Signature) :
    ∃ calls, (∀ m ∈ Moves.ofCalls calls, m.Steady) ∧
      (s.mentionFunction ident signature).2.Told (past ++ Moves.ofCalls calls) ∧
      .call (.function ident.name (s.mentionFunction ident signature).1.signature
        (s.mentionFunction ident signature).1.id) ∈ past ++ Moves.ofCalls calls := by
  cases found : s.functions.lookup? ident.name with
  | some entry =>
    have known := h.functions ident.name entry found
    rw [mentionFunction_of_eq_some found]
    refine ⟨[], nofun, ?_, List.mem_append_left _ known⟩
    simp only [Moves.ofCalls, List.map_nil, List.append_nil]
    split
    · exact h
    · exact ⟨h.calls, h.obeys, h.functions, h.noFunction, h.noGlobal⟩
  | none =>
    rw [mentionFunction_of_eq_none found]
    have allowed : Allowed past (.function ident.name signature
        (Builder.addFunction s.target ident.name signature).1) :=
      ⟨iff_of_false nofun begun, h.noFunction _ found⟩
    refine ⟨[.function ident.name signature _], List.forall_mem_singleton.mpr trivial,
      h.call allowed rfl (fun x e bound => ?_) (fun x absent => ?_)
        fun _ absent => ⟨absent, nofun⟩, List.mem_append_right _ ?_⟩
    · rw [NameTable.lookup?_insert, Option.or_eq_some_iff] at bound
      rcases bound with old | ⟨-, new⟩
      · exact .inl old
      · split at new
        next same =>
          cases new
          cases same
          exact .inr rfl
        next => cases new
    · rw [NameTable.lookup?_insert, Option.or_eq_none_iff] at absent
      refine ⟨absent.1, fun _ _ same => ?_⟩
      cases same
      simp at absent
    · exact List.mem_cons_self

theorem mentionFunction_function (s : Scope σ) (ident : Ident) (signature : Signature) :
    (s.mentionFunction ident signature).2.function = s.function ∧
      (s.mentionFunction ident signature).2.blocks = s.blocks ∧
      (s.mentionFunction ident signature).2.block = s.block := by
  unfold mentionFunction
  split
  · dsimp only
    split <;> exact ⟨rfl, rfl, rfl⟩
  · exact ⟨rfl, rfl, rfl⟩

theorem Tracks.mentionFunction (h : s.Tracks past stage) (begun : stage ≠ .start) (ident : Ident)
    (signature : Signature) :
    ∃ calls, (s.mentionFunction ident signature).2.Tracks (past ++ Moves.ofCalls calls) stage := by
  obtain ⟨calls, steady, told, -⟩ :=
    h.told.mentionFunction (mt h.stands.begun.mp begun) ident signature
  obtain ⟨function, blocks, block⟩ := s.mentionFunction_function ident signature
  exact ⟨calls, told, (h.stands.append begun steady).congr function blocks block⟩

/-- A header begins a body in which nothing has happened but the registration of its function. -/
theorem Tracks.declareFunction (h : s.Tracks past stage) (begun : stage ≠ .start) (ident : Ident)
    (signature : Signature) :
    ∃ calls, (s.declareFunction ident signature).2.Tracks
      (past ++ [.read (.function ident signature)] ++ Moves.ofCalls calls) .body := by
  have read := h.told.read (.function ident signature)
  obtain ⟨calls, steady, told, registered⟩ := read.mentionFunction
    (h.stands.registrations_append_ne_nil begun _) ident signature
  have within : ∀ m ∈ Moves.ofCalls calls, m.header? = none :=
    fun m member => (steady m member).header?_eq_none
  have body : Moves.body (past ++ [.read (.function ident signature)] ++ Moves.ofCalls calls) =
      Moves.ofCalls calls := by
    rw [Moves.body_append _ within, Moves.body_header _ rfl, List.nil_append]
  refine ⟨calls, ⟨told.calls, told.obeys, told.functions, told.noFunction, told.noGlobal⟩, ?_⟩
  exact {
    begun := by
      rw [List.append_assoc]
      exact iff_of_false (h.stands.registrations_append_ne_nil begun _) nofun
    function := fun e current => by
      cases current
      refine ⟨ident.name, _, ?_, registered⟩
      rw [Moves.header?_append _ within]
      exact Moves.header?_header _ rfl
    inside := fun _ => rfl
    unopened := fun _ => by rwa [body]
    blocks := fun _ _ _ _ _ => nofun
    noBlock := fun _ x _ m member => by
      rw [body] at member
      rw [(steady m member).label?_eq_none]
      exact nofun
    block := fun _ _ _ => nofun }

theorem Tracks.declareLocal (h : s.Tracks past .body) (ident : Ident) :
    ∃ calls, (s.declareLocal ident).2.Tracks (past ++ Moves.ofCalls calls) .body := by
  cases current : s.function with
  | none =>
    simp only [Scope.declareLocal, current]
    exact h.silent
  | some function =>
    by_cases taken : s.locals.contains ident.name = true
    · rw [declareLocal_of_contains current taken]
      exact (h.reports (.report s _)).silent
    · rw [declareLocal_of_not_contains current taken]
      have allowed : Allowed past (.localName function.id ident.name
          (Builder.addLocal s.target function.id ident.name).1) :=
        ⟨h.first (by simp) (by simp), h.stands.function function current, fun _ _ _ =>
          h.stands.unopened rfl _⟩
      exact h.call (by simp) (h.told.nameless allowed trivial rfl rfl rfl) trivial rfl rfl rfl

/-! ## Blocks -/

theorem Tracks.declareBlock (h : s.Tracks past stage) (takes : stage.TakesBlocks) (ident : Ident)
    (signature : Signature) :
    ∃ calls, (s.declareBlock ident signature).2.Tracks
      (past ++ [.read (.block ident signature)] ++ Moves.ofCalls calls) .labelled := by
  obtain ⟨function, current⟩ := Option.isSome_iff_exists.mp (h.stands.inside takes)
  cases found : s.blocks.lookup? ident.name with
  | some entry =>
    have begun := takes.ne_start
    have read := h.told.read (.block ident signature)
    have known := h.stands.blocks takes function ident.name entry current found
    rw [declareBlock_of_eq_some current found]
    refine ⟨[], ?_⟩
    simp only [Moves.ofCalls, List.map_nil, List.append_nil]
    refine ⟨⟨read.calls, read.obeys, read.functions, read.noFunction, read.noGlobal⟩, ?_⟩
    refine h.stands.enter begun (.inr rfl) (List.forall_mem_singleton.mpr rfl) current current rfl
      (Moves.label?_label _ rfl) (known.append _) (fun _ x b bound => ?_)
      fun _ x absent m member => ?_
    · exact (h.stands.blocks takes function x b current bound).append _
    · rcases List.mem_append.mp member with old | new
      · exact h.stands.noBlock takes x absent m old
      · cases List.mem_singleton.mp new
        rintro ⟨⟩
        cases found.symm.trans absent
  | none =>
    rw [declareBlock_of_eq_none current found]
    refine h.addBlock takes (.inr rfl) rfl rfl (h.stands.noBlock takes ident.name found) current
      rfl rfl rfl rfl rfl (fun _ x b bound => ?_) fun _ x absent => ?_
    · rw [NameTable.lookup?_insert, Option.or_eq_some_iff] at bound
      rcases bound with old | ⟨-, new⟩
      · exact .inl old
      · split at new
        next same =>
          cases new
          exact .inr ⟨congrArg some same, rfl⟩
        next => cases new
    · rw [NameTable.lookup?_insert, Option.or_eq_none_iff] at absent
      refine ⟨absent.1, fun same => ?_⟩
      cases same
      simp at absent

theorem Tracks.enterEntryBlock (h : s.Tracks past .body) :
    ∃ calls, s.enterEntryBlock.2.Tracks
      (past ++ [.read .entryBlock] ++ Moves.ofCalls calls) .entry := by
  obtain ⟨function, current⟩ := Option.isSome_iff_exists.mp (h.stands.inside (.inl rfl))
  rw [enterEntryBlock_of_current current]
  refine h.addBlock (.inl rfl) (.inl rfl) rfl rfl (fun m member => ?_) current rfl rfl rfl rfl rfl
    nofun nofun
  rw [(h.stands.unopened rfl m member).label?_eq_none]
  exact nofun

/-! ## Instructions -/

theorem Tracks.emit (h : s.Tracks past stage) (begun : stage ≠ .start) (i : Instruction) :
    ∃ calls, (s.emit i).Tracks (past ++ Moves.ofCalls calls) stage := by
  cases current : s.function with
  | none =>
    have same : s.emit i = s := by simp only [Scope.emit, current]
    rw [same]
    exact h.silent
  | some function =>
    cases inside : s.block with
    | none =>
      have same : s.emit i = s := by simp only [Scope.emit, current, inside]
      rw [same]
      exact h.silent
    | some k =>
      have allowed : Allowed past (.instruction function.id k i) :=
        ⟨h.first begun (by simp), h.stands.function function current,
          h.stands.block function k current inside⟩
      rw [emit_of_current current inside]
      exact h.call begun (h.told.nameless allowed trivial rfl rfl rfl) trivial rfl rfl rfl

theorem Tracks.call_step (h : s.Tracks past stage) (begun : stage ≠ .start) (target : Ident)
    (signature : Option Signature) :
    ∃ calls, (s.step (.call target signature)).Tracks (past ++ Moves.ofCalls calls) stage := by
  cases signature with
  | some signature =>
    obtain ⟨calls, mentioned⟩ := h.mentionFunction begun target signature
    obtain ⟨more, emitted⟩ := mentioned.emit begun
      (.call (s.mentionFunction target signature).1.id)
    refine ⟨calls ++ more, ?_⟩
    rwa [Moves.ofCalls, List.map_append, ← List.append_assoc]
  | none =>
    simp only [Scope.step, referenceFunction, resolve]
    cases s.functions.lookup? target.name with
    | some entry => exact h.emit begun _
    | none => exact (h.reports (.report s _)).silent

theorem Tracks.operation (h : s.Tracks past stage) (begun : stage ≠ .start) (head : Ident)
    (arguments : List Argument) (closed : Bool) :
    ∃ calls, (s.step (.operation head arguments closed)).Tracks (past ++ Moves.ofCalls calls)
      stage := by
  obtain ⟨ds, first⟩ := exists_reports_resolve s s.vocabulary.operations .operation head
  obtain ⟨ds', others⟩ := exists_reports_resolveArguments (s.resolveOperation head).2 arguments
  have looked := (h.reports first).reports others
  simp only [Scope.step]
  split
  · exact looked.emit begun _
  · exact looked.silent

/-! ## The run -/

/-- Whatever statement comes in its place, the calls that it causes are allowed. -/
theorem Tracks.step (h : s.Tracks past stage) {statement : Statement}
    (order : stage.next? statement = some next) :
    ∃ calls, (s.step statement).Tracks (past ++ [.read statement] ++ Moves.ofCalls calls) next := by
  cases statement with
  | «module» name =>
    obtain ⟨rfl, rfl⟩ := Stage.next?_module order
    have none := h.stands.begun.mpr rfl
    have allowed : Allowed (past ++ [.read (.module name)]) (.module name) := by
      refine ⟨iff_of_true ⟨name, rfl⟩ ?_, trivial⟩
      rw [Moves.registrations_read, none]
    refine ⟨[.module name], (h.told.read _).nameless allowed trivial rfl rfl rfl, ?_⟩
    rw [List.append_assoc]
    refine (h.stands.level ?_ ?_).congr rfl rfl rfl
    · exact List.forall_mem_cons.mpr ⟨trivial, List.forall_mem_singleton.mpr trivial⟩
    · rw [Moves.registrations_append, none]
      exact List.cons_ne_nil _ _
  | global ident mutability data =>
    obtain ⟨begun, rfl⟩ := Stage.next?_global order
    obtain ⟨calls, tracks⟩ := (h.read begun (.global ident mutability data) trivial).declareGlobal
      begun ident mutability data
    have level := tracks.stands.level (List.forall_mem_nil _)
      (tracks.stands.registrations_append_ne_nil begun [])
    rw [List.append_nil] at level
    exact ⟨calls, tracks.told, level⟩
  | function ident signature =>
    obtain ⟨begun, rfl⟩ := Stage.next?_function order
    exact h.declareFunction begun ident signature
  | localName ident =>
    obtain ⟨rfl, rfl⟩ := Stage.next?_localName order
    exact (h.read nofun (.localName ident) trivial).declareLocal ident
  | block ident signature =>
    obtain ⟨takes, rfl⟩ := Stage.next?_block order
    exact h.declareBlock takes ident signature
  | entryBlock =>
    obtain ⟨rfl, rfl⟩ := Stage.next?_entryBlock order
    exact h.enterEntryBlock
  | call target signature =>
    obtain ⟨takes, rfl⟩ := Stage.next?_call order
    exact (h.read takes.ne_start (.call target signature) trivial).call_step takes.ne_start target
      signature
  | operation head arguments closed =>
    obtain ⟨takes, rfl⟩ := Stage.next?_operation order
    exact (h.read takes.ne_start (.operation head arguments closed) trivial).operation
      takes.ne_start head arguments closed

theorem Tracks.run (h : s.Tracks past stage) {statements : List Statement}
    (order : stage.after? statements = some next) :
    (s.run statements).Tracks (past ++ s.moves statements) next := by
  induction statements generalizing s past stage with
  | nil =>
    cases order
    rwa [Scope.moves, List.append_nil]
  | cons statement rest ih =>
    obtain ⟨middle, here, order⟩ := Option.bind_eq_some_iff.mp order
    obtain ⟨calls, tracks⟩ := h.step here
    -- The calls of this step are those that the record has gained.
    have gained : (s.step statement).target.registrations.toList =
        s.target.registrations.toList ++ calls := by
      rw [← tracks.told.calls, Moves.registrations_append, Moves.registrations_read,
        Moves.registrations_ofCalls, h.told.calls]
    have new : (s.step statement).target.registrations.toList.drop s.target.registrations.size =
        calls := by
      rw [gained, ← Array.length_toList, List.drop_left]
    rw [Scope.moves, new, List.append_cons, ← List.append_assoc]
    exact ih tracks order

theorem statements_moves (s : Scope (Logged σ)) (statements : List Statement) :
    Moves.statements (s.moves statements) = statements := by
  induction statements generalizing s with
  | nil => rfl
  | cons statement rest ih =>
    rw [Scope.moves]
    change statement :: Moves.statements (Moves.ofCalls _ ++ _) = _
    rw [Moves.statements_append, Moves.statements_ofCalls, List.nil_append, ih]

end Scope

/-- The builder is called by the rules of `Allowed`, whatever the source text is and wherever its
reading ends.  A text that is accepted has its module begun, once and before everything else. -/
theorem elaborate_protocol {σ : Type} [Builder σ] (settings : Settings) (target : σ) (source : String) :
    Obeys (moves settings target source) ∧
      Moves.statements (moves settings target source) =
        (Statement.read settings.maxDataBytes source).items ∧
      Moves.registrations (moves settings target source) = calls settings target source ∧
      ((elaborate settings target source).1.isOk = true →
        ∃ name rest, calls settings target source = .module name :: rest ∧
          ∀ other, .module other ∉ rest) := by
  obtain ⟨stage, order, accepted⟩ := Statement.read_leads settings.maxDataBytes source
  have tracks := (Scope.start_tracks (.ofString source) settings.vocabulary target).run order
  rw [List.nil_append] at tracks
  have registered : Moves.registrations (moves settings target source) =
      calls settings target source := by
    refine tracks.told.calls.trans ?_
    unfold calls elaborate
    dsimp only
    split <;> rfl
  refine ⟨tracks.told.obeys, Scope.statements_moves _ _, registered, fun ok => ?_⟩
  obtain ⟨stop, read⟩ := elaborate_isOk_iff.mp ok
  have later := accepted (by rw [read]; rfl)
  rcases tracks.told.obeys.registrations with none | some
  · exact absurd (tracks.stands.begun.mp none) later
  · exact registered ▸ some

end SigilAsm
