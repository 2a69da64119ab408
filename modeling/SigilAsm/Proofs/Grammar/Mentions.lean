import SigilAsm.Proofs.Grammar.Faults
import SigilAsm.Proofs.Grammar.Readings

/-! # The names of a text, where they are written

A *mention* is a name as it stands in a text.  The mentions of a text that is a
sequence of lexemes come one after the other, and the statements that are read
of a text mention names in the order of the text.  This holds up to a fault as
well, which stands after everything that was mentioned before it.
-/

namespace SigilAsm

/-- `a.Precedes b`: all of `a` comes before all of `b`. -/
def Extent.Precedes (a b : Extent) : Prop := a.stop ≤ b.start

/-- A name where it is written. -/
structure Mention where
  sigil : Sigil
  ident : Ident
  deriving DecidableEq, Repr

def Lexeme.mentions : Lexeme → List Mention
  | name sigil ident => [⟨sigil, ident⟩]
  | _ => []

def Argument.mentions : Argument → List Mention
  | name sigil ident => [⟨sigil, ident⟩]
  | number _ => []

/-- The names that the statement mentions, in the order in which they are written.  The name of the
module is not among them, since nothing is ever said of it. -/
def Statement.mentions : Statement → List Mention
  | module _ => []
  | global ident _ _ => [⟨.global, ident⟩]
  | function ident _ => [⟨.global, ident⟩]
  | localName ident => [⟨.inner, ident⟩]
  | block ident _ => [⟨.inner, ident⟩]
  | entryBlock => []
  | call target _ => [⟨.global, target⟩]
  | operation head arguments _ => ⟨.builtin, head⟩ :: arguments.flatMap Argument.mentions

/-! ## The order of mentions -/

namespace Cursor

variable {c next : Cursor} {ls : List Lexeme}

theorem Over.offset_lt {text : List Char} (h : c.Over text next) (some : text ≠ []) :
    c.offset < next.offset := by
  rw [h.offset]
  cases text with
  | nil => cases some rfl
  | cons ch text =>
    have taken := Char.utf8Size_pos ch
    simp only [Utf8.byteLength_cons]
    omega

theorem Spells.readsTo (h : c.Spells ls next) : c.ReadsTo next := by
  induction h with
  | nil => exact .refl _
  | cons covers _ at_ _ ih => exact .trans ⟨_, covers⟩ (.trans ⟨_, at_.covers⟩ ih)

/-- A mention is written as a name in the text that was read, and tells the extent that it covers
there. -/
theorem Spells.exists_at_of_mem (h : c.Spells ls next) {m : Mention}
    (member : m ∈ ls.flatMap Lexeme.mentions) :
    ∃ start text stop, c.ReadsTo start ∧ (Lexeme.name m.sigil m.ident).At start text stop ∧
      stop.ReadsTo next := by
  induction h with
  | nil => cases member
  | @cons c start middle next gap text l ls covers _ at_ more ih =>
    rw [List.flatMap_cons] at member
    rcases List.mem_append.mp member with here | later
    · cases l with
      | name sigil ident =>
        cases List.mem_singleton.mp here
        exact ⟨start, text, middle, ⟨gap, covers⟩, at_, more.readsTo⟩
      | word _ | quoted _ | integer _ | string _ | byte _ | mark _ => cases here
    · obtain ⟨start', text', stop, reads, written, rest⟩ := ih later
      exact ⟨start', text', stop, .trans ⟨gap, covers⟩ (.trans ⟨text, at_.covers⟩ reads), written,
        rest⟩

/-- Mentions stand inside the text that was read, and have characters. -/
theorem Spells.mention_within (h : c.Spells ls next) :
    c.offset ≤ next.offset ∧ ∀ m ∈ ls.flatMap Lexeme.mentions,
      c.offset ≤ m.ident.extent.start ∧ m.ident.extent.start < m.ident.extent.stop ∧
        m.ident.extent.stop ≤ next.offset := by
  refine ⟨h.readsTo.offset_le, fun m member => ?_⟩
  obtain ⟨start, text, stop, reads, written, rest⟩ := h.exists_at_of_mem member
  have inside := written.covers.offset_lt written.spelling.ne_nil
  have located : m.ident.extent = .between start.offset stop.offset := written.located
  rw [located, Extent.between_of_le (Nat.le_of_lt inside)]
  exact ⟨reads.offset_le, inside, rest.offset_le⟩

/-- Mentions come one after the other. -/
theorem Spells.mentions_pairwise (h : c.Spells ls next) :
    (ls.flatMap Lexeme.mentions).Pairwise fun a b => a.ident.extent.Precedes b.ident.extent := by
  induction ls generalizing c with
  | nil => exact .nil
  | cons l ls ih =>
    obtain ⟨middle, first, rest⟩ := cons_iff.mp h
    have single : l.mentions.Pairwise fun a b => a.ident.extent.Precedes b.ident.extent := by
      cases l <;> simp [Lexeme.mentions]
    rw [List.flatMap_cons]
    refine List.pairwise_append.mpr ⟨single, ih rest, fun a here b later => ?_⟩
    have before := (first.mention_within.2 a (by simpa using here)).2.2
    exact Nat.le_trans before (rest.mention_within.2 b later).1

end Cursor

/-! ## Readings -/

namespace Reading

variable {α : Type} {mentions : α → List Mention} {c : Cursor}

/-- Reading goes on at `stop`, or was refused there or further on. -/
def EndsAt (stop : Cursor) : Except SyntaxError Cursor → Prop
  | .ok next => next = stop
  | .error e => e.Within stop

/-- Lexemes of the text mention what the items do, in the same order, and the reading ends right
after these lexemes or is refused there or further on. -/
def Situated (mentions : α → List Mention) (c : Cursor) (r : Reading α) : Prop :=
  ∃ ls stop, c.Spells ls stop ∧
    (r.items.flatMap mentions).Sublist (ls.flatMap Lexeme.mentions) ∧ EndsAt stop r.result

namespace Situated

theorem refuse {e : SyntaxError} (h : e.Within c) :
    Situated mentions c (Reading.refuse e) :=
  ⟨[], c, .nil c, List.nil_sublist _, h⟩

theorem one {r : Rule α} {P : α → Prop} (within : r.Within c P)
    (reads : ∀ {a next}, r.run c = .ok (a, next) →
      ∃ ls, c.Spells ls next ∧ (mentions a).Sublist (ls.flatMap Lexeme.mentions)) :
    Situated mentions c (Reading.one r c) := by
  have outcome := within c (.refl c)
  unfold Reading.one
  split
  · next a next read =>
    obtain ⟨ls, spells, inOrder⟩ := reads read
    exact ⟨ls, next, spells, by simpa using inOrder, rfl⟩
  · next e read =>
    rw [read] at outcome
    exact refuse outcome

theorem mark (m : Mark) : Situated mentions c (Reading.mark m.kind c) := by
  have outcome := Rule.within_expect m.kind c (.refl c)
  unfold Reading.mark
  split
  · next t next read =>
    exact ⟨[.mark m], next, Rule.spells_of_run_mark m read, List.nil_sublist _, rfl⟩
  · next e read =>
    rw [read] at outcome
    exact refuse outcome

theorem byNext {choose : Token → Cursor → Reading α}
    (h : ∀ t, c.peek = .ok t → Situated mentions c (choose t c)) :
    Situated mentions c (Reading.byNext choose c) := by
  have outcome := Rule.within_peek c (.refl c)
  unfold Reading.byNext
  split
  · next t read => exact h t read
  · next e read =>
    simp only [Rule.peek, StateT.run, read] at outcome
    exact refuse outcome

/-- Where something else comes next, that is where the fault stands. -/
theorem unexpected (expected : Expectation) {t : Token} (h : c.peek = .ok t) :
    Situated mentions c (Reading.one (Rule.unexpected expected t) c) := by
  have outcome := Rule.within_peek c (.refl c)
  simp only [Rule.peek, StateT.run, h] at outcome
  exact refuse (SyntaxError.within_of_frames (by simp) outcome.1)

theorem andThen {r : Reading α} {more : Cursor → Reading α} (first : Situated mentions c r)
    (rest : ∀ next, r.result = .ok next → Situated mentions next (more next)) :
    Situated mentions c (r.andThen more) := by
  obtain ⟨ls, stop, spells, inOrder, ends⟩ := first
  unfold Reading.andThen
  cases result : r.result with
  | error e =>
    rw [result] at ends
    exact ⟨ls, stop, spells, inOrder, ends⟩
  | ok next =>
    rw [result] at ends
    cases ends
    obtain ⟨ls', stop', spells', inOrder', ends'⟩ := rest stop result
    refine ⟨ls ++ ls', stop', spells.append spells', ?_, ends'⟩
    rw [List.flatMap_append, List.flatMap_append]
    exact inOrder.append inOrder'

theorem repeatWhile {goesOn : Token → Bool} {item : Cursor → Reading α} (advances : Advances item)
    (h : ∀ c, Situated mentions c (item c)) (c : Cursor) :
    Situated mentions c (Reading.repeatWhile goesOn item advances c) := by
  fun_induction Reading.repeatWhile goesOn item advances c with
  | case1 c e read =>
    have outcome := Rule.within_peek c (.refl c)
    simp only [Rule.peek, StateT.run, read] at outcome
    exact refuse outcome
  | case2 c t _ _ e result =>
    obtain ⟨ls, stop, spells, inOrder, ends⟩ := h c
    rw [result] at ends
    exact ⟨ls, stop, spells, inOrder, ends⟩
  | case3 c t _ _ middle result rest ih =>
    have both : Situated mentions c
        ((item c).andThen (Reading.repeatWhile goesOn item advances)) := by
      refine (h c).andThen fun next result' => ?_
      cases result.symm.trans result'
      exact ih
    simpa only [Reading.andThen, result] using both
  | case4 c => exact ⟨[], c, .nil c, List.nil_sublist _, rfl⟩

end Situated

end Reading

/-! ## The grammar -/

namespace Grammar

open Reading (Situated)

variable {c : Cursor}

theorem situated_line {word : String} {sigil : Sigil} {f : Ident → Statement}
    (mentions : ∀ name, (f name).mentions.Sublist [⟨sigil, name⟩]) :
    Situated Statement.mentions c (Reading.one (do
      Rule.keyword word
      let name ← Rule.ident sigil
      let _ ← Rule.expect .semicolon
      return f name) c) := by
  refine .one within_line fun read => ?_
  obtain ⟨name, rfl, spells⟩ := run_line_eq_ok.mp read
  exact ⟨_, spells, mentions name⟩

theorem situated_header {word : String} {sigil : Sigil}
    {f : Ident → Option Signature → Statement}
    (mentions : ∀ name signature, (f name signature).mentions = [⟨sigil, name⟩]) :
    Situated Statement.mentions c (Reading.one (do
      Rule.keyword word
      let name ← Rule.ident sigil
      let signature ← Rule.signature?
      return f name signature) c) := by
  refine .one within_header fun read => ?_
  obtain ⟨name, signature, rfl, spells⟩ := spells_of_run_header read
  refine ⟨_, spells, ?_⟩
  rw [mentions]
  exact (List.nil_sublist _).cons_cons _

/-! ### Instructions -/

theorem situated_arguments (c : Cursor) :
    Situated Argument.mentions c (arguments c) := by
  refine .byNext fun t peeked => ?_
  split
  · exact ⟨[], c, .nil c, List.nil_sublist _, rfl⟩
  · refine (Situated.one within_argument fun {a next} read => ?_).andThen fun next _ =>
      .repeatWhile _ (fun c => .one within_nextArgument fun {a next} read => ?_) next
    · exact ⟨_, run_argument_eq_ok.mp read, by cases a <;> exact .refl _⟩
    · exact ⟨_, run_nextArgument_eq_ok.mp read, by cases a <;> exact .refl _⟩

theorem situated_operation (c : Cursor) : Situated Statement.mentions c (operation c) := by
  have outcome := Rule.within_ident .builtin c (.refl c)
  unfold operation
  split
  · next e read =>
    rw [read] at outcome
    exact .refuse outcome
  · next head middle read =>
    have spells := Rule.run_ident_eq_ok.mp read
    have closed : Situated Argument.mentions middle
        ((arguments middle).andThen (.mark .semicolon)) :=
      (situated_arguments middle).andThen fun next _ => .mark .semicolon
    obtain ⟨ls, stop, spells', inOrder, ends⟩ := closed
    refine ⟨.name .builtin head :: ls, stop, spells.append spells', ?_, ends⟩
    simp only [List.flatMap_cons, List.flatMap_nil, List.append_nil, Statement.mentions,
      Lexeme.mentions, List.singleton_append]
    exact inOrder.cons_cons _

theorem situated_instruction (c : Cursor) : Situated Statement.mentions c (instruction c) := by
  refine .byNext fun t peeked => ?_
  split
  · refine .one within_callInstruction fun read => ?_
    obtain ⟨target, signature, rfl, spells⟩ := run_callInstruction_eq_ok.mp read
    exact ⟨_, spells, (List.nil_sublist _).cons_cons _⟩
  · split
    · exact situated_operation c
    · exact .unexpected _ peeked

theorem situated_instructions (c : Cursor) : Situated Statement.mentions c (instructions c) :=
  .repeatWhile _ situated_instruction c

/-! ### Bodies -/

theorem situated_block (c : Cursor) : Situated Statement.mentions c (block c) := by
  refine .byNext fun t peeked => ?_
  split
  · have inside (c : Cursor) : Situated Statement.mentions c (blockBody c) :=
      ((Situated.mark .openBrace).andThen fun next _ => situated_instructions next).andThen
        fun next _ => .mark .closeBrace
    exact (situated_header fun _ _ => rfl).andThen fun next _ => inside next
  · exact .unexpected _ peeked

theorem situated_blocksOrInstructions (c : Cursor) :
    Situated Statement.mentions c (blocksOrInstructions c) := by
  refine .byNext fun t peeked => ?_
  split
  · exact .repeatWhile _ situated_block c
  · have entered : Situated Statement.mentions c ⟨[.entryBlock], .ok c⟩ :=
      ⟨[], c, .nil c, List.nil_sublist _, rfl⟩
    exact entered.andThen fun next _ => situated_instructions next

theorem situated_body (c : Cursor) : Situated Statement.mentions c (body c) := by
  have named (c : Cursor) : Situated Statement.mentions c (locals c) :=
    .repeatWhile _ (fun c => situated_line fun _ => .refl _) c
  exact (((Situated.mark .openBrace).andThen fun next _ => named next).andThen
    fun next _ => situated_blocksOrInstructions next).andThen fun next _ => .mark .closeBrace

/-! ### Declarations -/

theorem situated_declaration (limit : Nat) (c : Cursor) :
    Situated Statement.mentions c (declaration limit c) := by
  refine .byNext fun t peeked => ?_
  split
  · refine .one (within_globalDefinition limit) fun read => ?_
    obtain ⟨mutability, name, data, -, rfl, spells⟩ := run_globalDefinition_eq_ok.mp read
    refine ⟨_, spells, ?_⟩
    cases mutability <;> exact (List.nil_sublist _).cons_cons _
  · split
    · refine (situated_header fun _ _ => rfl).andThen fun next _ => .byNext fun t peeked => ?_
      split
      · exact .mark .semicolon
      · split
        · exact situated_body next
        · exact .unexpected _ peeked
    · exact .unexpected _ peeked

theorem situated_wholeModule (limit : Nat) (c : Cursor) :
    Situated Statement.mentions c (wholeModule limit c) := by
  have header : Situated Statement.mentions c (Reading.one moduleHeader c) :=
    situated_line fun _ => List.nil_sublist _
  exact header.andThen fun next _ => .repeatWhile _ (situated_declaration limit) next

end Grammar

/-- What is read of a source mentions names in the order of the source, and a fault stands after
all of them. -/
theorem Statement.situated_read (limit : Nat) (source : String) :
    Reading.Situated Statement.mentions (.ofString source) (Statement.read limit source) := by
  unfold Statement.read
  split
  · exact Grammar.situated_wholeModule limit _
  · -- The fault of a source that is too long is told at its first place, which is the empty extent.
    have start : (Cursor.ofString source).Begins 0 :=
      Cursor.Settled.begins (.first rfl) (Cursor.ReadsTo.refl (.ofString source))
    exact .refuse (SyntaxError.within_of_frames (by simp) ⟨start, start⟩)

end SigilAsm
