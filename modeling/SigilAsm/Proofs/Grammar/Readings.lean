import SigilAsm.Proofs.Grammar.Data

/-! # What the readings of a source read

A reading that no fault ends reads the lexemes of a tree and gives the
statements of that tree, for bodies, declarations and whole modules.

Every repetition of the grammar is an instance of `repeatWhile_eq_ok_iff`: items
are read for as long as the next token begins one, so what has to be known of a
repetition is how its items begin.
-/

namespace SigilAsm

namespace Reading

variable {α β : Type} {c next : Cursor} {items : List α}

theorem andThen_eq_ok_iff {r : Reading α} {more : Cursor → Reading α} :
    r.andThen more = ⟨items, .ok next⟩ ↔ ∃ first middle rest, r = ⟨first, .ok middle⟩ ∧
      more middle = ⟨rest, .ok next⟩ ∧ items = first ++ rest := by
  obtain ⟨first, result⟩ := r
  cases result with
  | error e => simp [andThen]
  | ok middle =>
    constructor
    · intro h
      simp only [andThen, mk.injEq] at h
      obtain ⟨rfl, done⟩ := h
      exact ⟨first, middle, (more middle).items, rfl, by rw [← done], rfl⟩
    · rintro ⟨_, _, rest, ⟨⟩, read, rfl⟩
      simp only [andThen, read]

theorem one_eq_ok_iff {r : Rule α} :
    one r c = ⟨items, .ok next⟩ ↔ ∃ a, r.run c = .ok (a, next) ∧ items = [a] := by
  unfold one
  split
  next a next' read =>
    simp only [read, mk.injEq, Except.ok.injEq, Prod.mk.injEq]
    constructor
    · rintro ⟨rfl, rfl⟩
      exact ⟨a, ⟨rfl, rfl⟩, rfl⟩
    · rintro ⟨_, ⟨rfl, rfl⟩, rfl⟩
      exact ⟨rfl, rfl⟩
  next e read => simp [read, refuse]

theorem mark_eq_ok_iff (m : Mark) :
    mark m.kind c = ⟨items, .ok next⟩ ↔ c.Spells [.mark m] next ∧ items = [] := by
  unfold mark
  constructor
  · intro h
    split at h
    next t next' read =>
      cases h
      exact ⟨Rule.spells_of_run_mark m read, rfl⟩
    next => cases h
  · rintro ⟨h, rfl⟩
    obtain ⟨t, read⟩ := Rule.run_mark_of_spells h
    rw [read]

theorem byNext_eq_ok_iff {choose : Token → Cursor → Reading α} :
    byNext choose c = ⟨items, .ok next⟩ ↔
      ∃ t, c.peek = .ok t ∧ choose t c = ⟨items, .ok next⟩ := by
  unfold byNext
  cases c.peek with
  | error e => simp [refuse]
  | ok t => simp

theorem repeatWhile_cons {goesOn : Token → Bool} {item : Cursor → Reading α} {h : Advances item}
    {middle : Cursor} {t : Token} {first : List α} (peeked : c.peek = .ok t)
    (on : goesOn t = true) (read : item c = ⟨first, .ok middle⟩) :
    repeatWhile goesOn item h c =
      ⟨first ++ (repeatWhile goesOn item h middle).items,
        (repeatWhile goesOn item h middle).result⟩ := by
  have result : (item c).result = .ok middle := by rw [read]
  rw [repeatWhile, peeked]
  dsimp only
  rw [if_pos on]
  split
  next e failed => cases result.symm.trans failed
  next middle' result' =>
    cases result.symm.trans result'
    rw [read]

/-- Where the items of a repetition come next, they are read, and the repetition goes on after
them. -/
theorem repeatWhile_of_spells {goesOn : Token → Bool} {item : Cursor → Reading α}
    {h : Advances item} {statements : β → List α} {lexemes : β → List Lexeme} {bs : List β}
    (reads : ∀ b ∈ bs, ∀ {c next}, c.Spells (lexemes b) next → item c = ⟨statements b, .ok next⟩)
    (begins : ∀ b, ∃ l ls, lexemes b = l :: ls ∧ ¬ l.IsByte ∧
      ∀ t : Token, t.Shows l → goesOn t = true)
    (spells : c.Spells (bs.flatMap lexemes) next) :
    repeatWhile goesOn item h c =
      ⟨bs.flatMap statements ++ (repeatWhile goesOn item h next).items,
        (repeatWhile goesOn item h next).result⟩ := by
  induction bs generalizing c with
  | nil =>
    cases Cursor.Spells.nil_iff.mp spells
    rfl
  | cons b bs ih =>
    obtain ⟨middle, first, rest⟩ := Cursor.Spells.append_iff.mp spells
    -- The reader looks at one token only, so how the item begins has to tell it apart.
    obtain ⟨l, ls, isCons, token, shown⟩ := begins b
    obtain ⟨t, peeked, shows⟩ := Cursor.peek_of_spells (isCons ▸ first) token
    have more := ih (fun b' member => reads b' (List.mem_cons_of_mem _ member)) rest
    rw [repeatWhile_cons peeked (shown t shows) (reads b List.mem_cons_self first), more,
      List.flatMap_cons, List.append_assoc]

/-- How a repetition goes on: the items it repeats are the `b` with `p b`, each of which is read
from its lexemes and begins in a way that no end of the repetition does. -/
theorem repeatWhile_eq_ok_iff {goesOn : Token → Bool} {item : Cursor → Reading α}
    {h : Advances item} (p : β → Prop) (statements : β → List α) (lexemes : β → List Lexeme)
    (reads : ∀ {c next items}, item c = ⟨items, .ok next⟩ ↔
      ∃ b, p b ∧ items = statements b ∧ c.Spells (lexemes b) next)
    (begins : ∀ b, ∃ l ls, lexemes b = l :: ls ∧ ¬ l.IsByte ∧
      ∀ t : Token, t.Shows l → goesOn t = true) :
    repeatWhile goesOn item h c = ⟨items, .ok next⟩ ↔
      ∃ bs : List β, (∀ b ∈ bs, p b) ∧ items = bs.flatMap statements ∧
        c.Spells (bs.flatMap lexemes) next ∧ ∃ t, next.peek = .ok t ∧ goesOn t = false := by
  constructor
  · intro read
    fun_induction repeatWhile goesOn item h c generalizing items with
    | case1 => cases read
    | case2 => cases read
    | case3 c t peeked on middle itemRead rest =>
      rename_i ih
      simp only [mk.injEq] at read
      obtain ⟨rfl, done⟩ := read
      obtain ⟨b, hb, first, spells⟩ := reads.mp (show item c = ⟨(item c).items, .ok middle⟩ by
        rw [← itemRead])
      obtain ⟨bs, hbs, others, spells', stop⟩ := @ih rest.items (by rw [← done])
      refine ⟨b :: bs, ?_, by rw [List.flatMap_cons, ← first, ← others],
        spells.append spells', stop⟩
      intro b' member
      rcases List.mem_cons.mp member with rfl | member
      · exact hb
      · exact hbs b' member
    -- The next token goes on with no item, which is where the lexemes end as well.
    | case4 c t peeked covers =>
      cases read
      exact ⟨[], by simp, rfl, .nil _, t, peeked, by simpa using covers⟩
  · rintro ⟨bs, hbs, rfl, spells, t, peeked, covers⟩
    have stopped : repeatWhile goesOn item h next = ⟨[], .ok next⟩ := by
      rw [repeatWhile, peeked]
      simp [covers]
    rw [repeatWhile_of_spells (fun b member _ _ first => reads.mpr ⟨b, hbs b member, rfl, first⟩)
      begins spells, stopped, List.append_nil]

end Reading

namespace Grammar

open Reading (andThen_eq_ok_iff one_eq_ok_iff mark_eq_ok_iff byNext_eq_ok_iff
  repeatWhile_eq_ok_iff)

variable {c next : Cursor}

/-! ## Instructions -/

theorem nextArguments_eq_ok_iff {args : List Argument} :
    Reading.repeatWhile (·.kind == .comma) (.one nextArgument)
        (Reading.advances_one advances_nextArgument) c = ⟨args, .ok next⟩ ↔
      c.Spells (args.flatMap fun a => [.mark .comma, Tree.argumentLexeme a]) next ∧
        ∃ t, next.peek = .ok t ∧ (t.kind == .comma) = false := by
  rw [repeatWhile_eq_ok_iff (fun _ => True) (fun a => [a])
    (fun a => [.mark .comma, Tree.argumentLexeme a])]
  · simp only [implies_true, true_and, List.flatMap_singleton']
    constructor
    · rintro ⟨_, rfl, h⟩
      exact h
    · intro h
      exact ⟨args, rfl, h⟩
  · intro c next items
    rw [one_eq_ok_iff]
    simp only [true_and, run_nextArgument_eq_ok, and_comm]
  · intro a
    refine ⟨_, _, rfl, id, ?_⟩
    intro t kind
    rw [show t.kind = .comma from kind]
    rfl

theorem closedArguments_eq_ok_iff {args : List Argument} :
    (arguments c).andThen (.mark .semicolon) = ⟨args, .ok next⟩ ↔
      c.Spells (Tree.argumentLexemes args ++ [.mark .semicolon]) next := by
  rw [andThen_eq_ok_iff]
  constructor
  · rintro ⟨args, middle, _, read, closed, rfl⟩
    obtain ⟨semicolon, rfl⟩ := (mark_eq_ok_iff .semicolon).mp closed
    rw [List.append_nil, Cursor.Spells.append_iff]
    refine ⟨middle, ?_, semicolon⟩
    obtain ⟨t, peeked, h⟩ := byNext_eq_ok_iff.mp read
    split at h
    next =>
      cases h
      exact .nil _
    next =>
      obtain ⟨first, after, rest, one, more, rfl⟩ := andThen_eq_ok_iff.mp h
      obtain ⟨a, single, rfl⟩ := one_eq_ok_iff.mp one
      exact (run_argument_eq_ok.mp single).append (nextArguments_eq_ok_iff.mp more).1
  · intro h
    obtain ⟨middle, read, semicolon⟩ := Cursor.Spells.append_iff.mp h
    refine ⟨args, middle, [], ?_, (mark_eq_ok_iff .semicolon).mpr ⟨semicolon, rfl⟩, by simp⟩
    cases args with
    | nil =>
      cases Cursor.Spells.nil_iff.mp read
      obtain ⟨t, peeked, kind⟩ := Cursor.peek_of_spells semicolon id
      refine byNext_eq_ok_iff.mpr ⟨t, peeked, ?_⟩
      rw [if_pos (show t.kind = .semicolon from kind)]
    | cons a args =>
      obtain ⟨after, first, rest⟩ := Cursor.Spells.cons_iff.mp read
      obtain ⟨t, peeked, shows⟩ := Cursor.peek_of_spells first (argumentLexeme_not_isByte a)
      -- No argument begins with a semicolon, so the list of arguments is not taken for empty.
      have kind : t.kind ≠ .semicolon := by
        intro kind
        have same := shows.unique (show t.Shows (.mark .semicolon) from kind)
        cases a <;> cases same
      refine byNext_eq_ok_iff.mpr ⟨t, peeked, ?_⟩
      rw [if_neg kind]
      obtain ⟨t', peeked', kind'⟩ := Cursor.peek_of_spells semicolon id
      refine andThen_eq_ok_iff.mpr ⟨[a], after, args,
        one_eq_ok_iff.mpr ⟨a, run_argument_eq_ok.mpr first, rfl⟩, ?_, rfl⟩
      refine nextArguments_eq_ok_iff.mpr ⟨rest, t', peeked', ?_⟩
      rw [show t'.kind = .semicolon from kind']
      rfl

theorem operation_eq_ok_iff {items : List Statement} :
    operation c = ⟨items, .ok next⟩ ↔ ∃ head args, items = [.operation head args true] ∧
      c.Spells (Tree.Instruction.operation head args).lexemes next := by
  unfold operation
  constructor
  · intro h
    split at h
    next => cases h
    next head after read =>
      simp only [Reading.mk.injEq] at h
      obtain ⟨rfl, done⟩ := h
      generalize closed : (arguments after).andThen (.mark .semicolon) = list at done
      obtain ⟨args, result⟩ := list
      cases done
      exact ⟨head, args, rfl,
        (Rule.run_ident_eq_ok.mp read).append (closedArguments_eq_ok_iff.mp closed)⟩
  · rintro ⟨head, args, rfl, h⟩
    obtain ⟨after, read, h⟩ := Cursor.Spells.cons_iff.mp h
    rw [Rule.run_ident_eq_ok.mpr read]
    dsimp only
    rw [closedArguments_eq_ok_iff.mpr h]
    rfl

theorem instruction_eq_ok_iff {items : List Statement} :
    instruction c = ⟨items, .ok next⟩ ↔
      ∃ i : Tree.Instruction, items = [i.statement] ∧ c.Spells i.lexemes next := by
  constructor
  · intro h
    obtain ⟨t, peeked, h⟩ := byNext_eq_ok_iff.mp h
    split at h
    next =>
      obtain ⟨_, read, rfl⟩ := one_eq_ok_iff.mp h
      obtain ⟨target, signature, rfl, spells⟩ := run_callInstruction_eq_ok.mp read
      exact ⟨.call target signature, rfl, spells⟩
    next =>
      split at h
      next =>
        obtain ⟨head, args, rfl, spells⟩ := operation_eq_ok_iff.mp h
        exact ⟨.operation head args, rfl, spells⟩
      next =>
        obtain ⟨_, ⟨⟩, _⟩ := one_eq_ok_iff.mp h
  · rintro ⟨i, rfl, h⟩
    cases i with
    | call target signature =>
      obtain ⟨t, peeked, shows⟩ := Cursor.peek_of_spells h id
      refine byNext_eq_ok_iff.mpr ⟨t, peeked, ?_⟩
      rw [if_pos (Rule.isWord_iff.mpr shows)]
      exact one_eq_ok_iff.mpr
        ⟨_, run_callInstruction_eq_ok.mpr ⟨target, signature, rfl, h⟩, rfl⟩
    | operation head args =>
      obtain ⟨t, peeked, shows⟩ := Cursor.peek_of_spells h id
      refine byNext_eq_ok_iff.mpr ⟨t, peeked, ?_⟩
      have other : ¬ t.isWord "call" = true := fun isWord => by
        cases shows.unique (Rule.isWord_iff.mp isWord)
      rw [if_neg other, if_pos shows.1]
      exact operation_eq_ok_iff.mpr ⟨head, args, rfl, h⟩

/-- An instruction begins with a word or a name, and no list of instructions ends with one. -/
theorem instruction_begins (i : Tree.Instruction) : ∃ l ls, i.lexemes = l :: ls ∧ ¬ l.IsByte ∧
    ∀ t : Token, t.Shows l → (t.kind != .closeBrace) = true := by
  cases i <;>
  · refine ⟨_, _, rfl, id, ?_⟩
    rintro t ⟨kind, _⟩
    rw [kind]
    rfl

theorem instructions_eq_ok_iff {items : List Statement} :
    instructions c = ⟨items, .ok next⟩ ↔ ∃ list : List Tree.Instruction,
      items = list.map Tree.Instruction.statement ∧
      c.Spells (list.flatMap Tree.Instruction.lexemes) next ∧
      ∃ t, next.peek = .ok t ∧ t.kind = .closeBrace := by
  rw [instructions, repeatWhile_eq_ok_iff (fun _ => True) (fun i => [i.statement])
    Tree.Instruction.lexemes]
  · simp only [implies_true, true_and, bne_eq_false_iff_eq, List.map_eq_flatMap]
  · intro c next items
    rw [instruction_eq_ok_iff]
    simp only [true_and]
  · exact instruction_begins

theorem peek_closeBrace {ls : List Lexeme} {stop : Cursor}
    (h : c.Spells (.mark .closeBrace :: ls) stop) : ∃ t, c.peek = .ok t ∧ t.kind = .closeBrace :=
  Cursor.peek_of_spells h id

theorem peek_not_word {l : Lexeme} {ls : List Lexeme} {stop : Cursor} {word : String}
    (h : c.Spells (l :: ls) stop) (token : ¬ l.IsByte) (other : l ≠ .word word) :
    ∃ t, c.peek = .ok t ∧ t.isWord word = false := by
  obtain ⟨t, peeked, shows⟩ := Cursor.peek_of_spells h token
  refine ⟨t, peeked, ?_⟩
  rw [← Bool.not_eq_true, Rule.isWord_iff]
  exact fun same => other (shows.unique same)

/-! ## Bodies -/

theorem blockBody_eq_ok_iff {items : List Statement} :
    blockBody c = ⟨items, .ok next⟩ ↔ ∃ list : List Tree.Instruction,
      items = list.map Tree.Instruction.statement ∧
      c.Spells (.mark .openBrace ::
        (list.flatMap Tree.Instruction.lexemes ++ [.mark .closeBrace])) next := by
  constructor
  · intro h
    obtain ⟨_, c₂, _, inner, closed, rfl⟩ := andThen_eq_ok_iff.mp h
    obtain ⟨_, c₁, _, opened, read, rfl⟩ := andThen_eq_ok_iff.mp inner
    obtain ⟨openBrace, rfl⟩ := (mark_eq_ok_iff .openBrace).mp opened
    obtain ⟨closeBrace, rfl⟩ := (mark_eq_ok_iff .closeBrace).mp closed
    obtain ⟨list, rfl, spells, _⟩ := instructions_eq_ok_iff.mp read
    exact ⟨list, by simp, openBrace.append (spells.append closeBrace)⟩
  · rintro ⟨list, rfl, h⟩
    obtain ⟨c₁, opened, h⟩ := Cursor.Spells.cons_iff.mp h
    obtain ⟨c₂, spells, closed⟩ := Cursor.Spells.append_iff.mp h
    refine andThen_eq_ok_iff.mpr ⟨list.map Tree.Instruction.statement, c₂, [],
      andThen_eq_ok_iff.mpr ⟨[], c₁, _, (mark_eq_ok_iff .openBrace).mpr ⟨opened, rfl⟩, ?_, rfl⟩,
      (mark_eq_ok_iff .closeBrace).mpr ⟨closed, rfl⟩, by simp⟩
    exact instructions_eq_ok_iff.mpr ⟨list, rfl, spells, peek_closeBrace closed⟩

theorem block_eq_ok_iff {items : List Statement} :
    block c = ⟨items, .ok next⟩ ↔
      ∃ b : Tree.Block, items = b.statements ∧ c.Spells b.lexemes next := by
  constructor
  · intro h
    obtain ⟨t, peeked, h⟩ := byNext_eq_ok_iff.mp h
    split at h
    next =>
      obtain ⟨_, middle, _, header, read, rfl⟩ := andThen_eq_ok_iff.mp h
      obtain ⟨_, headerRead, rfl⟩ := one_eq_ok_iff.mp header
      obtain ⟨label, signature, rfl, spells⟩ := spells_of_run_header
        (f := fun name signature => .block name (signature.getD .none)) headerRead
      obtain ⟨list, rfl, more⟩ := blockBody_eq_ok_iff.mp read
      exact ⟨⟨label, signature, list⟩, rfl, spells.append more⟩
    next => obtain ⟨_, ⟨⟩, _⟩ := one_eq_ok_iff.mp h
  · rintro ⟨⟨label, signature, list⟩, rfl, h⟩
    obtain ⟨t, peeked, shows⟩ := Cursor.peek_of_spells h id
    obtain ⟨middle, header, more⟩ := run_header_of_spells
      (fun name signature => .block name (signature.getD .none)) h id (by simp)
    refine byNext_eq_ok_iff.mpr ⟨t, peeked, ?_⟩
    rw [if_pos (Rule.isWord_iff.mpr shows)]
    exact andThen_eq_ok_iff.mpr ⟨_, middle, _, one_eq_ok_iff.mpr ⟨_, header, rfl⟩,
      blockBody_eq_ok_iff.mpr ⟨list, rfl, more⟩, rfl⟩

theorem blocks_eq_ok_iff {items : List Statement} :
    blocks c = ⟨items, .ok next⟩ ↔ ∃ list : List Tree.Block,
      items = list.flatMap Tree.Block.statements ∧ c.Spells (list.flatMap Tree.Block.lexemes) next ∧
      ∃ t, next.peek = .ok t ∧ t.kind = .closeBrace := by
  rw [blocks, repeatWhile_eq_ok_iff (fun _ => True) Tree.Block.statements Tree.Block.lexemes]
  · simp only [implies_true, true_and, bne_eq_false_iff_eq]
  · intro c next items
    rw [block_eq_ok_iff]
    simp only [true_and]
  · intro b
    refine ⟨_, _, rfl, id, ?_⟩
    rintro t ⟨kind, _⟩
    rw [kind]
    rfl

theorem locals_eq_ok_iff {items : List Statement} :
    locals c = ⟨items, .ok next⟩ ↔ ∃ names : List Ident, items = names.map .localName ∧
      c.Spells (names.flatMap Tree.localLexemes) next ∧
      ∃ t, next.peek = .ok t ∧ t.isWord "local" = false := by
  rw [locals, repeatWhile_eq_ok_iff (fun _ => True) (fun name => [.localName name])
    Tree.localLexemes]
  · simp only [implies_true, true_and, List.map_eq_flatMap]
  · intro c next items
    rw [one_eq_ok_iff]
    constructor
    · rintro ⟨_, read, rfl⟩
      obtain ⟨name, rfl, spells⟩ := run_line_eq_ok (f := .localName).mp read
      exact ⟨name, trivial, rfl, spells⟩
    · rintro ⟨name, -, rfl, spells⟩
      exact ⟨_, run_line_eq_ok.mpr ⟨name, rfl, spells⟩, rfl⟩
  · exact fun name => ⟨_, _, rfl, id, fun t shows => Rule.isWord_iff.mpr shows⟩

theorem blocksOrInstructions_eq_ok_iff {items : List Statement} :
    blocksOrInstructions c = ⟨items, .ok next⟩ ↔ ∃ b : Tree.Contents, items = b.statements ∧
      c.Spells b.lexemes next ∧ ∃ t, next.peek = .ok t ∧ t.kind = .closeBrace := by
  constructor
  · intro h
    obtain ⟨t, peeked, h⟩ := byNext_eq_ok_iff.mp h
    split at h
    next isBlock =>
      obtain ⟨list, rfl, spells, stop⟩ := blocks_eq_ok_iff.mp h
      cases list with
      | nil =>
        -- The next token is `block`, so it cannot be the closing brace at once.
        cases Cursor.Spells.nil_iff.mp spells
        obtain ⟨t', peeked', kind⟩ := stop
        cases peeked.symm.trans peeked'
        cases kind.symm.trans (Rule.isWord_iff.mp isBlock).1
      | cons first rest => exact ⟨.blocks first rest, rfl, spells, stop⟩
    next =>
      obtain ⟨_, middle, rest, entered, read, rfl⟩ := andThen_eq_ok_iff.mp h
      cases entered
      obtain ⟨list, rfl, spells, stop⟩ := instructions_eq_ok_iff.mp read
      exact ⟨.instructions list, rfl, spells, stop⟩
  · rintro ⟨b, rfl, spells, t, peeked, kind⟩
    cases b with
    | blocks first rest =>
      obtain ⟨t', peeked', shows⟩ := Cursor.peek_of_spells spells id
      refine byNext_eq_ok_iff.mpr ⟨t', peeked', ?_⟩
      rw [if_pos (Rule.isWord_iff.mpr shows)]
      exact blocks_eq_ok_iff.mpr ⟨first :: rest, rfl, spells, t, peeked, kind⟩
    | instructions list =>
      -- Neither an instruction nor the closing brace is the word that begins a block.
      have begins : ∃ t', c.peek = .ok t' ∧ t'.isWord "block" = false := by
        rcases list with _ | ⟨⟨⟩ | ⟨⟩, list⟩
        · cases Cursor.Spells.nil_iff.mp spells
          exact ⟨t, peeked, by simp [Token.isWord, kind]⟩
        · exact peek_not_word spells id (by simp)
        · exact peek_not_word spells id (by simp)
      obtain ⟨t', peeked', other⟩ := begins
      refine byNext_eq_ok_iff.mpr ⟨t', peeked', ?_⟩
      rw [if_neg (by simp [other])]
      exact andThen_eq_ok_iff.mpr ⟨[.entryBlock], c, _, rfl,
        instructions_eq_ok_iff.mpr ⟨list, rfl, spells, t, peeked, kind⟩, rfl⟩

theorem contents_begin (b : Tree.Contents) {ls : List Lexeme} {stop : Cursor}
    (h : c.Spells (b.lexemes ++ .mark .closeBrace :: ls) stop) :
    ∃ t, c.peek = .ok t ∧ t.isWord "local" = false := by
  rcases b with ⟨first, rest⟩ | _ | ⟨⟨⟩ | ⟨⟩, list⟩ <;> exact peek_not_word h id (by simp)

theorem body_eq_ok_iff {items : List Statement} :
    body c = ⟨items, .ok next⟩ ↔
      ∃ b : Tree.Body, items = b.statements ∧ c.Spells b.lexemes next := by
  constructor
  · intro h
    obtain ⟨_, c₃, _, inner, closed, rfl⟩ := andThen_eq_ok_iff.mp h
    obtain ⟨_, c₂, _, front, contents, rfl⟩ := andThen_eq_ok_iff.mp inner
    obtain ⟨_, c₁, _, opened, declared, rfl⟩ := andThen_eq_ok_iff.mp front
    obtain ⟨openBrace, rfl⟩ := (mark_eq_ok_iff .openBrace).mp opened
    obtain ⟨closeBrace, rfl⟩ := (mark_eq_ok_iff .closeBrace).mp closed
    obtain ⟨names, rfl, spells, _⟩ := locals_eq_ok_iff.mp declared
    obtain ⟨b, rfl, more, _⟩ := blocksOrInstructions_eq_ok_iff.mp contents
    exact ⟨⟨names, b⟩, by simp [Tree.Body.statements],
      openBrace.append (spells.append (more.append closeBrace))⟩
  · rintro ⟨⟨names, b⟩, rfl, h⟩
    obtain ⟨c₁, opened, h⟩ := Cursor.Spells.cons_iff.mp h
    obtain ⟨c₂, spells, h⟩ := Cursor.Spells.append_iff.mp h
    have begins := contents_begin b h
    obtain ⟨c₃, more, closed⟩ := Cursor.Spells.append_iff.mp h
    refine andThen_eq_ok_iff.mpr ⟨_, c₃, [], ?_, (mark_eq_ok_iff .closeBrace).mpr ⟨closed, rfl⟩,
      (List.append_nil _).symm⟩
    refine andThen_eq_ok_iff.mpr ⟨names.map .localName, c₂, b.statements, ?_,
      blocksOrInstructions_eq_ok_iff.mpr ⟨b, rfl, more, peek_closeBrace closed⟩, rfl⟩
    exact andThen_eq_ok_iff.mpr ⟨[], c₁, _, (mark_eq_ok_iff .openBrace).mpr ⟨opened, rfl⟩,
      locals_eq_ok_iff.mpr ⟨names, rfl, spells, begins⟩, rfl⟩

/-! ## Declarations -/

variable {limit : Nat}

theorem run_globalDefinition_eq_ok {s : Statement} :
    (globalDefinition limit).run c = .ok (s, next) ↔ ∃ mutability name, ∃ data : Tree.Data,
      data.Admissible limit ∧ s = .global name mutability data.bytes ∧
      c.Spells (Tree.Declaration.global mutability name data).lexemes next := by
  constructor
  · intro h
    obtain ⟨_, c₁, keyword, h⟩ := Rule.run_bind_eq_ok.mp h
    obtain ⟨constant, c₂, marked, h⟩ := Rule.run_bind_eq_ok.mp h
    obtain ⟨name, c₃, read, h⟩ := Rule.run_bind_eq_ok.mp h
    obtain ⟨_, c₄, equals, h⟩ := Rule.run_bind_eq_ok.mp h
    obtain ⟨bytes, c₅, expression, h⟩ := Rule.run_bind_eq_ok.mp h
    obtain ⟨_, c₆, semicolon, h⟩ := Rule.run_bind_eq_ok.mp h
    obtain ⟨rfl, rfl⟩ := Rule.run_pure_eq_ok.mp h
    obtain ⟨data, rfl, spells, admissible⟩ := Rule.exists_tree_of_run_dataExpression expression
    exact ⟨_, name, data, admissible, rfl, (Rule.run_keyword_eq_ok.mp keyword).append <|
      (Rule.spells_of_run_const? marked).append <| (Rule.run_ident_eq_ok.mp read).append <|
      (Rule.spells_of_run_mark .equals equals).append <| spells.append <|
      Rule.spells_of_run_mark .semicolon semicolon⟩
  · rintro ⟨mutability, name, data, admissible, rfl, h⟩
    obtain ⟨c₁, keyword, h⟩ := Cursor.Spells.cons_iff.mp h
    obtain ⟨constant, c₂, marked, rfl, named⟩ := Rule.run_const?_of_spells h id (by simp)
    obtain ⟨c₃, read, h⟩ := Cursor.Spells.cons_iff.mp named
    obtain ⟨c₄, equals, h⟩ := Cursor.Spells.cons_iff.mp h
    obtain ⟨c₅, spells, h⟩ := Cursor.Spells.append_iff.mp h
    -- Data ends where no comma follows, and here a semicolon does.
    have stop : c₅.peekChar ≠ some ',' := by
      rw [Rule.peekChar_of_spells_mark h]
      decide
    obtain ⟨_, equals⟩ := Rule.run_mark_of_spells equals
    obtain ⟨_, semicolon⟩ := Rule.run_mark_of_spells h
    exact Rule.run_bind_eq_ok.mpr ⟨_, c₁, Rule.run_keyword_eq_ok.mpr keyword,
      Rule.run_bind_eq_ok.mpr ⟨constant, c₂, marked,
      Rule.run_bind_eq_ok.mpr ⟨name, c₃, Rule.run_ident_eq_ok.mpr read,
      Rule.run_bind_eq_ok.mpr ⟨_, c₄, equals,
      Rule.run_bind_eq_ok.mpr ⟨_, c₅, Rule.run_dataExpression_of_spells spells stop admissible,
      Rule.run_bind_eq_ok.mpr ⟨_, next, semicolon, rfl⟩⟩⟩⟩⟩⟩

theorem functionRest_eq_ok_iff {items : List Statement} :
    functionRest c = ⟨items, .ok next⟩ ↔ ∃ b : Option Tree.Body,
      items = Tree.restStatements b ∧ c.Spells (Tree.restLexemes b) next := by
  constructor
  · intro h
    obtain ⟨t, peeked, h⟩ := byNext_eq_ok_iff.mp h
    split at h
    next =>
      obtain ⟨semicolon, rfl⟩ := (mark_eq_ok_iff .semicolon).mp h
      exact ⟨none, rfl, semicolon⟩
    next =>
      split at h
      next =>
        obtain ⟨b, rfl, spells⟩ := body_eq_ok_iff.mp h
        exact ⟨some b, rfl, spells⟩
      next => obtain ⟨_, ⟨⟩, _⟩ := one_eq_ok_iff.mp h
  · rintro ⟨b, rfl, h⟩
    cases b with
    | none =>
      obtain ⟨t, peeked, kind⟩ := Cursor.peek_of_spells h id
      refine byNext_eq_ok_iff.mpr ⟨t, peeked, ?_⟩
      rw [if_pos (show t.kind = .semicolon from kind)]
      exact (mark_eq_ok_iff .semicolon).mpr ⟨h, rfl⟩
    | some b =>
      obtain ⟨t, peeked, kind⟩ := Cursor.peek_of_spells h id
      have opened : t.kind = .openBrace := kind
      refine byNext_eq_ok_iff.mpr ⟨t, peeked, ?_⟩
      rw [if_neg (by simp [opened]), if_pos opened]
      exact body_eq_ok_iff.mpr ⟨b, rfl, h⟩

theorem declaration_eq_ok_iff {items : List Statement} :
    declaration limit c = ⟨items, .ok next⟩ ↔ ∃ d : Tree.Declaration,
      d.Admissible limit ∧ items = d.statements ∧ c.Spells d.lexemes next := by
  constructor
  · intro h
    obtain ⟨t, peeked, h⟩ := byNext_eq_ok_iff.mp h
    split at h
    next =>
      obtain ⟨_, read, rfl⟩ := one_eq_ok_iff.mp h
      obtain ⟨mutability, name, data, admissible, rfl, spells⟩ :=
        run_globalDefinition_eq_ok.mp read
      exact ⟨.global mutability name data, admissible, rfl, spells⟩
    next =>
      split at h
      next =>
        obtain ⟨_, middle, _, header, rest, rfl⟩ := andThen_eq_ok_iff.mp h
        obtain ⟨_, headerRead, rfl⟩ := one_eq_ok_iff.mp header
        obtain ⟨name, signature, rfl, spells⟩ := spells_of_run_header
          (f := fun name signature => .function name (signature.getD .none)) headerRead
        obtain ⟨b, rfl, more⟩ := functionRest_eq_ok_iff.mp rest
        exact ⟨.function name signature b, trivial, rfl, spells.append more⟩
      next => obtain ⟨_, ⟨⟩, _⟩ := one_eq_ok_iff.mp h
  · rintro ⟨d, admissible, rfl, h⟩
    cases d with
    | global mutability name data =>
      obtain ⟨t, peeked, shows⟩ := Cursor.peek_of_spells h id
      refine byNext_eq_ok_iff.mpr ⟨t, peeked, ?_⟩
      rw [if_pos (Rule.isWord_iff.mpr shows)]
      exact one_eq_ok_iff.mpr
        ⟨_, run_globalDefinition_eq_ok.mpr ⟨mutability, name, data, admissible, rfl, h⟩, rfl⟩
    | function name signature b =>
      obtain ⟨t, peeked, shows⟩ := Cursor.peek_of_spells h id
      have other : ¬ t.isWord "global" = true := fun isWord => by
        simpa using shows.unique (Rule.isWord_iff.mp isWord)
      have header : ∃ middle, functionHeader.run c =
          .ok (.function name (signature.getD .none), middle) ∧
          middle.Spells (Tree.restLexemes b) next := by
        cases b <;> exact run_header_of_spells
          (fun name signature => .function name (signature.getD .none)) h id (by simp)
      obtain ⟨middle, header, more⟩ := header
      refine byNext_eq_ok_iff.mpr ⟨t, peeked, ?_⟩
      rw [if_neg other, if_pos (Rule.isWord_iff.mpr shows)]
      exact andThen_eq_ok_iff.mpr ⟨_, middle, _, one_eq_ok_iff.mpr ⟨_, header, rfl⟩,
        functionRest_eq_ok_iff.mpr ⟨b, rfl, more⟩, rfl⟩

/-! ## Modules -/

/-- A declaration begins with a word, and no source ends with one. -/
theorem declaration_begins (d : Tree.Declaration) : ∃ l ls, d.lexemes = l :: ls ∧ ¬ l.IsByte ∧
    ∀ t : Token, t.Shows l → (t.kind != .endOfInput) = true := by
  cases d <;>
  · refine ⟨_, _, rfl, id, ?_⟩
    rintro t ⟨kind, _⟩
    rw [kind]
    rfl

theorem declarations_eq_ok_iff {items : List Statement} :
    Reading.repeatWhile (·.kind != .endOfInput) (declaration limit) (advances_declaration limit) c =
        ⟨items, .ok next⟩ ↔
      ∃ list : List Tree.Declaration, (∀ d ∈ list, d.Admissible limit) ∧
        items = list.flatMap Tree.Declaration.statements ∧
        c.Spells (list.flatMap Tree.Declaration.lexemes) next ∧ Trivia next.rest [] := by
  rw [repeatWhile_eq_ok_iff (fun d : Tree.Declaration => d.Admissible limit)
    Tree.Declaration.statements Tree.Declaration.lexemes declaration_eq_ok_iff declaration_begins]
  simp only [bne_eq_false_iff_eq, Cursor.peek_endOfInput_iff]

theorem wholeModule_eq_ok_iff {items : List Statement} :
    wholeModule limit c = ⟨items, .ok next⟩ ↔ ∃ m : Tree.Module,
      (∀ d ∈ m.declarations, d.Admissible limit) ∧ items = m.statements ∧
      c.Spells m.lexemes next ∧ Trivia next.rest [] := by
  constructor
  · intro h
    obtain ⟨_, middle, _, header, rest, rfl⟩ := andThen_eq_ok_iff.mp h
    obtain ⟨_, headerRead, rfl⟩ := one_eq_ok_iff.mp header
    obtain ⟨name, rfl, spells⟩ := run_line_eq_ok (f := fun name => .module name.name).mp headerRead
    obtain ⟨list, admissible, rfl, more, stop⟩ := declarations_eq_ok_iff.mp rest
    exact ⟨⟨name, list⟩, admissible, rfl, spells.append more, stop⟩
  · rintro ⟨⟨name, list⟩, admissible, rfl, h, stop⟩
    obtain ⟨middle, spells, more⟩ :=
      Cursor.Spells.append_iff.mp (show c.Spells ([_, _, _] ++ _) next from h)
    exact andThen_eq_ok_iff.mpr ⟨[.module name.name], middle, _,
      one_eq_ok_iff.mpr ⟨_, run_line_eq_ok.mpr ⟨name, rfl, spells⟩, rfl⟩,
      declarations_eq_ok_iff.mpr ⟨list, admissible, rfl, more, stop⟩, rfl⟩

/-- Where the lexemes of a tree come first, its statements are read, whatever comes after them. -/
theorem exists_items_wholeModule_of_spells {m : Tree.Module}
    (admissible : ∀ d ∈ m.declarations, d.Admissible limit) (h : c.Spells m.lexemes next) :
    ∃ more, (wholeModule limit c).items = m.statements ++ more := by
  obtain ⟨middle, spells, declared⟩ :=
    Cursor.Spells.append_iff.mp (show c.Spells ([_, _, _] ++ _) next from h)
  have header : Reading.one moduleHeader c = ⟨[.module m.name.name], .ok middle⟩ :=
    one_eq_ok_iff.mpr ⟨_, run_line_eq_ok.mpr ⟨m.name, rfl, spells⟩, rfl⟩
  have reads : ∀ d ∈ m.declarations, ∀ {c next}, c.Spells d.lexemes next →
      declaration limit c = ⟨d.statements, .ok next⟩ := fun d member _ _ spells =>
    declaration_eq_ok_iff.mpr ⟨d, admissible d member, rfl, spells⟩
  simp only [wholeModule, Reading.andThen, header,
    Reading.repeatWhile_of_spells reads declaration_begins declared]
  exact ⟨_, rfl⟩

end Grammar

end SigilAsm
