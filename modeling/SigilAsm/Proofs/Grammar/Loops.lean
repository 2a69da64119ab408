import SigilAsm.Proofs.Grammar.DataSize
import SigilAsm.Proofs.Grammar.Thrift
import SigilAsm.Proofs.Grammar.Turns

/-! # The loops of the grammar make progress

For each rule of `Tracked`, that it follows its rule of `Grammar`.  The first
thing that the body of a loop does is to take characters, so every loop is one
that pays for its turns, and the whole module is read with as many turns as there
are characters (`Tracked.follows_wholeModule`).
-/

namespace SigilAsm

/-! ## Data expressions as rules -/

namespace Rule

variable {α β : Type} {c : Cursor}

theorem run_eq_map_advance (r : Rule α) (advances : r.Advances) (c : Cursor) :
    r.run c = (r.advance advances c).map Subtype.val := by
  cases read : r.run c with
  | error e =>
    rw [advance_of_run_error advances read]
    rfl
  | ok p =>
    rw [advance_of_run advances read]
    rfl

/-- Where the outcome of a rule is known with more besides, the rest goes on from it. -/
theorem run_bind_of_map {r : Rule α} {P : α × Cursor → Prop}
    {outcome : Except SyntaxError { p : α × Cursor // P p }}
    (h : r.run c = outcome.map Subtype.val) (f : α → Rule β) :
    (r >>= f).run c = outcome.bind fun p => (f p.1.1).run p.1.2 := by
  rw [StateT.run_bind, h]
  cases outcome with
  | error e => rfl
  | ok p => rfl

/-- The rest of an expression, `Rule.dataElements` without the proof that it advances. -/
def dataRest (limit depth used : Nat) : Rule (List UInt8) := fun c =>
  (dataElements limit depth used c).map Subtype.val

/-- As `dataRest`, for `Rule.dataElement`. -/
def dataFirst (limit depth used : Nat) : Rule (List UInt8) := fun c =>
  (dataElement limit depth used c).map Subtype.val

/-- The expression inside `depth` brackets. -/
def dataInside (limit depth : Nat) : Rule (List UInt8) := do
  let c ← get
  if maxDataDepth < depth then throw ⟨.dataTooDeep, .point c.skipTrivia.offset⟩
  else dataRest limit depth 0

theorem run_dataInside_of_lt {limit depth : Nat} (deep : maxDataDepth < depth) (c : Cursor) :
    (dataInside limit depth).run c = .error ⟨.dataTooDeep, .point c.skipTrivia.offset⟩ := by
  change StateT.run (if maxDataDepth < depth then _ else _) c = _
  rw [if_pos deep]
  rfl

theorem run_dataInside {limit depth : Nat} (shallow : depth ≤ maxDataDepth) (c : Cursor) :
    (dataInside limit depth).run c = (dataElements limit depth 0 c).map Subtype.val := by
  change StateT.run (if maxDataDepth < depth then _ else _) c = _
  rw [if_neg (Nat.not_lt_of_le shallow)]
  rfl

theorem dataExpression_eq (limit : Nat) : dataExpression limit = dataInside limit 0 := by
  funext c
  refine Eq.trans ?_ (run_dataInside (Nat.zero_le _) c).symm
  unfold dataExpression
  cases dataElements limit 0 0 c with
  | error e => rfl
  | ok p => rfl

theorem dataFirst_eq (limit depth used : Nat) : dataFirst limit depth used = (do
    let c ← get
    if c.peekChar = some '[' then do
      let _ ← expect .openBracket
      let contents ← dataInside limit (depth + 1)
      dataRepetition limit used c.skipTrivia.offset contents
    else dataLiteral limit used) := by
  funext c
  change (dataElement limit depth used c).map Subtype.val = StateT.run (if c.peekChar = some '['
    then _ else dataLiteral limit used) c
  unfold dataElement dataElementOf
  split
  · rw [run_bind_of_map (run_eq_map_advance _ (advances_expect (by simp)) c)]
    cases (expect .openBracket).advance (advances_expect (by simp)) c with
    | error e => rfl
    | ok p =>
      obtain ⟨⟨t, inside⟩, _⟩ := p
      dsimp only [Except.bind]
      by_cases deep : maxDataDepth ≤ depth
      · rw [if_pos deep, StateT.run_bind, run_dataInside_of_lt (by omega)]
        rfl
      · rw [if_neg deep, run_bind_of_map (run_dataInside (by omega) inside)]
        cases dataElements limit (depth + 1) 0 inside with
        | error e => rfl
        | ok p =>
          obtain ⟨⟨contents, closing⟩, _⟩ := p
          have advances := advances_dataRepetition limit used c.skipTrivia.offset contents
          dsimp only [Except.bind]
          rw [run_eq_map_advance _ advances closing]
          cases (dataRepetition limit used c.skipTrivia.offset contents).advance advances
            closing with
          | error e => rfl
          | ok p => rfl
  · exact (run_eq_map_advance _ _ c).symm

theorem dataRest_eq (limit depth used : Nat) : dataRest limit depth used = (do
    let bytes ← dataFirst limit depth used
    let after ← get
    if after.peekChar = some ',' then do
      let _ ← expect .comma
      let more ← dataRest limit depth (used + bytes.length)
      return bytes ++ more
    else return bytes) := by
  funext c
  change (dataElements limit depth used c).map Subtype.val = StateT.run (_ >>= _) c
  have first : (dataFirst limit depth used).run c =
    (dataElement limit depth used c).map Subtype.val := rfl
  rw [dataElements_eq, run_bind_of_map first]
  cases dataElement limit depth used c with
  | error e => rfl
  | ok p =>
    obtain ⟨⟨bytes, after⟩, _⟩ := p
    change _ = StateT.run (if after.peekChar = some ',' then _ else _) after
    dsimp only
    split
    · rw [run_bind_of_map (run_eq_map_advance _ (advances_expect (by simp)) after)]
      cases (expect .comma).advance (advances_expect (by simp)) after with
      | error e => rfl
      | ok p =>
        obtain ⟨⟨t, next⟩, _⟩ := p
        have rest : (dataRest limit depth (used + bytes.length)).run next =
          (dataElements limit depth (used + bytes.length) next).map Subtype.val := rfl
        dsimp only [Except.bind]
        rw [run_bind_of_map rest]
        cases dataElements limit depth (used + bytes.length) next with
        | error e => rfl
        | ok p => rfl
    · rfl

end Rule

namespace Tracked

variable {α : Type} {limit depth n : Nat}

/-! ## Data expressions -/

theorem follows_dataRepetition (used start : Nat) (contents : List UInt8) :
    Follows n 0 (ofRule (Rule.dataRepetition limit used start contents))
      (ofRule (Rule.dataRepetition limit used start contents)) := by
  refine follows_ofRule (fun c bytes next read => ?_)
    (Rule.advances_dataRepetition limit used start contents).keeps
  obtain ⟨_, _, _, spells⟩ := Rule.run_dataRepetition_eq_ok.mp read
  exact spells.readsTo

/-- The element that comes after the bytes `before`, together with these. -/
def oneElement (limit depth : Nat) (before : List UInt8) : Tracked (List UInt8) := do
  let bytes ← Rule.dataFirst limit depth before.length
  return before ++ bytes

theorem follows_element {inside : Tracked (List UInt8)}
    (h : Follows n 0 inside (ofRule (Rule.dataInside limit (depth + 1)))) (before : List UInt8) :
    Follows (n + 1) 1 (element limit inside before) (oneElement limit depth before) := by
  rw [oneElement, Rule.dataFirst_eq, liftM_eq, ofRule_bind, bind_assoc]
  apply follows_place.bind_of_spare
  intro c
  split
  · rw [ofRule_bind, bind_assoc]
    apply (follows_expect (by simp)).bind_inside
    intro _
    rw [ofRule_bind, bind_assoc]
    apply h.bind
    intro contents
    exact (follows_dataRepetition _ _ contents).bind fun bytes => follows_pure _
  · exact (follows_advances (Rule.advances_dataLiteral limit _)
      fun _ => Rule.within_dataLiteral limit _).bind fun bytes => follows_pure _

theorem follows_comma? : Follows n 0 comma? comma? := by
  apply follows_place.bind
  intro after
  split
  · exact (follows_expect (by simp)).keeps.bind fun _ => follows_pure _
  · exact follows_pure _

/-- What a turn over the elements reads. -/
def elementTurn (limit depth : Nat) (before : List UInt8) : Tracked (List UInt8 × Bool) := do
  let bytes ← oneElement limit depth before
  let more ← comma?
  return (bytes, more)

/-- The elements that come after the bytes `before`, together with these. -/
def elements (limit depth : Nat) (before : List UInt8) : Tracked (List UInt8) := do
  let bytes ← Rule.dataRest limit depth before.length
  return before ++ bytes

theorem elements_eq (before : List UInt8) :
    elements limit depth before = elementTurn limit depth before >>= fun outcome =>
      if outcome.2 then elements limit depth outcome.1 else pure outcome.1 := by
  rw [elements, Rule.dataRest_eq, elementTurn, oneElement, comma?]
  simp only [liftM_eq, ofRule_bind, ofRule_get, bind_assoc, pure_bind]
  refine bind_congr fun bytes => bind_congr fun after => ?_
  split
  · simp only [ofRule_bind, ofRule_pure, bind_assoc, pure_bind, elements, liftM_eq, if_true,
      List.length_append, List.append_assoc]
  · rfl

theorem follows_nextElement {inside : Tracked (List UInt8)}
    (h : Follows n 0 inside (ofRule (Rule.dataInside limit (depth + 1)))) (before : List UInt8) :
    Follows (n + 1) 1 (nextElement limit inside before) (elementTurn limit depth before) :=
  (follows_element h before).bind fun _ => follows_comma?.bind fun _ => follows_pure _

theorem elements_nil : elements limit depth [] = ofRule (Rule.dataRest limit depth 0) := by
  simp [elements, liftM_eq]

theorem follows_dataExpression {turns levels : Nat} (enough : levels ≤ turns)
    (shallow : depth ≤ maxDataDepth + 1) :
    Follows levels 0 (dataExpression turns limit levels depth)
      (ofRule (Rule.dataInside limit depth)) := by
  induction levels generalizing depth with
  | zero =>
    intro c none
    exact absurd none (Nat.not_lt_zero _)
  | succ levels ih =>
    have begun : Follows (levels + 1) 0 (note (.expression depth)) (pure ()) :=
      follows_expression shallow
    rw [← pure_bind () fun _ => ofRule (Rule.dataInside limit depth)]
    apply begun.bind
    intro _
    rw [Rule.dataInside, ofRule_bind]
    apply follows_place.bind
    intro c
    by_cases deep : maxDataDepth < depth
    · rw [if_pos deep, if_pos deep]
      exact follows_throw _
    · rw [if_neg deep, if_neg deep, ← elements_nil]
      have inside : Follows levels 0 (dataExpression turns limit levels (depth + 1))
          (ofRule (Rule.dataInside limit (depth + 1))) := ih (by omega) (by omega)
      exact Follows.repeatUntil .elements elements_eq (follows_nextElement inside) enough []

/-! ## Repetitions as loops

The grammar reads an item and then, in front of each further one, what says that it is there.  A
loop looks for that at the end of each turn. -/

/-- An argument, and those that follow with a comma in front of them. -/
def someArguments : Tracked Unit :=
  ofReading .argument fun c => (Reading.one Grammar.argument c).andThen <|
    .repeatWhile (·.kind == .comma) (.one Grammar.nextArgument)
      (Reading.advances_one Grammar.advances_nextArgument)

theorem someArguments_eq : someArguments = nextArgument >>= fun outcome =>
    if outcome.2 then someArguments else pure outcome.1 := by
  conv => lhs; rw [someArguments, ofReading_andThen, ofReading_one, ofReading_repeatWhile]
  simp only [nextArgument, liftM_eq, bind_assoc]
  refine bind_congr fun a => bind_congr fun _ => bind_congr fun t => ?_
  split
  · rw [someArguments, ofReading_andThen]
    simp only [Grammar.nextArgument, ofReading_one, ofRule_bind, bind_assoc, pure_bind, if_true]
  · rfl

theorem ofReading_operation : ofReading .statement Grammar.operation =
    ofRule (Rule.ident .builtin) >>= fun head => gather (.operation head) <|
      ofReading .argument fun c => (Grammar.arguments c).andThen (.mark .semicolon) := by
  funext c
  rw [run_ofRule_bind, ofReading, Grammar.operation]
  cases (Rule.ident .builtin).run c with
  | error e => rfl
  | ok p =>
    exact (gather_ofReading (.operation p.1)
      (fun c => (Grammar.arguments c).andThen (.mark .semicolon)) p.2).symm

/-- A block and what stands in it. -/
def wholeBlock : Cursor → Reading Statement := fun c =>
  (Reading.one Grammar.blockHeader c).andThen Grammar.blockBody

/-- A block, and those that follow it. -/
def someBlocks : Tracked Unit :=
  ofReading .statement fun c => (wholeBlock c).andThen Grammar.blocks

/-- What a turn over the blocks reads. -/
def blockTurn : Tracked (Unit × Bool) := do
  ofReading .statement wholeBlock
  let t ← Rule.peek
  if t.kind = .closeBrace then return ((), false)
  else if t.isWord "block" then return ((), true)
  else (Rule.unexpected .anotherBlock t : Rule (Unit × Bool))

/-- Whether another block is there is looked at twice, and the answers agree. -/
theorem ofReading_blocks : ofReading .statement Grammar.blocks =
    ofRule Rule.peek >>= fun t =>
      if t.kind = .closeBrace then pure ()
      else if t.isWord "block" then someBlocks
      else ofRule (Rule.unexpected .anotherBlock t) := by
  rw [Grammar.blocks, ofReading_repeatWhile]
  apply peek_bind_congr
  intro c t next
  by_cases closed : t.kind = .closeBrace
  · simp [closed]
  · have once : ofReading .statement Grammar.block = ofRule Rule.peek >>= fun t =>
        ofReading .statement fun c => if t.isWord "block" then wholeBlock c
          else Reading.one (Rule.unexpected .anotherBlock t) c := ofReading_byNext _ _
    rw [if_pos (by simpa using closed), if_neg closed, once, bind_assoc, run_peek_bind next,
      ofReading_ite]
    split
    · rw [someBlocks, ofReading_andThen]
      rfl
    · rfl

theorem someBlocks_eq : someBlocks = blockTurn >>= fun outcome =>
    if outcome.2 then someBlocks else pure outcome.1 := by
  conv => lhs; rw [someBlocks, ofReading_andThen, ofReading_blocks]
  simp only [blockTurn, liftM_eq, bind_assoc]
  refine bind_congr fun _ => bind_congr fun t => ?_
  split
  · rfl
  · split
    · rfl
    · rfl

theorem ofReading_blocksOrInstructions : ofReading .statement Grammar.blocksOrInstructions =
    ofRule Rule.peek >>= fun t =>
      if t.isWord "block" then someBlocks
      else note (.statement .entryBlock) >>= fun _ =>
        ofReading .statement Grammar.instructions := by
  rw [Grammar.blocksOrInstructions, ofReading_byNext]
  apply peek_bind_congr
  intro c t next
  rw [ofReading_ite]
  split
  · next first =>
    have other : t.kind ≠ .closeBrace := by
      intro closed
      simp [Token.isWord, closed] at first
    rw [ofReading_blocks, run_peek_bind next, if_neg other, if_pos first]
  · rw [ofReading_andThen]
    rfl

/-! ## The grammar -/

theorem follows_nextArgument : Follows n 1 nextArgument nextArgument := by
  refine (follows_advances Grammar.advances_argument fun _ => Grammar.within_argument).bind
    fun a => (follows_note rfl).bind fun _ => follows_peek.bind fun t => ?_
  split
  · exact (follows_expect (by simp)).keeps.bind fun _ => follows_pure _
  · exact follows_pure _

section

variable {turns : Nat} (enough : n ≤ turns)

include enough

theorem follows_arguments :
    Follows n 0 (arguments turns) (ofReading .argument Grammar.arguments) := by
  rw [Grammar.arguments, ofReading_byNext]
  apply follows_peek.bind
  intro t
  rw [ofReading_ite]
  split
  · exact follows_pure ()
  · exact Follows.repeatUntil .arguments (fun _ => someArguments_eq)
      (fun _ => follows_nextArgument) enough ()

theorem follows_operation :
    Follows n 1 (operation turns) (ofReading .statement Grammar.operation) := by
  rw [ofReading_operation]
  apply (follows_advances (Rule.advances_ident _) fun _ => Rule.within_ident _).bind
  intro head
  exact ((follows_arguments enough).andThen (follows_mark _ (by simp) _).keeps).gather _

theorem follows_instruction :
    Follows n 1 (instruction turns) (ofReading .statement Grammar.instruction) := by
  rw [Grammar.instruction, ofReading_byNext]
  apply follows_peek.bind_of_spare
  intro t
  rw [ofReading_ite, ofReading_ite]
  split
  · exact follows_read Grammar.advances_callInstruction fun _ => Grammar.within_callInstruction
  · split
    · exact follows_operation enough
    · exact follows_read_unexpected _ t

theorem follows_instructions :
    Follows n 0 (instructions turns) (ofReading .statement Grammar.instructions) :=
  Follows.whileNext .instructions (ofReading_repeatWhile _ _ _ _)
    (follows_instruction enough) enough

theorem follows_locals :
    Follows n 0 (locals turns) (ofReading .statement Grammar.locals) :=
  Follows.whileNext .locals (ofReading_repeatWhile _ _ _ _)
    (follows_read Grammar.advances_localDeclaration fun _ => Grammar.within_line) enough

theorem follows_blockBody :
    Follows n 1 (do
      let _ ← Rule.expect .openBrace
      instructions turns
      let _ ← Rule.expect .closeBrace
      return ()) (ofReading .statement Grammar.blockBody) := by
  have parts := ((follows_mark .openBrace (by simp) .statement).andThen
    (follows_instructions enough)).andThen (follows_mark .closeBrace (by simp) .statement).keeps
  simp only [bind_assoc, pure_bind] at parts
  exact parts

theorem follows_block :
    Follows n 1 (block turns) (ofReading .statement wholeBlock) :=
  (follows_read Grammar.advances_blockHeader fun _ => Grammar.within_header).andThen
    (follows_blockBody enough).keeps

theorem follows_nextBlock :
    Follows n 1 (nextBlock turns) blockTurn := by
  apply (follows_block enough).bind
  intro _
  apply follows_peek.bind
  intro t
  split
  · exact follows_pure _
  · split
    · exact follows_pure _
    · exact follows_throw _

theorem follows_blocksOrInstructions :
    Follows n 0 (blocksOrInstructions turns)
      (ofReading .statement Grammar.blocksOrInstructions) := by
  rw [ofReading_blocksOrInstructions]
  apply follows_peek.bind
  intro t
  split
  · exact Follows.repeatUntil .blocks (fun _ => someBlocks_eq)
      (fun _ => follows_nextBlock enough) enough ()
  · exact (follows_note rfl).bind fun _ => follows_instructions enough

theorem follows_body :
    Follows n 1 (body turns) (ofReading .statement Grammar.body) := by
  have parts := (((follows_mark .openBrace (by simp) .statement).andThen
    (follows_locals enough)).andThen (follows_blocksOrInstructions enough)).andThen
      (follows_mark .closeBrace (by simp) .statement).keeps
  simp only [bind_assoc, pure_bind] at parts
  exact parts

theorem follows_globalDefinition :
    Follows n 1 (globalDefinition turns limit)
      (ofReading .statement (.one (Grammar.globalDefinition limit))) := by
  rw [ofReading_one, Grammar.globalDefinition]
  simp only [ofRule_bind, bind_assoc, Rule.dataExpression_eq, ofRule_pure, pure_bind]
  refine (follows_advances (Rule.advances_keyword _) fun _ => Rule.within_keyword _).bind
    fun _ => ?_
  refine (follows_keeps (Rule.keeps_keyword? _) fun _ => Rule.within_keyword? _).bind
    fun constant => ?_
  refine (follows_keeps (Rule.advances_ident _).keeps fun _ => Rule.within_ident _).bind
    fun name => ?_
  refine (follows_expect (by simp)).keeps.bind fun _ => ?_
  refine ((follows_dataExpression (Nat.le_refl turns) (Nat.zero_le _)).of_le enough).bind
    fun data => ?_
  exact (follows_expect (by simp)).keeps.bind fun _ => follows_note rfl

theorem follows_functionRest :
    Follows n 0 (functionRest turns) (ofReading .statement Grammar.functionRest) := by
  rw [Grammar.functionRest, ofReading_byNext]
  apply follows_peek.bind
  intro t
  rw [ofReading_ite, ofReading_ite]
  split
  · exact (follows_mark _ (by simp) _).keeps
  · split
    · exact (follows_body enough).keeps
    · exact (follows_read_unexpected _ t).keeps

theorem follows_declaration :
    Follows n 1 (declaration turns limit) (ofReading .statement (Grammar.declaration limit)) := by
  rw [Grammar.declaration, ofReading_byNext]
  apply follows_peek.bind_of_spare
  intro t
  rw [ofReading_ite, ofReading_ite]
  split
  · exact follows_globalDefinition enough
  · split
    · exact (follows_read Grammar.advances_functionHeader fun _ => Grammar.within_header).andThen
        (follows_functionRest enough)
    · exact follows_read_unexpected _ t

end

theorem follows_wholeModule (turns limit : Nat) :
    Follows turns 1 (wholeModule turns limit) (ofReading .statement (Grammar.wholeModule limit)) :=
  (follows_read Grammar.advances_moduleHeader fun _ => Grammar.within_line).andThen <|
    Follows.whileNext .declarations (ofReading_repeatWhile _ _ _ _)
      (follows_declaration (Nat.le_refl turns)) (Nat.le_refl turns)

end Tracked

end SigilAsm
