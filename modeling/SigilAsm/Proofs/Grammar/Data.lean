import SigilAsm.Proofs.Grammar.Rules

/-! # What a data expression reads

`exists_tree_of_run_dataExpression` and its converse
`run_dataExpression_of_spells` say that a data expression is read as a tree of
the grammar, that its value is what the tree denotes, and that the limits are
those of `Tree.Data.Admissible`.

The reader carries along how deep it is and how many bytes came before, and
checks the limits as it goes; the tree states them once, for the whole.
-/

namespace SigilAsm

namespace Rule

variable {limit depth used : Nat} {c next stop : Cursor} {bytes : List UInt8}

theorem advance_eq_ok_iff {α : Type} {r : Rule α} {hr : r.Advances} {a : α}
    {less : next.remaining < c.remaining} :
    r.advance hr c = .ok ⟨(a, next), less⟩ ↔ r.run c = .ok (a, next) := by
  unfold advance
  split
  next e failed => simp [failed]
  next a' next' read => simp [read]

theorem advance_of_run {α : Type} {r : Rule α} (hr : r.Advances) {a : α}
    (h : r.run c = .ok (a, next)) : r.advance hr c = .ok ⟨(a, next), hr c a next h⟩ :=
  advance_eq_ok_iff.mpr h

/-! ## Elements -/

theorem peekChar_of_spells_mark {m : Mark} {ls : List Lexeme} (h : c.Spells (.mark m :: ls) next) :
    c.peekChar = m.chars.head? := by
  obtain ⟨text, spelling, first⟩ := Cursor.peekChar_of_spells h
  cases spelling with
  | mark => exact first

theorem peekChar_of_spells_string {text : String} {ls : List Lexeme}
    (h : c.Spells (.string text :: ls) next) : c.peekChar = some '"' := by
  obtain ⟨_, spelling, first⟩ := Cursor.peekChar_of_spells h
  cases spelling with
  | string _ => exact first

theorem peekChar_ne_of_spells_byte {b : UInt8} {ls : List Lexeme}
    (h : c.Spells (.byte b :: ls) next) {ch : Char} (other : Token.hexDigit? ch = none) :
    c.peekChar ≠ some ch := by
  obtain ⟨_, spelling, first⟩ := Cursor.peekChar_of_spells h
  cases spelling with
  | byte high _ =>
    rw [first]
    rintro ⟨⟩
    cases high.symm.trans other

theorem run_dataBytes_eq_ok :
    dataBytes.run c = .ok (bytes, next) ↔
      (∃ text, bytes = Utf8.encode text.toList ∧ c.Spells [.string text] next) ∨
        ∃ b, bytes = [b] ∧ c.Spells [.byte b] next := by
  have run : dataBytes.run c = (if c.peekChar = some '"' then (do
      let t ← expect .string
      return Utf8.encode t.text.toList : Rule (List UInt8)) else (do
      let b ← byte
      return [b])).run c := rfl
  rw [run]
  constructor
  · intro h
    split at h
    next =>
      obtain ⟨t, _, read, h⟩ := run_bind_eq_ok.mp h
      obtain ⟨rfl, rfl⟩ := run_pure_eq_ok.mp h
      exact .inl ⟨t.text, rfl, run_string_eq_ok.mp ⟨t, read, rfl⟩⟩
    next =>
      obtain ⟨b, _, read, h⟩ := run_bind_eq_ok.mp h
      obtain ⟨rfl, rfl⟩ := run_pure_eq_ok.mp h
      exact .inr ⟨b, rfl, run_byte_eq_ok.mp read⟩
  · rintro (⟨text, rfl, h⟩ | ⟨b, rfl, h⟩)
    · obtain ⟨t, read, shown⟩ := run_string_eq_ok.mpr h
      rw [if_pos (peekChar_of_spells_string h), ← shown]
      exact run_bind_eq_ok.mpr ⟨t, next, read, rfl⟩
    · rw [if_neg (peekChar_ne_of_spells_byte h rfl)]
      exact run_bind_eq_ok.mpr ⟨b, next, run_byte_eq_ok.mpr h, rfl⟩

theorem run_dataLiteral_eq_ok :
    (dataLiteral limit used).run c = .ok (bytes, next) ↔
      dataBytes.run c = .ok (bytes, next) ∧ used + bytes.length ≤ limit := by
  have run : (dataLiteral limit used).run c = (dataBytes >>= fun bytes => (get : Rule Cursor) >>=
      fun after => if used + bytes.length ≤ limit then pure bytes else throw ⟨.dataTooLong limit,
        .between c.skipTrivia.offset after.skipTrivia.offset⟩ : Rule (List UInt8)).run c := rfl
  rw [run, run_bind_eq_ok]
  constructor
  · rintro ⟨bytes', _, read, h⟩
    obtain ⟨after, _, ⟨⟩, h⟩ := run_bind_eq_ok.mp h
    split at h
    next fits =>
      obtain ⟨rfl, rfl⟩ := run_pure_eq_ok.mp h
      exact ⟨read, fits⟩
    next => cases h
  · rintro ⟨read, fits⟩
    refine ⟨bytes, next, read, run_bind_eq_ok.mpr ⟨next, next, rfl, ?_⟩⟩
    rw [if_pos fits]
    rfl

/-- What becomes of contents that have been read, whatever the number behind them. -/
theorem run_dataRepetition_of_spells (limit used start : Nat) (contents : List UInt8)
    {count : UInt64}
    (h : c.Spells [.mark .closeBracket, .mark .star, .integer count.toNat] next) :
    ∃ extent, (dataRepetition limit used start contents).run c =
      if contents = [] ∨ used + contents.length * count.toNat ≤ limit then
        .ok ((List.replicate count.toNat contents).flatten, next)
      else .error ⟨.dataTooLong limit, extent⟩ := by
  obtain ⟨c₁, closed, h⟩ := Cursor.Spells.cons_iff.mp h
  obtain ⟨c₂, star, h⟩ := Cursor.Spells.cons_iff.mp h
  obtain ⟨_, closed⟩ := run_mark_of_spells closed
  obtain ⟨_, star⟩ := run_mark_of_spells star
  obtain ⟨extent, read⟩ := run_number_eq_ok.mpr h
  refine ⟨.between start extent.stop, ?_⟩
  have closed : (expect .closeBracket).run c = _ := closed
  have star : (expect .star).run c₁ = _ := star
  rw [dataRepetition, run_bind_of_run closed, run_bind_of_run star, run_bind_of_run read]
  dsimp only
  by_cases empty : contents = []
  · have nothing : (List.replicate count.toNat contents).flatten = [] := by simp [empty]
    rw [if_pos (List.isEmpty_iff.mpr empty), if_pos (.inl empty), nothing]
    rfl
  · rw [if_neg (by simpa using empty)]
    by_cases fits : used + contents.length * count.toNat ≤ limit
    · rw [if_pos fits, if_pos (.inr fits)]
      rfl
    · rw [if_neg fits, if_neg (by simp [empty, fits])]
      rfl

theorem run_dataRepetition_eq_ok {start : Nat} {contents : List UInt8} :
    (dataRepetition limit used start contents).run c = .ok (bytes, next) ↔
      ∃ count : UInt64, bytes = (List.replicate count.toNat contents).flatten ∧
        (contents = [] ∨ used + bytes.length ≤ limit) ∧
        c.Spells [.mark .closeBracket, .mark .star, .integer count.toNat] next := by
  constructor
  · intro h
    obtain ⟨_, c₁, closed, h⟩ := run_bind_eq_ok.mp h
    obtain ⟨_, c₂, star, h⟩ := run_bind_eq_ok.mp h
    obtain ⟨⟨count, extent⟩, c₃, read, h⟩ := run_bind_eq_ok.mp h
    have spells := (spells_of_run_mark .closeBracket closed).append <|
      (spells_of_run_mark .star star).append (run_number_eq_ok.mp ⟨extent, read⟩)
    refine ⟨count, ?_⟩
    dsimp only at h
    split at h
    next empty =>
      obtain ⟨rfl, rfl⟩ := run_pure_eq_ok.mp h
      rw [List.isEmpty_iff.mp empty]
      exact ⟨by simp, .inl rfl, spells⟩
    next =>
      split at h
      next fits =>
        obtain ⟨rfl, rfl⟩ := run_pure_eq_ok.mp h
        exact ⟨rfl, .inr (by simpa [Nat.mul_comm] using fits), spells⟩
      next => cases h
  · rintro ⟨count, rfl, fits, h⟩
    obtain ⟨extent, run⟩ := run_dataRepetition_of_spells limit used start contents h
    have fits : contents = [] ∨ used + contents.length * count.toNat ≤ limit := by
      simpa [Nat.mul_comm] using fits
    rw [run, if_pos fits]

/-! ## Expressions

The reader of expressions hands on a proof that it advances.  What is said
below of an element and of an expression leaves the proof out. -/

def ReadsElement (limit depth used : Nat) (c : Cursor) (bytes : List UInt8) (next : Cursor) :
    Prop :=
  ∃ less, dataElement limit depth used c = .ok ⟨(bytes, next), less⟩

def ReadsData (limit depth used : Nat) (c : Cursor) (bytes : List UInt8) (next : Cursor) : Prop :=
  ∃ less, dataElements limit depth used c = .ok ⟨(bytes, next), less⟩

theorem readsElement_of_not_bracket (h : c.peekChar ≠ some '[') :
    ReadsElement limit depth used c bytes next ↔
      (dataLiteral limit used).run c = .ok (bytes, next) := by
  unfold ReadsElement dataElement dataElementOf
  rw [if_neg h]
  constructor
  · rintro ⟨_, read⟩
    exact advance_eq_ok_iff.mp read
  · intro read
    exact ⟨_, advance_of_run _ read⟩

theorem readsElement_of_bracket (h : c.peekChar = some '[') :
    ReadsElement limit depth used c bytes next ↔ depth < maxDataDepth ∧
      ∃ inside contents closing, c.Spells [.mark .openBracket] inside ∧
        ReadsData limit (depth + 1) 0 inside contents closing ∧
        (dataRepetition limit used c.skipTrivia.offset contents).run closing =
          .ok (bytes, next) := by
  unfold ReadsElement dataElement dataElementOf ReadsData
  rw [if_pos h]
  constructor
  · rintro ⟨_, read⟩
    split at read
    next => cases read
    next inside _ opened =>
      split at read
      next => cases read
      next shallow =>
        split at read
        next => cases read
        next contents closing _ inner =>
          split at read
          next => cases read
          next repeated =>
            cases read
            exact ⟨Nat.lt_of_not_le shallow, inside, contents, closing,
              spells_of_run_mark .openBracket (advance_eq_ok_iff.mp opened), ⟨_, inner⟩,
              advance_eq_ok_iff.mp repeated⟩
  · rintro ⟨shallow, inside, contents, closing, opened, ⟨_, inner⟩, repeated⟩
    obtain ⟨t, opened⟩ := run_mark_of_spells opened
    have opened : (expect .openBracket).advance (advances_expect (by simp)) c = _ :=
      advance_of_run _ opened
    have repeated := advance_of_run (advances_dataRepetition limit used _ contents) repeated
    rw [opened]
    dsimp only
    rw [if_neg (Nat.not_le_of_lt shallow), inner]
    dsimp only
    rw [repeated]
    exact ⟨_, rfl⟩

theorem readsData_iff : ReadsData limit depth used c bytes next ↔
    ∃ first after, ReadsElement limit depth used c first after ∧
      if after.peekChar = some ',' then
        ∃ more rest, after.Spells [.mark .comma] rest ∧
          ReadsData limit depth (used + first.length) rest more next ∧ bytes = first ++ more
      else bytes = first ∧ next = after := by
  unfold ReadsData ReadsElement
  rw [dataElements_eq]
  constructor
  · rintro ⟨_, read⟩
    split at read
    next => cases read
    next first after _ elementRead =>
      refine ⟨first, after, ⟨_, elementRead⟩, ?_⟩
      split at read
      next comma =>
        rw [if_pos comma]
        split at read
        next => cases read
        next rest _ separated =>
          split at read
          next => cases read
          next more _ _ restRead =>
            cases read
            exact ⟨more, rest, spells_of_run_mark .comma (advance_eq_ok_iff.mp separated),
              ⟨_, restRead⟩, rfl⟩
      next other =>
        cases read
        rw [if_neg other]
        exact ⟨rfl, rfl⟩
  · rintro ⟨first, after, ⟨_, elementRead⟩, h⟩
    split at h
    next comma =>
      obtain ⟨more, rest, separated, ⟨_, restRead⟩, rfl⟩ := h
      obtain ⟨t, separated⟩ := run_mark_of_spells separated
      have separated : (expect .comma).advance (advances_expect (by simp)) after = _ :=
        advance_of_run _ separated
      rw [elementRead]
      dsimp only
      rw [if_pos comma, separated]
      dsimp only
      rw [restRead]
      exact ⟨_, rfl⟩
    next other =>
      obtain ⟨rfl, rfl⟩ := h
      rw [elementRead]
      dsimp only
      rw [if_neg other]
      exact ⟨_, rfl⟩

/-! ## Trees of what is read -/

/-- What was read has a tree, which keeps within the limits that are left. -/
theorem exists_tree_of_readsData {limit depth used : Nat} {c next : Cursor} {bytes : List UInt8}
    (bounded : depth ≤ maxDataDepth) (used_le : used ≤ limit)
    (h : ReadsData limit depth used c bytes next) :
    ∃ d : Tree.Data, d.bytes = bytes ∧ c.Spells d.lexemes next ∧ depth + d.depth ≤ maxDataDepth ∧
      used + bytes.length ≤ limit ∧ ∀ part ∈ d.bracketed, part.bytes.length ≤ limit := by
  -- The induction is on the characters left: contents in brackets and what follows a comma both
  -- begin behind a mark.
  obtain ⟨first, after, elementRead, more⟩ := readsData_iff.mp h
  have one : ∃ e : Tree.Element, e.bytes = first ∧ c.Spells e.lexemes after ∧
      depth + e.depth ≤ maxDataDepth ∧ used + first.length ≤ limit ∧
      ∀ part ∈ e.bracketed, part.bytes.length ≤ limit := by
    by_cases bracket : c.peekChar = some '['
    · obtain ⟨shallow, inside, contents, closing, opened, inner, repeated⟩ :=
        (readsElement_of_bracket bracket).mp elementRead
      have shorter : inside.remaining < c.remaining := opened.remaining_lt (by simp)
      obtain ⟨d, rfl, spells, deep, fits, parts⟩ :=
        exists_tree_of_readsData (Nat.succ_le_of_lt shallow) (Nat.zero_le limit) inner
      obtain ⟨count, rfl, sized, closed⟩ := run_dataRepetition_eq_ok.mp repeated
      refine ⟨.repetition d count, rfl, opened.append (spells.append closed), ?_, ?_, ?_⟩
      · simp only [Tree.Element.depth]
        omega
      · -- Nothing is measured when the contents are empty, and nothing needs to be.
        rcases sized with empty | fits
        · simpa [empty] using used_le
        · exact fits
      · intro part member
        rcases List.mem_cons.mp member with rfl | member
        · simpa using fits
        · exact parts part member
    · obtain ⟨read, fits⟩ :=
        run_dataLiteral_eq_ok.mp ((readsElement_of_not_bracket bracket).mp elementRead)
      rcases run_dataBytes_eq_ok.mp read with ⟨text, rfl, spells⟩ | ⟨b, rfl, spells⟩
      · exact ⟨.string text, rfl, spells, bounded, fits, by simp [Tree.Element.bracketed]⟩
      · exact ⟨.byte b, rfl, spells, bounded, fits, by simp [Tree.Element.bracketed]⟩
  obtain ⟨e, rfl, spells, deep, fits, parts⟩ := one
  split at more
  next =>
    obtain ⟨tail, rest, comma, restRead, rfl⟩ := more
    have shorter : rest.remaining < c.remaining :=
      Nat.lt_of_lt_of_le (comma.remaining_lt (by simp)) spells.remaining_le
    obtain ⟨d, rfl, spells', deep', fits', parts'⟩ :=
      exists_tree_of_readsData bounded fits restRead
    refine ⟨.more e d, rfl, spells.append (comma.append spells'), ?_, ?_, ?_⟩
    · simp only [Tree.Data.depth]
      omega
    · simpa [Nat.add_assoc] using fits'
    · intro part member
      rcases List.mem_append.mp member with member | member
      · exact parts part member
      · exact parts' part member
  next =>
    obtain ⟨rfl, rfl⟩ := more
    exact ⟨.one e, rfl, spells, deep, fits, parts⟩
termination_by c.remaining

mutual

/-- The lexemes of an element are read as that element, whatever follows. -/
theorem readsElement_of_spells {limit depth used : Nat} {c next : Cursor} (e : Tree.Element)
    (h : c.Spells e.lexemes next) (deep : depth + e.depth ≤ maxDataDepth)
    (fits : used + e.bytes.length ≤ limit)
    (parts : ∀ part ∈ e.bracketed, part.bytes.length ≤ limit) :
    ReadsElement limit depth used c e.bytes next := by
  match e with
  | .byte b =>
    rw [readsElement_of_not_bracket (peekChar_ne_of_spells_byte h rfl), run_dataLiteral_eq_ok,
      run_dataBytes_eq_ok]
    exact ⟨.inr ⟨b, rfl, h⟩, fits⟩
  | .string text =>
    have other : c.peekChar ≠ some '[' := by simp [peekChar_of_spells_string h]
    rw [readsElement_of_not_bracket other, run_dataLiteral_eq_ok, run_dataBytes_eq_ok]
    exact ⟨.inl ⟨text, rfl, h⟩, fits⟩
  | .repetition contents count =>
    rw [readsElement_of_bracket (peekChar_of_spells_mark h)]
    obtain ⟨inside, opened, h⟩ := Cursor.Spells.cons_iff.mp h
    obtain ⟨closing, inner, closed⟩ := Cursor.Spells.append_iff.mp h
    simp only [Tree.Element.depth] at deep
    simp only [Tree.Element.bracketed, List.mem_cons, forall_eq_or_imp] at parts
    -- The closing bracket ends the contents, since it is no comma.
    have stop : closing.peekChar ≠ some ',' := by
      rw [peekChar_of_spells_mark closed]
      rintro ⟨⟩
    refine ⟨by omega, inside, contents.bytes, closing, opened, ?_, ?_⟩
    · exact readsData_of_spells contents inner stop (by omega) (by omega) parts.2
    · exact run_dataRepetition_eq_ok.mpr ⟨count, rfl, .inr fits, closed⟩

/-- The lexemes of an expression are read as that expression, unless a comma follows. -/
theorem readsData_of_spells {limit depth used : Nat} {c next : Cursor} (d : Tree.Data)
    (h : c.Spells d.lexemes next) (stop : next.peekChar ≠ some ',')
    (deep : depth + d.depth ≤ maxDataDepth) (fits : used + d.bytes.length ≤ limit)
    (parts : ∀ part ∈ d.bracketed, part.bytes.length ≤ limit) :
    ReadsData limit depth used c d.bytes next := by
  match d with
  | .one e =>
    refine readsData_iff.mpr ⟨e.bytes, next, readsElement_of_spells e h deep fits parts, ?_⟩
    rw [if_neg stop]
    exact ⟨rfl, rfl⟩
  | .more e rest =>
    obtain ⟨after, first, h⟩ := Cursor.Spells.append_iff.mp h
    have separated : after.peekChar = some ',' := peekChar_of_spells_mark h
    obtain ⟨c', comma, more⟩ := Cursor.Spells.cons_iff.mp h
    simp only [Tree.Data.depth] at deep
    simp only [Tree.Data.bytes, List.length_append] at fits
    simp only [Tree.Data.bracketed, List.mem_append] at parts
    refine readsData_iff.mpr ⟨e.bytes, after, ?_, ?_⟩
    · exact readsElement_of_spells e first (by omega) (by omega) fun part member =>
        parts part (.inl member)
    · rw [if_pos separated]
      refine ⟨rest.bytes, c', comma, ?_, rfl⟩
      exact readsData_of_spells rest more stop (by omega) (by omega) fun part member =>
        parts part (.inr member)

end

theorem run_dataExpression_eq_ok_iff :
    (dataExpression limit).run c = .ok (bytes, next) ↔ ReadsData limit 0 0 c bytes next := by
  simp only [dataExpression, StateT.run, ReadsData]
  constructor
  · intro h
    split at h
    next => cases h
    next p less read =>
      cases h
      exact ⟨less, read⟩
  · rintro ⟨less, read⟩
    rw [read]

theorem exists_tree_of_run_dataExpression (h : (dataExpression limit).run c = .ok (bytes, next)) :
    ∃ d : Tree.Data, d.bytes = bytes ∧ c.Spells d.lexemes next ∧ d.Admissible limit := by
  obtain ⟨d, rfl, spells, deep, fits, parts⟩ := exists_tree_of_readsData (Nat.zero_le _)
    (Nat.zero_le _) (run_dataExpression_eq_ok_iff.mp h)
  refine ⟨d, rfl, spells, by simpa using deep, ?_⟩
  intro part member
  rcases List.mem_cons.mp member with rfl | member
  · simpa using fits
  · exact parts part member

theorem run_dataExpression_of_spells {d : Tree.Data} (h : c.Spells d.lexemes next)
    (stop : next.peekChar ≠ some ',') (admissible : d.Admissible limit) :
    (dataExpression limit).run c = .ok (d.bytes, next) := by
  obtain ⟨deep, size⟩ := admissible
  have fits := size d (by simp)
  have parts : ∀ part ∈ d.bracketed, part.bytes.length ≤ limit := fun part member =>
    size part (List.mem_cons_of_mem _ member)
  exact run_dataExpression_eq_ok_iff.mpr
    (readsData_of_spells d h stop (by omega) (by omega) parts)

end Rule

end SigilAsm
