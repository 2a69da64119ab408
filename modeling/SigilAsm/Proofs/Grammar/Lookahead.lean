import SigilAsm.Proofs.Grammar.Boundaries

/-! # Lookahead

Everything that reads skips the trivia in front of it, and skipping twice is
skipping once.  So two cursors with nothing but trivia between them, which is
all that looking ahead can move a cursor over, cannot be told apart
(`Cursor.Alike`), wherever reading has come to stand.

Queries that look ahead can therefore be left out of a run, and what they answer
is what the next token is read to be (`Cursor.askAll_transparent`).
-/

namespace SigilAsm

namespace Cursor

variable {source : String} {c c' : Cursor} {query : Query} {queries looks : List Query}

/-! ## Trivia is skipped once -/

@[simp] theorem skipTrivia_skipTrivia (c : Cursor) : c.skipTrivia.skipTrivia = c.skipTrivia := by
  obtain ⟨gap, -, -, significant⟩ := trivia_skipTrivia c
  exact significantFrom_of_significant significant _

theorem scan_skipTrivia (c : Cursor) : c.skipTrivia.scan = c.scan := by
  simp only [scan, skipTrivia_skipTrivia]

theorem scanByte_skipTrivia (c : Cursor) : c.skipTrivia.scanByte = c.scanByte := by
  simp only [scanByte, skipTrivia_skipTrivia]

/-- The same is left to be read at both places, trivia apart. -/
def Alike (c c' : Cursor) : Prop := c.skipTrivia = c'.skipTrivia

theorem Alike.scan (h : c.Alike c') : c.scan = c'.scan := by
  rw [← scan_skipTrivia c, h, scan_skipTrivia]

theorem Alike.scanByte (h : c.Alike c') : c.scanByte = c'.scanByte := by
  rw [← scanByte_skipTrivia c, h, scanByte_skipTrivia]

/-! ## Steps -/

theorem Alike.ask_eq (h : c.Alike c') (moves : query ≠ .peek) : c.ask query = c'.ask query := by
  cases query with
  | token => simp only [Cursor.ask, h.scan]
  | byte => simp only [Cursor.ask, h.scanByte]
  | peek => exact absurd rfl moves
  | offset | firstByte =>
    unfold Alike at h
    simp only [Cursor.ask, peekByte, peekChar, h]

/-- Alike cursors answer a query alike and stay alike. -/
theorem Alike.ask (h : c.Alike c') (query : Query) :
    (c.ask query).1 = (c'.ask query).1 ∧ (c.ask query).2.Alike (c'.ask query).2 := by
  by_cases moves : query = .peek
  · subst moves
    exact ⟨congrArg Answer.token (congrArg Prod.fst h.scan), h⟩
  · rw [h.ask_eq moves]
    exact ⟨rfl, rfl⟩

/-- Looking ahead moves over trivia at most. -/
theorem alike_ask_of_looksAhead (c : Cursor) (h : query.looksAhead = true) :
    (c.ask query).2.Alike c := by
  cases query with
  | token | byte => cases h
  | peek => rfl
  | offset | firstByte => exact c.skipTrivia_skipTrivia

/-! ## Runs -/

theorem Alike.askAll (h : c.Alike c') (queries : List Query) :
    (c.askAll queries).1 = (c'.askAll queries).1 := by
  induction queries generalizing c c' with
  | nil => rfl
  | cons query queries ih =>
    obtain ⟨answers, stays⟩ := h.ask query
    simp only [Cursor.askAll, answers, ih stays]

theorem alike_askAll_of_looksAhead (c : Cursor) (h : ∀ query ∈ looks, query.looksAhead = true) :
    (c.askAll looks).2.Alike c := by
  induction looks generalizing c with
  | nil => rfl
  | cons look looks ih =>
    obtain ⟨first, others⟩ := List.forall_mem_cons.mp h
    exact (ih _ others).trans (c.alike_ask_of_looksAhead first)

theorem fst_askAll_append (c : Cursor) (first second : List Query) :
    (c.askAll (first ++ second)).1 =
      (c.askAll first).1 ++ ((c.askAll first).2.askAll second).1 := by
  induction first generalizing c with
  | nil => rfl
  | cons query first ih => simp only [List.cons_append, Cursor.askAll, ih]

/-- The answers to the queries that read. -/
def readings (c : Cursor) (queries : List Query) : List Answer :=
  ((queries.zip (c.askAll queries).1).filter (!·.1.looksAhead)).map Prod.snd

/-- What reads is answered as it is where nothing looks ahead. -/
theorem readings_eq (c : Cursor) (queries : List Query) :
    c.readings queries = (c.askAll (queries.filter (!·.looksAhead))).1 := by
  induction queries generalizing c with
  | nil => rfl
  | cons query queries ih =>
    have others := ih (c.ask query).2
    cases looks : query.looksAhead with
    | true =>
      -- The query is left out, and reading goes on from a place that is alike.
      have skipped : c.readings (query :: queries) = (c.ask query).2.readings queries := by
        simp [readings, Cursor.askAll, looks]
      rw [skipped, others, (c.alike_ask_of_looksAhead looks).askAll, List.filter_cons_of_neg]
      simp [looks]
    | false =>
      have kept : c.readings (query :: queries) =
          (c.ask query).1 :: (c.ask query).2.readings queries := by
        simp [readings, Cursor.askAll, looks]
      rw [kept, others, List.filter_cons_of_pos (by simp [looks])]
      rfl

/-! ## What looking ahead says -/

/-- After queries that look ahead, a token is read as it would have been before them. -/
theorem getLast?_askAll_token (c : Cursor) (h : ∀ query ∈ looks, query.looksAhead = true) :
    (c.askAll (looks ++ [.token])).1.getLast? = some (.token c.scan.1) := by
  have same := (c.alike_askAll_of_looksAhead h).scan
  rw [fst_askAll_append, show ((c.askAll looks).2.askAll [.token]).1 =
    [.token (c.askAll looks).2.scan.1] from rfl, List.getLast?_concat, same]

theorem start_of_scan {t : Token} {next : Cursor} (h : c.scan = (.ok t, next)) :
    t.extent.start = c.skipTrivia.offset := by
  obtain ⟨opening, inside, closing, covers, shown, -⟩ := spans_of_scan h
  rw [shown]
  exact Nat.min_eq_left covers.offset_le

theorem peekByte_eq_none_iff : c.peekByte = none ↔ c.skipTrivia.rest = [] := by
  rw [peekByte, peekChar]
  cases c.skipTrivia.rest with
  | nil => simp
  | cons ch rest => simp [String.utf8EncodeChar_ne_nil]

/-- The byte that is looked at is the one of the source that the offset points at. -/
theorem getElem?_offset (reads : (ofString source).ReadsTo c) :
    source.toByteArray.data.toList[c.skipTrivia.offset]? = c.peekByte := by
  rw [← Utf8.toByteArray_encode, List.toList_data_toByteArray,
    getElem?_encode_offset reads.skipTrivia]
  rfl

/-- What looking ahead at `c` answers, where the next token is read with this result. -/
structure Foretells (source : String) (c : Cursor) (result : Except SyntaxError Token)
    (place : Nat) (byte : Option UInt8) : Prop where
  peek : (c.ask .peek).1 = .token result
  offset : (c.ask .offset).1 = .offset place
  firstByte : (c.ask .firstByte).1 = .firstByte byte
  start : ∀ t, result = .ok t → t.extent.start = place
  getElem? : source.toByteArray.data.toList[place]? = byte
  none_iff : byte = none ↔ ∃ t, result = .ok t ∧ t.kind = .endOfInput

theorem foretells_scan (reads : (ofString source).ReadsTo c) :
    Foretells source c c.scan.1 c.skipTrivia.offset c.peekByte where
  peek := rfl
  offset := rfl
  firstByte := rfl
  start t read := start_of_scan (Prod.ext read rfl)
  getElem? := getElem?_offset reads
  none_iff := by
    rw [peekByte_eq_none_iff, ← trivia_nil_iff, ← peek_endOfInput_iff]
    rfl

/-- Without the queries that look ahead, all others are answered as they are with them, errors
included.  And after any queries, with any that look ahead in between, the next token is read as
looking ahead says. -/
theorem askAll_transparent (source : String) (queries : List Query) :
    (ofString source).readings queries =
      ((ofString source).askAll (queries.filter (!·.looksAhead))).1 ∧
    ∀ looks : List Query, (∀ query ∈ looks, query.looksAhead = true) →
      let c := ((ofString source).askAll queries).2
      ∃ result place byte, (c.askAll (looks ++ [.token])).1.getLast? = some (.token result) ∧
        Foretells source c result place byte :=
  ⟨readings_eq _ _, fun _ ahead => ⟨_, _, _, getLast?_askAll_token _ ahead,
    foretells_scan (readsTo_askAll _ _)⟩⟩

/-- A control character ends a quoted name in an error, and reading goes on inside the quotes, where
looking ahead moves over the control character and a comment. -/
theorem askAll_transparent_inside_quotes :
    (∀ query ∈ [Query.firstByte], query.looksAhead = true) ∧
      let c := ((ofString "'\t# a\nb").askAll [.token, .offset]).2
      c = ⟨6, ['b']⟩ ∧
        ∃ result place byte, (c.askAll [.firstByte, .token]).1.getLast? = some (.token result) ∧
          Foretells "'\t# a\nb" c result place byte :=
  have ahead : ∀ query ∈ [Query.firstByte], query.looksAhead = true := by decide
  ⟨ahead, by decide +kernel, (askAll_transparent "'\t# a\nb" [.token, .offset]).2 _ ahead⟩

end Cursor

end SigilAsm
