import SigilAsm.Proofs.Grammar.Mentions

/-! # Nothing of a text is lost

`Cursor.tokens_lossless` says of a text that is read without an error that it is
its tokens and the trivia between them, put one after the other: each token
covers its own piece of the text, in the form that its kind has
(`Token.Kind.Form`), and its payload is that piece without sigil and quotes.

What one token takes is `Cursor.exists_piece_of_scan`; the whole text follows by
induction on the reading.
-/

namespace SigilAsm

/-! ## Pieces -/

/-- A token with the characters that it is made of and the trivia in front of them. -/
structure Piece where
  gap : List Char
  opening : List Char
  inside : List Char
  closing : List Char
  token : Token

namespace Piece

/-- The characters of the token. -/
def slice (p : Piece) : List Char := p.opening ++ (p.inside ++ p.closing)

def text (p : Piece) : List Char := p.gap ++ p.slice

/-- The piece stands at the offset, with `rest` after it: what is in front of the token is trivia,
and the token covers its characters, all of them, in the form of its kind. -/
structure Stands (p : Piece) (offset : Nat) (rest : List Char) : Prop where
  gap : Trivia p.gap (p.slice ++ rest)
  form : p.token.kind.Form p.opening p.inside p.closing rest
  start : p.token.extent.start = offset + Utf8.byteLength p.gap
  stop : p.token.extent.stop = offset + Utf8.byteLength p.text
  payload_start : p.token.payload.start = p.token.extent.start + Utf8.byteLength p.opening
  payload_stop : p.token.payload.stop = p.token.payload.start + Utf8.byteLength p.inside
  shown : p.token.text.toList = p.inside

/-- Each of the pieces stands right after those in front of it. -/
def AllStand (offset : Nat) (pieces : List Piece) : Prop :=
  ∀ before p after, pieces = before ++ p :: after →
    p.Stands (offset + Utf8.byteLength (before.flatMap text)) (after.flatMap text)

theorem AllStand.nil (offset : Nat) : AllStand offset [] := by
  intro before p after split
  simp at split

theorem AllStand.cons {offset : Nat} {p : Piece} {pieces : List Piece}
    (first : p.Stands offset (pieces.flatMap text))
    (rest : AllStand (offset + Utf8.byteLength p.text) pieces) : AllStand offset (p :: pieces) := by
  intro before q after split
  cases before with
  | nil =>
    cases split
    exact first
  | cons p' before =>
    cases split
    have later := rest before q after rfl
    rwa [Nat.add_assoc, ← Utf8.byteLength_append, ← List.flatMap_cons] at later

/-! ### Slices

The extents of a token, counted in bytes, cut out of the text what the piece says. -/

variable {p : Piece} {front rest : List Char}

theorem Stands.slice?_extent (h : p.Stands (Utf8.byteLength front) rest) :
    Utf8.slice? p.token.extent.start p.token.extent.stop (front ++ (p.text ++ rest)) =
      some p.slice := by
  have split : front ++ (p.text ++ rest) = (front ++ p.gap) ++ (p.slice ++ rest) := by
    simp [text]
  rw [h.start, h.stop, split, text, Utf8.byteLength_append, ← Nat.add_assoc,
    ← Utf8.byteLength_append]
  exact Utf8.slice?_byteLength_append _ _ _

theorem Stands.slice?_payload (h : p.Stands (Utf8.byteLength front) rest) :
    Utf8.slice? p.token.payload.start p.token.payload.stop (front ++ (p.text ++ rest)) =
      some p.inside := by
  have split : front ++ (p.text ++ rest) =
      (front ++ p.gap ++ p.opening) ++ (p.inside ++ (p.closing ++ rest)) := by
    simp [text, slice]
  rw [h.payload_stop, h.payload_start, h.start, split, ← Utf8.byteLength_append,
    ← Utf8.byteLength_append]
  exact Utf8.slice?_byteLength_append _ _ _

end Piece

namespace Cursor

/-- Reading one token takes one piece of the text. -/
theorem exists_piece_of_scan {c next : Cursor} {t : Token} (h : c.scan = (.ok t, next)) :
    ∃ p : Piece, p.token = t ∧ c.Over p.text next ∧ p.Stands c.offset next.rest := by
  obtain ⟨opening, inside, closing, covers, shown, form⟩ := spans_of_scan h
  obtain ⟨gap, before, trivia, -⟩ := trivia_skipTrivia c
  have start : t.extent.start = c.skipTrivia.offset := by
    rw [shown]
    exact Nat.min_eq_left covers.offset_le
  have stop : t.extent.stop = next.offset := by
    rw [shown]
    exact Nat.max_eq_right covers.offset_le
  have payload : t.payload = .between (t.extent.start + Utf8.byteLength opening)
      (t.extent.start + Utf8.byteLength opening + Utf8.byteLength inside) := by
    rw [start, shown, tokenOver]
  rw [Extent.between_of_le (Nat.le_add_right _ _)] at payload
  refine ⟨⟨gap, opening, inside, closing, t⟩, rfl, before.trans covers, ?_⟩
  exact {
    gap := covers.rest ▸ trivia
    form := form
    start := start.trans before.offset
    stop := stop.trans (before.trans covers).offset
    payload_start := by rw [payload]
    payload_stop := by rw [payload]
    shown := by rw [shown, tokenOver, String.toList_ofList] }

/-! ## All tokens -/

/-- What is read without an error is a sequence of pieces. -/
theorem exists_pieces_of_tokens {c : Cursor} {ts : List Token} (h : c.tokens = (ts, none)) :
    ∃ pieces : List Piece, pieces.map Piece.token = ts ∧ c.rest = pieces.flatMap Piece.text ∧
      Piece.AllStand c.offset pieces := by
  induction c using tokens.induct generalizing ts with
  | case1 c e next scanned => cases (tokens_of_error scanned).symm.trans h
  | case2 c t next scanned last =>
    cases (tokens_of_last scanned last).symm.trans h
    obtain ⟨p, rfl, covers, stands⟩ := exists_piece_of_scan scanned
    have done : next.rest = [] := (stands.form.eq_nil last).2
    refine ⟨[p], rfl, by simp [covers.rest, done], .cons ?_ (.nil _)⟩
    rwa [done] at stands
  | case3 c t next scanned some less ih =>
    rw [tokens_of_scan scanned some] at h
    obtain ⟨rfl, noError⟩ := Prod.mk.inj h
    obtain ⟨p, rfl, covers, stands⟩ := exists_piece_of_scan scanned
    obtain ⟨pieces, shown, rest, more⟩ := ih (Prod.ext rfl noError)
    refine ⟨p :: pieces, by rw [List.map_cons, shown], ?_, .cons ?_ ?_⟩
    · rw [covers.rest, rest, List.flatMap_cons]
    · rwa [← rest]
    · rwa [← covers.offset]

/-- All tokens stand behind the place at which reading begins. -/
theorem offset_le_of_mem_tokens {c : Cursor} {t : Token} (h : t ∈ c.tokens.1) :
    c.offset ≤ t.extent.start := by
  induction c using tokens.induct with
  | case1 c e next scanned => simp [tokens_of_error scanned] at h
  | case2 c t' next scanned last =>
    rw [tokens_of_last scanned last] at h
    cases List.mem_singleton.mp h
    obtain ⟨p, rfl, -, stands⟩ := exists_piece_of_scan scanned
    rw [stands.start]
    exact Nat.le_add_right _ _
  | case3 c t' next scanned some less ih =>
    rw [tokens_of_scan scanned some] at h
    obtain ⟨p, rfl, covers, stands⟩ := exists_piece_of_scan scanned
    rcases List.mem_cons.mp h with rfl | later
    · rw [stands.start]
      exact Nat.le_add_right _ _
    · exact Nat.le_trans covers.offset_le (ih later)

/-- Tokens come one after the other, and all but the end of input have characters. -/
theorem tokens_pairwise (c : Cursor) :
    c.tokens.1.Pairwise fun a b =>
      a.extent.start < a.extent.stop ∧ a.extent.Precedes b.extent := by
  induction c using tokens.induct with
  | case1 c e next scanned => simp [tokens_of_error scanned]
  | case2 c t next scanned last => simp [tokens_of_last scanned last]
  | case3 c t next scanned some less ih =>
    rw [tokens_of_scan scanned some]
    refine .cons (fun b later => ?_) ih
    obtain ⟨p, rfl, covers, stands⟩ := exists_piece_of_scan scanned
    have stop : p.token.extent.stop = next.offset := stands.stop.trans covers.offset.symm
    refine ⟨?_, ?_⟩
    · have taken := Utf8.byteLength_pos (stands.form.ne_nil some)
      rw [stands.start, stands.stop, Piece.text, Utf8.byteLength_append]
      exact Nat.add_lt_add_left (Nat.lt_add_of_pos_right taken) _
    · rw [Extent.Precedes, stop]
      exact offset_le_of_mem_tokens later

/-- A text that is read without an error is its tokens and the trivia between them, one after the
other: nothing is lost, and nothing belongs to two tokens. -/
theorem tokens_lossless {source : String} {ts : List Token}
    (h : (Cursor.ofString source).tokens = (ts, none)) :
    (ts.Pairwise fun a b => a.extent.start < a.extent.stop ∧ a.extent.Precedes b.extent) ∧
    ∃ pieces : List Piece, pieces.map Piece.token = ts ∧
      source.toList = pieces.flatMap Piece.text ∧
      ∀ before p after, pieces = before ++ p :: after →
        p.Stands (Utf8.byteLength (before.flatMap Piece.text)) (after.flatMap Piece.text) ∧
        Utf8.slice? p.token.extent.start p.token.extent.stop source.toList = some p.slice ∧
        Utf8.slice? p.token.payload.start p.token.payload.stop source.toList = some p.inside := by
  have inOrder := (Cursor.ofString source).tokens_pairwise
  rw [h] at inOrder
  obtain ⟨pieces, shown, whole, stand⟩ := exists_pieces_of_tokens h
  replace whole : source.toList = pieces.flatMap Piece.text := whole
  refine ⟨inOrder, pieces, shown, whole, fun before p after split => ?_⟩
  have stands : p.Stands (Utf8.byteLength (before.flatMap Piece.text))
      (after.flatMap Piece.text) := by
    simpa [ofString] using stand before p after split
  have parts : source.toList =
      before.flatMap Piece.text ++ (p.text ++ after.flatMap Piece.text) := by
    rw [whole, split, List.flatMap_append, List.flatMap_cons]
  rw [parts]
  exact ⟨stands, stands.slice?_extent, stands.slice?_payload⟩

/-- A name of wide characters, an equals sign that a comment keeps from being an arrow, and an arrow
with a number right after it. -/
theorem tokens_lossless_around_comment :
    ∃ ts, (Cursor.ofString "@'é b'=# é\n=>12").tokens = (ts, none) ∧
      ts.map Token.kind = [.name .global, .equals, .arrow, .integer, .endOfInput] ∧
      (ts.Pairwise fun a b => a.extent.start < a.extent.stop ∧ a.extent.Precedes b.extent) ∧
      ∃ pieces : List Piece, pieces.map Piece.token = ts ∧
        "@'é b'=# é\n=>12".toList = pieces.flatMap Piece.text ∧
        ∀ before p after, pieces = before ++ p :: after →
          p.Stands (Utf8.byteLength (before.flatMap Piece.text)) (after.flatMap Piece.text) ∧
          Utf8.slice? p.token.extent.start p.token.extent.stop "@'é b'=# é\n=>12".toList =
            some p.slice ∧
          Utf8.slice? p.token.payload.start p.token.payload.stop "@'é b'=# é\n=>12".toList =
            some p.inside := by
  have read : (Cursor.ofString "@'é b'=# é\n=>12").tokens =
      ([⟨.name .global, ⟨0, 7, by decide⟩, ⟨2, 6, by decide⟩, "é b"⟩,
        ⟨.equals, ⟨7, 8, by decide⟩, ⟨7, 8, by decide⟩, "="⟩,
        ⟨.arrow, ⟨13, 15, by decide⟩, ⟨13, 15, by decide⟩, "=>"⟩,
        ⟨.integer, ⟨15, 17, by decide⟩, ⟨15, 17, by decide⟩, "12"⟩,
        ⟨.endOfInput, ⟨17, 17, by decide⟩, ⟨17, 17, by decide⟩, ""⟩], none) := by
    decide +kernel
  exact ⟨_, read, rfl, tokens_lossless read⟩

end Cursor

end SigilAsm
