import SigilAsm.Proofs.Grammar.Layout
import SigilAsm.Proofs.Grammar.Tokens

/-! # Other trivia between the tokens

`Cursor.tokens_respaced` says that the tokens of a text, with any trivia between
them, are read as the same tokens.

What a token needs of the text after it is that the text does not go on with the
token.  It does not if it begins with a blank or a comment, which is why there
has to be something between two tokens.
-/

namespace SigilAsm

/-- The text is over or begins as trivia does. -/
def Loose (text : List Char) : Prop :=
  ∀ ch, text.head? = some ch → Cursor.isBlank ch = true ∨ ch = '#'

theorem Loose.stopsAt {p : Char → Bool} {rest : List Char} (h : Loose rest)
    (none : [' ', '\t', '\n', '\r', '\x0b', '\x0c', '#'].any p = false) : StopsAt p rest :=
  fun ch first => Lexeme.eq_false_of_trivia none (h ch first)

/-- A token keeps its form where a blank or a comment comes after it. -/
theorem Token.Kind.Form.of_loose {kind : Token.Kind} {opening inside closing rest rest' : List Char}
    (h : kind.Form opening inside closing rest) (some : kind ≠ .endOfInput) (loose : Loose rest') :
    kind.Form opening inside closing rest' := by
  cases h with
  | endOfInput => exact absurd rfl some
  | mark _ =>
    refine .mark fun _ first => ?_
    have stops : StopsAt (· == '>') rest' := loose.stopsAt rfl
    cases stops '>' first
  | integer digits all _ => exact .integer digits all (loose.stopsAt rfl)
  | word bare _ => exact .word bare (loose.stopsAt rfl)
  | quoted quotable => exact .quoted quotable
  | bareName bare _ => exact .bareName bare (loose.stopsAt rfl)
  | quotedName quotable => exact .quotedName quotable
  | string printable => exact .string printable

/-! ## Texts of the same tokens -/

/-- What a token says, without where. -/
def Token.said (t : Token) : Token.Kind × String := (t.kind, t.text)

namespace Piece

/-- `Respaced pieces text`: the text is the characters of the pieces with other filling in front of
each, up to the end of input. -/
inductive Respaced : List Piece → List Char → Prop
  | last {p : Piece} {gap : List Char} : p.token.said = (.endOfInput, "") → Filler gap →
      Respaced [p] gap
  | cons {p : Piece} {pieces : List Piece} {gap text : List Char} : Filler gap →
      p.token.kind.Form p.opening p.inside p.closing text → p.token.kind ≠ .endOfInput →
      p.token.text.toList = p.inside → Respaced pieces text →
      Respaced (p :: pieces) (gap ++ (p.slice ++ text))

theorem Respaced.tokens {pieces : List Piece} {text : List Char} (h : Respaced pieces text)
    (c : Cursor) (here : c.rest = text) :
    ∃ ts, c.tokens = (ts, none) ∧ ts.map Token.said = pieces.map (Token.said ∘ Piece.token) := by
  induction h generalizing c with
  | @last p gap said filler =>
    let stop : Cursor := ⟨c.offset + Utf8.byteLength gap, []⟩
    have before : c.Over gap stop := ⟨by simp [here, stop], rfl⟩
    have covers : stop.Over ([] ++ ([] ++ [])) stop := .refl stop
    have read := Cursor.scan_of_form before (filler _) covers .endOfInput
    refine ⟨_, Cursor.tokens_of_last read rfl, ?_⟩
    rw [List.map_singleton, List.map_singleton, Function.comp, said]
    rfl
  | @cons p pieces gap text filler form some shown _ ih =>
    let start : Cursor := ⟨c.offset + Utf8.byteLength gap, p.slice ++ text⟩
    let next : Cursor := ⟨start.offset + Utf8.byteLength p.slice, text⟩
    obtain ⟨ts, read, same⟩ := ih next rfl
    have before : c.Over gap start := ⟨here, rfl⟩
    have covers : start.Over p.slice next := ⟨rfl, rfl⟩
    have first := Cursor.scan_of_form before (filler _) covers form
    have text : p.token.text = String.ofList p.inside := by rw [← shown, String.ofList_toList]
    refine ⟨_, (Cursor.tokens_of_scan first some).trans (by rw [read]), ?_⟩
    rw [List.map_cons, List.map_cons, same]
    simp only [Function.comp, Token.said, Cursor.tokenOver, text]

end Piece

/-! ## Gaps -/

/-- One text for each of the tokens, to be put in front of it: filling, and not empty between two
tokens.  The last one stands in front of the end of input. -/
structure Separates (gaps : List (List Char)) (count : Nat) : Prop where
  length : gaps.length = count
  filler : ∀ gap ∈ gaps, Filler gap
  some : ∀ gap ∈ gaps.tail.dropLast, gap ≠ []

/-- Each of the slices with its gap in front of it. -/
def respace (gaps slices : List (List Char)) : List Char :=
  (List.zipWith (· ++ ·) gaps slices).flatten

theorem respace_cons (gap slice : List Char) (gaps slices : List (List Char)) :
    respace (gap :: gaps) (slice :: slices) = gap ++ (slice ++ respace gaps slices) := by
  simp [respace]

theorem respace_nil_right (gaps : List (List Char)) : respace gaps [] = [] := by
  simp [respace]

theorem Separates.tail {gap : List Char} {gaps : List (List Char)} {count : Nat}
    (h : Separates (gap :: gaps) (count + 1)) : Separates gaps count where
  length := Nat.succ.inj h.length
  filler gap member := h.filler gap (List.mem_cons_of_mem _ member)
  some gap member := by
    cases gaps with
    | nil => cases member
    | cons next gaps =>
      cases gaps with
      | nil => cases member
      | cons other gaps => exact h.some gap (List.mem_cons_of_mem _ member)

/-- Filling with a text after it begins as trivia does, unless there is no filling. -/
theorem Filler.loose {gap rest : List Char} (h : Filler gap) (some : gap = [] → rest = []) :
    Loose (gap ++ rest) := by
  intro ch first
  rcases head?_append_cases first with here | ⟨none, later⟩
  · exact (h []).head here
  · rw [some none] at later
    cases later

namespace Piece

theorem AllStand.exists_stands {offset : Nat} {pieces : List Piece} (h : AllStand offset pieces)
    {p : Piece} (member : p ∈ pieces) : ∃ offset rest, p.Stands offset rest := by
  obtain ⟨before, after, split⟩ := List.append_of_mem member
  exact ⟨_, _, h before p after split⟩

theorem AllStand.slice?_extent {pieces : List Piece} (h : AllStand 0 pieces) {p : Piece}
    (member : p ∈ pieces) :
    Utf8.slice? p.token.extent.start p.token.extent.stop (pieces.flatMap text) = some p.slice := by
  obtain ⟨before, after, split⟩ := List.append_of_mem member
  have stands := h before p after split
  rw [Nat.zero_add] at stands
  rw [split, List.flatMap_append, List.flatMap_cons]
  exact stands.slice?_extent

theorem Stands.said_of_endOfInput {p : Piece} {offset : Nat} {rest : List Char}
    (h : p.Stands offset rest) (last : p.token.kind = .endOfInput) :
    p.slice = [] ∧ p.token.said = (.endOfInput, "") := by
  obtain ⟨none, -⟩ := h.form.eq_nil last
  refine ⟨none, Prod.ext last ?_⟩
  have inside : p.token.text.toList = [] := by
    simp only [List.append_eq_nil_iff] at none
    rw [h.shown, none.2.1]
  exact String.toList_eq_nil_iff.mp inside

/-- Pieces, of which only the last one is the end of input, are set apart by gaps. -/
theorem respaced_of_separates {front : List Piece} {last : Piece} {gaps : List (List Char)}
    (gapped : Separates gaps (front.length + 1))
    (stand : ∀ p ∈ front ++ [last], ∃ offset rest, p.Stands offset rest)
    (some : ∀ p ∈ front, p.token.kind ≠ .endOfInput) (ended : last.token.kind = .endOfInput) :
    Respaced (front ++ [last]) (respace gaps ((front ++ [last]).map slice)) := by
  induction front generalizing gaps with
  | nil =>
    obtain ⟨gap, rfl⟩ := List.length_eq_one_iff.mp gapped.length
    obtain ⟨_, _, stands⟩ := stand last (by simp)
    obtain ⟨none, said⟩ := stands.said_of_endOfInput ended
    have text : respace [gap] (([] ++ [last]).map slice) = gap := by simp [respace, none]
    rw [text]
    exact .last said (gapped.filler gap (by simp))
  | cons p front ih =>
    obtain ⟨gap, gaps, rfl⟩ := List.exists_cons_of_length_eq_add_one gapped.length
    have rest := ih gapped.tail (fun q member => stand q (.tail _ member))
      fun q member => some q (.tail _ member)
    obtain ⟨_, _, stands⟩ := stand p (.head _)
    have loose : Loose (respace gaps ((front ++ [last]).map slice)) := by
      obtain ⟨gap', gaps, rfl⟩ := List.exists_cons_of_length_eq_add_one gapped.tail.length
      have filler : Filler gap' := gapped.filler gap' (by simp)
      cases front with
      | nil =>
        -- What comes next is the end of input, which has no characters.
        obtain ⟨_, _, stands⟩ := stand last (by simp)
        obtain ⟨none, -⟩ := stands.said_of_endOfInput ended
        rw [List.nil_append, List.map_singleton, respace_cons, respace_nil_right]
        exact filler.loose fun _ => by rw [none, List.append_nil]
      | cons q front =>
        obtain ⟨_, more, rfl⟩ := List.exists_cons_of_length_eq_add_one gapped.tail.tail.length
        rw [List.cons_append, List.map_cons, respace_cons]
        exact filler.loose fun none => absurd none (gapped.some gap' (.head _))
    rw [List.cons_append, List.map_cons, respace_cons]
    exact .cons (gapped.filler gap (.head _)) (stands.form.of_loose (some p (.head _)) loose)
      (some p (.head _)) stands.shown rest

end Piece

/-! ## All tokens -/

namespace Cursor

/-- The end of input comes once, after all other tokens. -/
theorem ended_of_tokens {c : Cursor} {ts : List Token} (h : c.tokens = (ts, none)) :
    ∃ front last, ts = front ++ [last] ∧ last.kind = .endOfInput ∧
      ∀ t ∈ front, t.kind ≠ .endOfInput := by
  induction c using tokens.induct generalizing ts with
  | case1 c e next scanned => cases (tokens_of_error scanned).symm.trans h
  | case2 c t next scanned last =>
    cases (tokens_of_last scanned last).symm.trans h
    exact ⟨[], t, rfl, last, by simp⟩
  | case3 c t next scanned some less ih =>
    rw [tokens_of_scan scanned some] at h
    obtain ⟨rfl, noError⟩ := Prod.mk.inj h
    obtain ⟨front, last, split, ended, others⟩ := ih (Prod.ext rfl noError)
    exact ⟨t :: front, last, congrArg (t :: ·) split, ended,
      List.forall_mem_cons.mpr ⟨some, others⟩⟩

/-- The tokens of a text that is read without an error, cut out of it and put together again with
any trivia between them, are read without an error as the same tokens. -/
theorem tokens_respaced {source : String} {ts : List Token}
    (h : (ofString source).tokens = (ts, none)) :
    ∃ slices : List (List Char),
      ts.map (fun t => Utf8.slice? t.extent.start t.extent.stop source.toList) =
        slices.map some ∧
      ∀ gaps, Separates gaps ts.length →
        ∃ ts', (ofString (String.ofList (respace gaps slices))).tokens = (ts', none) ∧
          ts'.map Token.said = ts.map Token.said ∧
          (ts'.map Token.kind).getLast? = some .endOfInput := by
  obtain ⟨pieces, rfl, whole, stand⟩ := exists_pieces_of_tokens h
  refine ⟨pieces.map Piece.slice, ?_, fun gaps gapped => ?_⟩
  · rw [List.map_map, List.map_map]
    refine List.map_congr_left fun p member => ?_
    rw [show source.toList = _ from whole]
    exact stand.slice?_extent member
  · obtain ⟨front, last, split, ended, others⟩ := ended_of_tokens h
    obtain ⟨front, ends, rfl, rfl, lasts⟩ := List.map_eq_append_iff.mp split
    obtain ⟨last, rfl, rfl⟩ := List.map_eq_singleton_iff.mp lasts
    have respaced := Piece.respaced_of_separates (by simpa using gapped)
      (fun p member => stand.exists_stands member)
      (fun p member => others _ (List.mem_map_of_mem member)) ended
    obtain ⟨ts', read, same⟩ := respaced.tokens (ofString (.ofList _)) String.toList_ofList
    refine ⟨ts', read, by rw [same, List.map_map], ?_⟩
    have kinds := congrArg (List.map Prod.fst) same
    rw [List.map_map, List.map_map] at kinds
    rw [show ts'.map Token.kind = _ from kinds]
    simp [Token.said, ended]

/-- A comment comes between an equals sign and an arrow that were next to each other, and one
between a bare name and a number. -/
theorem tokens_respaced_around_comments :
    ∃ ts, (ofString "@'é b'==>%x 12").tokens = (ts, none) ∧
      Separates [[], [' '], ['#', '>', '\n'], ['\t'], ['#', '\n'], []] ts.length ∧
      ∃ ts', (ofString "@'é b' =#>\n=>\t%x#\n12").tokens = (ts', none) ∧
        ts'.map Token.said = ts.map Token.said ∧
        (ts'.map Token.kind).getLast? = some .endOfInput := by
  have read : (ofString "@'é b'==>%x 12").tokens =
      ([⟨.name .global, ⟨0, 7, by decide⟩, ⟨2, 6, by decide⟩, "é b"⟩,
        ⟨.equals, ⟨7, 8, by decide⟩, ⟨7, 8, by decide⟩, "="⟩,
        ⟨.arrow, ⟨8, 10, by decide⟩, ⟨8, 10, by decide⟩, "=>"⟩,
        ⟨.name .inner, ⟨10, 12, by decide⟩, ⟨11, 12, by decide⟩, "x"⟩,
        ⟨.integer, ⟨13, 15, by decide⟩, ⟨13, 15, by decide⟩, "12"⟩,
        ⟨.endOfInput, ⟨15, 15, by decide⟩, ⟨15, 15, by decide⟩, ""⟩], none) := by
    decide +kernel
  have gapped : Separates [[], [' '], ['#', '>', '\n'], ['\t'], ['#', '\n'], []] 6 := {
    length := rfl
    filler := by
      have arrow : Filler ('#' :: (['>'] ++ ['\n'])) := .comment (by decide) .nil
      have empty : Filler ('#' :: ([] ++ ['\n'])) := .comment (by decide) .nil
      simp only [List.forall_mem_cons]
      exact ⟨.nil, .blank rfl .nil, arrow, .blank rfl .nil, empty, .nil, nofun⟩
    some := by decide }
  obtain ⟨slices, cut, again⟩ := tokens_respaced read
  have slices_eq : slices =
      [['@', '\'', 'é', ' ', 'b', '\''], ['='], ['=', '>'], ['%', 'x'], ['1', '2'], []] := by
    refine List.map_inj_right (fun _ _ => Option.some.inj) |>.mp (cut.symm.trans ?_)
    decide +kernel
  obtain ⟨ts', read', same⟩ := again _ gapped
  refine ⟨_, read, gapped, ts', ?_, same⟩
  rw [slices_eq] at read'
  exact read'

end Cursor

end SigilAsm
