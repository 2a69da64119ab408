import SigilAsm.Proofs.Grammar.Data

/-! # The size of data

`Rule.dataExpression_denotes` says what becomes of a well-formed data expression:
it is read as what it denotes where the whole and everything in brackets keep
within the limit, and is refused for its size otherwise.

The reader measures as it goes, and the bytes in front of an element count
against the limit; `Tree.Element.Fits` and `Tree.Data.Fits` say so of the tree,
and how they distribute over it (`Tree.Data.fits_more_iff`,
`Tree.Element.fits_repetition_iff`) is how the reader is cut into cases.
-/

namespace SigilAsm

/-! ## Fitting -/

namespace Tree

/-- Behind `used` bytes of the same expression the element keeps within the limit, and so does
whatever stands in brackets. -/
def Element.Fits (limit used : Nat) (e : Element) : Prop :=
  used + e.bytes.length ≤ limit ∧ ∀ part ∈ e.bracketed, part.bytes.length ≤ limit

def Data.Fits (limit used : Nat) (d : Data) : Prop :=
  used + d.bytes.length ≤ limit ∧ ∀ part ∈ d.bracketed, part.bytes.length ≤ limit

variable {limit used : Nat}

theorem Data.fits_zero_iff {d : Data} :
    d.Fits limit 0 ↔ ∀ part ∈ d :: d.bracketed, part.bytes.length ≤ limit := by
  simp [Data.Fits]

theorem Data.fits_more_iff {e : Element} {rest : Data} :
    (Data.more e rest).Fits limit used ↔
      e.Fits limit used ∧ rest.Fits limit (used + e.bytes.length) := by
  simp only [Data.Fits, Element.Fits, Data.bytes, Data.bracketed, List.length_append,
    List.mem_append]
  constructor
  · rintro ⟨fits, parts⟩
    exact ⟨⟨by omega, fun part member => parts part (.inl member)⟩, by omega,
      fun part member => parts part (.inr member)⟩
  · rintro ⟨⟨-, parts⟩, fits, parts'⟩
    exact ⟨by omega, fun part member => member.elim (parts part) (parts' part)⟩

/-- Contents are measured once as an expression of their own and once as often as they are
repeated; where they are empty, no number of repetitions is too many. -/
theorem Element.fits_repetition_iff {contents : Data} {count : UInt64} (used_le : used ≤ limit) :
    (Element.repetition contents count).Fits limit used ↔ contents.Fits limit 0 ∧
      (contents.bytes = [] ∨ used + contents.bytes.length * count.toNat ≤ limit) := by
  have size : (Element.repetition contents count).bytes.length =
      contents.bytes.length * count.toNat := by
    simp [Element.bytes, Nat.mul_comm]
  simp only [Element.Fits, size, Element.bracketed, Data.fits_zero_iff]
  constructor
  · rintro ⟨fits, parts⟩
    exact ⟨parts, .inr fits⟩
  · rintro ⟨parts, empty | fits⟩
    · exact ⟨by simpa [empty] using used_le, parts⟩
    · exact ⟨fits, parts⟩

end Tree

namespace Rule

variable {limit depth used : Nat} {c next : Cursor}

/-- The outcome is a refusal because of the limit. -/
def TooLong (limit : Nat) {α : Type} (outcome : Except SyntaxError α) : Prop :=
  ∃ extent, outcome = .error ⟨.dataTooLong limit, extent⟩

/-! ## Elements -/

theorem advance_of_run_error {α : Type} {r : Rule α} (hr : r.Advances) {e : SyntaxError}
    (h : r.run c = .error e) : r.advance hr c = .error e := by
  unfold advance
  split
  · next failed =>
    cases failed.symm.trans h
    rfl
  · next read => cases read.symm.trans h

theorem TooLong.advance {α : Type} {r : Rule α} (h : TooLong limit (r.run c)) (hr : r.Advances) :
    TooLong limit (r.advance hr c) := by
  obtain ⟨extent, failed⟩ := h
  exact ⟨extent, advance_of_run_error hr failed⟩

theorem tooLong_dataLiteral {bytes : List UInt8} (read : dataBytes.run c = .ok (bytes, next))
    (exceeds : ¬ used + bytes.length ≤ limit) : TooLong limit ((dataLiteral limit used).run c) := by
  refine ⟨.between c.skipTrivia.offset next.skipTrivia.offset, ?_⟩
  have start : (get : Rule Cursor).run c = .ok (c, c) := rfl
  have stop : (get : Rule Cursor).run next = .ok (next, next) := rfl
  rw [dataLiteral, run_bind_of_run start, run_bind_of_run read, run_bind_of_run stop,
    if_neg exceeds]
  rfl

theorem tooLong_dataRepetition (start : Nat) {contents : List UInt8} {count : UInt64}
    (h : c.Spells [.mark .closeBracket, .mark .star, .integer count.toNat] next)
    (exceeds : ¬ (contents = [] ∨ used + contents.length * count.toNat ≤ limit)) :
    TooLong limit ((dataRepetition limit used start contents).run c) := by
  obtain ⟨extent, run⟩ := run_dataRepetition_of_spells limit used start contents h
  rw [if_neg exceeds] at run
  exact ⟨extent, run⟩

/-! ## Expressions -/

/-- An element that is not in brackets is refused where its bytes are too many. -/
theorem tooLong_dataElement_of_not_bracket (other : c.peekChar ≠ some '[') {bytes : List UInt8}
    (read : dataBytes.run c = .ok (bytes, next)) (exceeds : ¬ used + bytes.length ≤ limit) :
    TooLong limit (dataElement limit depth used c) := by
  rw [dataElement, dataElementOf, if_neg other]
  exact (tooLong_dataLiteral read exceeds).advance _

/-- A repetition is refused where its contents are, or where there are too many of them. -/
theorem tooLong_dataElement_of_bracket {inside : Cursor}
    (opened : c.Spells [.mark .openBracket] inside) (shallow : depth < maxDataDepth)
    (refused : TooLong limit (dataElements limit (depth + 1) 0 inside) ∨
      ∃ contents closing, ReadsData limit (depth + 1) 0 inside contents closing ∧
        TooLong limit ((dataRepetition limit used c.skipTrivia.offset contents).run closing)) :
    TooLong limit (dataElement limit depth used c) := by
  have bracket : c.peekChar = some '[' := peekChar_of_spells_mark opened
  obtain ⟨t, opened⟩ := run_mark_of_spells opened
  have opened : (expect .openBracket).advance (advances_expect (by simp)) c = _ :=
    advance_of_run _ opened
  rw [dataElement, dataElementOf, if_pos bracket, opened]
  dsimp only
  rw [if_neg (Nat.not_le_of_lt shallow)]
  rcases refused with ⟨extent, failed⟩ | ⟨contents, closing, ⟨_, read⟩, failed⟩
  · rw [failed]
    exact ⟨extent, rfl⟩
  · obtain ⟨extent, failed⟩ := failed.advance (advances_dataRepetition limit used _ contents)
    rw [read]
    dsimp only
    rw [failed]
    exact ⟨extent, rfl⟩

/-- An expression is refused where its first element is, or what follows the comma. -/
theorem tooLong_dataElements (refused : TooLong limit (dataElement limit depth used c) ∨
      ∃ first after rest, ReadsElement limit depth used c first after ∧
        after.Spells [.mark .comma] rest ∧
        TooLong limit (dataElements limit depth (used + first.length) rest)) :
    TooLong limit (dataElements limit depth used c) := by
  rw [dataElements_eq]
  rcases refused with ⟨extent, failed⟩ | ⟨first, after, rest, ⟨_, read⟩, comma, extent, failed⟩
  · rw [failed]
    exact ⟨extent, rfl⟩
  · have separated : after.peekChar = some ',' := peekChar_of_spells_mark comma
    obtain ⟨t, comma⟩ := run_mark_of_spells comma
    have comma : (expect .comma).advance (advances_expect (by simp)) after = _ :=
      advance_of_run _ comma
    rw [read]
    dsimp only
    rw [if_pos separated, comma]
    dsimp only
    rw [failed]
    exact ⟨extent, rfl⟩

mutual

/-- The lexemes of an element that does not fit are refused for their size. -/
theorem tooLong_of_spells_element {limit depth used : Nat} {c next : Cursor} (e : Tree.Element)
    (h : c.Spells e.lexemes next) (deep : depth + e.depth ≤ maxDataDepth)
    (used_le : used ≤ limit) (exceeds : ¬ e.Fits limit used) :
    TooLong limit (dataElement limit depth used c) := by
  match e with
  | .byte b =>
    have read := run_dataBytes_eq_ok.mpr (.inr ⟨b, rfl, h⟩)
    exact tooLong_dataElement_of_not_bracket (peekChar_ne_of_spells_byte h rfl) read fun fits =>
      exceeds ⟨fits, nofun⟩
  | .string text =>
    have other : c.peekChar ≠ some '[' := by simp [peekChar_of_spells_string h]
    have read := run_dataBytes_eq_ok.mpr (.inl ⟨text, rfl, h⟩)
    exact tooLong_dataElement_of_not_bracket other read fun fits => exceeds ⟨fits, nofun⟩
  | .repetition contents count =>
    obtain ⟨inside, opened, h⟩ := Cursor.Spells.cons_iff.mp h
    obtain ⟨closing, inner, closed⟩ := Cursor.Spells.append_iff.mp h
    -- The closing bracket ends the contents, since it is no comma.
    have stop : closing.peekChar ≠ some ',' := by
      rw [peekChar_of_spells_mark closed]
      rintro ⟨⟩
    simp only [Tree.Element.depth] at deep
    refine tooLong_dataElement_of_bracket opened (by omega) ?_
    by_cases fits : contents.Fits limit 0
    · obtain ⟨size, parts⟩ := fits
      refine .inr ⟨contents.bytes, closing, ?_, tooLong_dataRepetition _ closed fun fits => ?_⟩
      · exact readsData_of_spells contents inner stop (by omega) size parts
      · exact exceeds ((Tree.Element.fits_repetition_iff used_le).mpr ⟨⟨size, parts⟩, fits⟩)
    · exact .inl (tooLong_of_spells contents inner stop (by omega) (Nat.zero_le _) fits)

/-- The lexemes of an expression that does not fit are refused for their size.  Either its first
element is, or that element leaves too little for the rest. -/
theorem tooLong_of_spells {limit depth used : Nat} {c next : Cursor} (d : Tree.Data)
    (h : c.Spells d.lexemes next) (stop : next.peekChar ≠ some ',')
    (deep : depth + d.depth ≤ maxDataDepth) (used_le : used ≤ limit)
    (exceeds : ¬ d.Fits limit used) :
    TooLong limit (dataElements limit depth used c) := by
  match d with
  | .one e =>
    exact tooLong_dataElements (.inl (tooLong_of_spells_element e h deep used_le exceeds))
  | .more e rest =>
    obtain ⟨after, first, h⟩ := Cursor.Spells.append_iff.mp h
    obtain ⟨c', comma, more⟩ := Cursor.Spells.cons_iff.mp h
    simp only [Tree.Data.depth] at deep
    refine tooLong_dataElements ?_
    by_cases fits : e.Fits limit used
    · obtain ⟨size, parts⟩ := fits
      refine .inr ⟨e.bytes, after, c', ?_, comma, ?_⟩
      · exact readsElement_of_spells e first (by omega) size parts
      · exact tooLong_of_spells rest more stop (by omega) size fun fits =>
          exceeds (Tree.Data.fits_more_iff.mpr ⟨⟨size, parts⟩, fits⟩)
    · exact .inl (tooLong_of_spells_element e first (by omega) used_le fits)

end

theorem run_dataExpression_of_tooLong (h : TooLong limit (dataElements limit 0 0 c)) :
    TooLong limit ((dataExpression limit).run c) := by
  obtain ⟨extent, failed⟩ := h
  refine ⟨extent, ?_⟩
  simp only [dataExpression, StateT.run, failed]

/-! ## Words

Sizes are natural numbers here, so nothing wraps around.  Words of 64 bits give
the same answer, as long as a product or a sum that they do not hold counts as
too large. -/

def checkedMul (a b : UInt64) : Option UInt64 :=
  if a.toNat * b.toNat < UInt64.size then some (a * b) else none

def checkedAdd (a b : UInt64) : Option UInt64 :=
  if a.toNat + b.toNat < UInt64.size then some (a + b) else none

/-- Whether `count` times `length` bytes behind `used` bytes keep within the limit. -/
def fitsInWords (limit used length count : UInt64) : Bool :=
  ((checkedMul length count).bind (checkedAdd used)).any (· ≤ limit)

theorem fitsInWords_iff {limit used length count : UInt64} :
    fitsInWords limit used length count = true ↔
      used.toNat + length.toNat * count.toNat ≤ limit.toNat := by
  have bound := limit.toNat_lt
  unfold fitsInWords checkedMul
  split
  · next small =>
    have product : (length * count).toNat = length.toNat * count.toNat := by
      rw [UInt64.toNat_mul]
      exact Nat.mod_eq_of_lt small
    rw [Option.bind_some, checkedAdd, product]
    split
    · next small =>
      have sum : (used + length * count).toNat = used.toNat + length.toNat * count.toNat := by
        rw [UInt64.toNat_add, product]
        exact Nat.mod_eq_of_lt small
      simp [UInt64.le_iff_toNat_le, sum]
    · next large =>
      have : UInt64.size = 2 ^ 64 := rfl
      simp only [Option.any_none, Bool.false_eq_true, false_iff]
      omega
  · next large =>
    have : UInt64.size = 2 ^ 64 := rfl
    simp only [Option.bind_none, Option.any_none, Bool.false_eq_true, false_iff]
    omega

theorem run_dataRepetition_iff_fitsInWords {limit used count : UInt64} (start : Nat)
    {contents : List UInt8} (small : contents.length < UInt64.size)
    (h : c.Spells [.mark .closeBracket, .mark .star, .integer count.toNat] next) :
    (dataRepetition limit.toNat used.toNat start contents).run c =
        .ok ((List.replicate count.toNat contents).flatten, next) ↔
      contents = [] ∨ fitsInWords limit used contents.length.toUInt64 count = true := by
  obtain ⟨extent, run⟩ :=
    run_dataRepetition_of_spells limit.toNat used.toNat start contents h
  have length : contents.length.toUInt64.toNat = contents.length := UInt64.toNat_ofNat_of_lt' small
  rw [run, fitsInWords_iff, length]
  split
  · next fits => exact iff_of_true rfl fits
  · next exceeds => exact iff_of_false (by simp) exceeds

/-! ## Denotations -/

/-- A well-formed data expression in front of a semicolon is read up to the semicolon as what it
denotes, if the whole and everything in brackets keep within the limit, and is refused for its size
if not.  No product is too large to be told from the limit. -/
theorem dataExpression_denotes (limit : Nat) {c stop : Cursor} {d : Tree.Data}
    (spells : c.Spells (d.lexemes ++ [.mark .semicolon]) stop) (deep : d.depth ≤ maxDataDepth) :
    (∃ next, c.Spells d.lexemes next ∧ next.skipTrivia.Over [';'] stop ∧
      ((dataExpression limit).run c = .ok (d.bytes, next) ↔
        ∀ part ∈ d :: d.bracketed, part.bytes.length ≤ limit)) ∧
    ((¬ ∀ part ∈ d :: d.bracketed, part.bytes.length ≤ limit) →
      ∃ e, (dataExpression limit).run c = .error e ∧ e.fault = .dataTooLong limit ∧
        e.fault.message = "data expression exceeds " ++ toString limit ++ " bytes") ∧
    ∀ (bound used count : UInt64) (start : Nat) (contents : List UInt8) (closing after : Cursor),
      contents.length < UInt64.size →
      closing.Spells [.mark .closeBracket, .mark .star, .integer count.toNat] after →
      ((dataRepetition bound.toNat used.toNat start contents).run closing =
          .ok ((List.replicate count.toNat contents).flatten, after) ↔
        contents = [] ∨ fitsInWords bound used contents.length.toUInt64 count = true) := by
  obtain ⟨next, inner, semicolon⟩ := Cursor.Spells.append_iff.mp spells
  have noComma : next.peekChar ≠ some ',' := by
    rw [peekChar_of_spells_mark semicolon]
    rintro ⟨⟩
  have before : next.skipTrivia.Over [';'] stop := by
    obtain ⟨text, at_⟩ := Cursor.spells_singleton_iff.mp semicolon
    have covers := at_.covers
    cases at_.spelling with
    | mark => exact covers
  have refused (exceeds : ¬ ∀ part ∈ d :: d.bracketed, part.bytes.length ≤ limit) :
      TooLong limit ((dataExpression limit).run c) :=
    run_dataExpression_of_tooLong <| tooLong_of_spells d inner noComma (by simpa using deep)
      (Nat.zero_le limit) (exceeds ∘ Tree.Data.fits_zero_iff.mp)
  refine ⟨⟨next, inner, before, ?_, fun size => ?_⟩, fun exceeds => ?_, ?_⟩
  · refine fun read => Classical.byContradiction fun exceeds => ?_
    obtain ⟨extent, failed⟩ := refused exceeds
    cases read.symm.trans failed
  · exact run_dataExpression_of_spells inner noComma ⟨deep, size⟩
  · obtain ⟨extent, failed⟩ := refused exceeds
    exact ⟨_, failed, rfl, rfl⟩
  · intro bound used count start contents closing after small closed
    exact run_dataRepetition_iff_fitsInWords start small closed

/-- Nothing as often as can be written, and a character, four times: four bytes are read where four
are allowed, and are refused where three are. -/
theorem dataExpression_denotes_nothing_repeated :
    (∃ next, (dataExpression 4).run (Cursor.ofString "[[\"\"]*18446744073709551615,\"x\"]*4 ;") =
        .ok ([0x78, 0x78, 0x78, 0x78], next) ∧ next.skipTrivia.Over [';'] ⟨35, []⟩) ∧
    ∃ e, (dataExpression 3).run (Cursor.ofString "[[\"\"]*18446744073709551615,\"x\"]*4 ;") =
        .error e ∧ e.fault.message = "data expression exceeds 3 bytes" := by
  -- The contents are told by what they denote, so that their count is never unfolded.
  obtain ⟨contents, spells, bytes, bracketed, depth⟩ : ∃ contents : Tree.Data,
      (Cursor.ofString "[[\"\"]*18446744073709551615,\"x\"]*4 ;").Spells
        ((Tree.Data.one (.repetition contents 4)).lexemes ++ [.mark .semicolon]) ⟨35, []⟩ ∧
      contents.bytes = [0x78] ∧ contents.bracketed = [.one (.string "")] ∧ contents.depth = 1 := by
    refine ⟨.more (.repetition (.one (.string "")) 18446744073709551615) (.one (.string "x")),
      Cursor.spells_of_lexemes? (show Cursor.lexemes? _ 12 = _ by decide +kernel), ?_, rfl, rfl⟩
    rw [Tree.Data.bytes, Tree.Element.bytes, show (Tree.Data.one (.string "")).bytes = [] from rfl,
      List.flatten_replicate_nil]
    rfl
  have whole : (Tree.Data.one (.repetition contents 4)).bytes = [0x78, 0x78, 0x78, 0x78] := by
    rw [Tree.Data.bytes, Tree.Element.bytes, bytes]
    rfl
  have deep : (Tree.Data.one (.repetition contents 4)).depth ≤ maxDataDepth := by
    rw [Tree.Data.depth, Tree.Element.depth, depth]
    decide
  have parts : (Tree.Data.one (.repetition contents 4)).bracketed =
      [contents, .one (.string "")] := by
    rw [Tree.Data.bracketed, Tree.Element.bracketed, bracketed]
  obtain ⟨next, -, before, read⟩ := (dataExpression_denotes 4 spells deep).1
  have fits := read.mpr (by simp [parts, bytes, Tree.Data.bytes, Tree.Element.bytes, Utf8.encode])
  have refused := (dataExpression_denotes 3 spells deep).2.1 fun fits => by
    have := fits _ (List.mem_cons_self ..)
    rw [whole] at this
    exact absurd this (by decide)
  obtain ⟨e, failed, -, message⟩ := refused
  rw [whole] at fits
  exact ⟨⟨next, fits, before⟩, e, failed, message⟩

end Rule

end SigilAsm
