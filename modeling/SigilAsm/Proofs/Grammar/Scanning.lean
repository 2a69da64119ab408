import SigilAsm.Proofs.Grammar.Lexeme
import SigilAsm.Text.LineMap

/-! # What the scanner reads

`Cursor.scan_of_spells` and `Cursor.spells_of_scan` say that reading a token is
reading one lexeme that is not a byte, and `Cursor.scanByte_of_spells` says the
same of bytes.  With these, no later proof looks at characters.

That a token is the longest lexeme is proved backwards.  Were there a longer
one, there would be a longest of them, and the scanner, which reads whatever is
longest, would have read that one.
-/

namespace SigilAsm

namespace Token

/-- `t.Shows l`: the token says what the lexeme says. -/
def Shows (t : Token) : Lexeme → Prop
  | .word text => t.kind = .word ∧ t.text = text
  | .quoted text => t.kind = .quoted ∧ t.text = text
  | .name sigil ident => t.kind = .name sigil ∧ ident = ⟨t.text, t.extent⟩
  | .integer value => t.kind = .integer ∧ Rule.decimalValue t.text.toList = value
  | .string text => t.kind = .string ∧ t.text = text
  | .byte _ => False
  | .mark mark => t.kind = mark.kind

theorem Shows.kind_ne_endOfInput {t : Token} {l : Lexeme} (h : t.Shows l) :
    t.kind ≠ .endOfInput := by
  intro covers
  cases l with
  | byte _ => exact h
  | mark mark => cases mark <;> cases covers.symm.trans h
  | word _ | quoted _ | name _ _ | integer _ | string _ => cases covers.symm.trans h.1

theorem Shows.unique {t : Token} {l l' : Lexeme} (h : t.Shows l) (h' : t.Shows l') : l = l' := by
  cases l with
  | byte _ => cases h
  | mark m =>
    cases l' with
    | byte _ => cases h'
    | mark m' => rw [Mark.kind_injective (h.symm.trans h')]
    | word _ | quoted _ | name _ _ | integer _ | string _ =>
      have kinds := h.symm.trans h'.1
      cases m <;> cases kinds
  | word _ | quoted _ | name _ _ | integer _ | string _ =>
    cases l' with
    | byte _ => cases h'
    | mark m =>
      have kinds := h.1.symm.trans h'
      cases m <;> cases kinds
    | word _ | quoted _ | name _ _ | integer _ | string _ =>
      obtain ⟨kind, text⟩ := h
      obtain ⟨kind', text'⟩ := h'
      cases kind.symm.trans kind' <;> simp_all

/-- The lexeme that the token shows. -/
def lexeme? (t : Token) : Option Lexeme :=
  match t.kind with
  | .endOfInput => none
  | .word => some (.word t.text)
  | .quoted => some (.quoted t.text)
  | .name sigil => some (.name sigil ⟨t.text, t.extent⟩)
  | .integer => some (.integer (Rule.decimalValue t.text.toList))
  | .string => some (.string t.text)
  | .semicolon => some (.mark .semicolon)
  | .equals => some (.mark .equals)
  | .comma => some (.mark .comma)
  | .star => some (.mark .star)
  | .openBracket => some (.mark .openBracket)
  | .closeBracket => some (.mark .closeBracket)
  | .openBrace => some (.mark .openBrace)
  | .closeBrace => some (.mark .closeBrace)
  | .arrow => some (.mark .arrow)

theorem shows_of_lexeme? {t : Token} {l : Lexeme} (h : t.lexeme? = some l) : t.Shows l := by
  unfold lexeme? at h
  split at h <;> cases h
  · exact ⟨‹_›, rfl⟩
  · exact ⟨‹_›, rfl⟩
  · exact ⟨‹_›, rfl⟩
  · exact ⟨‹_›, rfl⟩
  · exact ⟨‹_›, rfl⟩
  all_goals assumption

/-! ## Classes of characters -/

theorem isWordPart_of_isWordStart {ch : Char} (h : isWordStart ch = true) :
    isWordPart ch = true := by
  simp [isWordPart, h]

theorem ne_of_isWordStart {ch other : Char} (h : isWordStart ch = true)
    (no : isWordStart other = false) : ch ≠ other := by
  rintro rfl
  cases h.symm.trans no

theorem ne_of_isDigit {ch other : Char} (h : ch.isDigit = true) (no : other.isDigit = false) :
    ch ≠ other := by
  rintro rfl
  cases h.symm.trans no

theorem isDigit_eq_false_of_isWordStart {ch : Char} (h : isWordStart ch = true) :
    ch.isDigit = false := by
  change (((decide (ch.val ≥ 65 ∧ ch.val ≤ 90) ||
    (decide (ch.val ≥ 97) && decide (ch.val ≤ 122))) || ch == '_') || ch == '.') = true at h
  simp only [Bool.or_eq_true, Bool.and_eq_true, decide_eq_true_eq, beq_iff_eq, ge_iff_le,
    UInt32.le_iff_toNat_le] at h
  simp only [Char.isDigit, ge_iff_le, Bool.and_eq_false_iff, decide_eq_false_iff_not,
    UInt32.le_iff_toNat_le]
  change (((65 ≤ ch.toNat ∧ ch.toNat ≤ 90) ∨ (97 ≤ ch.toNat ∧ ch.toNat ≤ 122)) ∨ ch = '_') ∨ _ at h
  rcases h with ((upper | lower) | rfl) | rfl
  · change ¬ 48 ≤ ch.toNat ∨ ¬ ch.toNat ≤ 57
    omega
  · change ¬ 48 ≤ ch.toNat ∨ ¬ ch.toNat ≤ 57
    omega
  · decide
  · decide

end Token

namespace Lexeme

/-- The characters with which the lexeme would go on after the text that spells it.  Words, bare
names and numbers go on with more of what they are made of, and an equals sign becomes an arrow; a
closing quote ends its lexeme whatever follows. -/
def goesOn (l : Lexeme) (text : List Char) : Char → Bool :=
  match l with
  | .word _ => Token.isWordPart
  | .name .. => if text[1]? = some '\'' then fun _ => false else Token.isWordPart
  | .integer _ => Char.isDigit
  | .mark .equals => (· == '>')
  | .byte _ => fun ch => (Token.hexDigit? ch).isSome
  | .quoted _ | .string _ | .mark _ => fun _ => false

/-- The lexeme does not go on with the character that comes next, if any does. -/
def Ends (l : Lexeme) (text rest : List Char) : Prop :=
  ∀ ch, rest.head? = some ch → l.goesOn text ch = false

/-- A class of characters that has no blank in it and no `#` has nothing that trivia begins with. -/
theorem eq_false_of_trivia {p : Char → Bool} {ch : Char}
    (none : [' ', '\t', '\n', '\r', '\x0b', '\x0c', '#'].any p = false)
    (h : Cursor.isBlank ch = true ∨ ch = '#') : p ch = false := by
  simp only [List.any_cons, List.any_nil, Bool.or_false, Bool.or_eq_false_iff] at none
  simp only [Cursor.isBlank, Bool.or_eq_true, beq_iff_eq] at h
  rcases h with (((((rfl | rfl) | rfl) | rfl) | rfl) | rfl) | rfl <;> simp only [none]

/-- Neither a blank nor a comment goes on with what stands before it. -/
theorem goesOn_trivia (l : Lexeme) (text : List Char) {ch : Char}
    (h : Cursor.isBlank ch = true ∨ ch = '#') : l.goesOn text ch = false := by
  cases l with
  | name sigil ident =>
    unfold goesOn
    split
    · rfl
    · exact eq_false_of_trivia rfl h
  | mark m => cases m <;> exact eq_false_of_trivia rfl h
  | word _ | quoted _ | integer _ | string _ | byte _ => exact eq_false_of_trivia rfl h

/-- A bare name has no quote after its sigil. -/
theorem getElem?_bareName {text : List Char} (h : IsBareName text) (sigil : Sigil) :
    (sigil.char :: text)[1]? ≠ some '\'' := by
  cases text with
  | nil => cases h
  | cons ch text =>
    intro tick
    simp only [List.getElem?_cons_succ, List.getElem?_cons_zero, Option.some.injEq] at tick
    exact Token.ne_of_isWordStart h.1 rfl tick

theorem goesOn_bareName {sigil : Sigil} {ident : Ident} {text : List Char} (h : IsBareName text) :
    (Lexeme.name sigil ident).goesOn (sigil.char :: text) = Token.isWordPart :=
  if_neg (getElem?_bareName h sigil)

end Lexeme

namespace Cursor

open Token (isWordStart isWordPart isQuotable isStringPart hexDigit?)

/-! ## Pieces of text -/

theorem takeWhile_append_of_head {p : Char → Bool} {text rest : List Char}
    (inside : ∀ ch ∈ text, p ch = true) (stop : StopsAt p rest) :
    (text ++ rest).takeWhile p = text := by
  rw [List.takeWhile_append_of_pos inside]
  cases rest with
  | nil => simp
  | cons ch rest => simp [stop ch rfl]

theorem stopsAt_of_takeWhile {p : Char → Bool} {run rest : List Char}
    (all : ∀ ch ∈ run, p ch = true) (taken : (run ++ rest).takeWhile p = run) :
    StopsAt p rest := by
  intro ch head
  obtain ⟨rest, rfl⟩ := List.head?_eq_some_iff.mp head
  rw [List.takeWhile_append_of_pos all] at taken
  have nothing := List.append_cancel_left (taken.trans (List.append_nil run).symm)
  cases further : p ch with
  | false => rfl
  | true => simp [further] at nothing

/-- The token of a text that is shown without the characters around `inside`. -/
def tokenOver (kind : Token.Kind) (c next : Cursor) (opening inside : List Char) : Token where
  kind
  extent := .between c.offset next.offset
  payload := .between (c.offset + Utf8.byteLength opening)
    (c.offset + Utf8.byteLength opening + Utf8.byteLength inside)
  text := String.ofList inside

theorem lexeme_of_over {c next : Cursor} (opening : List Char) {inside : List Char}
    (closing : List Char) (h : c.Over (opening ++ (inside ++ closing)) next) (kind : Token.Kind) :
    c.lexeme kind (opening.length + inside.length + closing.length) opening.length closing.length =
      (.ok (tokenOver kind c next opening inside), next) := by
  have stop : c.skip (opening.length + inside.length + closing.length) = next := by
    rw [h.eq_skip]
    simp [Nat.add_assoc]
  have shown : (c.rest.take (opening.length + inside.length)).drop opening.length = inside := by
    rw [h.rest, List.append_assoc, List.append_assoc, List.take_length_add_append]
    simp
  have opened : (c.skip opening.length).offset = c.offset + Utf8.byteLength opening := by
    simp [skip, h.rest]
  simp only [lexeme, stop, Nat.add_sub_cancel, shown, opened, tokenOver]

theorem lexeme_of_over_plain {c next : Cursor} {text : List Char} (h : c.Over text next)
    (kind : Token.Kind) :
    c.lexeme kind text.length 0 0 = (.ok (tokenOver kind c next [] text), next) := by
  have padded : c.Over ([] ++ (text ++ [])) next := by simpa using h
  simpa using lexeme_of_over [] [] padded kind

theorem scanQuoted_of_over {c next : Cursor} (opening : List Char) {inside : List Char}
    (h : c.Over (opening ++ (inside ++ ['\''])) next)
    (quotable : ∀ ch ∈ inside, isQuotable ch = true) (kind : Token.Kind) :
    c.scanQuoted kind opening.length = (.ok (tokenOver kind c next opening inside), next) := by
  have rest : c.rest = opening ++ (inside ++ '\'' :: next.rest) := by simp [h.rest]
  have taken : (inside ++ '\'' :: next.rest).takeWhile isQuotable = inside :=
    takeWhile_append_of_head quotable (by rintro _ ⟨⟩; rfl)
  have body : (c.skip opening.length).rest = inside ++ '\'' :: next.rest := by simp [skip, rest]
  have stop : ((c.skip opening.length).skip inside.length).rest = '\'' :: next.rest := by
    simp [skip, rest]
  simp only [scanQuoted, body, taken, stop, beq_self_eq_true, if_true]
  exact lexeme_of_over opening ['\''] h kind

theorem scanString_of_over {c next : Cursor} {inside : List Char}
    (h : c.Over ('"' :: (inside ++ ['"'])) next)
    (printable : ∀ ch ∈ inside, isStringPart ch = true) :
    c.scanString = (.ok (tokenOver .string c next ['"'] inside), next) := by
  have rest : c.rest = '"' :: (inside ++ '"' :: next.rest) := by simp [h.rest]
  have taken : (inside ++ '"' :: next.rest).takeWhile isStringPart = inside :=
    takeWhile_append_of_head printable (by rintro _ ⟨⟩; rfl)
  have body : (c.skip 1).rest = inside ++ '"' :: next.rest := by simp [skip, rest]
  have stop : ((c.skip 1).skip inside.length).rest = '"' :: next.rest := by simp [skip, rest]
  have length : inside.length + 2 = 1 + inside.length + 1 := by omega
  simp only [scanString, body, taken, stop, beq_self_eq_true, if_true, length]
  exact lexeme_of_over ['"'] ['"'] h .string

/-! ## Lexemes are read -/

/-- What comes after the longest word is no part of it; the same holds of digits and bare names,
all of which could otherwise be one character longer. -/
theorem head_of_longest {l : Lexeme} {text rest : List Char} {p : Char → Bool}
    (longest : l.Longest text rest) (token : ¬ l.IsByte)
    (longer : ∀ ch, p ch = true →
      ∃ other : Lexeme, ¬ other.IsByte ∧ other.Spelling (text ++ [ch])) :
    StopsAt p rest := by
  intro ch head
  by_cases h : p ch = true
  · obtain ⟨other, notByte, spelling⟩ := longer ch h
    have begins : [ch] <+: rest := by
      cases rest with
      | nil => cases head
      | cons first rest =>
        cases head
        exact ⟨rest, rfl⟩
    cases l with
    | byte _ => exact absurd trivial token
    | word _ | quoted _ | name _ _ | integer _ | string _ | mark _ =>
      exact absurd spelling (longest [ch] (by simp) begins other notByte)
  · simpa using h

theorem isBareName_append {text : List Char} {ch : Char} (h : Lexeme.IsBareName text)
    (part : isWordPart ch = true) : Lexeme.IsBareName (text ++ [ch]) := by
  cases text with
  | nil => cases h
  | cons first rest =>
    obtain ⟨start, parts⟩ := h
    refine ⟨start, ?_⟩
    intro ch' member
    rcases List.mem_append.mp member with inside | last
    · exact parts ch' inside
    · rwa [List.mem_singleton.mp last]

theorem isWordPart_of_isBareName {text : List Char} (h : Lexeme.IsBareName text) :
    ∀ ch ∈ text, isWordPart ch = true := by
  cases text with
  | nil => cases h
  | cons first rest =>
    intro ch member
    rcases List.mem_cons.mp member with rfl | inside
    · exact Token.isWordPart_of_isWordStart h.1
    · exact h.2 ch inside

theorem scanAt_of_word {start next : Cursor} {text more : List Char} {ch : Char}
    (covers : start.Over text next) (bare : Lexeme.IsBareName text)
    (stop : StopsAt isWordPart next.rest)
    (first : start.rest = ch :: more) :
    start.scanAt ch = (.ok (tokenOver .word start next [] text), next) := by
  have taken : start.rest.takeWhile isWordPart = text := by
    rw [covers.rest]
    exact takeWhile_append_of_head (isWordPart_of_isBareName bare) stop
  have begins : isWordStart ch = true := by
    cases text with
    | nil => cases bare
    | cons ch' text =>
      cases first.symm.trans covers.rest
      exact bare.1
  -- The scanner tries the other forms first, and none of them begins like a word.
  have digit := Token.isDigit_eq_false_of_isWordStart begins
  have equals : ch ≠ '=' := Token.ne_of_isWordStart begins rfl
  have quote : ch ≠ '"' := Token.ne_of_isWordStart begins rfl
  have tick : ch ≠ '\'' := Token.ne_of_isWordStart begins rfl
  simp only [scanAt, beq_iff_eq, equals, quote, tick, digit, begins, taken, if_false, if_true,
    Bool.false_eq_true]
  exact lexeme_of_over_plain covers .word

theorem scanAt_of_digits {start next : Cursor} {text more : List Char} {ch : Char}
    (covers : start.Over text next) (nonempty : text ≠ []) (all : ∀ ch ∈ text, ch.isDigit = true)
    (stop : StopsAt Char.isDigit next.rest)
    (first : start.rest = ch :: more) :
    start.scanAt ch = (.ok (tokenOver .integer start next [] text), next) := by
  have taken : start.rest.takeWhile Char.isDigit = text := by
    rw [covers.rest]
    exact takeWhile_append_of_head all stop
  have digit : ch.isDigit = true := by
    cases text with
    | nil => cases nonempty rfl
    | cons ch' text =>
      cases first.symm.trans covers.rest
      exact all _ (by simp)
  have equals : ch ≠ '=' := Token.ne_of_isDigit digit rfl
  have quote : ch ≠ '"' := Token.ne_of_isDigit digit rfl
  have tick : ch ≠ '\'' := Token.ne_of_isDigit digit rfl
  simp only [scanAt, beq_iff_eq, equals, quote, tick, digit, taken, if_false, if_true]
  exact lexeme_of_over_plain covers .integer

theorem scanAt_sigil (c : Cursor) (sigil : Sigil) : c.scanAt sigil.char = c.scanName sigil := by
  cases sigil <;> rfl

theorem scanName_of_bare {start next : Cursor} {sigil : Sigil} {text : List Char}
    (covers : start.Over (sigil.char :: text) next) (bare : Lexeme.IsBareName text)
    (stop : StopsAt isWordPart next.rest) :
    start.scanName sigil =
      (.ok (tokenOver (.name sigil) start next [sigil.char] text), next) := by
  have taken : (start.skip 1).rest.takeWhile isWordPart = text := by
    simp only [skip, covers.rest, List.cons_append, List.drop_succ_cons, List.drop_zero]
    exact takeWhile_append_of_head (isWordPart_of_isBareName bare) stop
  cases text with
  | nil => cases bare
  | cons ch text =>
    have inside : (start.skip 1).rest = ch :: (text ++ next.rest) := by simp [skip, covers.rest]
    have tick : ch ≠ '\'' := Token.ne_of_isWordStart bare.1 rfl
    simp only [scanName, inside, beq_iff_eq, tick, if_false, bare.1, if_true]
    rw [← inside, taken]
    exact lexeme_of_over [sigil.char] [] (by simpa using covers) _

theorem scanName_of_quoted {start next : Cursor} {sigil : Sigil} {text : List Char}
    (covers : start.Over (sigil.char :: '\'' :: (text ++ ['\''])) next)
    (quotable : ∀ ch ∈ text, isQuotable ch = true) :
    start.scanName sigil =
      (.ok (tokenOver (.name sigil) start next [sigil.char, '\''] text), next) := by
  have inside : (start.skip 1).rest = '\'' :: (text ++ '\'' :: next.rest) := by
    simp [skip, covers.rest]
  simp only [scanName, inside, beq_self_eq_true, if_true]
  exact scanQuoted_of_over [sigil.char, '\''] covers quotable _

theorem scanAt_of_mark {start next : Cursor} {m : Mark} {more : List Char} {ch : Char}
    (covers : start.Over m.chars next) (alone : m = .equals → next.rest.head? ≠ some '>')
    (first : start.rest = ch :: more) :
    start.scanAt ch = (.ok (tokenOver m.kind start next [] m.chars), next) := by
  have plain := lexeme_of_over_plain covers m.kind
  have rest := covers.rest
  cases m with
  | equals =>
    cases first.symm.trans rest
    have single : (start.rest[1]? == some '>') = false := by
      rw [rest]
      cases h : next.rest with
      | nil => rfl
      | cons ch more =>
        have other : ch ≠ '>' := fun arrow => alone rfl (by rw [h, arrow]; rfl)
        simpa [Mark.chars] using other
    simp only [scanAt, beq_self_eq_true, if_true, single, Bool.false_eq_true, if_false]
    exact plain
  | arrow =>
    cases first.symm.trans rest
    have arrow : (start.rest[1]? == some '>') = true := by simp [rest, Mark.chars]
    simp only [scanAt, beq_self_eq_true, if_true, arrow]
    exact plain
  | semicolon | comma | star | openBracket | closeBracket | openBrace | closeBrace =>
    cases first.symm.trans rest
    exact plain

/-- The scanner reads what has the form of a token, at a place that is not trivia. -/
theorem scanAt_of_form {kind : Token.Kind} {start next : Cursor}
    {opening inside closing more : List Char} {ch : Char}
    (covers : start.Over (opening ++ (inside ++ closing)) next)
    (form : kind.Form opening inside closing next.rest) (first : start.rest = ch :: more) :
    start.scanAt ch = (.ok (tokenOver kind start next opening inside), next) := by
  generalize followed : next.rest = rest at form
  cases form with
  | endOfInput =>
    have none := first.symm.trans covers.rest
    rw [followed] at none
    cases none
  | mark alone => exact scanAt_of_mark (by simpa using covers) (followed ▸ alone) first
  | integer some all stop =>
    exact scanAt_of_digits (by simpa using covers) some all (followed ▸ stop) first
  | word bare stop => exact scanAt_of_word (by simpa using covers) bare (followed ▸ stop) first
  | quoted quotable =>
    cases first.symm.trans covers.rest
    exact scanQuoted_of_over ['\''] covers quotable .quoted
  | @bareName sigil _ _ bare stop =>
    cases first.symm.trans covers.rest
    rw [scanAt_sigil]
    exact scanName_of_bare (by simpa using covers) bare (followed ▸ stop)
  | @quotedName sigil _ _ quotable =>
    cases first.symm.trans covers.rest
    rw [scanAt_sigil]
    exact scanName_of_quoted covers quotable
  | string printable =>
    cases first.symm.trans covers.rest
    exact scanString_of_over covers printable

/-- The token covers all of the text from `start` to `next`, in the form of its kind. -/
def Spans (start : Cursor) (t : Token) (next : Cursor) : Prop :=
  ∃ opening inside closing, start.Over (opening ++ (inside ++ closing)) next ∧
    t = tokenOver t.kind start next opening inside ∧
    t.kind.Form opening inside closing next.rest

/-- A lexeme that does not go on has the form of a token, and such a token shows it. -/
theorem exists_form_of_ends {l : Lexeme} {text rest : List Char} (spelling : l.Spelling text)
    (ends : l.Ends text rest) (token : ¬ l.IsByte) :
    ∃ kind opening inside closing, text = opening ++ (inside ++ closing) ∧
      Token.Kind.Form kind opening inside closing rest ∧
      ∀ start next : Cursor, l.Located start.offset next.offset →
        (tokenOver kind start next opening inside).Shows l := by
  cases spelling with
  | word bare => exact ⟨_, [], _, [], by simp, .word bare ends, fun _ _ _ => ⟨rfl, rfl⟩⟩
  | quoted quotable => exact ⟨_, _, _, _, rfl, .quoted quotable, fun _ _ _ => ⟨rfl, rfl⟩⟩
  | bareName bare =>
    unfold Lexeme.Ends at ends
    rw [Lexeme.goesOn_bareName bare] at ends
    exact ⟨_, [_], _, [], by simp, .bareName bare ends,
      fun _ _ located => ⟨rfl, congrArg _ located⟩⟩
  | quotedName quotable =>
    exact ⟨_, _, _, _, rfl, .quotedName quotable, fun _ _ located => ⟨rfl, congrArg _ located⟩⟩
  | integer some all =>
    exact ⟨_, [], _, [], by simp, .integer some all ends,
      fun _ _ _ => ⟨rfl, by simp [tokenOver]⟩⟩
  | string printable => exact ⟨_, _, _, _, rfl, .string printable, fun _ _ _ => ⟨rfl, rfl⟩⟩
  | byte _ _ => exact absurd trivial token
  | mark m =>
    have alone : m = .equals → rest.head? ≠ some '>' := by
      rintro rfl head
      simpa [Lexeme.goesOn] using ends '>' head
    exact ⟨_, [], _, [], by simp, .mark alone, fun _ _ _ => rfl⟩

/-- The scanner reads what is a lexeme and does not go on, at a place that is not trivia. -/
theorem scanAt_of_ends {l : Lexeme} {start next : Cursor} {text more : List Char} {ch : Char}
    (covers : start.Over text next) (spelling : l.Spelling text) (ends : l.Ends text next.rest)
    (token : ¬ l.IsByte) (first : start.rest = ch :: more) :
    ∃ t, start.scanAt ch = (.ok t, next) ∧ start.Spans t next ∧
      (l.Located start.offset next.offset → t.Shows l) := by
  obtain ⟨kind, opening, inside, closing, rfl, form, shows⟩ :=
    exists_form_of_ends spelling ends token
  exact ⟨_, scanAt_of_form covers form first, ⟨_, _, _, covers, rfl, form⟩, shows start next⟩

/-- A longest lexeme does not go on, since it would be longer if it did. -/
theorem ends_of_longest {l : Lexeme} {text rest : List Char} (spelling : l.Spelling text)
    (longest : l.Longest text rest) : l.Ends text rest := by
  cases spelling with
  | word bare =>
    exact head_of_longest longest id fun ch part => ⟨_, id, .word (isBareName_append bare part)⟩
  | @bareName sigil text extent bare =>
    unfold Lexeme.Ends
    rw [Lexeme.goesOn_bareName bare]
    exact head_of_longest longest id fun ch part =>
      ⟨.name sigil ⟨_, extent⟩, id, .bareName (isBareName_append bare part)⟩
  | integer some all =>
    refine head_of_longest longest id fun ch digit =>
      ⟨.integer (Rule.decimalValue (text ++ [ch])), id, .integer (by simp) fun ch' member => ?_⟩
    rcases List.mem_append.mp member with inside | last
    · exact all ch' inside
    · rwa [List.mem_singleton.mp last]
  | byte _ _ =>
    intro ch head
    simp [Lexeme.goesOn, longest ch head]
  | mark mark =>
    cases mark with
    | equals =>
      refine head_of_longest longest id fun ch arrow => ?_
      rw [beq_iff_eq.mp arrow]
      exact ⟨_, id, .mark .arrow⟩
    | semicolon | comma | star | openBracket | closeBracket | openBrace | closeBrace | arrow =>
      exact fun _ _ => rfl
  | quoted _ | quotedName _ | string _ => exact fun _ _ => rfl

/-- The scanner reads what is a longest lexeme at a place that is not trivia. -/
theorem scanAt_of_longest {l : Lexeme} {start next : Cursor} {text more : List Char} {ch : Char}
    (covers : start.Over text next) (spelling : l.Spelling text)
    (longest : l.Longest text next.rest) (token : ¬ l.IsByte) (first : start.rest = ch :: more) :
    ∃ t, start.scanAt ch = (.ok t, next) ∧ start.Spans t next ∧
      (l.Located start.offset next.offset → t.Shows l) :=
  scanAt_of_ends covers spelling (ends_of_longest spelling longest) token first
/-! ## Line ends -/

theorem isLineEnd_of_class {p : Char → Bool} {ch : Char} (h : p ch = true)
    (none : ['\n', '\r'].any p = false) : LineMap.isLineEnd ch = false := by
  simp only [List.any_cons, List.any_nil, Bool.or_false, Bool.or_eq_false_iff] at none
  have noFeed : ch ≠ '\n' := by
    rintro rfl
    exact Bool.noConfusion (h.symm.trans none.1)
  have noReturn : ch ≠ '\r' := by
    rintro rfl
    exact Bool.noConfusion (h.symm.trans none.2)
  simp [LineMap.isLineEnd, noFeed, noReturn]

/-- No line ends inside a token. -/
theorem isLineEnd_of_form {kind : Token.Kind} {opening inside closing rest : List Char}
    (h : kind.Form opening inside closing rest) :
    ∀ ch ∈ opening ++ (inside ++ closing), LineMap.isLineEnd ch = false := by
  intro ch member
  cases h with
  | endOfInput => cases member
  | @mark m =>
    have marks : m.chars.all (fun ch => !LineMap.isLineEnd ch) = true := by cases m <;> rfl
    simpa using List.all_eq_true.mp marks ch (by simpa using member)
  | integer _ digits => exact isLineEnd_of_class (digits ch (by simpa using member)) rfl
  | word bare =>
    exact isLineEnd_of_class (isWordPart_of_isBareName bare ch (by simpa using member)) rfl
  | @bareName sigil _ _ bare =>
    rcases List.mem_append.mp member with first | inside
    · rw [List.mem_singleton.mp first]
      cases sigil <;> rfl
    · exact isLineEnd_of_class (isWordPart_of_isBareName bare ch (by simpa using inside)) rfl
  | quoted all | string all =>
    simp only [List.mem_append, List.mem_singleton] at member
    rcases member with rfl | inside | rfl
    · rfl
    · exact isLineEnd_of_class (all ch inside) rfl
    · rfl
  | @quotedName sigil _ _ all =>
    simp only [List.mem_append, List.mem_cons, List.not_mem_nil, or_false] at member
    rcases member with (rfl | rfl) | inside | rfl
    · cases sigil <;> rfl
    · rfl
    · exact isLineEnd_of_class (all ch inside) rfl
    · rfl

theorem isLineEnd_of_spelling_name {sigil : Sigil} {ident : Ident} {text : List Char}
    (h : (Lexeme.name sigil ident).Spelling text) : ∀ ch ∈ text, LineMap.isLineEnd ch = false := by
  cases h with
  | bareName bare =>
    have form : (Token.Kind.name sigil).Form [sigil.char] _ [] [] := .bareName bare nofun
    simpa using isLineEnd_of_form form
  | quotedName all =>
    have form : (Token.Kind.name sigil).Form [sigil.char, '\''] _ ['\''] [] := .quotedName all
    simpa using isLineEnd_of_form form

/-! ## What is read is a lexeme -/

theorem exists_run (p : Char → Bool) (text : List Char) :
    ∃ run rest, text = run ++ rest ∧ (∀ ch ∈ run, p ch = true) ∧ text.takeWhile p = run := by
  induction text with
  | nil => exact ⟨[], [], rfl, by simp, rfl⟩
  | cons ch text ih =>
    by_cases h : p ch = true
    · obtain ⟨run, rest, split, all, taken⟩ := ih
      refine ⟨ch :: run, rest, by rw [split, List.cons_append], ?_, by simp [h, taken]⟩
      intro ch' member
      rcases List.mem_cons.mp member with rfl | inside
      · exact h
      · exact all ch' inside
    · exact ⟨[], ch :: text, rfl, by simp, by simp [h]⟩

theorem over_of_scanQuoted {c next : Cursor} {kind : Token.Kind} (opening : List Char)
    {more : List Char}
    {t : Token} (h : c.scanQuoted kind opening.length = (.ok t, next))
    (first : c.rest = opening ++ more) :
    ∃ inside, (∀ ch ∈ inside, isQuotable ch = true) ∧
      c.Over (opening ++ (inside ++ ['\''])) next ∧ t = tokenOver kind c next opening inside := by
  obtain ⟨inside, rest, split, quotable, taken⟩ := exists_run isQuotable more
  have body : (c.skip opening.length).rest = more := by simp [skip, first]
  have stop : ((c.skip opening.length).skip inside.length).rest = rest := by
    simp [skip, first, split]
  have read := h
  simp only [scanQuoted, body, taken, stop, refuse] at h
  cases rest with
  | nil => simp at h
  | cons ch rest =>
    by_cases tick : ch = '\''
    · subst tick
      have covers : c.Over (opening ++ (inside ++ ['\'']))
          (c.skip (opening ++ (inside ++ ['\''])).length) :=
        over_skip (show c.rest = _ ++ rest by simp [first, split])
      cases read.symm.trans (scanQuoted_of_over opening covers quotable kind)
      exact ⟨inside, quotable, covers, rfl⟩
    · simp [tick] at h

theorem over_of_scanString {c next : Cursor} {more : List Char} {t : Token}
    (h : c.scanString = (.ok t, next)) (first : c.rest = '"' :: more) :
    ∃ inside, (∀ ch ∈ inside, isStringPart ch = true) ∧
      c.Over ('"' :: (inside ++ ['"'])) next ∧ t = tokenOver .string c next ['"'] inside := by
  obtain ⟨inside, rest, split, printable, taken⟩ := exists_run isStringPart more
  have body : (c.skip 1).rest = more := by simp [skip, first]
  have stop : ((c.skip 1).skip inside.length).rest = rest := by simp [skip, first, split]
  have read := h
  simp only [scanString, body, taken, stop, refuse] at h
  cases rest with
  | nil => simp at h
  | cons ch rest =>
    by_cases quote : ch = '"'
    · subst quote
      have covers : c.Over ('"' :: (inside ++ ['"'])) (c.skip ('"' :: (inside ++ ['"'])).length) :=
        over_skip (show c.rest = _ ++ rest by simp [first, split])
      cases read.symm.trans (scanString_of_over covers printable)
      exact ⟨inside, printable, covers, rfl⟩
    · by_cases lineEnd : ch = '\n' ∨ ch = '\r' <;> simp [quote, lineEnd] at h

theorem over_of_lexeme_run {c next : Cursor} {p : Char → Bool} {kind : Token.Kind} {t : Token}
    (h : c.lexeme kind (c.rest.takeWhile p).length 0 0 = (.ok t, next)) :
    ∃ run, (∀ ch ∈ run, p ch = true) ∧ c.rest.takeWhile p = run ∧ c.Over run next ∧
      t = tokenOver kind c next [] run := by
  obtain ⟨run, rest, split, all, taken⟩ := exists_run p c.rest
  have covers : c.Over run (c.skip run.length) := over_skip split
  rw [taken] at h
  cases h.symm.trans (lexeme_of_over_plain covers kind)
  exact ⟨run, all, taken, covers, rfl⟩

theorem isBareName_of_takeWhile {ch : Char} (rest : List Char) (start : isWordStart ch = true) :
    Lexeme.IsBareName ((ch :: rest).takeWhile isWordPart) := by
  rw [List.takeWhile_cons_of_pos (Token.isWordPart_of_isWordStart start)]
  obtain ⟨run, _, _, all, taken⟩ := exists_run isWordPart rest
  rw [taken]
  exact ⟨start, all⟩

theorem spelling_of_scanName {start next : Cursor} {sigil : Sigil} {more : List Char} {t : Token}
    (h : start.scanName sigil = (.ok t, next)) (first : start.rest = sigil.char :: more) :
    ∃ l text, start.Over text next ∧ l.Spelling text ∧ t.Shows l ∧
      l.Located start.offset next.offset := by
  have inside : (start.skip 1).rest = more := by simp [skip, first]
  simp only [scanName, inside, refuse] at h
  cases more with
  | nil => simp at h
  | cons ch more =>
    by_cases tick : ch = '\''
    · subst tick
      simp only [beq_self_eq_true, if_true] at h
      obtain ⟨text, quotable, covers, rfl⟩ :=
        over_of_scanQuoted [sigil.char, '\''] h (by simpa using first)
      exact ⟨_, _, covers, .quotedName quotable, ⟨rfl, rfl⟩, rfl⟩
    · by_cases begins : isWordStart ch = true
      · simp only [beq_iff_eq, tick, begins, if_false, if_true] at h
        have bare := isBareName_of_takeWhile more begins
        obtain ⟨run, rest, split, _, taken⟩ := exists_run isWordPart (ch :: more)
        rw [taken] at h bare
        have covers : start.Over (sigil.char :: run) (start.skip (sigil.char :: run).length) :=
          over_skip (show start.rest = _ ++ rest by rw [first, split, List.cons_append])
        have padded : start.Over ([sigil.char] ++ (run ++ []))
            (start.skip (sigil.char :: run).length) := by simpa using covers
        cases h.symm.trans (lexeme_of_over [sigil.char] [] padded (.name sigil))
        exact ⟨_, _, covers, .bareName bare, ⟨rfl, rfl⟩, rfl⟩
      · simp [tick, begins] at h

theorem exists_mark_of_ofMark? {ch : Char} {kind : Token.Kind}
    (h : Token.Kind.ofMark? ch = some kind) : ∃ m : Mark, m.chars = [ch] ∧ m.kind = kind := by
  unfold Token.Kind.ofMark? at h
  split at h <;> cases h
  · exact ⟨.semicolon, rfl, rfl⟩
  · exact ⟨.comma, rfl, rfl⟩
  · exact ⟨.star, rfl, rfl⟩
  · exact ⟨.openBracket, rfl, rfl⟩
  · exact ⟨.closeBracket, rfl, rfl⟩
  · exact ⟨.openBrace, rfl, rfl⟩
  · exact ⟨.closeBrace, rfl, rfl⟩

theorem spelling_of_lexeme_mark {start next : Cursor} {m : Mark} {rest : List Char} {t : Token}
    (h : start.lexeme m.kind m.chars.length 0 0 = (.ok t, next))
    (first : start.rest = m.chars ++ rest) :
    ∃ l text, start.Over text next ∧ l.Spelling text ∧ t.Shows l ∧
      l.Located start.offset next.offset := by
  have covers := over_skip first
  cases h.symm.trans (lexeme_of_over_plain covers m.kind)
  exact ⟨_, _, covers, .mark m, rfl, trivial⟩

theorem spelling_of_scanAt {start next : Cursor} {ch : Char} {more : List Char} {t : Token}
    (h : start.scanAt ch = (.ok t, next)) (first : start.rest = ch :: more) :
    ∃ l text, start.Over text next ∧ l.Spelling text ∧ t.Shows l ∧
      l.Located start.offset next.offset := by
  unfold scanAt at h
  -- One form after the other, in the order in which the scanner tries them.
  split at h
  next equals =>
    cases beq_iff_eq.mp equals
    split at h
    next arrow =>
      cases more with
      | nil => simp [first] at arrow
      | cons ch more =>
        have isArrow : ch = '>' := by simpa [first] using arrow
        subst isArrow
        exact spelling_of_lexeme_mark (m := .arrow) h first
    next => exact spelling_of_lexeme_mark (m := .equals) h first
  split at h
  next quote =>
    cases beq_iff_eq.mp quote
    obtain ⟨inside, printable, covers, rfl⟩ := over_of_scanString h first
    exact ⟨_, _, covers, .string printable, ⟨rfl, rfl⟩, trivial⟩
  split at h
  next tick =>
    cases beq_iff_eq.mp tick
    obtain ⟨inside, quotable, covers, rfl⟩ := over_of_scanQuoted ['\''] h first
    exact ⟨_, _, covers, .quoted quotable, ⟨rfl, rfl⟩, trivial⟩
  split at h
  next digit =>
    obtain ⟨run, all, taken, covers, rfl⟩ := over_of_lexeme_run h
    have nonempty : run ≠ [] := by
      rintro rfl
      simp [first, digit] at taken
    refine ⟨_, _, covers, .integer nonempty all, ⟨rfl, ?_⟩, trivial⟩
    simp [tokenOver]
  split at h
  next begins =>
    have bare := isBareName_of_takeWhile more begins
    obtain ⟨run, _, taken, covers, rfl⟩ := over_of_lexeme_run h
    rw [← first, taken] at bare
    exact ⟨_, _, covers, .word bare, ⟨rfl, rfl⟩, trivial⟩
  split at h
  next _ _ kind mark =>
    obtain ⟨m, chars, rfl⟩ := exists_mark_of_ofMark? mark
    have one : m.chars.length = 1 := by rw [chars, List.length_singleton]
    exact spelling_of_lexeme_mark (m := m) (by rwa [one]) (by rw [first, chars]; rfl)
  next _ _ sigil _ isSigil =>
    cases Sigil.ofChar?_eq_some_iff.mp isSigil
    exact spelling_of_scanName h first
  next => simp [refuse] at h

theorem exists_longer {l : Lexeme} {text rest : List Char} (token : ¬ l.IsByte)
    (h : ¬ l.Longest text rest) : ∃ more, more ≠ [] ∧ more <+: rest ∧
      ∃ other : Lexeme, ¬ other.IsByte ∧ other.Spelling (text ++ more) := by
  cases l with
  | byte _ => exact absurd trivial token
  | word _ | quoted _ | name _ _ | integer _ | string _ | mark _ =>
    simpa only [Lexeme.Longest, Classical.not_forall, Classical.not_not, exists_prop] using h

/-- If a text goes on as a lexeme, it goes on as a longest one. -/
theorem exists_longest {text rest more : List Char} {l : Lexeme} (some : more ≠ [])
    (begins : more <+: rest) (token : ¬ l.IsByte) (spelling : l.Spelling (text ++ more)) :
    ∃ (l' : Lexeme) (more' rest' : List Char), more' ≠ [] ∧ rest = more' ++ rest' ∧ ¬ l'.IsByte ∧
      l'.Spelling (text ++ more') ∧ l'.Longest (text ++ more') rest' := by
  obtain ⟨rest', split⟩ := begins
  by_cases longest : l.Longest (text ++ more) rest'
  · exact ⟨l, more, rest', some, split.symm, token, spelling, longest⟩
  · -- Each time the lexeme grows, less is left for it to grow by.
    obtain ⟨more', some', ⟨rest'', split'⟩, other, token', spelling'⟩ := exists_longer token longest
    rw [List.append_assoc] at spelling'
    have shorter : rest.length - (more ++ more').length < rest.length - more.length := by
      have := List.length_pos_iff.mpr some'
      simp only [← split, ← split', List.length_append]
      omega
    exact exists_longest (by simp [some]) ⟨rest'', by rw [List.append_assoc, split', split]⟩ token'
      spelling'
termination_by rest.length - more.length
decreasing_by exact shorter

/-- What the scanner reads is longest.  It reads the longest of the longer ones if there is one, and
then does not stop where it did. -/
theorem longest_of_scanAt {l : Lexeme} {start next : Cursor} {text more : List Char} {ch : Char}
    {t : Token} (covers : start.Over text next) (token : ¬ l.IsByte)
    (first : start.rest = ch :: more) (read : start.scanAt ch = (.ok t, next)) :
    l.Longest text next.rest := by
  by_cases longest : l.Longest text next.rest
  · exact longest
  obtain ⟨more, some, begins, other, token', spelling'⟩ := exists_longer token longest
  obtain ⟨l', more, rest, some, split, token', spelling', longest'⟩ :=
    exists_longest some begins token' spelling'
  have over' := covers.trans (over_skip split)
  obtain ⟨t', read', _⟩ := scanAt_of_longest over' spelling'
    (by simpa [skip, split] using longest') token' first
  have stays : next.skip more.length = next := congrArg Prod.snd (read'.symm.trans read)
  have nothing := over_skip split
  rw [stays] at nothing
  cases some (nothing.text_unique (.refl next))

/-- A lexeme is longest exactly where it does not go on with the next character. -/
theorem longest_iff_ends {l : Lexeme} {text rest : List Char} (spelling : l.Spelling text) :
    l.Longest text rest ↔ l.Ends text rest := by
  refine ⟨ends_of_longest spelling, fun ends => ?_⟩
  by_cases token : l.IsByte
  · cases l with
    | byte _ =>
      intro ch head
      simpa [Lexeme.goesOn] using ends ch head
    | word _ | quoted _ | name _ _ | integer _ | string _ | mark _ => cases token
  · have covers : (⟨0, text ++ rest⟩ : Cursor).Over text _ := over_skip rfl
    have left : ((⟨0, text ++ rest⟩ : Cursor).skip text.length).rest = rest := by simp [skip]
    cases here : text with
    | nil => cases spelling.ne_nil here
    | cons ch more =>
      have first : (⟨0, text ++ rest⟩ : Cursor).rest = ch :: (more ++ rest) := by simp [here]
      obtain ⟨t, read, _⟩ := scanAt_of_ends covers spelling (by rwa [left]) token first
      have longest := longest_of_scanAt covers token first read
      rwa [left, here] at longest

/-! ## Tokens and bytes -/

theorem scan_eq_scanAt {c : Cursor} {ch : Char} {more : List Char}
    (first : c.skipTrivia.rest = ch :: more) : c.scan = c.skipTrivia.scanAt ch := by
  simp only [scan, first]

theorem significant_of_form {kind : Token.Kind} {opening inside closing rest : List Char}
    (h : kind.Form opening inside closing rest) :
    Significant (opening ++ (inside ++ closing) ++ rest) := by
  cases h with
  | endOfInput => exact fun _ none => by cases none
  | mark _ => simpa using (Lexeme.Spelling.mark _).significant rest
  | integer some all _ => simpa using (Lexeme.Spelling.integer some all).significant rest
  | word bare _ => simpa using (Lexeme.Spelling.word bare).significant rest
  | quoted quotable => exact (Lexeme.Spelling.quoted quotable).significant rest
  | @bareName sigil _ _ bare _ =>
    have spelling : (Lexeme.name sigil ⟨_, .between 0 0⟩).Spelling _ := .bareName bare
    simpa using spelling.significant rest
  | @quotedName sigil _ _ quotable =>
    have spelling : (Lexeme.name sigil ⟨_, .between 0 0⟩).Spelling _ := .quotedName quotable
    exact spelling.significant rest
  | string printable => exact (Lexeme.Spelling.string printable).significant rest

/-- A token is read behind any trivia, whatever is its kind. -/
theorem scan_of_form {kind : Token.Kind} {c start next : Cursor}
    {gap opening inside closing : List Char} (before : c.Over gap start)
    (trivia : Trivia gap start.rest)
    (covers : start.Over (opening ++ (inside ++ closing)) next)
    (form : kind.Form opening inside closing next.rest) :
    c.scan = (.ok (tokenOver kind start next opening inside), next) := by
  have skipped : c.skipTrivia = start := by
    refine skipTrivia_of_trivia before trivia ?_
    rw [covers.rest]
    exact significant_of_form form
  cases first : start.rest with
  | cons ch more =>
    rw [scan_eq_scanAt (by rw [skipped, first]), skipped]
    exact scanAt_of_form covers form first
  | nil =>
    have none : opening ++ (inside ++ closing) = [] :=
      (List.append_eq_nil_iff.mp (covers.rest.symm.trans first)).1
    by_cases last : kind = .endOfInput
    · subst last
      simp only [List.append_eq_nil_iff] at none
      obtain ⟨rfl, rfl, rfl⟩ := none
      simp only [scan, skipped, first]
      exact lexeme_of_over_plain covers .endOfInput
    · exact absurd none (form.ne_nil last)

/-- A lexeme begins where the trivia in front of it ends. -/
theorem spells_singleton_iff {c next : Cursor} {l : Lexeme} :
    c.Spells [l] next ↔ ∃ text, l.At c.skipTrivia text next := by
  constructor
  · intro h
    cases h with
    | @cons _ start _ _ gap text _ _ covers trivia at_ none =>
      cases none
      have significant : Significant start.rest := by
        rw [at_.covers.rest]
        exact at_.spelling.significant _
      rw [skipTrivia_of_trivia covers trivia significant]
      exact ⟨text, at_⟩
  · rintro ⟨text, at_⟩
    obtain ⟨gap, covers, trivia, _⟩ := trivia_skipTrivia c
    exact .cons covers trivia at_ (.nil _)

/-- A token that is read covers all that was read behind the trivia in front of it. -/
theorem spans_of_scan {c next : Cursor} {t : Token} (h : c.scan = (.ok t, next)) :
    c.skipTrivia.Spans t next := by
  cases first : c.skipTrivia.rest with
  | nil =>
    have covers : c.skipTrivia.Over [] c.skipTrivia := .refl _
    simp only [scan, first] at h
    cases h.symm.trans (lexeme_of_over_plain covers .endOfInput)
    refine ⟨[], [], [], covers, rfl, ?_⟩
    rw [first]
    exact .endOfInput
  | cons ch more =>
    have read := (scan_eq_scanAt first).symm.trans h
    obtain ⟨l, text, covers, spelling, shows, -⟩ := spelling_of_scanAt read first
    have token : ¬ l.IsByte := fun byte => by cases l <;> first | exact shows | cases byte
    have longest := longest_of_scanAt covers token first read
    obtain ⟨t', read', spans, -⟩ := scanAt_of_longest covers spelling longest token first
    cases read.symm.trans read'
    exact spans

theorem scan_of_spells {c next : Cursor} {l : Lexeme} (h : c.Spells [l] next)
    (token : ¬ l.IsByte) : ∃ t, c.scan = (.ok t, next) ∧ t.Shows l := by
  obtain ⟨text, covers, spelling, longest, located⟩ := spells_singleton_iff.mp h
  cases split : text with
  | nil => cases spelling.ne_nil split
  | cons ch more =>
    have first : c.skipTrivia.rest = ch :: (more ++ next.rest) := by rw [covers.rest, split]; rfl
    obtain ⟨t, read, -, shows⟩ := scanAt_of_longest covers spelling longest token first
    exact ⟨t, (scan_eq_scanAt first).trans read, shows located⟩

/-- A token other than the end of input is a lexeme. -/
theorem exists_spells_of_scan {c next : Cursor} {t : Token} (h : c.scan = (.ok t, next))
    (some : t.kind ≠ .endOfInput) : ∃ l, t.Shows l ∧ c.Spells [l] next := by
  cases first : c.skipTrivia.rest with
  | nil =>
    simp only [scan, first] at h
    cases some (kind_lexeme h)
  | cons ch more =>
    have read := (scan_eq_scanAt first).symm.trans h
    obtain ⟨l, text, covers, spelling, shows, located⟩ := spelling_of_scanAt read first
    have token : ¬ l.IsByte := fun byte => by cases l <;> first | exact shows | cases byte
    have longest := longest_of_scanAt covers token first read
    exact ⟨l, shows, spells_singleton_iff.mpr ⟨text, covers, spelling, longest, located⟩⟩

theorem spells_of_scan {c next : Cursor} {t : Token} {l : Lexeme} (h : c.scan = (.ok t, next))
    (shows : t.Shows l) : c.Spells [l] next := by
  obtain ⟨l', shows', spells⟩ := exists_spells_of_scan h shows.kind_ne_endOfInput
  rwa [shows.unique shows']

theorem scanByte_of_over {c next : Cursor} {high low : Char} {h l : UInt8}
    (covers : c.skipTrivia.Over [high, low] next) (isHigh : hexDigit? high = some h)
    (isLow : hexDigit? low = some l)
    (stop : ∀ ch, next.rest.head? = some ch → hexDigit? ch = none) :
    c.scanByte =
      (.ok (h * 16 + l, .between c.skipTrivia.offset next.offset), next) := by
  have first : c.skipTrivia.rest.head?.bind hexDigit? = some h := by simp [covers.rest, isHigh]
  have second : c.skipTrivia.rest[1]?.bind hexDigit? = some l := by simp [covers.rest, isLow]
  have third : (next.rest.head?.bind hexDigit?).isSome = false := by
    cases head : next.rest.head? with
    | none => rfl
    | some ch => simp [stop ch head]
  have after : c.skipTrivia.skip 2 = next := covers.eq_skip.symm
  simp only [scanByte, first, second, after, third, Bool.false_eq_true, if_false]

theorem scanByte_of_spells {c next : Cursor} {b : UInt8} (h : c.Spells [.byte b] next) :
    ∃ extent, c.scanByte = (.ok (b, extent), next) := by
  obtain ⟨text, covers, spelling, longest, _⟩ := spells_singleton_iff.mp h
  cases spelling with
  | byte high low => exact ⟨_, scanByte_of_over covers high low longest⟩

theorem spells_of_scanByte {c next : Cursor} {b : UInt8 × Extent}
    (h : c.scanByte = (.ok b, next)) : c.Spells [.byte b.1] next := by
  have read := h
  simp only [scanByte, refuse] at h
  split at h
  next high low isHigh isLow =>
    split at h
    next => simp at h
    next noThird =>
      cases rest : c.skipTrivia.rest with
      | nil => simp [rest] at isHigh
      | cons first more =>
        cases more with
        | nil => simp [rest] at isLow
        | cons second more =>
          replace isHigh : hexDigit? first = some high := by simpa [rest] using isHigh
          replace isLow : hexDigit? second = some low := by simpa [rest] using isLow
          have covers := over_skip (show _ = [first, second] ++ more from rest)
          have stop : ∀ ch, (c.skipTrivia.skip 2).rest.head? = some ch → hexDigit? ch = none := by
            intro ch head
            simpa [head] using noThird
          cases read.symm.trans (scanByte_of_over covers isHigh isLow stop)
          exact spells_singleton_iff.mpr
            ⟨_, covers, .byte isHigh isLow, stop, trivial⟩
  next => simp at h

/-! ## Reading lexemes -/

/-- The next `count` tokens as lexemes, and the place after them. -/
def lexemes? (c : Cursor) : Nat → Option (List Lexeme × Cursor)
  | 0 => some ([], c)
  | count + 1 =>
    match c.scan with
    | (.ok t, next) =>
      t.lexeme?.bind fun l => (next.lexemes? count).map fun (ls, stop) => (l :: ls, stop)
    | (.error _, _) => none

theorem spells_of_lexemes? {c next : Cursor} {count : Nat} {ls : List Lexeme}
    (h : c.lexemes? count = some (ls, next)) : c.Spells ls next := by
  induction count generalizing c ls with
  | zero =>
    cases h
    exact .nil _
  | succ count ih =>
    simp only [lexemes?] at h
    split at h
    next t middle scanned =>
      obtain ⟨l, shown, h⟩ := Option.bind_eq_some_iff.mp h
      obtain ⟨⟨more, stop⟩, read, same⟩ := Option.map_eq_some_iff.mp h
      cases same
      exact (spells_of_scan scanned (Token.shows_of_lexeme? shown)).append (ih read)
    next => cases h

/-! ## Looking ahead -/

theorem peek_of_spells {c next : Cursor} {l : Lexeme} {ls : List Lexeme}
    (h : c.Spells (l :: ls) next) (token : ¬ l.IsByte) : ∃ t, c.peek = .ok t ∧ t.Shows l := by
  obtain ⟨middle, spells, _⟩ := Spells.cons_iff.mp h
  obtain ⟨t, scanned, shows⟩ := scan_of_spells spells token
  exact ⟨t, by rw [peek, scanned], shows⟩

theorem peekChar_of_spells {c next : Cursor} {l : Lexeme} {ls : List Lexeme}
    (h : c.Spells (l :: ls) next) : ∃ text, l.Spelling text ∧ c.peekChar = text.head? := by
  obtain ⟨middle, spells, _⟩ := Spells.cons_iff.mp h
  obtain ⟨text, at_⟩ := spells_singleton_iff.mp spells
  refine ⟨text, at_.spelling, ?_⟩
  rw [peekChar, at_.covers.rest]
  cases text with
  | nil => cases at_.spelling.ne_nil rfl
  | cons ch text => rfl

theorem trivia_nil_iff {c : Cursor} : Trivia c.rest [] ↔ c.skipTrivia.rest = [] := by
  constructor
  · intro h
    have covers : c.Over c.rest (c.skip c.rest.length) :=
      over_skip (List.append_nil _).symm
    have done : (c.skip c.rest.length).rest = [] := by simp [skip]
    rw [skipTrivia_of_trivia covers (by rwa [done]) (by rw [done]; intro _ head; cases head), done]
  · intro h
    obtain ⟨gap, covers, trivia, _⟩ := trivia_skipTrivia c
    rw [covers.rest, h, List.append_nil]
    rwa [h] at trivia

/-- The end of input comes next exactly where nothing but trivia is left. -/
theorem peek_endOfInput_iff {c : Cursor} :
    (∃ t, c.peek = .ok t ∧ t.kind = .endOfInput) ↔ Trivia c.rest [] := by
  rw [trivia_nil_iff]
  constructor
  · rintro ⟨t, peeked, kind⟩
    cases first : c.skipTrivia.rest with
    | nil => rfl
    | cons ch more =>
      have read : c.skipTrivia.scanAt ch = (.ok t, c.scan.2) := by
        rw [← scan_eq_scanAt first, ← peeked, peek]
      obtain ⟨l, _, _, _, shows, _⟩ := spelling_of_scanAt read first
      cases shows.kind_ne_endOfInput kind
  · intro h
    refine ⟨tokenOver .endOfInput c.skipTrivia c.skipTrivia [] [], ?_, rfl⟩
    simp only [peek, scan, h]
    exact congrArg Prod.fst (lexeme_of_over_plain (.refl c.skipTrivia) .endOfInput)

end Cursor

end SigilAsm
