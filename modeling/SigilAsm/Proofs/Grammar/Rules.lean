import SigilAsm.Proofs.Grammar.Scanning
import SigilAsm.Proofs.Grammar.Tree
import SigilAsm.Statement.Grammar

/-! # What the rules read

For each rule of the grammar below declarations, which lexemes it reads: a rule
succeeds exactly where its lexemes come next.  Only an optional signature looks
at what follows it, so its statement in that direction names the next lexeme.
-/

namespace SigilAsm

namespace Rule

variable {c next stop : Cursor}

/-! ## Single lexemes -/

theorem run_peek_eq_ok {t : Token} : peek.run c = .ok (t, next) ↔ c.peek = .ok t ∧ next = c := by
  simp only [peek, StateT.run]
  cases c.peek with
  | error e => simp
  | ok t' => simp [eq_comm]

theorem run_expect_eq_ok {kind : Token.Kind} {t : Token} :
    (expect kind).run c = .ok (t, next) ↔ c.scan = (.ok t, next) ∧ t.kind = kind := by
  rw [expect, run_bind_eq_ok]
  constructor
  · rintro ⟨found, middle, scanned, h⟩
    split at h
    next same =>
      obtain ⟨rfl, rfl⟩ := run_pure_eq_ok.mp h
      exact ⟨run_token_eq_ok.mp scanned, same⟩
    next => cases h
  · rintro ⟨scanned, same⟩
    exact ⟨t, next, run_token_eq_ok.mpr scanned, by rw [if_pos same]; rfl⟩

theorem run_expect_of_spells {l : Lexeme} {kind : Token.Kind} (h : c.Spells [l] next)
    (token : ¬ l.IsByte) (kinds : ∀ t : Token, t.Shows l → t.kind = kind) :
    ∃ t, (expect kind).run c = .ok (t, next) ∧ t.Shows l := by
  obtain ⟨t, scanned, shows⟩ := Cursor.scan_of_spells h token
  exact ⟨t, run_expect_eq_ok.mpr ⟨scanned, kinds t shows⟩, shows⟩

theorem run_mark_of_spells {m : Mark} (h : c.Spells [.mark m] next) :
    ∃ t, (expect m.kind).run c = .ok (t, next) := by
  obtain ⟨t, read, _⟩ := run_expect_of_spells h id fun _ shows => shows
  exact ⟨t, read⟩

theorem spells_of_run_mark {t : Token} (m : Mark) (h : (expect m.kind).run c = .ok (t, next)) :
    c.Spells [.mark m] next := by
  obtain ⟨scanned, kind⟩ := run_expect_eq_ok.mp h
  exact Cursor.spells_of_scan scanned kind

theorem isWord_iff {t : Token} {word : String} : t.isWord word = true ↔ t.Shows (.word word) := by
  simp [Token.isWord, Token.Shows]

theorem run_keyword_eq_ok {word : String} :
    (keyword word).run c = .ok ((), next) ↔ c.Spells [.word word] next := by
  rw [keyword, run_bind_eq_ok]
  constructor
  · rintro ⟨t, middle, scanned, h⟩
    split at h
    next isWord =>
      obtain ⟨-, rfl⟩ := run_pure_eq_ok.mp h
      exact Cursor.spells_of_scan (run_token_eq_ok.mp scanned) (isWord_iff.mp isWord)
    next => cases h
  · intro h
    obtain ⟨t, scanned, shows⟩ := Cursor.scan_of_spells h id
    exact ⟨t, next, run_token_eq_ok.mpr scanned, by rw [if_pos (isWord_iff.mpr shows)]; rfl⟩

theorem run_ident_eq_ok {sigil : Sigil} {i : Ident} :
    (ident sigil).run c = .ok (i, next) ↔ c.Spells [.name sigil i] next := by
  rw [ident, run_bind_eq_ok]
  constructor
  · rintro ⟨t, middle, read, h⟩
    obtain ⟨rfl, rfl⟩ := run_pure_eq_ok.mp h
    obtain ⟨scanned, kind⟩ := run_expect_eq_ok.mp read
    exact Cursor.spells_of_scan scanned ⟨kind, rfl⟩
  · intro h
    obtain ⟨t, read, _, rfl⟩ := run_expect_of_spells h id fun _ shows => shows.1
    exact ⟨t, next, read, rfl⟩

theorem run_string_eq_ok {text : String} :
    (∃ t, (expect .string).run c = .ok (t, next) ∧ t.text = text) ↔
      c.Spells [.string text] next := by
  constructor
  · rintro ⟨t, read, shown⟩
    obtain ⟨scanned, kind⟩ := run_expect_eq_ok.mp read
    exact Cursor.spells_of_scan scanned ⟨kind, shown⟩
  · intro h
    obtain ⟨t, read, _, shown⟩ := run_expect_of_spells h id fun _ shows => shows.1
    exact ⟨t, read, shown⟩

theorem run_byte_eq_ok {b : UInt8} : byte.run c = .ok (b, next) ↔ c.Spells [.byte b] next := by
  constructor
  · intro h
    simp only [byte, StateT.run] at h
    split at h
    next b' extent _ scanned =>
      cases h
      exact Cursor.spells_of_scanByte scanned
    next => cases h
  · intro h
    obtain ⟨extent, scanned⟩ := Cursor.scanByte_of_spells h
    simp only [byte, StateT.run, scanned]

theorem run_number_eq_ok {value : UInt64} :
    (∃ extent, number.run c = .ok ((value, extent), next)) ↔
      c.Spells [.integer value.toNat] next := by
  simp only [number, run_bind_eq_ok]
  constructor
  · rintro ⟨extent, t, middle, read, h⟩
    split at h
    next fits =>
      obtain ⟨same, rfl⟩ := run_pure_eq_ok.mp h
      obtain ⟨scanned, kind⟩ := run_expect_eq_ok.mp read
      refine Cursor.spells_of_scan scanned ⟨kind, ?_⟩
      rw [← (Prod.mk.inj same).1, Nat.toUInt64, UInt64.toNat_ofNat_of_lt' fits]
    next => cases h
  · intro h
    obtain ⟨t, read, _, shown⟩ := run_expect_of_spells h id fun _ shows => shows.1
    have fits : decimalValue t.text.toList < UInt64.size := by
      rw [shown]
      exact value.toNat_lt
    refine ⟨t.extent, t, next, read, ?_⟩
    rw [if_pos fits, shown, Nat.toUInt64, UInt64.ofNat_toNat]
    rfl

theorem run_count_eq_ok {n : UInt8} :
    count.run c = .ok (n, next) ↔ c.Spells [.integer n.toNat] next := by
  rw [count, run_bind_eq_ok]
  constructor
  · rintro ⟨⟨value, extent⟩, middle, read, h⟩
    dsimp only at h
    split at h
    next fits =>
      obtain ⟨rfl, rfl⟩ := run_pure_eq_ok.mp h
      have same : value.toUInt8.toNat = value.toNat := by
        rw [UInt64.toNat_toUInt8]
        exact Nat.mod_eq_of_lt fits
      rw [same]
      exact run_number_eq_ok.mp ⟨extent, read⟩
    next => cases h
  · intro h
    have wide : n.toUInt64.toNat = n.toNat := UInt8.toNat_toUInt64 n
    obtain ⟨extent, read⟩ :=
      run_number_eq_ok.mpr (show c.Spells [.integer n.toUInt64.toNat] next by rwa [wide])
    refine ⟨(n.toUInt64, extent), next, read, ?_⟩
    have fits : n.toUInt64.toNat < UInt8.size := by
      rw [wide]
      exact n.toNat_lt
    dsimp only
    rw [if_pos fits, UInt8.toUInt8_toUInt64]
    rfl

/-! ## Signatures -/

theorem spells_of_run_signature? {s : Option Signature} (h : signature?.run c = .ok (s, next)) :
    c.Spells (Tree.signatureLexemes s) next := by
  obtain ⟨t, c₀, peeked, rest⟩ := run_bind_eq_ok.mp h
  obtain ⟨-, rfl⟩ := run_peek_eq_ok.mp peeked
  split at rest
  next =>
    obtain ⟨_, c₁, opened, h⟩ := run_bind_eq_ok.mp rest
    obtain ⟨input, c₂, first, h⟩ := run_bind_eq_ok.mp h
    obtain ⟨_, c₃, arrow, h⟩ := run_bind_eq_ok.mp h
    obtain ⟨output, c₄, second, h⟩ := run_bind_eq_ok.mp h
    obtain ⟨_, c₅, closed, h⟩ := run_bind_eq_ok.mp h
    obtain ⟨rfl, rfl⟩ := run_pure_eq_ok.mp h
    exact (spells_of_run_mark .openBracket opened).append <|
      (run_count_eq_ok.mp first).append <| (spells_of_run_mark .arrow arrow).append <|
      (run_count_eq_ok.mp second).append (spells_of_run_mark .closeBracket closed)
  next =>
    obtain ⟨rfl, rfl⟩ := run_pure_eq_ok.mp rest
    exact .nil _

theorem run_signature?_of_spells {s : Option Signature} {l : Lexeme} {ls : List Lexeme}
    (h : c.Spells (Tree.signatureLexemes s ++ l :: ls) stop) (token : ¬ l.IsByte)
    (other : l ≠ .mark .openBracket) :
    ∃ next, signature?.run c = .ok (s, next) ∧ next.Spells (l :: ls) stop := by
  cases s with
  | none =>
    obtain ⟨t, peeked, shows⟩ := Cursor.peek_of_spells h token
    have kind : t.kind ≠ .openBracket := fun kind =>
      other (shows.unique (show t.Shows (.mark .openBracket) from kind))
    refine ⟨c, run_bind_eq_ok.mpr ⟨t, c, run_peek_eq_ok.mpr ⟨peeked, rfl⟩, ?_⟩, h⟩
    rw [if_neg kind]
    rfl
  | some s =>
    obtain ⟨t, peeked, kind⟩ := Cursor.peek_of_spells h id
    obtain ⟨c₁, opened, h⟩ := Cursor.Spells.cons_iff.mp h
    obtain ⟨c₂, first, h⟩ := Cursor.Spells.cons_iff.mp h
    obtain ⟨c₃, arrow, h⟩ := Cursor.Spells.cons_iff.mp h
    obtain ⟨c₄, second, h⟩ := Cursor.Spells.cons_iff.mp h
    obtain ⟨c₅, closed, h⟩ := Cursor.Spells.cons_iff.mp h
    obtain ⟨_, opened⟩ := run_mark_of_spells opened
    obtain ⟨_, arrow⟩ := run_mark_of_spells arrow
    obtain ⟨_, closed⟩ := run_mark_of_spells closed
    refine ⟨c₅, run_bind_eq_ok.mpr ⟨t, c, run_peek_eq_ok.mpr ⟨peeked, rfl⟩, ?_⟩, h⟩
    rw [if_pos (show t.kind = .openBracket from kind)]
    exact run_bind_eq_ok.mpr ⟨_, c₁, opened, run_bind_eq_ok.mpr ⟨_, c₂, run_count_eq_ok.mpr first,
      run_bind_eq_ok.mpr ⟨_, c₃, arrow, run_bind_eq_ok.mpr ⟨_, c₄, run_count_eq_ok.mpr second,
      run_bind_eq_ok.mpr ⟨_, c₅, closed, rfl⟩⟩⟩⟩⟩

theorem spells_of_run_const? {constant : Bool}
    (h : (keyword? "const").run c = .ok (constant, next)) :
    c.Spells (Tree.constLexemes (if constant then .immutable else .mutable)) next := by
  obtain ⟨t, c₀, peeked, rest⟩ := run_bind_eq_ok.mp h
  obtain ⟨-, rfl⟩ := run_peek_eq_ok.mp peeked
  split at rest
  next =>
    obtain ⟨_, c₁, read, h⟩ := run_bind_eq_ok.mp rest
    obtain ⟨rfl, rfl⟩ := run_pure_eq_ok.mp h
    exact run_keyword_eq_ok.mp read
  next =>
    obtain ⟨rfl, rfl⟩ := run_pure_eq_ok.mp rest
    exact .nil _

theorem run_const?_of_spells {m : Mutability} {l : Lexeme} {ls : List Lexeme}
    (h : c.Spells (Tree.constLexemes m ++ l :: ls) stop) (token : ¬ l.IsByte)
    (other : l ≠ .word "const") : ∃ constant next, (keyword? "const").run c = .ok (constant, next) ∧
      (if constant then .immutable else .mutable) = m ∧ next.Spells (l :: ls) stop := by
  cases m with
  | «mutable» =>
    obtain ⟨t, peeked, shows⟩ := Cursor.peek_of_spells h token
    have word : ¬ t.isWord "const" = true := fun isWord =>
      other (shows.unique (isWord_iff.mp isWord))
    refine ⟨false, c, run_bind_eq_ok.mpr ⟨t, c, run_peek_eq_ok.mpr ⟨peeked, rfl⟩, ?_⟩, rfl, h⟩
    rw [if_neg word]
    rfl
  | immutable =>
    obtain ⟨t, peeked, shows⟩ := Cursor.peek_of_spells h id
    obtain ⟨c₁, read, h⟩ := Cursor.Spells.cons_iff.mp h
    refine ⟨true, c₁, run_bind_eq_ok.mpr ⟨t, c, run_peek_eq_ok.mpr ⟨peeked, rfl⟩, ?_⟩, rfl, h⟩
    rw [if_pos (isWord_iff.mpr shows)]
    exact run_bind_eq_ok.mpr ⟨(), c₁, run_keyword_eq_ok.mpr read, rfl⟩

end Rule

namespace Grammar

open Rule (run_bind_eq_ok run_pure_eq_ok run_peek_eq_ok run_keyword_eq_ok run_ident_eq_ok
  run_mark_of_spells spells_of_run_mark run_number_eq_ok spells_of_run_signature?
  run_signature?_of_spells)

variable {c next : Cursor}

/-! ## Instructions -/

theorem run_argument_eq_ok {a : Argument} :
    argument.run c = .ok (a, next) ↔ c.Spells [Tree.argumentLexeme a] next := by
  rw [argument, run_bind_eq_ok]
  constructor
  · rintro ⟨t, c₀, peeked, h⟩
    obtain ⟨-, rfl⟩ := run_peek_eq_ok.mp peeked
    split at h
    next sigil _ =>
      obtain ⟨i, c₁, read, h⟩ := run_bind_eq_ok.mp h
      obtain ⟨rfl, rfl⟩ := run_pure_eq_ok.mp h
      exact run_ident_eq_ok.mp read
    next =>
      obtain ⟨⟨value, extent⟩, c₁, read, h⟩ := run_bind_eq_ok.mp h
      obtain ⟨rfl, rfl⟩ := run_pure_eq_ok.mp h
      exact run_number_eq_ok.mp ⟨extent, read⟩
    next => cases h
  · intro h
    cases a with
    | name sigil i =>
      obtain ⟨t, peeked, kind, _⟩ := Cursor.peek_of_spells h id
      refine ⟨t, c, run_peek_eq_ok.mpr ⟨peeked, rfl⟩, ?_⟩
      rw [kind]
      exact run_bind_eq_ok.mpr ⟨i, next, run_ident_eq_ok.mpr h, rfl⟩
    | number value =>
      obtain ⟨t, peeked, kind, _⟩ := Cursor.peek_of_spells h id
      obtain ⟨extent, read⟩ := run_number_eq_ok.mpr h
      refine ⟨t, c, run_peek_eq_ok.mpr ⟨peeked, rfl⟩, ?_⟩
      rw [kind]
      exact run_bind_eq_ok.mpr ⟨_, next, read, rfl⟩

theorem run_nextArgument_eq_ok {a : Argument} :
    nextArgument.run c = .ok (a, next) ↔
      c.Spells [.mark .comma, Tree.argumentLexeme a] next := by
  rw [nextArgument, run_bind_eq_ok, Cursor.Spells.cons_iff]
  constructor
  · rintro ⟨_, c₁, comma, h⟩
    exact ⟨c₁, spells_of_run_mark .comma comma, run_argument_eq_ok.mp h⟩
  · rintro ⟨c₁, comma, h⟩
    obtain ⟨t, read⟩ := run_mark_of_spells comma
    exact ⟨t, c₁, read, run_argument_eq_ok.mpr h⟩

theorem argumentLexeme_not_isByte (a : Argument) : ¬ (Tree.argumentLexeme a).IsByte := by
  cases a <;> exact id

theorem run_callInstruction_eq_ok {s : Statement} :
    callInstruction.run c = .ok (s, next) ↔ ∃ target signature, s = .call target signature ∧
      c.Spells (Tree.Instruction.call target signature).lexemes next := by
  constructor
  · intro h
    obtain ⟨_, c₁, call, h⟩ := run_bind_eq_ok.mp h
    obtain ⟨target, c₂, name, h⟩ := run_bind_eq_ok.mp h
    obtain ⟨signature, c₃, counts, h⟩ := run_bind_eq_ok.mp h
    obtain ⟨_, c₄, semicolon, h⟩ := run_bind_eq_ok.mp h
    obtain ⟨rfl, rfl⟩ := run_pure_eq_ok.mp h
    exact ⟨target, signature, rfl, (run_keyword_eq_ok.mp call).append <|
      (run_ident_eq_ok.mp name).append <| (spells_of_run_signature? counts).append <|
      spells_of_run_mark .semicolon semicolon⟩
  · rintro ⟨target, signature, rfl, h⟩
    obtain ⟨c₁, call, h⟩ := Cursor.Spells.cons_iff.mp h
    obtain ⟨c₂, name, h⟩ := Cursor.Spells.cons_iff.mp h
    obtain ⟨c₃, counts, h⟩ := run_signature?_of_spells h id (by simp)
    obtain ⟨_, semicolon⟩ := run_mark_of_spells h
    exact run_bind_eq_ok.mpr ⟨_, c₁, run_keyword_eq_ok.mpr call,
      run_bind_eq_ok.mpr ⟨_, c₂, run_ident_eq_ok.mpr name,
      run_bind_eq_ok.mpr ⟨_, c₃, counts, run_bind_eq_ok.mpr ⟨_, next, semicolon, rfl⟩⟩⟩⟩

/-! ## Headers -/

theorem run_line_eq_ok {word : String} {sigil : Sigil} {f : Ident → Statement} {s : Statement} :
    (do
      Rule.keyword word
      let name ← Rule.ident sigil
      let _ ← Rule.expect .semicolon
      return f name : Rule Statement).run c = .ok (s, next) ↔
      ∃ name, s = f name ∧ c.Spells [.word word, .name sigil name, .mark .semicolon] next := by
  constructor
  · intro h
    obtain ⟨_, c₁, keyword, h⟩ := run_bind_eq_ok.mp h
    obtain ⟨name, c₂, read, h⟩ := run_bind_eq_ok.mp h
    obtain ⟨_, c₃, semicolon, h⟩ := run_bind_eq_ok.mp h
    obtain ⟨rfl, rfl⟩ := run_pure_eq_ok.mp h
    exact ⟨name, rfl, (run_keyword_eq_ok.mp keyword).append <|
      (run_ident_eq_ok.mp read).append (spells_of_run_mark .semicolon semicolon)⟩
  · rintro ⟨name, rfl, h⟩
    obtain ⟨c₁, keyword, h⟩ := Cursor.Spells.cons_iff.mp h
    obtain ⟨c₂, read, h⟩ := Cursor.Spells.cons_iff.mp h
    obtain ⟨_, semicolon⟩ := run_mark_of_spells h
    exact run_bind_eq_ok.mpr ⟨_, c₁, run_keyword_eq_ok.mpr keyword,
      run_bind_eq_ok.mpr ⟨_, c₂, run_ident_eq_ok.mpr read,
      run_bind_eq_ok.mpr ⟨_, next, semicolon, rfl⟩⟩⟩

theorem spells_of_run_header {word : String} {sigil : Sigil}
    {f : Ident → Option Signature → Statement} {s : Statement}
    (h : (do
      Rule.keyword word
      let name ← Rule.ident sigil
      let signature ← Rule.signature?
      return f name signature : Rule Statement).run c = .ok (s, next)) :
    ∃ name signature, s = f name signature ∧
      c.Spells (.word word :: .name sigil name :: Tree.signatureLexemes signature) next := by
  obtain ⟨_, c₁, keyword, h⟩ := run_bind_eq_ok.mp h
  obtain ⟨name, c₂, read, h⟩ := run_bind_eq_ok.mp h
  obtain ⟨signature, c₃, counts, h⟩ := run_bind_eq_ok.mp h
  obtain ⟨rfl, rfl⟩ := run_pure_eq_ok.mp h
  exact ⟨name, signature, rfl, (run_keyword_eq_ok.mp keyword).append <|
    (run_ident_eq_ok.mp read).append (spells_of_run_signature? counts)⟩

theorem run_header_of_spells {word : String} {sigil : Sigil}
    (f : Ident → Option Signature → Statement) {name : Ident} {signature : Option Signature}
    {l : Lexeme} {ls : List Lexeme} {stop : Cursor}
    (h : c.Spells (.word word :: .name sigil name ::
      (Tree.signatureLexemes signature ++ l :: ls)) stop)
    (token : ¬ l.IsByte) (other : l ≠ .mark .openBracket) :
    ∃ next, (do
      Rule.keyword word
      let name ← Rule.ident sigil
      let signature ← Rule.signature?
      return f name signature : Rule Statement).run c = .ok (f name signature, next) ∧
      next.Spells (l :: ls) stop := by
  obtain ⟨c₁, keyword, h⟩ := Cursor.Spells.cons_iff.mp h
  obtain ⟨c₂, read, h⟩ := Cursor.Spells.cons_iff.mp h
  obtain ⟨c₃, counts, h⟩ := run_signature?_of_spells h token other
  exact ⟨c₃, run_bind_eq_ok.mpr ⟨_, c₁, run_keyword_eq_ok.mpr keyword,
    run_bind_eq_ok.mpr ⟨_, c₂, run_ident_eq_ok.mpr read,
    run_bind_eq_ok.mpr ⟨_, c₃, counts, rfl⟩⟩⟩, h⟩

end Grammar

end SigilAsm
