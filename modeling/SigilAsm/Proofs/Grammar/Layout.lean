import SigilAsm.Proofs.Grammar.Extension
import SigilAsm.Proofs.Grammar.Mentions
import SigilAsm.Proofs.Grammar.Relocation

/-! # Layout

The lexemes of a text can be set in another layout: with more blanks and comments
between them, and with names in quotes or without.  `Cursor.Relaid` says so, and
`Relaid.exists_spells_relocate` that the other layout is a text of the same
lexemes, with the names in other places.

Quotes cannot always be left out of a name that may be written without them.
What follows has to end it, or it is read as a part of the name.
-/

namespace SigilAsm

namespace Token

/-- What bare names are made of may stand between quotes. -/
theorem isQuotable_of_isWordPart {ch : Char} (h : isWordPart ch = true) :
    isQuotable ch = true := by
  have range : 46 ≤ ch.toNat ∧ ch.toNat ≤ 122 := by
    change ((((decide (ch.val ≥ 65 ∧ ch.val ≤ 90) ||
      (decide (ch.val ≥ 97) && decide (ch.val ≤ 122))) || ch == '_') || ch == '.') ||
      (decide (ch.val ≥ 48) && decide (ch.val ≤ 57))) = true at h
    simp only [Bool.or_eq_true, Bool.and_eq_true, decide_eq_true_eq, beq_iff_eq, ge_iff_le,
      UInt32.le_iff_toNat_le] at h
    change ((((65 ≤ ch.toNat ∧ ch.toNat ≤ 90) ∨ (97 ≤ ch.toNat ∧ ch.toNat ≤ 122)) ∨ ch = '_') ∨
      ch = '.') ∨ (48 ≤ ch.toNat ∧ ch.toNat ≤ 57) at h
    rcases h with (((upper | lower) | rfl) | rfl) | digit
    · omega
    · omega
    · decide
    · decide
    · omega
  have noTick : ch ≠ '\'' := by
    rintro rfl
    exact absurd range.1 (by decide)
  simp only [isQuotable, isControl, Bool.and_eq_true, bne_iff_ne, ne_eq, noTick, not_false_eq_true,
    Bool.not_eq_true', Bool.or_eq_false_iff, Bool.and_eq_false_iff, decide_eq_false_iff_not,
    true_and]
  omega

end Token

/-! ## Filling -/

theorem head?_append_cases {first second : List Char} {ch : Char}
    (h : (first ++ second).head? = some ch) :
    first.head? = some ch ∨ (first = [] ∧ second.head? = some ch) := by
  cases first with
  | nil => exact .inr ⟨rfl, h⟩
  | cons _ _ => exact .inl h

/-- Blanks and comments that each end with their line: trivia whatever follows. -/
def Filler (text : List Char) : Prop := ∀ rest, Trivia text rest

theorem Trivia.append {first second rest : List Char} (h : Trivia first (second ++ rest))
    (h' : Trivia second rest) : Trivia (first ++ second) rest := by
  generalize all : second ++ rest = following at h
  induction h with
  | nil => exact h'
  | blank blank _ ih => exact .blank blank (ih all)
  | @comment body text _ closed _ ih =>
    rw [List.cons_append, List.append_assoc, List.cons_append]
    exact .comment closed (ih all)
  | lastComment closed =>
    obtain ⟨rfl, rfl⟩ := List.append_eq_nil_iff.mp all
    rw [List.append_nil]
    exact .lastComment closed

theorem Trivia.head {text rest : List Char} (h : Trivia text rest) {ch : Char}
    (first : text.head? = some ch) : Cursor.isBlank ch = true ∨ ch = '#' := by
  cases h with
  | nil => cases first
  | blank blank _ =>
    cases first
    exact .inl blank
  | comment _ _ | lastComment _ =>
    cases first
    exact .inr rfl

namespace Filler

variable {first second : List Char}

theorem nil : Filler [] := fun _ => .nil

theorem blank {ch : Char} {text : List Char} (h : Cursor.isBlank ch = true) (more : Filler text) :
    Filler (ch :: text) :=
  fun rest => .blank h (more rest)

theorem comment {body text : List Char} (closed : '\n' ∉ body) (more : Filler text) :
    Filler ('#' :: (body ++ '\n' :: text)) :=
  fun rest => .comment closed (more rest)

theorem append (h : Filler first) (h' : Filler second) : Filler (first ++ second) :=
  fun rest => (h (second ++ rest)).append (h' rest)

theorem of_trivia {text rest : List Char} (h : Trivia text rest) (followed : rest ≠ []) :
    Filler text :=
  fun other => h.of_ne_nil followed other

/-- A comment that ends the text may take in what is put after it. -/
theorem append_comment {body text : List Char} (h : Filler text) (closed : '\n' ∉ body) :
    Trivia ('#' :: (body ++ text)) [] := by
  have trivia := h [';']
  generalize followed : [';'] = rest at trivia
  clear h
  induction trivia generalizing body with
  | nil =>
    rw [List.append_nil]
    exact .lastComment closed
  | @blank ch text rest blank more ih =>
    by_cases ends : ch = '\n'
    · subst ends
      exact .comment closed (more.of_ne_nil (by simp [← followed]) [])
    · have open' : '\n' ∉ body ++ [ch] := by simpa [closed] using Ne.symm ends
      simpa using ih open' followed
  | @comment inner text rest inside more ih =>
    have open' : '\n' ∉ body ++ '#' :: inner := by simp [closed, inside]
    simpa using Trivia.comment open' (more.of_ne_nil (by simp [← followed]) [])
  | lastComment _ => cases followed

theorem append_trivia {gap : List Char} (h : Filler second) (trivia : Trivia gap []) :
    Trivia (gap ++ second) [] := by
  generalize last : ([] : List Char) = rest at trivia
  induction trivia with
  | nil => exact h _
  | blank blank _ ih => exact .blank blank (ih last)
  | @comment body text _ closed _ ih =>
    subst last
    rw [List.cons_append, List.append_assoc, List.cons_append]
    exact .comment closed (ih rfl)
  | lastComment closed => exact h.append_comment closed

end Filler

/-! ## Quotes -/

namespace Lexeme

/-- A condition on a name, and on the text after it, to be written without quotes. -/
abbrev Condition := List Char → List Char → Prop

/-- The name can be written without quotes. -/
def CanBeBare : Condition := fun name _ => IsBareName name

/-- The name can be written without quotes, and the text after it does not go on with it. -/
def CanEndBare : Condition := fun name rest =>
  IsBareName name ∧ ∀ ch, rest.head? = some ch → Token.isWordPart ch = false

/-- `l.Respelled p text text' rest`: of the two forms of the lexeme one is the other, or has the
quotes around a name that the other leaves out.  They are left out of the second form under the
condition `p`, with `rest` after it. -/
inductive Respelled (p : Condition) : Lexeme → List Char → List Char → List Char → Prop
  | same {l : Lexeme} {text rest : List Char} : Respelled p l text text rest
  | quote {sigil : Sigil} {name rest : List Char} {extent : Extent} : IsBareName name →
      Respelled p (.name sigil ⟨String.ofList name, extent⟩) (sigil.char :: name)
        (sigil.char :: '\'' :: (name ++ ['\''])) rest
  | unquote {sigil : Sigil} {name rest : List Char} {extent : Extent} : p name rest →
      Respelled p (.name sigil ⟨String.ofList name, extent⟩)
        (sigil.char :: '\'' :: (name ++ ['\''])) (sigil.char :: name) rest

theorem Spelling.relocate {l : Lexeme} {text : List Char} (h : l.Spelling text)
    (f : Extent → Extent) : (l.relocate f).Spelling text := by
  cases h with
  | word bare => exact .word bare
  | quoted quotable => exact .quoted quotable
  | bareName bare => exact .bareName bare
  | quotedName quotable => exact .quotedName quotable
  | integer some all => exact .integer some all
  | string printable => exact .string printable
  | byte high low => exact .byte high low
  | mark m => exact .mark m

theorem goesOn_relocate (l : Lexeme) (f : Extent → Extent) (text : List Char) :
    (l.relocate f).goesOn text = l.goesOn text := by
  cases l <;> rfl

namespace Respelled

variable {p : Condition} {l : Lexeme} {text text' rest : List Char}

theorem head (h : l.Respelled p text text' rest) : text'.head? = text.head? := by
  cases h <;> rfl

theorem spelling (h : l.Respelled CanEndBare text text' rest) (spelling : l.Spelling text)
    (f : Extent → Extent) : (l.relocate f).Spelling text' := by
  cases h with
  | same => exact spelling.relocate f
  | quote bare =>
    refine .quotedName fun ch member => ?_
    exact Token.isQuotable_of_isWordPart (Cursor.isWordPart_of_isBareName bare ch member)
  | unquote free => exact .bareName free.1

/-- The other form ends where it stands, provided that what follows begins as it did or with
trivia. -/
theorem ends (h : l.Respelled CanEndBare text text' rest) {old : List Char} (ends : l.Ends text old)
    (follows : ∀ ch, rest.head? = some ch →
      old.head? = some ch ∨ Cursor.isBlank ch = true ∨ ch = '#') (f : Extent → Extent) :
    (l.relocate f).Ends text' rest := by
  intro ch first
  rw [goesOn_relocate]
  cases h with
  | same =>
    rcases follows ch first with as_before | trivia
    · exact ends ch as_before
    · exact l.goesOn_trivia text trivia
  | quote _ => rfl
  | unquote free =>
    rw [goesOn_bareName free.1]
    exact free.2 ch first

end Respelled

end Lexeme

/-! ## Other layouts -/

namespace Cursor

instance (c next : Cursor) (text : List Char) : Decidable (c.Over text next) :=
  decidable_of_iff (c.rest = text ++ next.rest ∧ next.offset = c.offset + Utf8.byteLength text)
    ⟨fun h => ⟨h.1, h.2⟩, fun h => ⟨h.rest, h.offset⟩⟩

open Lexeme (Condition CanEndBare)

/-- `c.Relaid p ls text`: the text from `c` on is these lexemes, and `text` is it in another layout.
Filling is put before and after the trivia in front of a lexeme, and at the end; names are put in
quotes, or their quotes are left out under the condition `p`. -/
inductive Relaid (p : Condition) : Cursor → List Lexeme → List Char → Prop
  | nil {c : Cursor} {before after : List Char} : Trivia c.rest [] → Filler before → Filler after →
      Relaid p c [] (before ++ (c.rest ++ after))
  | cons {c start middle : Cursor} {gap text before after text' rest : List Char} {l : Lexeme}
      {ls : List Lexeme} : c.Over gap start → Trivia gap start.rest → l.At start text middle →
      Filler before → Filler after → l.Respelled p text text' rest → Relaid p middle ls rest →
      Relaid p c (l :: ls) (before ++ (gap ++ (after ++ (text' ++ rest))))

namespace Relaid

variable {p : Condition} {c : Cursor} {ls : List Lexeme} {text : List Char}

/-- What is set in another layout is a text of the lexemes. -/
theorem spells (h : c.Relaid p ls text) :
    ∃ stop, c.Spells ls stop ∧ Trivia stop.rest [] := by
  induction h with
  | nil trivia _ _ => exact ⟨_, .nil _, trivia⟩
  | cons covers trivia at_ _ _ _ _ ih =>
    obtain ⟨stop, spells, last⟩ := ih
    exact ⟨stop, .cons covers trivia at_ spells, last⟩

/-- The other layout begins as the text did, or with trivia. -/
theorem head (h : c.Relaid p ls text) {ch : Char} (first : text.head? = some ch) :
    c.rest.head? = some ch ∨ isBlank ch = true ∨ ch = '#' := by
  cases h with
  | nil trivia before after =>
    rcases head?_append_cases first with inBefore | ⟨-, first⟩
    · exact .inr ((before []).head inBefore)
    · rcases head?_append_cases first with here | ⟨-, inAfter⟩
      · exact .inl here
      · exact .inr ((after []).head inAfter)
  | cons covers trivia at_ before after respelled _ =>
    rcases head?_append_cases first with inBefore | ⟨-, first⟩
    · exact .inr ((before []).head inBefore)
    · rcases head?_append_cases first with inGap | ⟨noGap, first⟩
      · exact .inr (trivia.head inGap)
      · rcases head?_append_cases first with inAfter | ⟨-, first⟩
        · exact .inr ((after []).head inAfter)
        · -- Nothing is in front of the lexeme, which begins alike in both forms.
          have same := respelled.head
          rcases head?_append_cases first with here | ⟨none, -⟩
          · rw [covers.rest, noGap, List.nil_append, at_.covers.rest, List.head?_append, ← same,
              here]
            exact .inl rfl
          · rw [none] at same
            exact absurd (List.head?_eq_none_iff.mp same.symm) at_.spelling.ne_nil

/-- Names that stand at `offset` or later are not told apart by what happens to extents before
it. -/
theorem map_relocate_congr {f g : Extent → Extent} {offset : Nat}
    (same : ∀ e : Extent, offset ≤ e.start → f e = g e)
    (later : ∀ m ∈ ls.flatMap Lexeme.mentions, offset ≤ m.ident.extent.start) :
    ls.map (Lexeme.relocate f) = ls.map (Lexeme.relocate g) := by
  refine List.map_congr_left fun l member => ?_
  cases l with
  | name sigil ident =>
    have here := later ⟨sigil, ident⟩ (List.mem_flatMap.mpr ⟨_, member, List.mem_singleton_self _⟩)
    simp only [Lexeme.relocate, Ident.relocate, same _ here]
  | word _ | quoted _ | integer _ | string _ | byte _ | mark _ => rfl

/-- The other layout is a text of the same lexemes, with the names in other places. -/
theorem exists_spells_relocate (h : c.Relaid CanEndBare ls text) (c' : Cursor)
    (here : c'.rest = text) :
    ∃ f stop, c'.Spells (ls.map (Lexeme.relocate f)) stop ∧ Trivia stop.rest [] := by
  induction h generalizing c' with
  | nil trivia before after =>
    refine ⟨id, c', .nil _, ?_⟩
    rw [here]
    exact (before _).append (after.append_trivia trivia)
  | @cons c start middle gap text before after text' rest l ls covers trivia at_ isBefore isAfter
      respelled more ih =>
    -- The place of the lexeme and the place after it, in the other layout.
    let start' : Cursor :=
      ⟨c'.offset + Utf8.byteLength (before ++ (gap ++ after)), text' ++ rest⟩
    let middle' : Cursor := ⟨start'.offset + Utf8.byteLength text', rest⟩
    obtain ⟨g, stop, spells, last⟩ := ih middle' rfl
    obtain ⟨_, original, -⟩ := more.spells
    have inside := at_.covers.offset_lt at_.spelling.ne_nil
    -- Names up to here were given their place now, and those after it by the induction.
    let f : Extent → Extent := fun e =>
      if e.start < middle.offset then .between start'.offset middle'.offset else g e
    have after_f : ls.map (Lexeme.relocate f) = ls.map (Lexeme.relocate g) :=
      map_relocate_congr (fun e later => if_neg (Nat.not_lt.mpr later)) fun m member =>
        (original.mention_within.2 m member).1
    have gapFiller : Filler gap := .of_trivia trivia (by
      rw [at_.covers.rest]
      exact List.append_ne_nil_of_left_ne_nil at_.spelling.ne_nil _)
    have filler := isBefore.append (gapFiller.append isAfter)
    have spelling := respelled.spelling at_.spelling f
    have relocated : (l.relocate f).At start' text' middle' := {
      covers := ⟨rfl, rfl⟩
      spelling := spelling
      longest := (longest_iff_ends spelling).mpr (respelled.ends
        ((longest_iff_ends at_.spelling).mp at_.longest) (fun ch first => more.head first) f)
      located := by
        cases l with
        | name sigil ident =>
          have located : ident.extent = .between start.offset middle.offset := at_.located
          have first : ident.extent.start < middle.offset := by
            rw [located, Extent.between_of_le (Nat.le_of_lt inside)]
            exact inside
          exact if_pos first
        | word _ | quoted _ | integer _ | string _ | byte _ | mark _ => exact trivial }
    refine ⟨f, stop, ?_, last⟩
    rw [List.map_cons, after_f]
    exact .cons ⟨by simp [here, start'], rfl⟩ (filler _) relocated spells

/-! ### Building layouts -/

/-- One lexeme is set in another way. -/
theorem change {l : Lexeme} {middle : Cursor} {all : List Char}
    (before gap after here here' : List Char) (h : c.Spells [l] middle)
    (covers : c.Over gap c.skipTrivia ∧ c.skipTrivia.Over here middle)
    (fills : Filler before ∧ Filler after) (respelled : l.Respelled p here here' text)
    (more : middle.Relaid p ls text) (whole : before ++ (gap ++ (after ++ (here' ++ text))) = all) :
    c.Relaid p (l :: ls) all := by
  obtain ⟨here₂, at_⟩ := spells_singleton_iff.mp h
  cases covers.2.text_unique at_.covers
  obtain ⟨gap₂, front, trivia, -⟩ := trivia_skipTrivia c
  cases covers.1.text_unique front
  exact whole ▸ .cons front trivia at_ fills.1 fills.2 respelled more

theorem exists_keep {first : List Lexeme} {middle : Cursor} (h : c.Spells first middle)
    (more : middle.Relaid p ls text) :
    ∃ kept, c.Over kept middle ∧ c.Relaid p (first ++ ls) (kept ++ text) := by
  induction h with
  | nil => exact ⟨[], .refl _, more⟩
  | @cons c start after middle gap here l first covers trivia at_ _ ih =>
    obtain ⟨kept, covers', relaid⟩ := ih more
    have both := covers.trans (at_.covers.trans covers')
    refine ⟨_, both, ?_⟩
    simpa using Relaid.cons covers trivia at_ .nil .nil .same relaid

/-- The layout of the lexemes up to `middle` is kept. -/
theorem keep {first : List Lexeme} {middle : Cursor} {kept : List Char} (h : c.Spells first middle)
    (covers : c.Over kept middle) (more : middle.Relaid p ls text) :
    c.Relaid p (first ++ ls) (kept ++ text) := by
  obtain ⟨kept', covers', relaid⟩ := exists_keep h more
  rwa [covers.text_unique covers']

theorem refl {stop : Cursor} (h : c.Spells ls stop) (last : Trivia stop.rest []) :
    c.Relaid p ls c.rest := by
  obtain ⟨kept, covers, relaid⟩ := exists_keep h (.nil (p := p) last .nil .nil)
  simpa [covers.rest] using relaid

end Relaid

end Cursor

namespace Tree.Module

/-- The second text is the first in another layout.  Filling may be put at the lexemes of a tree of
the first. -/
def Relayout (p : Lexeme.Condition) (limit : Nat) (s s' : String) : Prop :=
  ∃ m : Tree.Module, m.IsTreeOf limit s ∧ (Cursor.ofString s).Relaid p m.lexemes s'.toList

theorem Relayout.of_relaid {p : Lexeme.Condition} {limit : Nat} {s s' : String} {m : Tree.Module}
    (h : (Cursor.ofString s).Relaid p m.lexemes s'.toList)
    (admissible : ∀ d ∈ m.declarations, d.Admissible limit) : Relayout p limit s s' :=
  ⟨m, ⟨h.spells, admissible⟩, h⟩

/-- In another layout a text has the same tree, with the names in other places. -/
theorem Relayout.exists_isTreeOf {limit : Nat} {s s' : String}
    (h : Relayout Lexeme.CanEndBare limit s s') :
    ∃ (m : Tree.Module) (f : Extent → Extent), m.IsTreeOf limit s ∧
      (m.relocate f).IsTreeOf limit s' := by
  obtain ⟨m, tree, relaid⟩ := h
  obtain ⟨f, stop, spells, last⟩ := relaid.exists_spells_relocate (.ofString s') rfl
  rw [← m.lexemes_relocate] at spells
  refine ⟨m, f, tree, ⟨stop, spells, last⟩, fun d member => ?_⟩
  obtain ⟨d', member', rfl⟩ := List.mem_map.mp member
  exact Declaration.admissible_relocate f (tree.admissible d' member')

end Tree.Module

end SigilAsm
