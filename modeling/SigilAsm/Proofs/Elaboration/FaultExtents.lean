import SigilAsm.Proofs.Elaboration.SourceOrder
import SigilAsm.Proofs.Grammar.Boundaries

/-! # What errors cover

Errors point at whole characters of the source, with one exception: a character
that is refused in a string is pointed at by its first byte, which cuts it apart
if it has more bytes (`SyntaxError.CutsCharacter`).  `onBoundaries_iff` says so
of every error that reading a source gives rise to, be it as a module or token
by token.
-/

namespace SigilAsm

namespace SyntaxError

variable {e : SyntaxError} {source : String}

/-- The error begins and ends between characters of the source. -/
def OnBoundaries (e : SyntaxError) (source : String) : Prop :=
  (⟨e.extent.start⟩ : String.Pos.Raw).IsValid source ∧
    (⟨e.extent.stop⟩ : String.Pos.Raw).IsValid source

/-- The error is about a character in a string, and the character has more than one byte. -/
def CutsCharacter (e : SyntaxError) (source : String) : Prop :=
  e.fault = .unprintableInString ∧ ∃ before ch after, source.toList = before ++ ch :: after ∧
    e.extent.start = Utf8.byteLength before ∧ 1 < ch.utf8Size

theorem onBoundaries_iff_covers :
    e.OnBoundaries source ↔ (Cursor.ofString source).Covers e.extent :=
  (and_congr Cursor.hasPlace_ofString_iff Cursor.hasPlace_ofString_iff).symm

/-- The byte after the first of a wide character is at no boundary. -/
theorem not_hasPlace_inside {place : Cursor} {ch : Char} {rest : List Char}
    (reads : (Cursor.ofString source).ReadsTo place) (first : place.rest = ch :: rest)
    (wide : 1 < ch.utf8Size) : ¬ (Cursor.ofString source).HasPlace (place.offset + 1) := by
  rintro ⟨other, reads', offset⟩
  obtain ⟨front, whole, start⟩ := Cursor.readsTo_ofString_iff.mp reads
  have cut := reads'.dropBytes?
  rw [offset, start, whole, Utf8.dropBytes?_byteLength_add, first, Utf8.dropBytes?_one wide] at cut
  cases cut

/-- Errors cover whole characters unless they cut one. -/
theorem Within.onBoundaries_iff_not_cuts (h : e.Within (.ofString source)) :
    e.OnBoundaries source ↔ ¬ e.CutsCharacter source := by
  rw [onBoundaries_iff_covers]
  rcases h.covers with ⟨other, covers⟩ | ⟨fault, place, ch, rest, reads, first, extent⟩
  · exact iff_of_true covers fun cuts => other cuts.1
  · rw [Extent.between_of_le (Nat.le_succ _)] at extent
    have cuts_iff : e.CutsCharacter source ↔ 1 < ch.utf8Size := by
      obtain ⟨front, whole, start⟩ := Cursor.readsTo_ofString_iff.mp reads
      constructor
      · rintro ⟨-, before, ch', after, split, place', wide⟩
        -- Both characters stand at the same offset of the source.
        have here := reads.dropBytes?
        rw [show place.offset = e.extent.start by rw [extent], place', split,
          Utf8.dropBytes?_byteLength_append, first] at here
        cases here
        exact wide
      · intro wide
        exact ⟨fault, front, ch, rest, by rw [whole, first], by rw [extent, start], wide⟩
    rw [cuts_iff, Cursor.Covers, extent]
    constructor
    · rintro ⟨-, stop⟩ wide
      exact not_hasPlace_inside reads first wide stop
    · intro narrow
      have single : ch.utf8Size = 1 := by
        have := Char.utf8Size_pos ch
        omega
      refine ⟨reads.hasPlace, ?_⟩
      have after := reads.hasPlace_add first
      rwa [single] at after

end SyntaxError

/-! ## Errors of a source -/

namespace Cursor

/-- The error that the answer tells, if it tells one. -/
def Answer.error? : Answer → Option SyntaxError
  | .token (.error e) | .byte (.error e) => some e
  | .token (.ok _) | .byte (.ok _) | .offset _ | .firstByte _ => none

theorem Answer.error?_token {r : Except SyntaxError Token} {e : SyntaxError} :
    (Answer.token r).error? = some e ↔ r = .error e := by
  cases r <;> simp [error?]

theorem Answer.error?_byte {r : Except SyntaxError (UInt8 × Extent)} {e : SyntaxError} :
    (Answer.byte r).error? = some e ↔ r = .error e := by
  cases r <;> simp [error?]

theorem within_of_ask {root c : Cursor} (reads : root.ReadsTo c) {query : Query} {e : SyntaxError}
    (h : (c.ask query).1.error? = some e) : e.Within root := by
  cases query with
  | token | peek => exact (within_scan reads).of_error (Answer.error?_token.mp h)
  | byte => exact (within_scanByte reads).of_error (Answer.error?_byte.mp h)
  | offset | firstByte => cases h

end Cursor

theorem within_of_elaborate {σ : Type} [Builder σ] {settings : Settings} {target : σ}
    {source : String} {e : SyntaxError} (h : (elaborate settings target source).1 = .error e) :
    e.Within (.ofString source) := by
  obtain ⟨ls, stop, spells, -, ends⟩ := Statement.situated_read settings.maxDataBytes source
  rw [elaborate_eq_error_iff.mp h] at ends
  exact SyntaxError.Within.of_readsTo ends spells.readsTo

/-- The error comes of reading the source, as a module under some settings or by queries that may
have been answered with errors before. -/
def SyntaxError.ComesOf (e : SyntaxError) (source : String) : Prop :=
  (∃ (σ : Type) (_ : Builder σ) (settings : Settings) (target : σ),
    (elaborate settings target source).1 = .error e) ∨
  ∃ (queries : List Cursor.Query) (query : Cursor.Query),
    (((Cursor.ofString source).askAll queries).2.ask query).1.error? = some e

/-- Every error begins between two characters of the source, and it ends so as well unless it is
about a character of several bytes in a string. -/
theorem SyntaxError.onBoundaries_iff {e : SyntaxError} {source : String} (h : e.ComesOf source) :
    (⟨e.extent.start⟩ : String.Pos.Raw).IsValid source ∧
      (e.OnBoundaries source ↔ ¬ e.CutsCharacter source) := by
  have within : e.Within (.ofString source) := by
    rcases h with ⟨σ, _, settings, target, refused⟩ | ⟨queries, query, told⟩
    · exact within_of_elaborate refused
    · exact Cursor.within_of_ask (Cursor.readsTo_askAll _ queries) told
  exact ⟨Cursor.hasPlace_ofString_iff.mp within.hasPlace_start, within.onBoundaries_iff_not_cuts⟩

/-- The character of two bytes that is refused here is the second one of the source. -/
theorem SyntaxError.onBoundaries_iff_wide_in_string :
    (⟨.unprintableInString, .between 1 2⟩ : SyntaxError).ComesOf "\"é" ∧
      (⟨1⟩ : String.Pos.Raw).IsValid "\"é" ∧
      ¬ (⟨.unprintableInString, .between 1 2⟩ : SyntaxError).OnBoundaries "\"é" := by
  have comes : (⟨.unprintableInString, .between 1 2⟩ : SyntaxError).ComesOf "\"é" :=
    .inr ⟨[], .token, by decide +kernel⟩
  have cuts : (⟨.unprintableInString, .between 1 2⟩ : SyntaxError).CutsCharacter "\"é" :=
    ⟨rfl, ['"'], 'é', [], rfl, rfl, by decide⟩
  obtain ⟨start, boundaries⟩ := SyntaxError.onBoundaries_iff comes
  exact ⟨comes, start, fun both => boundaries.mp both cuts⟩

/-- A module is refused with an error that ends inside a character. -/
theorem not_onBoundaries_of_elaborate :
    ∃ e, (elaborate .standard (⟨0⟩ : Counter) "module @m; global @g = \"é\";").1 = .error e ∧
      e.extent = .between 24 25 ∧
      ¬ (⟨e.extent.stop⟩ : String.Pos.Raw).IsValid "module @m; global @g = \"é\";" := by
  have refused : (match (elaborate .standard (⟨0⟩ : Counter)
      "module @m; global @g = \"é\";").1 with
    | .error e => some e.extent
    | .ok _ => none) = some (.between 24 25) := by
    decide +kernel
  split at refused
  · next e read =>
    have extent := Option.some.inj refused
    refine ⟨e, read, extent, ?_⟩
    rw [extent]
    decide +kernel
  · cases refused

end SigilAsm
