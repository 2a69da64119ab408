import SigilAsm.Proofs.Grammar.Boundaries
import SigilAsm.Proofs.Text.Positions
import SigilAsm.Token.ByteReader

/-! # Bytes and the characters they belong to

A reader of bytes tests bytes where a cursor tests characters.  The tests come to
the same, because they tell no two characters apart that are beyond ASCII
(`ByteReader.Tests`), and all bytes of such a character are beyond ASCII as well.

Therefore a run of bytes ends where the run of characters does, and so between
characters (`ByteReader.runEnd_offset`, `ByteReader.triviaEnd_offset`).
-/

namespace SigilAsm

namespace Utf8

variable {b : UInt8} {ch other : Char}

/-- The byte is the character by itself, or both are beyond ASCII. -/
def Stands (b : UInt8) (ch : Char) : Prop :=
  Char.ofUInt8 b = ch ∨ 0x80 ≤ (Char.ofUInt8 b).toNat ∧ 0x80 ≤ ch.toNat

theorem utf8Size_eq_one_of_lt (small : ch.toNat < 0x80) : ch.utf8Size = 1 :=
  Char.utf8Size_eq_one_iff.mpr (UInt32.le_iff_toNat_le.mpr (Nat.le_of_lt_succ small))

theorem toNat_toUInt8 (small : ch.toNat < 0x80) : ch.toUInt8.toNat = ch.val.toNat := by
  change ch.val.toUInt8.toNat = ch.val.toNat
  rw [UInt32.toNat_toUInt8]
  exact Nat.mod_eq_of_lt (Nat.lt_trans small (by decide))

theorem ofUInt8_toUInt8 (small : ch.toNat < 0x80) : Char.ofUInt8 ch.toUInt8 = ch := by
  refine Char.ext (UInt32.toNat_inj.mp ?_)
  change ch.toUInt8.toUInt32.toNat = ch.val.toNat
  rw [UInt8.toNat_toUInt32, toNat_toUInt8 small]

/-- Each byte of a character stands for it. -/
theorem stands_of_mem (h : b ∈ String.utf8EncodeChar ch) : Stands b ch := by
  rcases Nat.lt_or_ge ch.toNat 0x80 with small | large
  · rw [String.utf8EncodeChar_eq_singleton (utf8Size_eq_one_of_lt small), List.mem_singleton] at h
    rw [h]
    exact .inl (ofUInt8_toUInt8 small)
  · have wide : 1 < ch.utf8Size := by
      refine Nat.lt_of_le_of_ne (Char.utf8Size_pos ch) fun single => ?_
      have small := UInt32.le_iff_toNat_le.mp (Char.utf8Size_eq_one_iff.mp single.symm)
      exact absurd large (Nat.not_le_of_lt (Nat.lt_succ_of_le small))
    exact .inr ⟨high_of_mem_utf8EncodeChar wide h, large⟩

/-! ## Beyond ASCII -/

theorem ne_of_large (large : 0x80 ≤ ch.toNat) (small : other.toNat < 0x80) : ch ≠ other := by
  rintro rfl
  omega

theorem not_le_of_large (large : 0x80 ≤ ch.toNat) (small : other.toNat < 0x80) : ¬ ch ≤ other := by
  rw [Char.le_def, UInt32.le_iff_toNat_le]
  exact Nat.not_le_of_lt (Nat.lt_of_lt_of_le small large)

theorem isDigit_of_large (large : 0x80 ≤ ch.toNat) : ch.isDigit = false := by
  have beyond : 0x80 ≤ ch.val.toNat := large
  simp [Char.isDigit, UInt32.le_iff_toNat_le]
  omega

theorem hexDigit?_of_large (large : 0x80 ≤ ch.toNat) : Token.hexDigit? ch = none := by
  simp [Token.hexDigit?, isDigit_of_large large, not_le_of_large large]

end Utf8

namespace ByteReader

open Utf8 (Stands encode)

variable {α β γ : Type} {source : String}

/-! ## Tests of bytes and of characters -/

/-- `Tests f g`: what `f` finds in a byte, `g` finds in the character, and `g` tells no two
characters apart that are beyond ASCII. -/
structure Tests (f : UInt8 → α) (g : Char → α) : Prop where
  byte : ∀ b, f b = g (Char.ofUInt8 b)
  beyond : ∃ a, ∀ ch : Char, 0x80 ≤ ch.toNat → g ch = a

namespace Tests

theorem of_stands {f : UInt8 → α} {g : Char → α} (h : Tests f g) {b : UInt8} {ch : Char}
    (stands : Stands b ch) : f b = g ch := by
  obtain ⟨a, beyond⟩ := h.beyond
  rcases stands with rfl | ⟨high, large⟩
  · exact h.byte b
  · rw [h.byte, beyond _ high, beyond _ large]

theorem comp {f : UInt8 → α} {g : Char → α} (h : Tests f g) (k : α → β) :
    Tests (fun b => k (f b)) (fun ch => k (g ch)) where
  byte b := congrArg k (h.byte b)
  beyond := by
    obtain ⟨a, beyond⟩ := h.beyond
    exact ⟨k a, fun ch large => congrArg k (beyond ch large)⟩

theorem both {f : UInt8 → α} {g : Char → α} {f' : UInt8 → β} {g' : Char → β} (h : Tests f g)
    (h' : Tests f' g') (k : α → β → γ) :
    Tests (fun b => k (f b) (f' b)) (fun ch => k (g ch) (g' ch)) where
  byte b := by rw [h.byte, h'.byte]
  beyond := by
    obtain ⟨a, beyond⟩ := h.beyond
    obtain ⟨a', beyond'⟩ := h'.beyond
    exact ⟨k a a', fun ch large => by rw [beyond ch large, beyond' ch large]⟩

end Tests

/-! Every test is put together from two: whether a byte is a given one, and whether it lies between
two of them. -/

theorem tests_isByte {ch : Char} (small : ch.toNat < 0x80) : Tests (isByte ch) (· == ch) where
  byte b := by
    rw [isByte, Bool.eq_iff_iff, beq_iff_eq, beq_iff_eq]
    refine ⟨fun same => by rw [same, Utf8.ofUInt8_toUInt8 small], fun same => ?_⟩
    rw [← same]
    exact (UInt8.toUInt8_toUInt32 b).symm
  beyond := ⟨false, fun _ large => beq_eq_false_iff_ne.mpr (Utf8.ne_of_large large small)⟩

theorem tests_isWithin {first last : Char} (hfirst : first.toNat < 0x80)
    (hlast : last.toNat < 0x80) :
    Tests (isWithin first last) (fun ch => first ≤ ch && ch ≤ last) where
  byte b := by
    simp only [isWithin, UInt8.le_iff_toNat_le, Char.le_def, UInt32.le_iff_toNat_le,
      Utf8.toNat_toUInt8 hfirst, Utf8.toNat_toUInt8 hlast]
    rfl
  beyond := ⟨false, fun _ large => by simp [Utf8.not_le_of_large large hlast]⟩

theorem isByte_of_stands {b : UInt8} {ch other : Char} (stands : Stands b ch)
    (small : other.toNat < 0x80) : isByte other b = (ch == other) :=
  (tests_isByte small).of_stands stands

theorem tests_isDigit : Tests isDigit Char.isDigit :=
  tests_isWithin (by decide) (by decide)

theorem tests_isBlank : Tests isBlank Cursor.isBlank :=
  have is (ch : Char) (small : ch.toNat < 0x80) := tests_isByte small
  have inLine := (is ' ' (by decide)).both (is '\t' (by decide)) or
  have ends := (inLine.both (is '\n' (by decide)) or).both (is '\r' (by decide)) or
  (ends.both (is '\x0b' (by decide)) or).both (is '\x0c' (by decide)) or

theorem tests_isWordStart : Tests isWordStart Token.isWordStart := by
  have letters : Tests (fun b => isWithin 'a' 'z' b || isWithin 'A' 'Z' b) Char.isAlpha := by
    have alpha : Char.isAlpha = fun ch => ('a' ≤ ch && ch ≤ 'z') || ('A' ≤ ch && ch ≤ 'Z') := by
      funext ch
      have upper : ch.isUpper = ('A' ≤ ch && ch ≤ 'Z') := Bool.decide_and ('A' ≤ ch) (ch ≤ 'Z')
      exact (Bool.or_comm ch.isUpper ch.isLower).trans (congrArg (ch.isLower || ·) upper)
    rw [alpha]
    exact Tests.both (tests_isWithin (by decide) (by decide))
      (tests_isWithin (by decide) (by decide)) or
  exact (letters.both (tests_isByte (by decide)) or).both (tests_isByte (by decide)) or

theorem tests_isWordPart : Tests isWordPart Token.isWordPart :=
  tests_isWordStart.both tests_isDigit or

theorem tests_isStringPart : Tests isStringPart Token.isStringPart := by
  have part : Token.isStringPart = fun ch => ch != '"' && (' ' ≤ ch && ch ≤ '~') :=
    funext fun ch => Bool.and_comm (' ' ≤ ch && ch ≤ '~') (ch != '"')
  rw [part]
  exact ((tests_isByte (by decide)).comp (!·)).both (tests_isWithin (by decide) (by decide)) and

theorem tests_hexDigit? : Tests hexDigit? Token.hexDigit? where
  byte b := by
    have table : ∀ n : Fin 256, hexDigit? (UInt8.ofFin n) =
        Token.hexDigit? (Char.ofUInt8 (UInt8.ofFin n)) := by decide +kernel
    simpa using table b.toFin
  beyond := ⟨none, fun ch large => Utf8.hexDigit?_of_large large⟩

theorem tests_ofMark? :
    Tests (fun b => Token.Kind.ofMark? (Char.ofUInt8 b)) Token.Kind.ofMark? where
  byte _ := rfl
  beyond := ⟨none, fun ch large => by
    unfold Token.Kind.ofMark?
    split <;> first | rfl | exact absurd large (by decide)⟩

theorem tests_ofChar? : Tests (fun b => Sigil.ofChar? (Char.ofUInt8 b)) Sigil.ofChar? where
  byte _ := rfl
  beyond := ⟨none, fun ch large => by
    unfold Sigil.ofChar?
    split <;> first | rfl | exact absurd large (by decide)⟩

/-! ## Digits and marks -/

theorem lt_of_hexDigit? {ch : Char} {value : UInt8} (h : Token.hexDigit? ch = some value) :
    ch.toNat < 0x80 := by
  refine Nat.lt_of_not_le fun large => ?_
  cases h.symm.trans (Utf8.hexDigit?_of_large large)

theorem toNat_lt_of_hexDigit? {ch : Char} {value : UInt8} (h : Token.hexDigit? ch = some value) :
    value.toNat < 16 := by
  have table : ∀ n : Fin 256, (hexDigit? (UInt8.ofFin n)).all (·.toNat < 16) = true := by
    decide +kernel
  have stands : Stands ch.toUInt8 ch := .inl (Utf8.ofUInt8_toUInt8 (lt_of_hexDigit? h))
  have digit := table ch.toUInt8.toFin
  rw [UInt8.ofFin_toFin, tests_hexDigit?.of_stands stands, h] at digit
  simpa using digit

/-- Two digits are put together by bits as they are by arithmetic. -/
theorem shift_or_eq {high low : UInt8} (hhigh : high.toNat < 16) (hlow : low.toNat < 16) :
    (high <<< 4) ||| low = high * 16 + low := by
  have table : ∀ a b : Fin 16, (a.val.toUInt8 <<< 4) ||| b.val.toUInt8 =
      a.val.toUInt8 * 16 + b.val.toUInt8 := by decide +kernel
  simpa using table ⟨_, hhigh⟩ ⟨_, hlow⟩

theorem utf8Size_of_ofMark? {ch : Char} {kind : Token.Kind}
    (h : Token.Kind.ofMark? ch = some kind) : ch.utf8Size = 1 := by
  unfold Token.Kind.ofMark? at h
  split at h <;> cases h <;> rfl

theorem scanAt_of_ofMark? {c : Cursor} {ch : Char} {kind : Token.Kind}
    (h : Token.Kind.ofMark? ch = some kind) : c.scanAt ch = c.lexeme kind 1 0 0 := by
  unfold Token.Kind.ofMark? at h
  split at h <;> cases h <;> rfl

/-! ## Runs of bytes -/

theorem takeWhile_encode {p : UInt8 → Bool} {q : Char → Bool} (tests : Tests p q)
    (cs : List Char) : (encode cs).takeWhile p = encode (cs.takeWhile q) := by
  induction cs with
  | nil => rfl
  | cons ch cs ih =>
    have same : ∀ b ∈ String.utf8EncodeChar ch, p b = q ch :=
      fun b member => tests.of_stands (Utf8.stands_of_mem member)
    have split : encode (ch :: cs) = String.utf8EncodeChar ch ++ encode cs := rfl
    cases taken : q ch with
    | true =>
      rw [split, List.takeWhile_append_of_pos fun b member => (same b member).trans taken, ih,
        List.takeWhile_cons_of_pos taken]
      rfl
    | false =>
      rw [List.takeWhile_cons_of_neg (by simp [taken]), split]
      have some : String.utf8EncodeChar ch ≠ [] := String.utf8EncodeChar_ne_nil
      obtain ⟨b, bytes, first⟩ := List.exists_cons_of_ne_nil some
      rw [first, List.cons_append, List.takeWhile_cons_of_neg]
      · rfl
      · simp [same b (by simp [first]), taken]

/-- The bytes of a source are those of its characters. -/
theorem byteAt?_eq (source : String) (i : Nat) :
    byteAt? source i = (encode source.toList)[i]? := by
  have bytes : encode source.toList = source.toByteArray.data.toList := by
    rw [← Utf8.toByteArray_encode, List.toList_data_toByteArray]
  rw [byteAt?, bytes]
  split
  · next inside =>
    rw [List.getElem?_eq_getElem inside]
    rfl
  · next outside => rw [List.getElem?_eq_none (Nat.le_of_not_lt outside)]

theorem runEnd_eq (source : String) (p : UInt8 → Bool) (i : Nat) :
    runEnd source p i = i + (((encode source.toList).drop i).takeWhile p).length := by
  fun_induction runEnd source p i with
  | case1 i none =>
    rw [byteAt?_eq, List.getElem?_eq_none_iff] at none
    rw [List.drop_of_length_le none]
    rfl
  | case2 i b here taken inside ih =>
    rw [byteAt?_eq] at here
    rw [List.drop_eq_getElem?_toList_append, here, ih]
    simp [taken]
    omega
  | case3 i b here stops =>
    rw [byteAt?_eq] at here
    rw [List.drop_eq_getElem?_toList_append, here]
    simp [stops]

/-! ## Bytes at a place -/

variable {c : Cursor} {b : UInt8} {ch : Char}

theorem drop_offset (reads : (Cursor.ofString source).ReadsTo c) :
    (encode source.toList).drop c.offset = encode c.rest := by
  obtain ⟨front, rest, offset⟩ := Cursor.readsTo_ofString_iff.mp reads
  rw [rest, offset, Utf8.encode_append, ← Utf8.length_encode, List.drop_left]

theorem byteAt?_offset (reads : (Cursor.ofString source).ReadsTo c) :
    byteAt? source c.offset = c.rest.head?.bind fun ch => (String.utf8EncodeChar ch).head? := by
  rw [byteAt?_eq, Cursor.getElem?_encode_offset reads]

theorem rest_of_byteAt?_none (reads : (Cursor.ofString source).ReadsTo c)
    (none : byteAt? source c.offset = none) : c.rest = [] := by
  rw [byteAt?_offset reads] at none
  cases rest : c.rest with
  | nil => rfl
  | cons ch more => simp [rest, String.utf8EncodeChar_ne_nil] at none

/-- The byte that comes next belongs to the character that comes next. -/
theorem exists_first (reads : (Cursor.ofString source).ReadsTo c)
    (here : byteAt? source c.offset = some b) : ∃ ch rest, c.rest = ch :: rest ∧ Stands b ch := by
  rw [byteAt?_offset reads] at here
  obtain ⟨ch, first, byte⟩ := Option.bind_eq_some_iff.mp here
  obtain ⟨rest, split⟩ := List.head?_eq_some_iff.mp first
  exact ⟨ch, rest, split, Utf8.stands_of_mem (List.mem_of_mem_head? byte)⟩

theorem exists_byteAt? (reads : (Cursor.ofString source).ReadsTo c) {rest : List Char}
    (first : c.rest = ch :: rest) : ∃ b, byteAt? source c.offset = some b ∧ Stands b ch := by
  cases here : byteAt? source c.offset with
  | none => cases first.symm.trans (rest_of_byteAt?_none reads here)
  | some b =>
    obtain ⟨ch', rest', first', stands⟩ := exists_first reads here
    cases first.symm.trans first'
    exact ⟨b, rfl, stands⟩

/-- What a test finds in the byte that comes next, it finds in the character. -/
theorem map_byteAt? {f : UInt8 → α} {g : Char → α} (reads : (Cursor.ofString source).ReadsTo c)
    (tests : Tests f g) : (byteAt? source c.offset).map f = c.rest.head?.map g := by
  cases here : byteAt? source c.offset with
  | none =>
    rw [rest_of_byteAt?_none reads here]
    rfl
  | some b =>
    obtain ⟨ch, rest, first, stands⟩ := exists_first reads here
    rw [first]
    exact congrArg some (tests.of_stands stands)

theorem any_byteAt? (reads : (Cursor.ofString source).ReadsTo c) (small : ch.toNat < 0x80) :
    (byteAt? source c.offset).any (isByte ch) = (c.rest.head? == some ch) := by
  have same := congrArg (Option.any id) (map_byteAt? reads (tests_isByte small))
  rw [Option.any_map, Option.any_map] at same
  refine same.trans ?_
  cases c.rest <;> rfl

theorem bind_hexDigit? (reads : (Cursor.ofString source).ReadsTo c) :
    (byteAt? source c.offset).bind hexDigit? = c.rest.head?.bind Token.hexDigit? := by
  have same := congrArg (Option.bind · id) (map_byteAt? reads tests_hexDigit?)
  rwa [Option.bind_map, Option.bind_map] at same

/-! ## Loops at a place -/

/-- A run of bytes ends where the run of characters does. -/
theorem runEnd_offset {p : UInt8 → Bool} {q : Char → Bool} (tests : Tests p q)
    (reads : (Cursor.ofString source).ReadsTo c) :
    runEnd source p c.offset = (c.skip (c.rest.takeWhile q).length).offset := by
  have taken : c.rest.take (c.rest.takeWhile q).length = c.rest.takeWhile q :=
    (List.prefix_iff_eq_take.mp (List.takeWhile_prefix q)).symm
  rw [runEnd_eq, drop_offset reads, takeWhile_encode tests, Utf8.length_encode, Cursor.skip, taken]

theorem utf8Size_of_isBlank (blank : Cursor.isBlank ch = true) : ch.utf8Size = 1 := by
  simp only [Cursor.isBlank, Bool.or_eq_true, beq_iff_eq] at blank
  rcases blank with ((((rfl | rfl) | rfl) | rfl) | rfl) | rfl <;> rfl

/-- What remains of a comment is the run of characters in front of its line feed. -/
theorem significantFrom_inComment (offset : Nat) (cs : List Char) :
    Cursor.significantFrom true offset cs =
      ((⟨offset, cs⟩ : Cursor).skip (cs.takeWhile (· != '\n')).length).skipTrivia := by
  induction cs generalizing offset with
  | nil => rfl
  | cons ch cs ih =>
    by_cases feed : ch = '\n'
    · subst feed
      rfl
    · have inside : (ch != '\n') = true := bne_iff_ne.mpr feed
      rw [List.takeWhile_cons_of_pos (p := (· != '\n')) inside, Cursor.significantFrom, if_pos rfl,
        inside, ih]
      simp only [Cursor.skip, List.length_cons, List.take_succ_cons, List.drop_succ_cons,
        Utf8.byteLength_cons, Nat.add_assoc]

/-- Trivia ends where it does for the cursor. -/
theorem triviaEnd_offset (reads : (Cursor.ofString source).ReadsTo c) :
    triviaEnd source c.offset = c.skipTrivia.offset := by
  generalize place : c.offset = i
  fun_induction triviaEnd source i generalizing c with
  | case1 i none =>
    subst place
    rw [Cursor.skipTrivia, rest_of_byteAt?_none reads none]
    rfl
  | case2 i b here inside blank ih =>
    subst place
    obtain ⟨ch, rest, first, stands⟩ := exists_first reads here
    rw [tests_isBlank.of_stands stands] at blank
    have single := utf8Size_of_isBlank blank
    rw [ih (reads.skip 1) (by simp [Cursor.skip, first, single])]
    simp [Cursor.skipTrivia, Cursor.skip, first, Cursor.significantFrom, blank]
  | case3 i b here inside notBlank comment further ih =>
    subst place
    obtain ⟨ch, rest, first, stands⟩ := exists_first reads here
    rw [isByte_of_stands stands (by decide), beq_iff_eq] at comment
    have tests : Tests (fun b => !isByte '\n' b) (· != '\n') :=
      (tests_isByte (by decide)).comp (!·)
    rw [ih (reads.skip _) (runEnd_offset tests reads).symm]
    -- The run of bytes takes the `#` as well.
    subst comment
    have skipped : c.skipTrivia = Cursor.significantFrom true (c.offset + 1) rest := by
      rw [Cursor.skipTrivia, first]
      rfl
    rw [skipped, significantFrom_inComment, first, List.takeWhile_cons_of_pos rfl]
    simp only [Cursor.skip, first, List.length_cons, List.take_succ_cons, List.drop_succ_cons,
      Utf8.byteLength_cons, Nat.add_assoc]
    rfl
  | case4 i b here inside notBlank notComment =>
    subst place
    obtain ⟨ch, rest, first, stands⟩ := exists_first reads here
    rw [tests_isBlank.of_stands stands] at notBlank
    rw [isByte_of_stands stands (by decide)] at notComment
    rw [Cursor.skipTrivia, first, Cursor.significantFrom_of_significant]
    intro ch' same
    cases same
    exact ⟨by simpa using notBlank, by simpa using notComment⟩

end ByteReader

end SigilAsm
