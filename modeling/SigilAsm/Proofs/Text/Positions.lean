import Mathlib.Data.List.DropRight
import SigilAsm.Proofs.Text.Lines

/-! # Positions of all offsets

`LineMap.position_of_line` tells the positions of places between characters.
Here an offset may be any number: past the end it stands for the end, and
inside a character for the characters that end before it (`Utf8.Reaches`).

What is said about an offset is said in terms of the bytes and the characters of
the source: how many line feeds stand before it, and how many characters are
between the last of these and it.  Boundaries are those of strings, and their
positions are in the order of the text (`LineMap.position_spec`).
-/

namespace SigilAsm

namespace Utf8

/-! ## Line feeds among bytes -/

/-- The bytes of a wide character are none that stands for a character by itself. -/
theorem high_of_mem_utf8EncodeChar {c : Char} {b : UInt8} (wide : 1 < c.utf8Size)
    (member : b ∈ String.utf8EncodeChar c) : 0x80 ≤ b.toNat := by
  have narrow : ¬ c.val.toNat ≤ 0x7f := fun narrow =>
    Nat.ne_of_gt wide (Char.utf8Size_eq_one_iff.mpr (UInt32.le_iff_toNat_le.mpr narrow))
  have byte (n : Nat) (lower : 0x80 ≤ n) (upper : n < 0x100) : 0x80 ≤ (UInt8.ofNat n).toNat := by
    rwa [UInt8.toNat_ofNat', Nat.mod_eq_of_lt upper]
  simp only [String.utf8EncodeChar, if_neg narrow] at member
  repeat' split at member
  all_goals
    simp only [List.mem_cons, List.not_mem_nil, or_false] at member
    -- The bytes are a tag with the highest bit set and, below it, a part of the character.
    rcases member with rfl | rfl | rfl | rfl
    all_goals exact byte _ (by omega) (by omega)

theorem feed_mem_utf8EncodeChar {c : Char} : 0x0a ∈ String.utf8EncodeChar c ↔ c = '\n' := by
  refine ⟨fun member => ?_, by rintro rfl; decide⟩
  rcases Nat.lt_or_eq_of_le (Char.utf8Size_pos c) with wide | narrow
  · exact absurd (high_of_mem_utf8EncodeChar wide member) (by decide)
  · rw [String.utf8EncodeChar_eq_singleton narrow.symm, List.mem_singleton] at member
    have small : c.val.toNat ≤ 0x7f :=
      UInt32.le_iff_toNat_le.mp (Char.utf8Size_eq_one_iff.mp narrow.symm)
    have value : c.val.toNat = 0x0a := by
      have same := congrArg UInt8.toNat member
      rw [UInt32.toNat_toUInt8, Nat.mod_eq_of_lt (by omega)] at same
      exact same.symm
    exact Char.ext (UInt32.toNat_inj.mp value)

theorem count_feed_encode (cs : List Char) : (encode cs).count 0x0a = cs.count '\n' := by
  induction cs with
  | nil => rfl
  | cons c cs ih =>
    have split : encode (c :: cs) = String.utf8EncodeChar c ++ encode cs := rfl
    rw [split, List.count_append, ih]
    by_cases feed : c = '\n'
    · subst feed
      rw [List.count_cons_self, show (String.utf8EncodeChar '\n').count 0x0a = 1 from by decide,
        Nat.add_comm]
    · rw [List.count_cons_of_ne feed,
        List.count_eq_zero_of_not_mem (mt feed_mem_utf8EncodeChar.mp feed), Nat.zero_add]

/-! ## What an offset reaches -/

/-- The characters that end at or before the offset are the ones in front. -/
structure Reaches (front back : List Char) (offset : Nat) : Prop where
  lower : byteLength front ≤ offset
  upper : ∀ c rest, back = c :: rest → offset < byteLength front + c.utf8Size

/-- An offset that is not past the end reaches some of the characters. -/
theorem exists_reaches {text : List Char} {offset : Nat} (inside : offset ≤ byteLength text) :
    ∃ front back, text = front ++ back ∧ Reaches front back offset := by
  induction text generalizing offset with
  | nil => exact ⟨[], [], rfl, Nat.zero_le _, nofun⟩
  | cons c text ih =>
    rcases Nat.lt_or_ge offset c.utf8Size with before | behind
    · refine ⟨[], c :: text, rfl, Nat.zero_le _, ?_⟩
      rintro _ _ ⟨⟩
      rwa [byteLength_nil, Nat.zero_add]
    · rw [byteLength_cons] at inside
      have rest : offset - c.utf8Size ≤ byteLength text := by omega
      obtain ⟨front, back, rfl, reaches⟩ := ih rest
      refine ⟨c :: front, back, rfl, ?_, fun ch rest here => ?_⟩
      · have lower := reaches.lower
        rw [byteLength_cons]
        omega
      · have upper := reaches.upper ch rest here
        rw [byteLength_cons]
        omega

variable {front back text : List Char} {offset : Nat}

/-- A line feed is a single byte, so none is reached in part. -/
theorem Reaches.count_feed (h : Reaches front back offset) :
    ((encode (front ++ back)).take offset).count 0x0a = front.count '\n' := by
  have none : ((encode back).take (offset - byteLength front)).count 0x0a = 0 := by
    cases back with
    | nil => simp [encode]
    | cons c rest =>
      have inside := h.upper c rest rfl
      have whole : offset - byteLength front ≤ (String.utf8EncodeChar c).length := by
        rw [String.length_utf8EncodeChar]
        omega
      have part : (encode (c :: rest)).take (offset - byteLength front) =
          (String.utf8EncodeChar c).take (offset - byteLength front) :=
        List.take_append_of_le_length whole
      rw [part, List.count_eq_zero]
      intro member
      obtain rfl := feed_mem_utf8EncodeChar.mp (List.mem_of_mem_take member)
      have nothing : offset - byteLength front = 0 := by
        have lower := h.lower
        change offset < byteLength front + 1 at inside
        omega
      rw [nothing] at member
      cases member
  rw [encode_append, List.take_append, length_encode, List.count_append, none, Nat.add_zero,
    List.take_of_length_le (by rw [length_encode]; exact h.lower), count_feed_encode]

/-! ## Slices -/

theorem exists_of_dropBytes? {n : Nat} {cs rest : List Char} (h : dropBytes? n cs = some rest) :
    ∃ front, cs = front ++ rest ∧ byteLength front = n := by
  fun_induction dropBytes? n cs with
  | case1 cs => exact ⟨[], Option.some.inj h, rfl⟩
  | case2 => cases h
  | case3 n c cs fits ih =>
    obtain ⟨front, rfl, length⟩ := ih h
    refine ⟨c :: front, rfl, ?_⟩
    rw [byteLength_cons]
    omega
  | case4 => cases h

theorem exists_of_takeBytes? {n : Nat} {cs front : List Char} (h : takeBytes? n cs = some front) :
    ∃ rest, cs = front ++ rest ∧ byteLength front = n := by
  fun_induction takeBytes? n cs generalizing front with
  | case1 cs =>
    cases h
    exact ⟨cs, rfl, rfl⟩
  | case2 => cases h
  | case3 n c cs fits ih =>
    obtain ⟨front', taken, rfl⟩ := Option.map_eq_some_iff.mp h
    obtain ⟨rest, rfl, length⟩ := ih taken
    refine ⟨rest, rfl, ?_⟩
    rw [byteLength_cons]
    omega
  | case4 => cases h

/-- A text is cut at its boundaries only. -/
theorem isValid_of_slice? {source : String} {start stop : Nat} {inside : List Char}
    (h : slice? start stop source.toList = some inside) :
    (⟨stop⟩ : String.Pos.Raw).IsValid source := by
  rw [slice?] at h
  split at h
  · obtain ⟨rest, dropped, taken⟩ := Option.bind_eq_some_iff.mp h
    obtain ⟨front, whole, lengthFront⟩ := exists_of_dropBytes? dropped
    obtain ⟨after, rfl, lengthInside⟩ := exists_of_takeBytes? taken
    rw [isValid_iff_exists_front]
    refine ⟨front ++ inside, after, whole.trans (List.append_assoc ..).symm, ?_⟩
    rw [byteLength_append]
    omega
  · cases h

end Utf8

/-- A position tells the line feeds before an offset and the characters since the last of them.
Inside a character it has column 1. -/
structure Position.Tells (p : Position) (source : String) (offset : Nat) : Prop where
  line : p.line = (source.toByteArray.data.toList.take offset).count 0x0a + 1
  column : ∀ front back : String, source = front ++ back → front.utf8ByteSize = offset →
    p.column = (front.toList.rtakeWhile (· ≠ '\n')).length + 1
  inside : ¬ (⟨offset⟩ : String.Pos.Raw).IsValid source → p.column = 1

/-- The order of reading: by lines, and within a line by columns. -/
def Position.Before (p q : Position) : Prop :=
  p.line < q.line ∨ p.line = q.line ∧ p.column < q.column

namespace LineMap

open Utf8 (Reaches)

variable {front back text : List Char} {offset : Nat}

/-! ## Rows -/

/-- The next line starts behind the character after the ones that are reached, or later. -/
theorem lt_of_mem_lineStartsFrom (h : Reaches front back offset) {start : Nat}
    (member : start ∈ lineStartsFrom (Utf8.byteLength front) back) : offset < start := by
  cases back with
  | nil => cases member
  | cons c rest =>
    have inside := h.upper c rest rfl
    have later (member : start ∈ lineStartsFrom (Utf8.byteLength front + c.utf8Size) rest) :
        offset < start :=
      Nat.lt_trans inside (mem_lineStartsFrom member).1
    rw [lineStartsFrom] at member
    split at member
    · rcases List.mem_cons.mp member with rfl | member
      · exact inside
      · exact later member
    · exact later member

/-- The row of an offset is told by the line feeds it reaches, and the table has that row. -/
theorem row?_of_reaches (split : text = front ++ back) (h : Reaches front back offset) :
    (ofText text).row? offset = some (front.count '\n') ∧
      front.count '\n' < (ofText text).starts.length := by
  have cut := cut_starts split h.lower fun _ => lt_of_mem_lineStartsFrom h
  exact ⟨row?_of_cut cut, cut.inside⟩

theorem line_eq {source : String} {row : Nat}
    (h : (ofString source).row? (min offset source.utf8ByteSize) = some row) :
    ((ofString source).position offset).line = row + 1 := by
  simp only [position, text_ofString, Utf8.byteLength_toList, h, Option.getD_some]

/-! ## Columns -/

theorem position_min (source : String) :
    (ofString source).position (min offset source.utf8ByteSize) =
      (ofString source).position offset := by
  simp only [position, text_ofString, Utf8.byteLength_toList, Nat.min_assoc, Nat.min_self]

theorem rtakeWhile_append_of_not_mem {lead : List Char} (single : '\n' ∉ lead) :
    (front ++ lead).rtakeWhile (· ≠ '\n') = front.rtakeWhile (· ≠ '\n') ++ lead := by
  have noFeed : ∀ ch ∈ lead.reverse, decide (ch ≠ '\n') = true := by
    intro ch member
    exact decide_eq_true fun feed => single (feed ▸ List.mem_reverse.mp member)
  rw [List.rtakeWhile, List.reverse_append, List.takeWhile_append_of_pos noFeed,
    List.reverse_append, List.reverse_reverse]
  rfl

/-- A boundary has the position that the characters in front of it tell. -/
theorem position_byteLength (split : text = front ++ back) :
    (ofText text).position (Utf8.byteLength front) =
      ⟨front.count '\n' + 1, (front.rtakeWhile (· ≠ '\n')).length + 1⟩ := by
  obtain ⟨l, lead, line, holds, rfl⟩ := TextLine.exists_line front back
  have begins : l.before.rtakeWhile (· ≠ '\n') = [] := by
    rcases line.begins with first | ⟨earlier, behind⟩
    · rw [first, List.rtakeWhile_nil]
    · rw [behind, List.rtakeWhile_concat_neg _ _ _ (by decide)]
  rw [split, position_of_line line holds, holds.count_feed,
    rtakeWhile_append_of_not_mem holds.single, begins, List.nil_append, TextLine.number]

/-- An offset inside a character has column 1. -/
theorem column_of_not_isValid {source : String}
    (inside : ¬ (⟨min offset source.utf8ByteSize⟩ : String.Pos.Raw).IsValid source) :
    ((ofString source).position offset).column = 1 := by
  simp only [position, text_ofString, Utf8.byteLength_toList]
  split
  · next cut => exact absurd (Utf8.isValid_of_slice? cut) inside
  · rfl

/-! ## Order -/

/-- Further on in the text is later in the order of reading. -/
theorem position_before_position {more : List Char} (split : text = front ++ (more ++ back))
    (some : more ≠ []) :
    ((ofText text).position (Utf8.byteLength front)).Before
      ((ofText text).position (Utf8.byteLength (front ++ more))) := by
  rw [position_byteLength split, position_byteLength (split.trans (List.append_assoc ..).symm)]
  simp only [Position.Before, List.count_append]
  by_cases feed : '\n' ∈ more
  · have feeds := List.count_pos_iff.mpr feed
    omega
  · have length := List.length_pos_iff.mpr some
    rw [List.count_eq_zero_of_not_mem feed, rtakeWhile_append_of_not_mem feed, List.length_append]
    omega

/-- A position tells where the offset is, or the end for an offset that is past it.  Its line has a
row in the table, which the search finds, and boundaries have positions in the order of the
text. -/
theorem position_spec (source : String) :
    (∀ offset : Nat,
      ((ofString source).position offset).Tells source (min offset source.utf8ByteSize) ∧
      ∃ row < (ofString source).starts.length,
        (ofString source).row? (min offset source.utf8ByteSize) = some row ∧
        ((ofString source).position offset).line = row + 1) ∧
    ∀ first second : Nat, (⟨first⟩ : String.Pos.Raw).IsValid source →
      (⟨second⟩ : String.Pos.Raw).IsValid source → first < second →
      ((ofString source).position first).Before ((ofString source).position second) := by
  refine ⟨fun offset => ?_, fun first second isFirst isSecond less => ?_⟩
  · have inside : min offset source.utf8ByteSize ≤ Utf8.byteLength source.toList := by
      rw [Utf8.byteLength_toList]
      exact Nat.min_le_right ..
    obtain ⟨front, back, split, reaches⟩ := Utf8.exists_reaches inside
    obtain ⟨found, inTable⟩ := row?_of_reaches split reaches
    refine ⟨⟨?_, fun front back split length => ?_, column_of_not_isValid⟩,
      _, inTable, found, line_eq found⟩
    · rw [line_eq found, ← Utf8.toByteArray_encode, List.toList_data_toByteArray, split,
        reaches.count_feed]
    · have whole : source.toList = front.toList ++ back.toList := by
        rw [split, String.toList_append]
      have place : (ofString source).position offset =
          (ofString source).position (Utf8.byteLength front.toList) := by
        rw [Utf8.byteLength_toList, length, position_min]
      rw [place, ofString, position_byteLength whole]
  · obtain ⟨front, back, split, rfl⟩ := Utf8.isValid_iff_exists_front.mp isFirst
    obtain ⟨front', back', split', rfl⟩ := Utf8.isValid_iff_exists_front.mp isSecond
    rcases List.append_eq_append_iff.mp (split.symm.trans split') with
      ⟨more, rfl, rfl⟩ | ⟨more, rfl, -⟩
    · refine position_before_position split fun none => ?_
      rw [none, List.append_nil] at less
      exact Nat.lt_irrefl _ less
    · rw [Utf8.byteLength_append] at less
      omega

/-- Offset 1 is inside the first character, and offset 2 behind it, in front of the line feed. -/
theorem position_spec_wide :
    ((ofString "é\nx").position 1).column = 1 ∧ ((ofString "é\nx").position 2).column = 2 ∧
      ((ofString "é\nx").position 9).line = 2 ∧
      ((ofString "é\nx").position 2).Before ((ofString "é\nx").position 3) := by
  obtain ⟨tells, ordered⟩ := position_spec "é\nx"
  exact ⟨(tells 1).1.inside (by decide), (tells 2).1.column "é" "\nx" (by decide) (by decide),
    (tells 9).1.line, ordered 2 3 (by decide) (by decide) (by decide)⟩

end LineMap

end SigilAsm
