import SigilAsm.Proofs.Grammar.Tokens
import SigilAsm.Token.Query

/-! # Cursors stand on boundaries

Reading from the start of a text leads to places between its characters, and to
no others: the places of a text are the boundaries of its UTF-8 form
(`Cursor.hasPlace_ofString_iff`).

Whatever is asked of a cursor, and whether or not the answers were errors, it
goes on from such a place (`Cursor.readsTo_askAll`), and what it answers lies
inside the text (`Cursor.extents_ask_le`).
-/

namespace SigilAsm

namespace Cursor

variable {source : String} {c next : Cursor}

/-! ## Boundaries -/

/-- A cursor that was read to is told by the text in front of it. -/
theorem readsTo_ofString_iff : (ofString source).ReadsTo c ↔
    ∃ front, source.toList = front ++ c.rest ∧ c.offset = Utf8.byteLength front := by
  constructor
  · rintro ⟨front, covers⟩
    exact ⟨front, covers.rest, by simpa [ofString] using covers.offset⟩
  · rintro ⟨front, rest, offset⟩
    exact ⟨front, rest, by simpa [ofString] using offset⟩

/-- The places of a text are the boundaries between its characters. -/
theorem hasPlace_ofString_iff {n : Nat} :
    (ofString source).HasPlace n ↔ (⟨n⟩ : String.Pos.Raw).IsValid source := by
  rw [Utf8.isValid_iff_exists_front]
  constructor
  · rintro ⟨place, reads, rfl⟩
    obtain ⟨front, rest, offset⟩ := readsTo_ofString_iff.mp reads
    exact ⟨front, place.rest, rest, offset.symm⟩
  · rintro ⟨front, back, split, rfl⟩
    exact ⟨⟨_, back⟩, readsTo_ofString_iff.mpr ⟨front, split, rfl⟩, rfl⟩

/-- What is left to be read is the text from the offset on. -/
theorem ReadsTo.dropBytes? (h : (ofString source).ReadsTo c) :
    Utf8.dropBytes? c.offset source.toList = some c.rest := by
  obtain ⟨front, rest, offset⟩ := readsTo_ofString_iff.mp h
  rw [rest, offset, Utf8.dropBytes?_byteLength_append]

/-- At a place begins the first of the bytes of the character that comes next. -/
theorem getElem?_encode_offset (reads : (ofString source).ReadsTo c) :
    (Utf8.encode source.toList)[c.offset]? =
      c.rest.head?.bind fun ch => (String.utf8EncodeChar ch).head? := by
  obtain ⟨front, rest, offset⟩ := readsTo_ofString_iff.mp reads
  rw [rest, Utf8.encode_append, offset, ← Utf8.length_encode,
    List.getElem?_append_right (Nat.le_refl _), Nat.sub_self]
  cases c.rest with
  | nil => rfl
  | cons ch rest =>
    have some : 0 < (String.utf8EncodeChar ch).length :=
      List.length_pos_iff.mpr String.utf8EncodeChar_ne_nil
    rw [Utf8.encode, List.flatMap_cons, List.getElem?_append_left some, ← List.head?_eq_getElem?]
    rfl

theorem ReadsTo.offset_of_rest_nil (h : (ofString source).ReadsTo c) (done : c.rest = []) :
    c.offset = source.utf8ByteSize := by
  obtain ⟨front, rest, offset⟩ := readsTo_ofString_iff.mp h
  rw [offset, ← Utf8.byteLength_toList, rest, done, List.append_nil]

theorem HasPlace.le_utf8ByteSize {n : Nat} (h : (ofString source).HasPlace n) :
    n ≤ source.utf8ByteSize := by
  obtain ⟨place, reads, rfl⟩ := h
  obtain ⟨front, rest, offset⟩ := readsTo_ofString_iff.mp reads
  rw [offset, ← Utf8.byteLength_toList, rest, Utf8.byteLength_append]
  exact Nat.le_add_right _ _

/-- Errors stand inside the text, whether or not they cover whole characters. -/
theorem stop_le_of_within {e : SyntaxError} (h : e.Within (ofString source)) :
    e.extent.stop ≤ source.utf8ByteSize := by
  rcases h.covers with ⟨-, -, stop⟩ | ⟨-, place, ch, rest, reads, first, extent⟩
  · exact stop.le_utf8ByteSize
  · have after := (reads.hasPlace_add first).le_utf8ByteSize
    have taken := Char.utf8Size_pos ch
    rw [extent, Extent.between_of_le (Nat.le_succ _)]
    exact Nat.le_trans (Nat.add_le_add_left taken _) after

/-! ## Queries -/

theorem readsTo_ask (c : Cursor) (query : Query) : c.ReadsTo (c.ask query).2 := by
  cases query with
  | token => exact (within_scan (.refl c)).readsTo
  | byte => exact (within_scanByte (.refl c)).readsTo
  | peek => exact .refl c
  | offset | firstByte => exact c.readsTo_skipTrivia

theorem readsTo_askAll (c : Cursor) (queries : List Query) : c.ReadsTo (c.askAll queries).2 := by
  induction queries generalizing c with
  | nil => exact .refl c
  | cons query queries ih => exact (c.readsTo_ask query).trans (ih _)

/-- Everything that the answer points at. -/
def Answer.extents : Answer → List Extent
  | .token (.ok t) => [t.extent, t.payload]
  | .byte (.ok (_, e)) => [e]
  | .token (.error e) | .byte (.error e) => [e.extent]
  | .offset n => [.point n]
  | .firstByte _ => []

/-- The payload of a token runs from one place to another inside the extent of the token. -/
theorem covers_payload_of_scan {t : Token} (h : c.scan = (.ok t, next)) :
    t.extent.start ≤ t.payload.start ∧ t.payload.stop ≤ t.extent.stop ∧ c.Covers t.payload := by
  obtain ⟨p, rfl, covers, stands⟩ := exists_piece_of_scan h
  have start := stands.start
  have stop := stands.stop
  have payload_start := stands.payload_start
  have payload_stop := stands.payload_stop
  simp only [Piece.text, Piece.slice, Utf8.byteLength_append] at stop
  have before : c.rest = (p.gap ++ p.opening) ++ (p.inside ++ (p.closing ++ next.rest)) := by
    simp [covers.rest, Piece.text, Piece.slice]
  have behind : c.rest = (p.gap ++ p.opening ++ p.inside) ++ (p.closing ++ next.rest) := by
    simp [covers.rest, Piece.text, Piece.slice]
  have opened := over_skip before
  have shown := over_skip behind
  refine ⟨by omega, by omega, ⟨_, ⟨_, opened⟩, ?_⟩, ⟨_, ⟨_, shown⟩, ?_⟩⟩
  · rw [opened.offset, Utf8.byteLength_append]
    omega
  · rw [shown.offset, Utf8.byteLength_append, Utf8.byteLength_append]
    omega

/-- What stands at the payload of a token is the text of the token. -/
theorem slice?_payload_of_scan {t : Token} (reads : (ofString source).ReadsTo c)
    (h : c.scan = (.ok t, next)) :
    Utf8.slice? t.payload.start t.payload.stop source.toList = some t.text.toList := by
  obtain ⟨p, rfl, covers, stands⟩ := exists_piece_of_scan h
  obtain ⟨front, rest, offset⟩ := readsTo_ofString_iff.mp reads
  rw [offset] at stands
  rw [rest, covers.rest, stands.slice?_payload, stands.shown]

/-! ## Extents of answers -/

theorem extents_scan_le (reads : (ofString source).ReadsTo c) {e : Extent}
    (member : e ∈ (Answer.token c.scan.1).extents) : e.stop ≤ source.utf8ByteSize := by
  have within := within_scan reads
  cases result : c.scan.1 with
  | error e' =>
    rw [result] at member
    cases List.mem_singleton.mp member
    exact stop_le_of_within (within.of_error result)
  | ok t =>
    rw [result] at member
    have stop := (within.of_ok result).2.le_utf8ByteSize
    rcases List.mem_cons.mp member with rfl | payload
    · exact stop
    · cases List.mem_singleton.mp payload
      have scanned : c.scan = (.ok t, c.scan.2) := Prod.ext result rfl
      exact Nat.le_trans (covers_payload_of_scan scanned).2.1 stop

theorem extents_scanByte_le (reads : (ofString source).ReadsTo c) {e : Extent}
    (member : e ∈ (Answer.byte c.scanByte.1).extents) : e.stop ≤ source.utf8ByteSize := by
  have within := within_scanByte reads
  cases result : c.scanByte.1 with
  | error e' =>
    rw [result] at member
    cases List.mem_singleton.mp member
    exact stop_le_of_within (within.of_error result)
  | ok b =>
    rw [result] at member
    cases List.mem_singleton.mp member
    exact (within.of_ok result).2.le_utf8ByteSize

theorem extents_ask_le (reads : (ofString source).ReadsTo c) (query : Query) {e : Extent}
    (member : e ∈ (c.ask query).1.extents) : e.stop ≤ source.utf8ByteSize := by
  cases query with
  | token | peek => exact extents_scan_le reads member
  | byte => exact extents_scanByte_le reads member
  | offset =>
    cases List.mem_singleton.mp member
    exact reads.skipTrivia.hasPlace.le_utf8ByteSize
  | firstByte => cases member

theorem scan_of_ask {query : Query} {t : Token} (h : (c.ask query).1 = .token (.ok t)) :
    ∃ next, c.scan = (.ok t, next) := by
  cases query with
  | token | peek => exact ⟨c.scan.2, Prod.ext (Answer.token.inj h) rfl⟩
  | byte | offset | firstByte => cases h

end Cursor

end SigilAsm
