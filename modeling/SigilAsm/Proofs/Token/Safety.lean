import SigilAsm.Proofs.Token.Simulation

/-! # No query is a trap

The reader of bytes answers queries in any order, after faults as well, and is
never trapped: the text is cut at boundaries alone, and a source whose length
fits a word has no offset that does not.  What it answers lies inside the source
(`ByteReader.askAll_safe`).

All of this is read off the cursor that the reader follows.
-/

namespace SigilAsm

namespace ByteReader

open Cursor (Query)

variable {source : String} {c : Cursor}

/-- The span of a token, a byte or a fault. -/
def Answer.spans : Answer → List Span
  | .token (.ok t) => [t.span]
  | .byte (.ok (_, span)) => [span]
  | .token (.error e) | .byte (.error e) => [e.span]
  | .offset _ | .firstByte _ => []

/-- What can be relied on when a query moved the index from `before` to `after`. -/
structure Safe (source : String) (before : Nat) (answer : Answer) (after : Nat) : Prop where
  forward : before ≤ after
  boundary : after ≤ source.utf8ByteSize ∧ (⟨after⟩ : String.Pos.Raw).IsValid source
  spans : ∀ span ∈ answer.spans,
    span.start.toNat ≤ span.stop.toNat ∧ span.stop.toNat ≤ source.utf8ByteSize
  offset : ∀ n, answer = .offset n → n.toNat = after
  payload : ∀ t, answer = .token (.ok t) →
    (t.span.start.toNat ≤ t.textStart.toNat ∧ t.textStart.toNat ≤ t.textStop.toNat ∧
      t.textStop.toNat ≤ t.span.stop.toNat) ∧
    ((⟨t.textStart.toNat⟩ : String.Pos.Raw).IsValid source ∧
      (⟨t.textStop.toNat⟩ : String.Pos.Raw).IsValid source) ∧
    ∃ shown, ∀ i, (text source t).run i = .ok (shown, i)

theorem exists_extent_of_mem_spans {answer : Cursor.Answer} {span : Span}
    (h : span ∈ (Answer.ofAnswer answer).spans) : ∃ e ∈ answer.extents, span = .ofExtent e := by
  rcases answer with (e | t) | (e | b) | n | b
  · exact ⟨_, List.mem_singleton.mpr rfl, List.mem_singleton.mp h⟩
  · exact ⟨_, List.mem_cons_self, List.mem_singleton.mp h⟩
  · exact ⟨_, List.mem_singleton.mpr rfl, List.mem_singleton.mp h⟩
  · exact ⟨_, List.mem_singleton.mpr rfl, List.mem_singleton.mp h⟩
  · cases h
  · cases h

theorem exists_token_of_ofAnswer {answer : Cursor.Answer} {t : PlacedToken}
    (h : Answer.ofAnswer answer = .token (.ok t)) :
    ∃ t', answer = .token (.ok t') ∧ t = .ofToken t' := by
  rcases answer with (e | t') | (e | b) | n | b <;> cases h
  exact ⟨t', rfl, rfl⟩

theorem safe_ask (short : source.utf8ByteSize ≤ maxSourceBytes)
    (reads : (Cursor.ofString source).ReadsTo c) (query : Query) :
    Safe source c.offset (.ofAnswer (c.ask query).1) (c.ask query).2.offset := by
  have step := c.readsTo_ask query
  have goesOn := reads.trans step
  have kept {n : Nat} (h : n ≤ source.utf8ByteSize) : n.toUInt32.toNat = n :=
    toNat_toUInt32 (fits_of_le short h)
  constructor
  case forward => exact step.offset_le
  case boundary =>
    exact ⟨goesOn.hasPlace.le_utf8ByteSize, Cursor.hasPlace_ofString_iff.mp goesOn.hasPlace⟩
  case spans =>
    intro span member
    obtain ⟨e, told, rfl⟩ := exists_extent_of_mem_spans member
    have stop := Cursor.extents_ask_le reads query told
    have start := Nat.le_trans e.start_le_stop stop
    change e.start.toUInt32.toNat ≤ e.stop.toUInt32.toNat ∧ e.stop.toUInt32.toNat ≤ _
    rw [kept start, kept stop]
    exact ⟨e.start_le_stop, stop⟩
  case offset =>
    intro n told
    cases query <;> cases told
    exact kept goesOn.hasPlace.le_utf8ByteSize
  case payload =>
    intro t told
    obtain ⟨t, answered, rfl⟩ := exists_token_of_ofAnswer told
    obtain ⟨next, scanned⟩ := Cursor.scan_of_ask answered
    obtain ⟨start, stop, covers⟩ := Cursor.covers_payload_of_scan scanned
    have inside {e : Extent} (told : e ∈ [t.extent, t.payload]) : e.stop ≤ source.utf8ByteSize := by
      refine Cursor.extents_ask_le reads query ?_
      rwa [answered]
    have whole := inside List.mem_cons_self
    have shown := inside (List.mem_cons_of_mem _ List.mem_cons_self)
    have spanStart := kept (Nat.le_trans t.extent.start_le_stop whole)
    have spanStop := kept whole
    have textStart := kept (Nat.le_trans t.payload.start_le_stop shown)
    have textStop := kept shown
    simp only [PlacedToken.ofToken, Span.ofExtent, spanStart, spanStop, textStart, textStop]
    refine ⟨⟨start, t.payload.start_le_stop, stop⟩,
      ⟨Cursor.hasPlace_ofString_iff.mp (covers.1.of_readsTo reads),
        Cursor.hasPlace_ofString_iff.mp (covers.2.of_readsTo reads)⟩, t.text, fun i => ?_⟩
    simp only [text, textStart, textStop, Cursor.slice?_payload_of_scan reads scanned,
      String.ofList_toList]
    rfl

/-- Whatever was asked before, and whatever was answered, the reader is not trapped, and the next
query is answered and safe. -/
theorem askAll_safe (short : source.utf8ByteSize ≤ maxSourceBytes) (queries : List Query)
    (query : Query) :
    ∃ answers before answer after, (askAll source queries).run 0 = .ok (answers, before) ∧
      (ask source query).run before = .ok (answer, after) ∧
      Safe source before answer after := by
  have start : (Cursor.ofString source).ReadsTo (Cursor.ofString source) := .refl _
  have reads := Cursor.readsTo_askAll (Cursor.ofString source) queries
  exact ⟨_, _, _, _, run_askAll short start queries, run_ask short reads query,
    safe_ask short reads query⟩

/-- A control character ends a quoted name in a fault, and reading goes on inside the quotes, in
front of a character of two bytes that begins no token. -/
theorem askAll_safe_inside_quotes :
    "@'é\x85".utf8ByteSize ≤ maxSourceBytes ∧
      ∃ answers answer, (askAll "@'é\x85" [.token, .byte]).run 0 = .ok (answers, 2) ∧
        (ask "@'é\x85" .token).run 2 = .ok (answer, 2) ∧ Safe "@'é\x85" 2 answer 2 := by
  have short : "@'é\x85".utf8ByteSize ≤ maxSourceBytes := by decide +kernel
  refine ⟨short, ?_⟩
  obtain ⟨answers, before, answer, after, run, next, safe⟩ :=
    askAll_safe short [.token, .byte] .token
  have stops : ((askAll "@'é\x85" [.token, .byte]).run 0).map Prod.snd = .ok 2 := by
    decide +kernel
  have stays : ((ask "@'é\x85" .token).run 2).map Prod.snd = .ok 2 := by decide +kernel
  rw [run] at stops
  cases stops
  rw [next] at stays
  cases stays
  exact ⟨answers, answer, run, next, safe⟩

end ByteReader

end SigilAsm
