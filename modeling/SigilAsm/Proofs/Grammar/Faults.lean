import SigilAsm.Proofs.Grammar.Scanning
import SigilAsm.Statement.Grammar

/-! # Where faults stand

Reading never looks back and stops between characters.  Whatever a rule is
refused for, and whatever token it reads, stands at or after the place it began
at and begins and ends at places where a cursor can stand.  One fault is told
more narrowly: of a character that is refused in a string, the first byte is
pointed at, however many the character takes (`SyntaxError.PointsAtByte`).

Nothing begins inside a line ending: tokens and faults begin at places that are
`Cursor.Settled`.

`Rule.Within root post` says so of a rule that begins at a place behind `root`:
there it goes on and there its faults stand, and `post` is what is known of the
value that it reads.  The root is fixed while rules are put together, since the
fault of a data expression may begin where an earlier token of the same
expression did.
-/

namespace SigilAsm

namespace Cursor

/-- Reading some of the text leads from `c` to `next`. -/
def ReadsTo (c next : Cursor) : Prop := ∃ text, c.Over text next

/-- Some place that reading leads to has the offset. -/
def HasPlace (c : Cursor) (offset : Nat) : Prop := ∃ place, c.ReadsTo place ∧ place.offset = offset

/-- The extent runs from one place to another, so that it covers whole characters. -/
def Covers (c : Cursor) (e : Extent) : Prop := c.HasPlace e.start ∧ c.HasPlace e.stop

/-- `root.Settled place`: the place is not between the characters of a line ending.  What comes next
ends no line, or what was read last is no carriage return, or the place is the first of all. -/
inductive Settled (root place : Cursor) : Prop
  | before : StopsAt LineMap.isLineEnd place.rest → Settled root place
  | behind {middle : Cursor} {ch : Char} :
      root.ReadsTo middle → middle.Over [ch] place → ch ≠ '\r' → Settled root place
  | first : place.offset = 0 → Settled root place

/-- A settled place has the offset. -/
def Begins (c : Cursor) (offset : Nat) : Prop :=
  ∃ place, c.ReadsTo place ∧ place.offset = offset ∧ c.Settled place

/-- The extent runs from one settled place to another. -/
def Frames (c : Cursor) (e : Extent) : Prop := c.Begins e.start ∧ c.Begins e.stop

end Cursor

/-- The error points at the first byte of a character that a string may not have. -/
def SyntaxError.PointsAtByte (e : SyntaxError) (root : Cursor) : Prop :=
  e.fault = .unprintableInString ∧ ∃ place ch rest, root.ReadsTo place ∧ place.rest = ch :: rest ∧
    e.extent = .between place.offset (place.offset + 1)

/-- What the error points at stands behind `root`. -/
structure SyntaxError.Within (e : SyntaxError) (root : Cursor) : Prop where
  begins : root.Begins e.extent.start
  covers : e.fault ≠ .unprintableInString ∧ root.Covers e.extent ∨ e.PointsAtByte root

namespace Cursor

open Token (isWordStart isWordPart isQuotable isStringPart hexDigit?)

variable {α : Type} {root c next : Cursor}

/-! ## Places -/

theorem Over.offset_le {text : List Char} (h : c.Over text next) : c.offset ≤ next.offset := by
  rw [h.offset]
  exact Nat.le_add_right _ _

theorem ReadsTo.refl (c : Cursor) : c.ReadsTo c := ⟨[], .refl c⟩

theorem ReadsTo.trans {a b c : Cursor} (h₁ : a.ReadsTo b) (h₂ : b.ReadsTo c) : a.ReadsTo c := by
  obtain ⟨first, over₁⟩ := h₁
  obtain ⟨second, over₂⟩ := h₂
  exact ⟨first ++ second, over₁.trans over₂⟩

theorem ReadsTo.offset_le (h : c.ReadsTo next) : c.offset ≤ next.offset := by
  obtain ⟨text, covers⟩ := h
  exact covers.offset_le

theorem readsTo_skip (c : Cursor) (count : Nat) : c.ReadsTo (c.skip count) := by
  refine ⟨c.rest.take count, ?_, rfl⟩
  exact (List.take_append_drop count c.rest).symm

theorem readsTo_skipTrivia (c : Cursor) : c.ReadsTo c.skipTrivia := by
  obtain ⟨gap, covers, -⟩ := trivia_skipTrivia c
  exact ⟨gap, covers⟩

theorem ReadsTo.skip (h : root.ReadsTo c) (count : Nat) : root.ReadsTo (c.skip count) :=
  h.trans (c.readsTo_skip count)

theorem ReadsTo.skipTrivia (h : root.ReadsTo c) : root.ReadsTo c.skipTrivia :=
  h.trans c.readsTo_skipTrivia

theorem ReadsTo.hasPlace (h : root.ReadsTo c) : root.HasPlace c.offset := ⟨c, h, rfl⟩

/-- After one more character there is a place again. -/
theorem ReadsTo.hasPlace_add (h : root.ReadsTo c) {ch : Char} {rest : List Char}
    (first : c.rest = ch :: rest) : root.HasPlace (c.offset + ch.utf8Size) :=
  ⟨c.skip 1, h.skip 1, by simp [Cursor.skip, first]⟩

theorem HasPlace.offset_le {n : Nat} (h : root.HasPlace n) : root.offset ≤ n := by
  obtain ⟨place, reads, rfl⟩ := h
  exact reads.offset_le

theorem HasPlace.of_readsTo {n : Nat} (h : c.HasPlace n) (reads : root.ReadsTo c) :
    root.HasPlace n := by
  obtain ⟨place, further, rfl⟩ := h
  exact (reads.trans further).hasPlace

theorem covers_between {a b : Nat} (ha : root.HasPlace a) (hb : root.HasPlace b) :
    root.Covers (.between a b) := by
  rcases Nat.le_total a b with h | h
  · rw [Extent.between_of_le h]
    exact ⟨ha, hb⟩
  · rw [Extent.between_comm, Extent.between_of_le h]
    exact ⟨hb, ha⟩

/-! ## Settled places -/

theorem Settled.of_readsTo {place : Cursor} (h : c.Settled place) (reads : root.ReadsTo c) :
    root.Settled place := by
  cases h with
  | before stops => exact .before stops
  | behind further covers other => exact .behind (reads.trans further) covers other
  | first start => exact .first start

/-- A place is settled that some text without line ends leads to. -/
theorem Settled.of_over {text : List Char} (h : root.ReadsTo c) (covers : c.Over text next)
    (some : text ≠ []) (plain : ∀ ch ∈ text, LineMap.isLineEnd ch = false) : root.Settled next := by
  obtain ⟨front, ch, rfl⟩ := List.eq_nil_or_concat text |>.resolve_left some
  rw [List.concat_eq_append] at covers plain
  have split : c.rest = front ++ ([ch] ++ next.rest) := by rw [covers.rest, List.append_assoc]
  refine .behind (h.skip front.length) (covers.behind (over_skip split)) ?_
  rintro rfl
  exact Bool.noConfusion (plain '\r' (by simp))

theorem Settled.begins {place : Cursor} (h : root.Settled place) (reads : root.ReadsTo place) :
    root.Begins place.offset :=
  ⟨place, reads, rfl, h⟩

theorem settled_skipTrivia (root c : Cursor) : root.Settled c.skipTrivia := by
  obtain ⟨-, -, -, significant⟩ := trivia_skipTrivia c
  refine .before fun ch first => ?_
  have blank := (significant ch first).1
  simp only [isBlank, Bool.or_eq_false_iff] at blank
  simp [LineMap.isLineEnd, blank]

theorem ReadsTo.begins_skipTrivia (h : root.ReadsTo c) : root.Begins c.skipTrivia.offset :=
  (settled_skipTrivia root c).begins h.skipTrivia

theorem Begins.hasPlace {n : Nat} (h : root.Begins n) : root.HasPlace n := by
  obtain ⟨place, reads, rfl, -⟩ := h
  exact reads.hasPlace

theorem Begins.of_readsTo {n : Nat} (h : c.Begins n) (reads : root.ReadsTo c) : root.Begins n := by
  obtain ⟨place, further, rfl, settled⟩ := h
  exact (settled.of_readsTo reads).begins (reads.trans further)

theorem Frames.covers {e : Extent} (h : root.Frames e) : root.Covers e :=
  ⟨h.1.hasPlace, h.2.hasPlace⟩

theorem frames_between {a b : Nat} (ha : root.Begins a) (hb : root.Begins b) :
    root.Frames (.between a b) := by
  rcases Nat.le_total a b with h | h
  · rw [Extent.between_of_le h]
    exact ⟨ha, hb⟩
  · rw [Extent.between_comm, Extent.between_of_le h]
    exact ⟨hb, ha⟩

end Cursor

namespace SyntaxError

variable {e : SyntaxError} {root c : Cursor}

theorem Within.of_readsTo (h : e.Within c) (reads : root.ReadsTo c) : e.Within root where
  begins := h.begins.of_readsTo reads
  covers := by
    rcases h.covers with ⟨other, start, stop⟩ | ⟨fault, place, ch, rest, further, first, extent⟩
    · exact .inl ⟨other, start.of_readsTo reads, stop.of_readsTo reads⟩
    · exact .inr ⟨fault, place, ch, rest, reads.trans further, first, extent⟩

theorem Within.hasPlace_start (h : e.Within root) : root.HasPlace e.extent.start :=
  h.begins.hasPlace

theorem within_of_frames (other : e.fault ≠ .unprintableInString) (h : root.Frames e.extent) :
    e.Within root :=
  ⟨h.1, .inl ⟨other, h.covers⟩⟩

end SyntaxError

namespace Cursor

open Token (isWordStart isWordPart isQuotable isStringPart hexDigit?)

variable {α : Type} {root c : Cursor} {extent : α → Extent}

/-! ## Scanning -/

/-- What is read covers whole characters behind `root`, a fault stands there as well, and in either
case reading goes on there. -/
def Within (root : Cursor) (extent : α → Extent) : Except SyntaxError α × Cursor → Prop
  | (.ok a, next) => root.Covers (extent a) ∧ root.ReadsTo next
  | (.error e, next) => e.Within root ∧ root.ReadsTo next

namespace Within

variable {outcome : Except SyntaxError α × Cursor}

theorem readsTo (h : Within root extent outcome) : root.ReadsTo outcome.2 := by
  obtain ⟨e | a, next⟩ := outcome
  · exact h.2
  · exact h.2

theorem of_ok (h : Within root extent outcome) {a : α} (read : outcome.1 = .ok a) :
    root.Covers (extent a) := by
  obtain ⟨result, next⟩ := outcome
  cases read
  exact h.1

theorem of_error (h : Within root extent outcome) {e : SyntaxError}
    (refused : outcome.1 = .error e) : e.Within root := by
  obtain ⟨result, next⟩ := outcome
  cases refused
  exact h.1

end Within

theorem within_refuse (h : root.ReadsTo c) (settled : root.Settled c) {fault : Fault}
    (other : fault ≠ .unprintableInString) {stop : Nat} {next : Cursor} (further : c.HasPlace stop)
    (goesOn : root.ReadsTo next) : Within root extent (c.refuse fault stop next) := by
  refine ⟨⟨?_, .inl ⟨other, covers_between h.hasPlace (further.of_readsTo h)⟩⟩, goesOn⟩
  rw [Extent.between_of_le further.offset_le]
  exact settled.begins h

theorem within_lexeme (h : root.ReadsTo c) (kind : Token.Kind) (length opening closing : Nat) :
    Within root Token.extent (c.lexeme kind length opening closing) :=
  ⟨covers_between h.hasPlace (h.skip length).hasPlace, h.skip length⟩

/-- A place is settled where something comes next that ends no line. -/
theorem settled_of_first {ch : Char} {rest : List Char} (first : c.rest = ch :: rest)
    (plain : LineMap.isLineEnd ch = false) : root.Settled c := by
  refine .before fun other head => ?_
  rw [first] at head
  cases head
  exact plain

/-- The text between the quotes is read up to a place that is settled, since the quote is in front
of it at least. -/
theorem within_scanQuoted (h : root.ReadsTo c) (kind : Token.Kind) (opening : List Char)
    {more : List Char} (first : c.rest = opening ++ '\'' :: more) :
    Within root Token.extent (c.scanQuoted kind (opening.length + 1)) := by
  obtain ⟨inside, rest, split, quotable, taken⟩ := exists_run isQuotable more
  have quote : c.Over opening (c.skip opening.length) := over_skip first
  have split' : c.rest = (opening ++ ['\'']) ++ more := by simp [first]
  have opened : c.Over (opening ++ ['\'']) (c.skip (opening.length + 1)) := by
    simpa using over_skip split'
  have body : (c.skip (opening.length + 1)).rest = more := by simp [skip, first]
  have run := over_skip (body.trans split)
  have quoted := (opened.behind quote).trans run
  have reads := h.skip opening.length
  have stop := reads.trans ⟨_, quoted⟩
  have settled : root.Settled ((c.skip (opening.length + 1)).skip inside.length) := by
    refine .of_over reads quoted (by simp) fun ch member => ?_
    rcases List.mem_cons.mp member with rfl | member
    · rfl
    · exact isLineEnd_of_class (quotable ch member) rfl
  simp only [scanQuoted, body, taken, Nat.add_sub_cancel]
  split
  · have first' : (c.skip opening.length).rest = '\'' :: more :=
      List.append_cancel_left (quote.rest.symm.trans first)
    exact within_refuse reads (settled_of_first first' rfl) (by simp) ⟨_, ⟨_, quoted⟩, rfl⟩ stop
  · next ch rest first =>
    split
    · exact within_lexeme h _ _ _ _
    · exact within_refuse stop settled (by simp) ((ReadsTo.refl _).hasPlace_add first)
        (h.skip _)

theorem within_scanString (h : root.ReadsTo c) (settled : root.Settled c) :
    Within root Token.extent c.scanString := by
  have stop := (c.readsTo_skip 1).skip ((c.skip 1).rest.takeWhile isStringPart).length
  simp only [scanString]
  split
  · exact within_refuse h settled (by simp) stop.hasPlace (h.trans stop)
  · next ch rest first =>
    split
    · exact within_lexeme h _ _ _ _
    · split
      · exact within_refuse h settled (by simp) stop.hasPlace (h.trans stop)
      · next notEnd =>
        -- The one fault that need not cover the character it concerns.
        have plain : LineMap.isLineEnd ch = false := by simpa [LineMap.isLineEnd] using notEnd
        refine ⟨⟨?_, .inr ⟨rfl, _, ch, rest, h.trans stop, first, rfl⟩⟩, h.trans stop⟩
        rw [Extent.between_of_le (Nat.le_succ _)]
        exact (settled_of_first first plain).begins (h.trans stop)

theorem within_scanName (h : root.ReadsTo c) (settled : root.Settled c) {sigil : Sigil}
    {more : List Char} (first : c.rest = sigil.char :: more) :
    Within root Token.extent (c.scanName sigil) := by
  have inside := c.readsTo_skip 1
  have bare : Within root Token.extent (c.refuse (.bareSigil sigil) (c.skip 1).offset (c.skip 1)) :=
    within_refuse h settled (by simp) inside.hasPlace (h.trans inside)
  simp only [scanName]
  split
  · exact bare
  · next ch rest second =>
    split
    · next quote =>
      rw [beq_iff_eq.mp quote] at second
      have quoted : c.rest = [sigil.char] ++ '\'' :: rest := by
        simpa [skip, first] using second
      exact within_scanQuoted h _ [sigil.char] quoted
    · split
      · exact within_lexeme h _ _ _ _
      · exact bare

theorem within_scanAt (h : root.ReadsTo c) (settled : root.Settled c) {ch : Char}
    {rest : List Char} (first : c.rest = ch :: rest) :
    Within root Token.extent (c.scanAt ch) := by
  -- One form after the other, in the order in which the scanner tries them.
  unfold scanAt
  repeat' split
  · exact within_lexeme h _ _ _ _
  · exact within_lexeme h _ _ _ _
  · exact within_scanString h settled
  · next quote => exact within_scanQuoted h _ [] (beq_iff_eq.mp quote ▸ first)
  · exact within_lexeme h _ _ _ _
  · exact within_lexeme h _ _ _ _
  · exact within_lexeme h _ _ _ _
  · next isSigil =>
    cases Sigil.ofChar?_eq_some_iff.mp isSigil
    exact within_scanName h settled first
  · exact within_refuse h settled (by simp) ((ReadsTo.refl c).hasPlace_add first) h

theorem within_scan (h : root.ReadsTo c) : Within root Token.extent c.scan := by
  simp only [scan]
  split
  · exact within_lexeme h.skipTrivia _ _ _ _
  · next first => exact within_scanAt h.skipTrivia (settled_skipTrivia root c) first

/-- Tokens have no line end in them, so they end at settled places as well. -/
theorem frames_of_scan (h : root.ReadsTo c) {t : Token} {next : Cursor}
    (read : c.scan = (.ok t, next)) : root.Frames t.extent := by
  obtain ⟨opening, inside, closing, covers, shown, form⟩ := spans_of_scan read
  have start := h.begins_skipTrivia
  rw [shown]
  refine frames_between start ?_
  by_cases none : opening ++ (inside ++ closing) = []
  · rw [none] at covers
    rwa [(covers.unique (.refl _) : next = c.skipTrivia)]
  · exact (Settled.of_over h.skipTrivia covers none (isLineEnd_of_form form)).begins
      (h.skipTrivia.trans ⟨_, covers⟩)

/-- Hexadecimal digits are characters of one byte. -/
theorem utf8Size_of_hexDigit? {ch : Char} (h : (hexDigit? ch).isSome = true) : ch.utf8Size = 1 := by
  have ascii : ch.val.toNat ≤ 127 := by
    unfold hexDigit? at h
    split at h
    · next digit =>
      simp only [Char.isDigit, Bool.and_eq_true, decide_eq_true_eq, UInt32.le_iff_toNat_le] at digit
      exact Nat.le_trans digit.2 (by decide)
    · split at h
      · next lower =>
        simp only [Bool.and_eq_true, decide_eq_true_eq, Char.le_def, UInt32.le_iff_toNat_le]
          at lower
        exact Nat.le_trans lower.2 (by decide)
      · split at h
        · next upper =>
          simp only [Bool.and_eq_true, decide_eq_true_eq, Char.le_def, UInt32.le_iff_toNat_le]
            at upper
          exact Nat.le_trans upper.2 (by decide)
        · cases h
  exact Char.utf8Size_eq_one_iff.mpr (UInt32.le_iff_toNat_le.mpr ascii)

theorem within_scanByte (h : root.ReadsTo c) : Within root Prod.snd c.scanByte := by
  have start := h.skipTrivia
  have stop := start.skip 2
  simp only [scanByte]
  split
  · split
    · next third =>
      cases first : (c.skipTrivia.skip 2).rest with
      | nil => simp [first] at third
      | cons ch rest =>
        have single : ch.utf8Size = 1 := utf8Size_of_hexDigit? (by simpa [first] using third)
        have after := (c.skipTrivia.readsTo_skip 2).hasPlace_add first
        rw [single] at after
        exact within_refuse start (settled_skipTrivia root c) (by simp) after stop
    · exact ⟨covers_between start.hasPlace stop.hasPlace, stop⟩
  · exact within_refuse start (settled_skipTrivia root c) (by simp) (ReadsTo.refl _).hasPlace start

end Cursor

namespace Rule

variable {α β : Type} {root : Cursor} {P : α → Prop} {Q : β → Prop}

/-- A value of which `P` holds was read and reading goes on behind `root`, or what was refused
stands there. -/
def WithinOutcome (root : Cursor) (P : α → Prop) : Except SyntaxError (α × Cursor) → Prop
  | .ok (a, next) => P a ∧ root.ReadsTo next
  | .error e => e.Within root

/-- From a place behind `root`, the rule reads and is refused behind `root`, and `P` holds of what
it reads. -/
def Within (root : Cursor) (P : α → Prop) (r : Rule α) : Prop :=
  ∀ c : Cursor, root.ReadsTo c → WithinOutcome root P (r.run c)

theorem within_pure {a : α} (h : P a) : Within root P (pure a) := fun _ start => ⟨h, start⟩

theorem within_throw {e : SyntaxError} (h : e.Within root) : Within root P (throw e) :=
  fun _ _ => h

theorem Within.bind {r : Rule α} {f : α → Rule β} (hr : Within root P r)
    (hf : ∀ a, P a → Within root Q (f a)) : Within root Q (r >>= f) := by
  intro c start
  have first := hr c start
  rw [StateT.run_bind]
  cases read : r.run c with
  | error e =>
    rw [read] at first
    exact first
  | ok p =>
    rw [read] at first
    exact hf p.1 first.1 p.2 first.2

theorem within_get : Within root (root.ReadsTo ·) (get : Rule Cursor) :=
  fun _ start => ⟨start, start⟩

/-! ## Tokens -/

theorem within_token : Within root (fun t => root.Frames t.extent) token := by
  intro c start
  have scanned := Cursor.within_scan start
  simp only [token, StateT.run]
  split
  · next t next read =>
    rw [read] at scanned
    exact ⟨Cursor.frames_of_scan start read, scanned.2⟩
  · next e next read =>
    rw [read] at scanned
    exact scanned.1

theorem within_peek : Within root (fun t => root.Frames t.extent) peek := by
  intro c start
  have scanned := Cursor.within_scan start
  simp only [peek, StateT.run, Cursor.peek]
  rcases read : c.scan with ⟨e | t, next⟩
  · rw [read] at scanned
    exact scanned.1
  · exact ⟨Cursor.frames_of_scan start read, start⟩

theorem within_unexpected (expected : Expectation) {found : Token}
    (h : root.Frames found.extent) : Within root P (unexpected expected found) :=
  within_throw (SyntaxError.within_of_frames (by simp) h)

theorem within_expect (kind : Token.Kind) :
    Within root (fun t => root.Frames t.extent) (expect kind) := by
  refine within_token.bind fun t covered => ?_
  split
  · exact within_pure covered
  · exact within_unexpected _ covered

theorem within_keyword (word : String) : Within root (fun _ => True) (keyword word) := by
  refine within_token.bind fun t covered => ?_
  split
  · exact within_pure trivial
  · exact within_unexpected _ covered

theorem within_keyword? (word : String) : Within root (fun _ => True) (keyword? word) := by
  refine within_peek.bind fun t _ => ?_
  split
  · exact (within_keyword word).bind fun _ _ => within_pure trivial
  · exact within_pure trivial

theorem within_ident (sigil : Sigil) : Within root (fun _ => True) (ident sigil) :=
  (within_expect _).bind fun _ _ => within_pure trivial

theorem within_byte : Within root (fun _ => True) byte := by
  intro c start
  have scanned := Cursor.within_scanByte start
  simp only [byte, StateT.run]
  split
  · next b extent next read =>
    rw [read] at scanned
    exact ⟨trivial, scanned.2⟩
  · next e next read =>
    rw [read] at scanned
    exact scanned.1

theorem within_number : Within root (fun p => root.Frames p.2) number := by
  refine (within_expect .integer).bind fun t covered => ?_
  dsimp only
  split
  · exact within_pure covered
  · exact within_throw (SyntaxError.within_of_frames (by simp) covered)

theorem within_count : Within root (fun _ => True) count := by
  refine within_number.bind fun p covered => ?_
  dsimp only
  split
  · exact within_pure trivial
  · exact within_throw (SyntaxError.within_of_frames (by simp) covered)

theorem within_signature? : Within root (fun _ => True) signature? := by
  refine within_peek.bind fun t _ => ?_
  split
  · refine (within_expect _).bind fun _ _ => within_count.bind fun _ _ => ?_
    refine (within_expect _).bind fun _ _ => within_count.bind fun _ _ => ?_
    exact (within_expect _).bind fun _ _ => within_pure trivial
  · exact within_pure trivial

/-! ## Data -/

theorem within_dataBytes : Within root (fun _ => True) dataBytes := by
  refine within_get.bind fun c _ => ?_
  split
  · exact (within_expect .string).bind fun _ _ => within_pure trivial
  · exact within_byte.bind fun _ _ => within_pure trivial

theorem within_dataLiteral (limit used : Nat) :
    Within root (fun _ => True) (dataLiteral limit used) := by
  refine within_get.bind fun before start => within_dataBytes.bind fun bytes _ => ?_
  refine within_get.bind fun after stop => ?_
  split
  · exact within_pure trivial
  · exact within_throw (SyntaxError.within_of_frames (by simp)
      (Cursor.frames_between start.begins_skipTrivia stop.begins_skipTrivia))

theorem within_dataRepetition (limit used : Nat) {start : Nat} (h : root.Begins start)
    (contents : List UInt8) :
    Within root (fun _ => True) (dataRepetition limit used start contents) := by
  refine (within_expect _).bind fun _ _ => (within_expect _).bind fun _ _ => ?_
  refine within_number.bind fun p covered => ?_
  dsimp only
  split
  · exact within_pure trivial
  · split
    · exact within_pure trivial
    · exact within_throw (SyntaxError.within_of_frames (by simp)
        (Cursor.frames_between h covered.2))

/-- As `WithinOutcome`, for a rule that also hands on the proof that it advanced. -/
def WithinAdvance (root : Cursor) {c : Cursor} :
    Except SyntaxError { p : α × Cursor // p.2.remaining < c.remaining } → Prop
  | .ok ⟨(_, next), _⟩ => root.ReadsTo next
  | .error e => e.Within root

theorem Within.advance {r : Rule α} (h : Within root P r) (advances : r.Advances) {c : Cursor}
    (start : root.ReadsTo c) : WithinAdvance root (r.advance advances c) := by
  have outcome := h c start
  unfold Rule.advance
  split
  · next read =>
    rw [read] at outcome
    exact outcome
  · next read =>
    rw [read] at outcome
    exact outcome.2

/-- An element is within its source if what stands between its brackets is. -/
theorem within_dataElementOf (limit depth used : Nat) {c : Cursor} (start : root.ReadsTo c)
    {nested : (inside : Cursor) → inside.remaining < c.remaining →
      Except SyntaxError (DataAfter inside)}
    (within : ∀ inside h, root.ReadsTo inside → WithinAdvance root (nested inside h)) :
    WithinAdvance root (dataElementOf limit depth used c nested) := by
  unfold dataElementOf
  split
  · have opened : WithinAdvance root
        ((expect .openBracket).advance (advances_expect (by simp)) c) :=
      (within_expect .openBracket).advance _ start
    split
    · next read => rwa [read] at opened
    · next inside h₁ read =>
      rw [read] at opened
      split
      · rw [← Extent.between_self]
        exact SyntaxError.within_of_frames (by simp)
          (Cursor.frames_between opened.begins_skipTrivia opened.begins_skipTrivia)
      · have contents := within inside h₁ opened
        split
        · next read => rwa [read] at contents
        · next bytes closing h₂ read =>
          rw [read] at contents
          have closed := (within_dataRepetition limit used start.begins_skipTrivia bytes).advance
            (advances_dataRepetition limit used _ bytes) contents
          split
          · next read => rwa [read] at closed
          · next read => rwa [read] at closed
  · exact (within_dataLiteral limit used).advance (advances_dataLiteral limit used) start

theorem within_dataElements (limit : Nat) (c : Cursor) :
    ∀ depth used, root.ReadsTo c → WithinAdvance root (dataElements limit depth used c) := by
  induction measure : c.remaining using Nat.strongRecOn generalizing c with
  | _ size ih =>
    subst measure
    intro depth used start
    -- What stands in the brackets is shorter than the whole.
    have element : WithinAdvance root (dataElement limit depth used c) :=
      within_dataElementOf limit depth used start fun inside shorter opened =>
        ih _ shorter inside rfl (depth + 1) 0 opened
    rw [dataElements_eq]
    split
    · next read => rwa [read] at element
    · next bytes after h₁ read =>
      rw [read] at element
      split
      · have comma : WithinAdvance root
            ((expect .comma).advance (advances_expect (by simp)) after) :=
          (within_expect .comma).advance _ element
        split
        · next read => rwa [read] at comma
        · next next h₂ read =>
          rw [read] at comma
          have more := ih _ (Nat.lt_trans h₂ h₁) next rfl depth (used + bytes.length) comma
          split
          · next read => rwa [read] at more
          · next read => rwa [read] at more
      · exact element

theorem within_dataExpression (limit : Nat) :
    Within root (fun _ => True) (dataExpression limit) := by
  intro c start
  have elements := within_dataElements limit c 0 0 start
  simp only [dataExpression, StateT.run]
  split
  · next read =>
    rw [read] at elements
    exact elements
  · next read =>
    rw [read] at elements
    exact ⟨trivial, elements⟩

end Rule

namespace Grammar

open Rule (Within within_pure within_peek within_expect within_keyword within_keyword? within_ident
  within_number within_signature? within_dataExpression within_unexpected)

variable {root : Cursor}

theorem within_argument : Within root (fun _ => True) argument := by
  refine within_peek.bind fun t covered => ?_
  split
  · exact (within_ident _).bind fun _ _ => within_pure trivial
  · exact within_number.bind fun _ _ => within_pure trivial
  · exact within_unexpected _ covered

theorem within_nextArgument : Within root (fun _ => True) nextArgument :=
  (within_expect .comma).bind fun _ _ => within_argument

theorem within_callInstruction : Within root (fun _ => True) callInstruction :=
  (within_keyword _).bind fun _ _ => (within_ident _).bind fun _ _ =>
    within_signature?.bind fun _ _ => (within_expect .semicolon).bind fun _ _ =>
    within_pure trivial

/-- The rule of a keyword, a name and a semicolon. -/
theorem within_line {word : String} {sigil : Sigil} {f : Ident → Statement} :
    Within root (fun _ => True) (do
      Rule.keyword word
      let name ← Rule.ident sigil
      let _ ← Rule.expect .semicolon
      return f name : Rule Statement) :=
  (within_keyword _).bind fun _ _ => (within_ident _).bind fun _ _ =>
    (within_expect .semicolon).bind fun _ _ => within_pure trivial

/-- The rule of a keyword, a name and perhaps a signature. -/
theorem within_header {word : String} {sigil : Sigil} {f : Ident → Option Signature → Statement} :
    Within root (fun _ => True) (do
      Rule.keyword word
      let name ← Rule.ident sigil
      let signature ← Rule.signature?
      return f name signature : Rule Statement) :=
  (within_keyword _).bind fun _ _ => (within_ident _).bind fun _ _ =>
    within_signature?.bind fun _ _ => within_pure trivial

theorem within_globalDefinition (limit : Nat) :
    Within root (fun _ => True) (globalDefinition limit) :=
  (within_keyword _).bind fun _ _ => (within_keyword? _).bind fun _ _ =>
    (within_ident _).bind fun _ _ => (within_expect .equals).bind fun _ _ =>
    (within_dataExpression limit).bind fun _ _ => (within_expect .semicolon).bind fun _ _ =>
    within_pure trivial

end Grammar

end SigilAsm
