import SigilAsm.Proofs.Grammar.Budget
import SigilAsm.Proofs.Grammar.Lookahead
import SigilAsm.Proofs.Grammar.Loops
import SigilAsm.Scope.Elaboration

/-! # Reading goes forward and stops

Whatever token or byte is read stands behind the place that reading was at, and
behind the end of input there is only the end of input (`Cursor.Progresses`).

Each turn of a loop leads forward inside of the text, so no loop completes more
turns than the text has bytes (`Course.Progresses`).  With one turn more to take
no loop is left unfinished, and with still more it goes the same way: every text
is taken in or refused (`elaborate_progresses`).
-/

namespace SigilAsm

/-! ## Tokens and bytes -/

namespace Cursor

variable {c next : Cursor}

structure Progresses (c : Cursor) : Prop where
  token : ∀ t next, c.scan = (.ok t, next) → t.kind ≠ .endOfInput → c.offset < next.offset
  byte : ∀ b next, c.scanByte = (.ok b, next) → c.offset < next.offset
  -- Once there is no more input, whatever is asked in between, the same token is read again.
  last : ∀ t next, c.scan = (.ok t, next) → t.kind = .endOfInput →
    ∀ queries, (next.askAll queries).2.scan = (.ok t, next)

/-- The end of input leaves nothing to be read. -/
theorem scan_endOfInput {t : Token} (h : c.scan = (.ok t, next)) (last : t.kind = .endOfInput) :
    next.rest = [] ∧ next.scan = (.ok t, next) := by
  have none : c.skipTrivia.rest = [] :=
    trivia_nil_iff.mp (peek_endOfInput_iff.mp ⟨t, congrArg Prod.fst h, last⟩)
  have stop : c.skipTrivia = next := by
    have read := congrArg Prod.snd h
    simp only [scan, none, lexeme] at read
    rw [← read, skip, none]
    exact congrArg (Cursor.mk _) none
  exact ⟨stop ▸ none, by rw [← stop, scan_skipTrivia, h, stop]⟩

/-- Where nothing is left, no query moves the cursor. -/
theorem askAll_of_rest_nil (h : c.rest = []) (queries : List Query) :
    (c.askAll queries).2 = c := by
  obtain ⟨offset, rest⟩ := c
  subst h
  induction queries with
  | nil => rfl
  | cons query queries ih =>
    have stays : (ask ⟨offset, []⟩ query).2 = ⟨offset, []⟩ := by
      cases query <;> rfl
    change ((ask ⟨offset, []⟩ query).2.askAll queries).2 = _
    rw [stays, ih]

theorem progresses (c : Cursor) : c.Progresses where
  token t next h some := by
    have reads := (within_scan (.refl c)).readsTo
    rw [h] at reads
    exact reads.offset_lt (remaining_scan_lt h some)
  byte b next h := by
    have reads := (within_scanByte (.refl c)).readsTo
    rw [h] at reads
    exact reads.offset_lt (remaining_scanByte_lt h)
  last t next h last queries := by
    obtain ⟨none, again⟩ := scan_endOfInput h last
    rw [askAll_of_rest_nil none, again]

end Cursor

/-! ## The course of a text -/

/-- What the course of a text of `size` bytes shows. -/
structure Course.Progresses {α : Type} (size : Nat) (course : Course α) : Prop where
  advances : ∀ loop start stop, .turn loop start stop ∈ course.journal →
    start.offset < stop.offset ∧ stop.offset ≤ size
  -- The expression behind the first bracket that is too deep is begun as well, and refused.
  shallow : ∀ depth, .expression depth ∈ course.journal → depth ≤ maxDataDepth + 1
  few : ∀ loop, course.turns loop ≤ size

namespace Statement

variable {turns : Nat} {source : String} (limit : Nat)

/-- With a turn for each byte, and one more, the loops read what the grammar reads. -/
theorem course_follows (enough : source.utf8ByteSize < turns) :
    (Statement.course turns limit source).Follows (.ofString source) 0
      ⟨(Statement.read limit source).items.map .statement,
        .ofExcept ((Statement.read limit source).result.map fun next => ((), next))⟩ := by
  unfold Statement.course Statement.read
  split
  · have small : (Cursor.ofString source).remaining < turns :=
      Nat.lt_of_le_of_lt (length_toList_le_utf8ByteSize source) enough
    exact (Tracked.follows_wholeModule turns limit _ small).mono (Nat.zero_le 1)
  · refine ⟨rfl, by simp, by simp, by simp, fun loop => Nat.zero_le _⟩

/-- However many turns more there are, the course is the same. -/
theorem course_eq (enough : source.utf8ByteSize < turns) :
    Statement.course turns limit source =
      Statement.course (source.utf8ByteSize + 1) limit source :=
  course_eq_of_le enough (course_follows limit (Nat.lt_succ_self _)).finished

theorem course_progresses (enough : source.utf8ByteSize < turns) :
    (Statement.course turns limit source).Progresses source.utf8ByteSize := by
  have follows := course_follows limit enough
  constructor
  case advances =>
    intro loop start stop member
    obtain ⟨reads, further, less⟩ := follows.sound _ member
    exact ⟨less, (reads.trans further).hasPlace.le_utf8ByteSize⟩
  case shallow => exact fun depth member => follows.sound _ member
  case few =>
    intro loop
    have paid := follows.paid loop
    have bytes := length_toList_le_utf8ByteSize source
    change _ ≤ source.toList.length at paid
    omega

theorem statements_course (enough : source.utf8ByteSize < turns) :
    (Statement.course turns limit source).statements = (Statement.read limit source).items := by
  rw [← Course.statements_told, (course_follows limit enough).told]
  simp [Course.statements, Note.statement?, List.filterMap_map, Function.comp_def]

end Statement

/-- Whatever the text and the settings, reading goes forward and stops.  There is one course that
all loops take which may take more turns than the text has bytes.  It reads the statements that are
taken in, and ends where the answer does. -/
theorem elaborate_progresses {σ : Type} [Builder σ] (settings : Settings) (target : σ)
    (source : String) :
    (∀ c : Cursor, c.Progresses) ∧
      ∃ course : Course Unit,
        (∀ turns, source.utf8ByteSize < turns →
          Statement.course turns settings.maxDataBytes source = course) ∧
        course.Progresses source.utf8ByteSize ∧
        course.statements = (Statement.read settings.maxDataBytes source).items ∧
        ((∃ outline next, (elaborate settings target source).1 = .ok outline ∧
            course.ending = .reached () next) ∨
          ∃ e, (elaborate settings target source).1 = .error e ∧ course.ending = .refused e) := by
  have enough : source.utf8ByteSize < source.utf8ByteSize + 1 := Nat.lt_succ_self _
  refine ⟨Cursor.progresses, _, fun turns more => Statement.course_eq _ more,
    Statement.course_progresses _ enough, Statement.statements_course _ enough, ?_⟩
  have ended := (Statement.course_follows settings.maxDataBytes enough).ending_eq
  cases result : (Statement.read settings.maxDataBytes source).result with
  | error e =>
    rw [result] at ended
    refine .inr ⟨e, ?_, ended.symm⟩
    simp only [elaborate, result]
  | ok next =>
    rw [result] at ended
    exact .inl ⟨_, next, by simp only [elaborate, result]; rfl, ended.symm⟩

/-- A text that ends in a comment, inside of a body. -/
def unclosed : String :=
  "module @m;global @g=[[01]*2,02]*2,\"x\";function @e\x7bblock %a\x7b\x7dblock %b\x7b\x7d\x7d" ++
    "function @f\x7blocal %x;local %y;$add %x,1;call @e;#"

theorem elaborate_progresses_unclosed :
    unclosed.utf8ByteSize < 130 ∧
      let course := Statement.course 130 100 unclosed
      course.Progresses unclosed.utf8ByteSize ∧
        [.declarations, .locals, .blocks, .instructions, .arguments, .elements].map course.turns =
          [2, 2, 2, 2, 2, 5] ∧
        ∃ e, (elaborate ⟨100, .standard⟩ (⟨0⟩ : Counter) unclosed).1 = .error e ∧
          course.ending = .refused e := by
  have short : unclosed.utf8ByteSize < 130 := by decide +kernel
  have stuck : (Statement.course 130 100 unclosed).ending.isReached = false := by decide +kernel
  obtain ⟨-, course, bounded, progresses, -, ended⟩ :=
    elaborate_progresses ⟨100, .standard⟩ (⟨0⟩ : Counter) unclosed
  obtain rfl := bounded 130 short
  refine ⟨short, progresses, by decide +kernel, ?_⟩
  rcases ended with ⟨_, next, _, reached⟩ | refused
  · rw [reached] at stuck
    cases stuck
  · exact refused

end SigilAsm
