import SigilAsm.Proofs.Grammar.Course
import SigilAsm.Proofs.Grammar.Mentions

/-! # Turns are paid for

`Tracked.Follows n spare r s` is said of a rule with loops and of what it is to
read.  Where fewer than `n` characters are left, the rule is not left unfinished
and reads what it is to read; each turn of a loop leads forward; and no loop
completes more turns than characters are taken, of which `spare` pay for none.

A turn is paid for by a character that its body spares, so a loop needs no more
turns than there are characters (`Tracked.Follows.whileNext`,
`Tracked.Follows.repeatUntil`).
-/

namespace SigilAsm

variable {α β : Type}

/-! ## Courses that follow -/

theorem Cursor.ReadsTo.offset_lt {c next : Cursor} (h : c.ReadsTo next)
    (less : next.remaining < c.remaining) : c.offset < next.offset := by
  obtain ⟨text, covers⟩ := h
  apply covers.offset_lt
  rintro rfl
  have same := covers.remaining
  rw [List.length_nil] at same
  omega

/-- What a note may tell in the journal of a reading that began at `c`. -/
def Note.Sound (c : Cursor) : Note → Prop
  | turn _ start stop => c.ReadsTo start ∧ start.ReadsTo stop ∧ start.offset < stop.offset
  | expression depth => depth ≤ maxDataDepth + 1
  | argument _ | statement _ => True

theorem Note.Sound.of_readsTo {n : Note} {root c : Cursor} (h : n.Sound c)
    (reads : root.ReadsTo c) : n.Sound root := by
  cases n with
  | turn loop start stop => exact ⟨reads.trans h.1, h.2⟩
  | expression depth => exact h
  | argument a => trivial
  | statement s => trivial

theorem Note.Sound.of_isItem {n : Note} (c : Cursor) (h : n.isItem = true) : n.Sound c := by
  cases n with
  | turn | expression => cases h
  | argument | statement => trivial

theorem Note.isTurnOf_of_isItem {n : Note} {loop : Loop} (h : n.isItem = true) :
    n.isTurnOf loop = false := by
  cases n with
  | turn | expression => cases h
  | argument | statement => rfl

/-- The characters left, and `spare` more; after a fault nothing is counted. -/
def Ending.left (spare : Nat) : Ending α → Nat
  | reached _ next => next.remaining + spare
  | refused _ | unfinished => 0

@[simp] theorem Ending.left_reached (spare : Nat) (a : α) (next : Cursor) :
    (reached a next).left spare = next.remaining + spare := rfl

theorem Ending.left_mono {spare more : Nat} (ending : Ending α) (h : more ≤ spare) :
    ending.left more ≤ ending.left spare := by
  cases ending with
  | reached a next => exact Nat.add_le_add_left h _
  | refused e => exact Nat.le_refl _
  | unfinished => exact Nat.le_refl _

theorem Ending.left_add_le (ending : Ending α) (spare more : Nat) :
    ending.left (spare + more) ≤ ending.left more + spare := by
  cases ending with
  | reached a next =>
    simp only [left_reached]
    omega
  | refused e => exact Nat.zero_le _
  | unfinished => exact Nat.zero_le _

/-- From `c` on the course leads where the other does, and what it tells besides is sound. -/
structure Course.Follows (c : Cursor) (spare : Nat) (course target : Course α) : Prop where
  told : course.told = target
  finished : course.ending ≠ .unfinished
  reads : ∀ a next, course.ending = .reached a next → c.ReadsTo next
  sound : ∀ n ∈ course.journal, n.Sound c
  paid : ∀ loop, course.turns loop + course.ending.left spare ≤ c.remaining

namespace Course.Follows

variable {c : Cursor} {spare more : Nat} {course target : Course α}

theorem ending_eq (h : course.Follows c spare target) : target.ending = course.ending := by
  rw [← h.told]
  rfl

theorem journal_eq (h : course.Follows c spare target) :
    target.journal = course.journal.filter Note.isItem := by
  rw [← h.told]
  rfl

theorem remaining_le (h : course.Follows c spare target) {a : α} {next : Cursor}
    (reached : course.ending = .reached a next) : next.remaining + spare ≤ c.remaining := by
  have paid := h.paid .declarations
  rw [reached] at paid
  exact Nat.le_trans (Nat.le_add_left _ _) paid

theorem mono (h : course.Follows c spare target) (le : more ≤ spare) :
    course.Follows c more target where
  told := h.told
  finished := h.finished
  reads := h.reads
  sound := h.sound
  paid loop := Nat.le_trans (Nat.add_le_add_left (course.ending.left_mono le) _) (h.paid loop)

/-- What both parts spare is spared by the whole. -/
theorem andThen (first : course.Follows c spare target) {f g : α → Cursor → Course β}
    (rest : ∀ a next, course.ending = .reached a next → (f a next).Follows next more (g a next)) :
    (course.andThen f).Follows c (spare + more) (target.andThen g) := by
  cases ended : course.ending with
  | unfinished => exact absurd ended first.finished
  | refused e =>
    rw [andThen_of_refused ended, andThen_of_refused (first.ending_eq.trans ended),
      first.journal_eq]
    refine ⟨rfl, by simp, by simp, first.sound, fun loop => ?_⟩
    exact Nat.le_trans (Nat.le_add_right _ _) (first.paid loop)
  | reached a next =>
    have second := rest a next ended
    have forward := first.reads a next ended
    rw [andThen_of_reached ended, andThen_of_reached (first.ending_eq.trans ended),
      first.journal_eq, second.journal_eq, second.ending_eq]
    constructor
    case told => simp [Course.told]
    case finished => exact second.finished
    case reads => exact fun b stop reached => forward.trans (second.reads b stop reached)
    case sound =>
      intro n member
      rcases List.mem_append.mp member with here | later
      · exact first.sound n here
      · exact (second.sound n later).of_readsTo forward
    case paid =>
      intro loop
      have here := first.paid loop
      have later := second.paid loop
      have left := (f a next).ending.left_add_le spare more
      rw [ended] at here
      simp only [turns, List.countP_append, Ending.left_reached] at here later ⊢
      omega

end Course.Follows

/-! ## Rules that follow -/

/-- Where fewer than `n` characters are left, `r` goes the way of `s` to its end. -/
def Tracked.Follows (n spare : Nat) (r s : Tracked α) : Prop :=
  ∀ c : Cursor, c.remaining < n → (r c).Follows c spare (s c)

/-- From wherever the rule succeeds, it reads on. -/
def Rule.Reads (r : Rule α) : Prop := ∀ c a next, r.run c = .ok (a, next) → c.ReadsTo next

theorem Rule.reads_of_within {r : Rule α} {P : Cursor → α → Prop}
    (within : ∀ c, Rule.Within c (P c) r) : r.Reads := by
  intro c a next read
  have outcome := within c c (.refl c)
  rw [read] at outcome
  exact outcome.2

namespace Tracked

variable {n m spare more : Nat} {r s : Tracked α} {f g : α → Tracked β}

namespace Follows

theorem mono (h : Follows n spare r s) (le : more ≤ spare) : Follows n more r s :=
  fun c small => (h c small).mono le

theorem keeps (h : Follows n spare r s) : Follows n 0 r s := h.mono (Nat.zero_le spare)

theorem of_le (h : Follows n spare r s) (le : m ≤ n) : Follows m spare r s :=
  fun c small => h c (Nat.lt_of_lt_of_le small le)

/-- The characters that the first rule spares are not there any more for what follows it. -/
theorem bind_add (first : Follows n spare r s) (rest : ∀ a, Follows m more (f a) (g a))
    (fits : n ≤ m + spare) : Follows n (spare + more) (r >>= f) (s >>= g) := by
  intro c small
  apply (first c small).andThen
  intro a next reached
  have less := (first c small).remaining_le reached
  exact rest a next (by omega)

theorem bind (first : Follows n spare r s) (rest : ∀ a, Follows n 0 (f a) (g a)) :
    Follows n spare (r >>= f) (s >>= g) :=
  first.bind_add rest (Nat.le_add_right n spare)

theorem bind_of_spare (first : Follows n 0 r s) (rest : ∀ a, Follows n spare (f a) (g a)) :
    Follows n spare (r >>= f) (s >>= g) := by
  simpa using first.bind_add rest (Nat.le_refl n)

theorem bind_inside (first : Follows (n + 1) 1 r s) (rest : ∀ a, Follows n 0 (f a) (g a)) :
    Follows (n + 1) 1 (r >>= f) (s >>= g) :=
  first.bind_add rest (Nat.le_refl _)

end Follows

/-! ### Without loops -/

theorem follows_ofRule {r : Rule α} (reads : r.Reads)
    (taken : ∀ c a next, r.run c = .ok (a, next) → next.remaining + spare ≤ c.remaining) :
    Follows n spare (ofRule r) (ofRule r) := by
  intro c small
  constructor
  case told => rfl
  case sound => simp [ofRule]
  case finished =>
    simp only [ofRule]
    cases r.run c <;> simp [Ending.ofExcept]
  case reads =>
    intro a next reached
    exact reads c a next (Ending.ofExcept_eq_reached.mp reached)
  case paid =>
    intro loop
    simp only [ofRule, Course.turns, List.countP_nil, Nat.zero_add]
    cases read : r.run c with
    | error e => exact Nat.zero_le _
    | ok p => exact taken c p.1 p.2 read

theorem follows_advances {r : Rule α} {P : Cursor → α → Prop} (advances : r.Advances)
    (within : ∀ c, Rule.Within c (P c) r) : Follows n 1 (ofRule r) (ofRule r) :=
  follows_ofRule (Rule.reads_of_within within) advances

theorem follows_keeps {r : Rule α} {P : Cursor → α → Prop} (keeps : r.Keeps)
    (within : ∀ c, Rule.Within c (P c) r) : Follows n 0 (ofRule r) (ofRule r) :=
  follows_ofRule (Rule.reads_of_within within) keeps

theorem follows_pure (a : α) : Follows n 0 (pure a) (pure a) := by
  have within : ∀ c, Rule.Within c (fun _ => True) (pure a : Rule α) :=
    fun _ => Rule.within_pure trivial
  exact follows_keeps (Rule.keeps_pure a) within

theorem follows_place : Follows n 0 place place := by
  have within : ∀ c, Rule.Within c (c.ReadsTo ·) (get : Rule Cursor) := fun _ => Rule.within_get
  exact follows_keeps Rule.keeps_get within

theorem follows_peek : Follows n 0 (ofRule Rule.peek) (ofRule Rule.peek) :=
  follows_keeps Rule.keeps_peek fun _ => Rule.within_peek

theorem follows_expect {kind : Token.Kind} (h : kind ≠ .endOfInput) :
    Follows n 1 (ofRule (Rule.expect kind)) (ofRule (Rule.expect kind)) :=
  follows_advances (Rule.advances_expect h) fun _ => Rule.within_expect kind

theorem follows_throw (e : SyntaxError) :
    Follows n spare (ofRule (throw e : Rule α)) (ofRule (throw e)) :=
  follows_ofRule (fun _ _ _ read => by cases read) fun _ _ _ read => by cases read

/-- What is noted in place is sound if its note is, and is told if it is an item. -/
theorem follows_noted {item : Note} {c : Cursor} (sound : item.Sound c)
    (other : ∀ loop, item.isTurnOf loop = false) :
    (note item c).Follows c 0 ⟨[item].filter Note.isItem, .reached () c⟩ := by
  constructor
  case told => rfl
  case finished => simp [note]
  case reads =>
    intro a next reached
    cases reached
    exact .refl c
  case sound =>
    intro n member
    rwa [List.mem_singleton.mp member]
  case paid =>
    intro loop
    simp [note, Course.turns, other loop]

theorem follows_note {item : Note} (h : item.isItem = true) :
    Follows n 0 (note item) (note item) := by
  intro c small
  have noted := follows_noted (.of_isItem c h) fun _ => Note.isTurnOf_of_isItem h
  rwa [List.filter_cons_of_pos h] at noted

theorem follows_expression {depth : Nat} (h : depth ≤ maxDataDepth + 1) :
    Follows n 0 (note (.expression depth)) (pure ()) := by
  intro c small
  have sound : (Note.expression depth).Sound c := h
  exact follows_noted sound fun _ => rfl

/-! ### Readings -/

/-- Two parts that follow readings, one after the other. -/
theorem Follows.andThen {item : α → Note} {r r' : Tracked Unit} {f g : Cursor → Reading α}
    (first : Follows n spare r (ofReading item f)) (rest : Follows n 0 r' (ofReading item g)) :
    Follows n spare (r >>= fun _ => r') (ofReading item fun c => (f c).andThen g) := by
  rw [ofReading_andThen]
  exact first.bind fun _ => rest

theorem follows_mark (kind : Token.Kind) (h : kind ≠ .endOfInput) (item : α → Note) :
    Follows n 1 (do let _ ← Rule.expect kind; return ()) (ofReading item (.mark kind)) := by
  rw [ofReading_mark]
  exact (follows_expect h).bind fun _ => follows_pure ()

theorem follows_read {r : Rule Statement} {P : Cursor → Statement → Prop} (advances : r.Advances)
    (within : ∀ c, Rule.Within c (P c) r) :
    Follows n 1 (read r) (ofReading .statement (.one r)) := by
  rw [ofReading_one]
  exact (follows_advances advances within).bind fun _ => follows_note rfl

/-- Nothing is counted of what is refused. -/
theorem follows_read_unexpected (expected : Expectation) (found : Token) :
    Follows n 1 (read (Rule.unexpected expected found))
      (ofReading .statement (.one (Rule.unexpected expected found))) := by
  rw [ofReading_one]
  exact (follows_throw _).bind fun _ => follows_note rfl

theorem Follows.gather {r s : Tracked Unit} (h : Follows n spare r s)
    (statement : List Argument → Bool → Statement) :
    Follows n spare (gather statement r) (gather statement s) := by
  intro c small
  have inside := h c small
  have same : (s c).arguments = (r c).arguments := by
    rw [← inside.told, Course.arguments_told]
  constructor
  case told =>
    simp only [Tracked.gather, Course.told, same, inside.ending_eq, inside.journal_eq,
      List.filter_append, List.filter_filter, Bool.and_comm]
    rfl
  case finished => exact inside.finished
  case reads => exact inside.reads
  case sound =>
    intro other member
    rcases List.mem_append.mp member with here | last
    · exact inside.sound other (List.mem_filter.mp here).1
    · cases List.mem_singleton.mp last
      trivial
  case paid =>
    intro loop
    -- The arguments that are left out of the journal are no turns.
    have fewer : ((r c).journal.filter (·.argument?.isNone)).countP (Note.isTurnOf loop) ≤
        (r c).journal.countP (Note.isTurnOf loop) := List.filter_sublist.countP_le
    have one : [Note.statement (statement (r c).arguments (r c).ending.isReached)].countP
        (Note.isTurnOf loop) = 0 := rfl
    have paid := inside.paid loop
    simp only [Tracked.gather, Course.turns, List.countP_append, one] at paid ⊢
    omega

/-! ### Loops -/

theorem ending_turn (loop : Loop) (r : Tracked α) (c : Cursor) :
    (turn loop r c).ending = (r c).ending := by
  unfold turn Course.andThen
  cases (r c).ending <;> rfl

/-- The turn is paid for by the character that its body spares. -/
theorem follows_turn (loop : Loop) {c : Cursor} {target : Course α}
    (h : (r c).Follows c 1 target) : (turn loop r c).Follows c 0 target := by
  cases ended : (r c).ending with
  | unfinished => exact absurd ended h.finished
  | refused e =>
    have same : turn loop r c = r c := by
      rw [turn, Course.andThen_of_refused ended, ← ended]
    rw [same]
    exact h.mono (Nat.zero_le 1)
  | reached a next =>
    have forward := h.reads a next ended
    have less := h.remaining_le ended
    have step : turn loop r c = ⟨(r c).journal ++ [.turn loop c next], .reached a next⟩ := by
      rw [turn, Course.andThen_of_reached ended]
    rw [step]
    constructor
    case told =>
      rw [← h.told]
      simp [Course.told, Note.isItem, ended]
    case finished => simp
    case reads =>
      intro b stop reached
      cases reached
      exact forward
    case sound =>
      intro other member
      rcases List.mem_append.mp member with here | last
      · exact h.sound other here
      · cases List.mem_singleton.mp last
        exact ⟨.refl c, forward, forward.offset_lt (by omega)⟩
    case paid =>
      intro loop'
      have paid := h.paid loop'
      have one : [Note.turn loop c next].countP (Note.isTurnOf loop') ≤ 1 := List.countP_le_length
      rw [ended] at paid
      simp only [Course.turns, List.countP_append, Ending.left_reached] at paid ⊢
      omega

/-- After a turn fewer characters are left than before it. -/
theorem Follows.turn_bind (loop : Loop) (body : Follows (n + 1) 1 r s)
    (rest : ∀ a, Follows n 0 (f a) (g a)) :
    Follows (n + 1) 0 (turn loop r >>= f) (s >>= g) := by
  intro c small
  have whole : ((turn loop r c).andThen f).Follows c (0 + 0) ((s c).andThen g) := by
    apply (follows_turn loop (body c small)).andThen
    intro a next reached
    rw [ending_turn] at reached
    have less := (body c small).remaining_le reached
    exact rest a next (by omega)
  exact whole

/-- A loop that may take a turn for each character, and one more, is not left unfinished. -/
theorem Follows.whileNext (loop : Loop) {goesOn : Token → Bool} {body step whole : Tracked Unit}
    (once : whole = ofRule Rule.peek >>= fun t =>
      if goesOn t then step >>= fun _ => whole else pure ())
    (h : Follows n 1 body step) {turns : Nat} (enough : n ≤ turns) :
    Follows n 0 (whileNext loop goesOn body turns) whole := by
  induction n generalizing turns with
  | zero =>
    intro c none
    exact absurd none (Nat.not_lt_zero _)
  | succ n ih =>
    obtain ⟨turns, rfl⟩ := Nat.exists_eq_add_of_lt enough
    rw [once]
    apply follows_peek.bind
    intro t
    split
    · exact h.turn_bind loop fun _ => ih (h.of_le n.le_succ) (by omega)
    · exact follows_pure ()

theorem Follows.repeatUntil (loop : Loop) {body step : β → Tracked (β × Bool)}
    {whole : β → Tracked β}
    (once : ∀ b, whole b = step b >>= fun outcome =>
      if outcome.2 then whole outcome.1 else pure outcome.1)
    (h : ∀ b, Follows n 1 (body b) (step b)) {turns : Nat} (enough : n ≤ turns) (b : β) :
    Follows n 0 (repeatUntil loop body turns b) (whole b) := by
  induction n generalizing turns b with
  | zero =>
    intro c none
    exact absurd none (Nat.not_lt_zero _)
  | succ n ih =>
    obtain ⟨turns, rfl⟩ := Nat.exists_eq_add_of_lt enough
    rw [once]
    apply (h b).turn_bind loop
    intro outcome
    split
    · exact ih (fun b => (h b).of_le n.le_succ) (by omega) outcome.1
    · exact follows_pure outcome.1

end Tracked

end SigilAsm
