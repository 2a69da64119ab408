import SigilAsm.Proofs.Grammar.Course

/-! # More turns change nothing

`Tracked.Below r r'` is said of rules with loops of which the second takes the
course of the first wherever that one is not left unfinished.  It is kept by all
that rules are put together of, so that more turns for the loops and more levels
for the brackets make no difference to a reading that has come to its end
(`Tracked.below_wholeModule`).
-/

namespace SigilAsm

variable {α β : Type}

namespace Course

variable {course : Course α} {f f' : α → Cursor → Course β}

theorem finished_of_andThen (h : (course.andThen f).ending ≠ .unfinished) :
    course.ending ≠ .unfinished := by
  intro ended
  rw [andThen, ended] at h
  exact h rfl

/-- What comes next makes no difference where it takes the same course. -/
theorem andThen_congr (same : ∀ a next, (f a next).ending ≠ .unfinished → f' a next = f a next)
    (h : (course.andThen f).ending ≠ .unfinished) : course.andThen f' = course.andThen f := by
  cases ended : course.ending with
  | unfinished => exact absurd ended (finished_of_andThen h)
  | refused e => rw [andThen_of_refused ended, andThen_of_refused ended]
  | reached a next =>
    rw [andThen_of_reached ended] at h
    rw [andThen_of_reached ended, andThen_of_reached ended, same a next h]

end Course

namespace Tracked

/-- Where the first rule comes to its end, the second takes the same course. -/
def Below (r r' : Tracked α) : Prop := ∀ c, (r c).ending ≠ .unfinished → r' c = r c

variable {r r' : Tracked α} {f f' : α → Tracked β} {turns more limit : Nat}

namespace Below

theorem refl (r : Tracked α) : Below r r := fun _ _ => rfl

theorem unfinished (r : Tracked α) : Below unfinished r := fun _ finished => absurd rfl finished

theorem bind (first : Below r r') (rest : ∀ a, Below (f a) (f' a)) :
    Below (r >>= f) (r' >>= f') := by
  intro c finished
  rw [run_bind, run_bind, first c (Course.finished_of_andThen finished)]
  exact Course.andThen_congr rest finished

theorem turn (loop : Loop) (h : Below r r') : Below (turn loop r) (turn loop r') := by
  intro c finished
  rw [Tracked.turn, Tracked.turn, h c (Course.finished_of_andThen finished)]

theorem gather (statement : List Argument → Bool → Statement) {r r' : Tracked Unit}
    (h : Below r r') : Below (gather statement r) (gather statement r') := by
  intro c finished
  rw [Tracked.gather, Tracked.gather, h c finished]

theorem whileNext (loop : Loop) (goesOn : Token → Bool) {body body' : Tracked Unit}
    (h : Below body body') (le : turns ≤ more) :
    Below (whileNext loop goesOn body turns) (whileNext loop goesOn body' more) := by
  induction turns generalizing more with
  | zero => exact unfinished _
  | succ turns ih =>
    obtain ⟨more, rfl⟩ := Nat.exists_eq_add_of_lt le
    apply (refl _).bind
    intro t
    split
    · exact (h.turn loop).bind fun _ => ih (by omega)
    · exact refl _

theorem repeatUntil (loop : Loop) {body body' : β → Tracked (β × Bool)}
    (h : ∀ b, Below (body b) (body' b)) (le : turns ≤ more) (b : β) :
    Below (repeatUntil loop body turns b) (repeatUntil loop body' more b) := by
  induction turns generalizing more b with
  | zero => exact unfinished _
  | succ turns ih =>
    obtain ⟨more, rfl⟩ := Nat.exists_eq_add_of_lt le
    apply ((h b).turn loop).bind
    intro outcome
    split
    · exact ih (by omega) outcome.1
    · exact refl _

end Below

/-! ## Data expressions -/

theorem below_element {inside inside' : Tracked (List UInt8)} (h : Below inside inside')
    (before : List UInt8) : Below (element limit inside before) (element limit inside' before) := by
  apply (Below.refl _).bind
  intro c
  split
  · exact (Below.refl _).bind fun _ => h.bind fun _ => .refl _
  · exact .refl _

theorem below_nextElement {inside inside' : Tracked (List UInt8)} (h : Below inside inside')
    (before : List UInt8) :
    Below (nextElement limit inside before) (nextElement limit inside' before) :=
  (below_element h before).bind fun _ => .refl _

section

variable (le : turns ≤ more)

include le

theorem below_dataExpression {levels levels' : Nat} (deeper : levels ≤ levels') (depth : Nat) :
    Below (dataExpression turns limit levels depth) (dataExpression more limit levels' depth) := by
  induction levels generalizing levels' depth with
  | zero => exact .unfinished _
  | succ levels ih =>
    obtain ⟨levels', rfl⟩ := Nat.exists_eq_add_of_lt deeper
    apply (Below.refl _).bind
    intro _
    apply (Below.refl _).bind
    intro c
    by_cases deep : maxDataDepth < depth
    · rw [if_pos deep, if_pos deep]
      exact .refl _
    · rw [if_neg deep, if_neg deep]
      exact .repeatUntil .elements (below_nextElement (ih (by omega) (depth + 1))) le []

/-! ## The grammar -/

theorem below_arguments : Below (arguments turns) (arguments more) := by
  apply (Below.refl _).bind
  intro t
  split
  · exact .refl _
  · exact .repeatUntil .arguments (fun _ => .refl _) le ()

theorem below_operation : Below (operation turns) (operation more) :=
  (Below.refl _).bind fun _ => ((below_arguments le).bind fun _ => .refl _).gather _

theorem below_instruction : Below (instruction turns) (instruction more) := by
  apply (Below.refl _).bind
  intro t
  split
  · exact .refl _
  · split
    · exact below_operation le
    · exact .refl _

theorem below_instructions : Below (instructions turns) (instructions more) :=
  .whileNext .instructions _ (below_instruction le) le

theorem below_locals : Below (locals turns) (locals more) :=
  .whileNext .locals _ (.refl _) le

theorem below_block : Below (block turns) (block more) :=
  (Below.refl _).bind fun _ => (Below.refl _).bind fun _ =>
    (below_instructions le).bind fun _ => .refl _

theorem below_nextBlock : Below (nextBlock turns) (nextBlock more) :=
  (below_block le).bind fun _ => .refl _

theorem below_blocksOrInstructions :
    Below (blocksOrInstructions turns) (blocksOrInstructions more) := by
  apply (Below.refl _).bind
  intro t
  split
  · exact .repeatUntil .blocks (fun _ => below_nextBlock le) le ()
  · exact (Below.refl _).bind fun _ => below_instructions le

theorem below_body : Below (body turns) (body more) :=
  (Below.refl _).bind fun _ => (below_locals le).bind fun _ =>
    (below_blocksOrInstructions le).bind fun _ => .refl _

theorem below_globalDefinition :
    Below (globalDefinition turns limit) (globalDefinition more limit) :=
  (Below.refl _).bind fun _ => (Below.refl _).bind fun _ => (Below.refl _).bind fun _ =>
    (Below.refl _).bind fun _ => (below_dataExpression le le 0).bind fun _ => .refl _

theorem below_functionRest : Below (functionRest turns) (functionRest more) := by
  apply (Below.refl _).bind
  intro t
  split
  · exact .refl _
  · split
    · exact below_body le
    · exact .refl _

theorem below_declaration : Below (declaration turns limit) (declaration more limit) := by
  apply (Below.refl _).bind
  intro t
  split
  · exact below_globalDefinition le
  · split
    · exact (Below.refl _).bind fun _ => below_functionRest le
    · exact .refl _

theorem below_wholeModule : Below (wholeModule turns limit) (wholeModule more limit) :=
  (Below.refl _).bind fun _ => .whileNext .declarations _ (below_declaration le) le

end

end Tracked

/-- Whatever has come to its end takes the same course with more turns. -/
theorem Statement.course_eq_of_le {turns more limit : Nat} {source : String} (le : turns ≤ more)
    (finished : (Statement.course turns limit source).ending ≠ .unfinished) :
    Statement.course more limit source = Statement.course turns limit source := by
  unfold Statement.course at finished ⊢
  split
  · next short =>
    rw [if_pos short] at finished
    exact Tracked.below_wholeModule le _ finished
  · rfl

end SigilAsm
