import SigilAsm.Statement.Grammar

/-! # How many statements a text has

Whatever is read takes characters, so no text has more statements than bytes.
This holds of refused texts as well, for what was read up to the fault.
-/

namespace SigilAsm

namespace Reading

variable {α : Type}

/-- The items that were read, together with the characters that are left to be read. -/
def weight (r : Reading α) : Nat :=
  match r.result with
  | .ok next => r.items.length + next.remaining
  | .error _ => r.items.length

/-- Each item takes a character, except that `spare` items may take none. -/
def Thrifty (spare : Nat) (f : Cursor → Reading α) : Prop :=
  ∀ c, (f c).weight ≤ c.remaining + spare

theorem length_items_le_weight (r : Reading α) : r.items.length ≤ r.weight := by
  unfold weight
  split <;> omega

theorem weight_of_result {r : Reading α} {next : Cursor} (h : r.result = .ok next) :
    r.weight = r.items.length + next.remaining := by
  rw [weight, h]

theorem weight_append (items : List α) (r : Reading α) :
    weight ⟨items ++ r.items, r.result⟩ = items.length + r.weight := by
  cases h : r.result with
  | error e => simp only [weight, h, List.length_append]
  | ok next => simp only [weight, h, List.length_append, Nat.add_assoc]

theorem weight_andThen_le {r : Reading α} {more : Cursor → Reading α} {n : Nat}
    (here : r.weight ≤ n)
    (further : ∀ next, r.result = .ok next → r.items.length + (more next).weight ≤ n) :
    (r.andThen more).weight ≤ n := by
  unfold andThen
  cases h : r.result with
  | error e => exact Nat.le_trans (length_items_le_weight r) here
  | ok next =>
    rw [weight_append]
    exact further next h

theorem items_mark (kind : Token.Kind) (c : Cursor) : (mark kind c : Reading α).items = [] := by
  unfold mark
  split <;> rfl

theorem andThen_assoc (r : Reading α) (f g : Cursor → Reading α) :
    (r.andThen f).andThen g = r.andThen fun c => (f c).andThen g := by
  obtain ⟨items, result⟩ := r
  cases result with
  | error e => rfl
  | ok next =>
    simp only [andThen]
    cases (f next).result with
    | error e => rfl
    | ok next => simp [List.append_assoc]

namespace Thrifty

variable {f g : Cursor → Reading α} {spare more : Nat}

theorem one {r : Rule α} (h : r.Advances) : Thrifty 0 (Reading.one r) := by
  intro c
  unfold Reading.one
  cases read : r.run c with
  | error e => exact Nat.zero_le _
  | ok p =>
    have less := h c p.1 p.2 read
    change 1 + p.2.remaining ≤ _
    omega

theorem mark {kind : Token.Kind} (h : kind ≠ .endOfInput) :
    Thrifty 0 (Reading.mark kind : Cursor → Reading α) := by
  intro c
  cases result : (Reading.mark kind c : Reading α).result with
  | error e => simp [weight, result, items_mark]
  | ok next =>
    have less := advances_mark h c next result
    rw [weight_of_result result, items_mark, List.length_nil]
    omega

theorem byNext {choose : Token → Cursor → Reading α} (h : ∀ t, Thrifty spare (choose t)) :
    Thrifty spare (Reading.byNext choose) := by
  intro c
  unfold Reading.byNext
  cases c.peek with
  | error e => exact Nat.zero_le _
  | ok t => exact h t c

theorem andThen (hf : Thrifty spare f) (hg : Thrifty more g) :
    Thrifty (spare + more) fun c => (f c).andThen g := by
  intro c
  have first := hf c
  refine weight_andThen_le (by omega) fun next result => ?_
  have second := hg next
  rw [weight_of_result result] at first
  omega

/-- The character of a mark makes up for an item that takes none. -/
theorem mark_andThen (kind : Token.Kind) (h : kind ≠ .endOfInput) (hg : Thrifty 1 g) :
    Thrifty 0 fun c => (Reading.mark kind c).andThen g := by
  intro c
  refine weight_andThen_le (mark h c) fun next result => ?_
  have less := advances_mark h c next result
  have rest := hg next
  rw [items_mark, List.length_nil]
  omega

theorem repeatWhile (goesOn : Token → Bool) (advances : Advances f) (h : Thrifty 0 f) :
    Thrifty 0 (Reading.repeatWhile goesOn f advances) := by
  intro c
  fun_induction Reading.repeatWhile goesOn f advances c with
  | case1 => exact Nat.zero_le _
  | case2 c t _ _ e result =>
    have first := h c
    rw [weight, result] at first
    exact first
  | case3 c t _ _ middle result rest ih =>
    have first := h c
    have others : rest.weight ≤ middle.remaining + 0 := ih
    rw [weight_of_result result] at first
    rw [weight_append]
    omega
  | case4 => exact Nat.le_of_eq (Nat.zero_add _)

end Thrifty

end Reading

namespace Grammar

open Reading (Thrifty)

theorem thrifty_operation : Thrifty 0 operation := by
  intro c
  unfold operation
  cases read : (Rule.ident .builtin).run c with
  | error e => exact Nat.zero_le _
  | ok p =>
    have head := Rule.advances_ident .builtin c p.1 p.2 read
    cases result : ((arguments p.2).andThen (.mark .semicolon)).result with
    | error e =>
      -- The item is read although the operation breaks off; its head alone takes a character.
      simp only [Reading.weight, result, List.length_singleton]
      omega
    | ok next =>
      have rest := keeps_arguments.andThen (Reading.advances_mark (by simp)).keeps p.2 next result
      simp only [Reading.weight, result, List.length_singleton]
      omega

theorem thrifty_instruction : Thrifty 0 instruction := by
  refine .byNext fun t c => ?_
  split
  · exact Thrifty.one advances_callInstruction c
  · split
    · exact thrifty_operation c
    · exact Thrifty.one (Rule.advances_unexpected _ _) c

theorem thrifty_blockBody : Thrifty 0 blockBody :=
  ((Thrifty.mark (by simp)).andThen (.repeatWhile _ _ thrifty_instruction)).andThen
    (.mark (by simp))

theorem thrifty_block : Thrifty 0 block := by
  refine .byNext fun t c => ?_
  split
  · exact (Thrifty.one advances_blockHeader).andThen thrifty_blockBody c
  · exact Thrifty.one (Rule.advances_unexpected _ _) c

/-- The entry block is begun by no character of its own. -/
theorem thrifty_blocksOrInstructions : Thrifty 1 blocksOrInstructions := by
  refine .byNext fun t c => ?_
  split
  · exact Nat.le_succ_of_le (Thrifty.repeatWhile _ _ thrifty_block c)
  · have entered : Thrifty 1 fun c => (⟨[.entryBlock], .ok c⟩ : Reading Statement) :=
      fun c => Nat.le_of_eq (Nat.add_comm _ _)
    exact entered.andThen (.repeatWhile _ _ thrifty_instruction) c

theorem thrifty_body : Thrifty 0 body := by
  intro c
  -- The brace that opens the body makes up for the entry block.
  have inner : Thrifty 1 fun c => (locals c).andThen fun c =>
      (blocksOrInstructions c).andThen (.mark .closeBrace) :=
    (Thrifty.repeatWhile _ _ (.one advances_localDeclaration)).andThen
      (thrifty_blocksOrInstructions.andThen (.mark (by simp)))
  have whole := Thrifty.mark_andThen .openBrace (by simp) inner c
  unfold body
  rwa [Reading.andThen_assoc, Reading.andThen_assoc]

theorem thrifty_functionRest : Thrifty 0 functionRest := by
  refine .byNext fun t c => ?_
  split
  · exact Thrifty.mark (by simp) c
  · split
    · exact thrifty_body c
    · exact Thrifty.one (Rule.advances_unexpected _ _) c

theorem thrifty_declaration (limit : Nat) : Thrifty 0 (declaration limit) := by
  refine .byNext fun t c => ?_
  split
  · exact Thrifty.one (advances_globalDefinition limit) c
  · split
    · exact (Thrifty.one advances_functionHeader).andThen thrifty_functionRest c
    · exact Thrifty.one (Rule.advances_unexpected _ _) c

theorem advances_moduleHeader : moduleHeader.Advances := by
  refine (Rule.advances_keyword _).bind fun _ => ?_
  refine (Rule.advances_ident _).keeps.bind fun _ => ?_
  exact (Rule.advances_expect (by simp)).keeps.bind fun _ => Rule.keeps_pure _

theorem thrifty_wholeModule (limit : Nat) : Thrifty 0 (wholeModule limit) :=
  (Thrifty.one advances_moduleHeader).andThen (.repeatWhile _ _ (thrifty_declaration limit))

end Grammar

theorem length_toList_le_utf8ByteSize (source : String) :
    source.toList.length ≤ source.utf8ByteSize := by
  rw [← Utf8.byteLength_toList]
  exact Utf8.length_le_byteLength _

/-- No text, be it refused or not, has more statements than the bytes that a source may have. -/
theorem Statement.length_items_read_le (limit : Nat) (source : String) :
    (Statement.read limit source).items.length ≤ maxSourceBytes := by
  unfold Statement.read
  by_cases short : source.utf8ByteSize ≤ maxSourceBytes
  · rw [if_pos short]
    have items := Reading.length_items_le_weight (Grammar.wholeModule limit (.ofString source))
    have weight := Grammar.thrifty_wholeModule limit (.ofString source)
    have bytes := length_toList_le_utf8ByteSize source
    change _ ≤ source.toList.length + 0 at weight
    omega
  · rw [if_neg short]
    exact Nat.zero_le _

end SigilAsm
