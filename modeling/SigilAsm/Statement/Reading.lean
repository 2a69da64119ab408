import SigilAsm.Statement.Rule

/-! # Readings

A fault of form ends the reading of a text, but what was read before it stands.
A `Reading` holds both the items that were read and how the reading ended, and
readings are put together one after the other.

As for rules, it is stated of each reading whether it takes characters: the
repetition `Reading.repeatWhile` asks for items that do, and therefore ends.
-/

namespace SigilAsm

/-- What was read, in order, and the place after it or the fault that ended the reading. -/
structure Reading (α : Type) where
  items : List α
  result : Except SyntaxError Cursor

namespace Reading

variable {α : Type}

def refuse (e : SyntaxError) : Reading α := ⟨[], .error e⟩

def one (r : Rule α) (c : Cursor) : Reading α :=
  match r.run c with
  | .ok (a, next) => ⟨[a], .ok next⟩
  | .error e => refuse e

/-- A part of the text that has to be there and is no item. -/
def mark (kind : Token.Kind) (c : Cursor) : Reading α :=
  match (Rule.expect kind).run c with
  | .ok (_, next) => ⟨[], .ok next⟩
  | .error e => refuse e

/-- What comes next decides how to read it. -/
def byNext (choose : Token → Cursor → Reading α) (c : Cursor) : Reading α :=
  match c.peek with
  | .ok t => choose t c
  | .error e => refuse e

/-- Goes on reading, unless a fault ended it. -/
def andThen (r : Reading α) (more : Cursor → Reading α) : Reading α :=
  match r.result with
  | .ok next => ⟨r.items ++ (more next).items, (more next).result⟩
  | .error e => ⟨r.items, .error e⟩

/-! ## Progress -/

/-- Unless a fault ends the reading, no character is given back. -/
def Keeps (f : Cursor → Reading α) : Prop :=
  ∀ c next, (f c).result = .ok next → next.remaining ≤ c.remaining

/-- Unless a fault ends the reading, at least one character is taken. -/
def Advances (f : Cursor → Reading α) : Prop :=
  ∀ c next, (f c).result = .ok next → next.remaining < c.remaining

theorem Advances.keeps {f : Cursor → Reading α} (h : Advances f) : Keeps f :=
  fun c next hresult => Nat.le_of_lt (h c next hresult)

theorem result_andThen_eq_ok {r : Reading α} {more : Cursor → Reading α} {next : Cursor} :
    (r.andThen more).result = .ok next ↔
      ∃ middle, r.result = .ok middle ∧ (more middle).result = .ok next := by
  unfold andThen
  cases h : r.result with
  | ok middle => simp
  | error e => simp

theorem Advances.andThen {f g : Cursor → Reading α} (hf : Advances f) (hg : Keeps g) :
    Advances fun c => (f c).andThen g := by
  intro c next h
  obtain ⟨middle, h₁, h₂⟩ := result_andThen_eq_ok.mp h
  exact Nat.lt_of_le_of_lt (hg middle next h₂) (hf c middle h₁)

theorem Keeps.andThen {f g : Cursor → Reading α} (hf : Keeps f) (hg : Keeps g) :
    Keeps fun c => (f c).andThen g := by
  intro c next h
  obtain ⟨middle, h₁, h₂⟩ := result_andThen_eq_ok.mp h
  exact Nat.le_trans (hg middle next h₂) (hf c middle h₁)

theorem advances_one {r : Rule α} (hr : r.Advances) : Advances (one r) := by
  intro c next h
  unfold one at h
  split at h
  · cases h
    exact hr _ _ _ ‹_›
  · cases h

theorem advances_mark {kind : Token.Kind} (h : kind ≠ .endOfInput) :
    Advances (mark kind : Cursor → Reading α) := by
  intro c next hresult
  unfold mark at hresult
  split at hresult
  · cases hresult
    exact Rule.advances_expect h _ _ _ ‹_›
  · cases hresult

theorem advances_byNext {choose : Token → Cursor → Reading α} (h : ∀ t, Advances (choose t)) :
    Advances (byNext choose) := by
  intro c next hresult
  unfold byNext at hresult
  split at hresult
  · exact h _ c next hresult
  · cases hresult

theorem keeps_byNext {choose : Token → Cursor → Reading α} (h : ∀ t, Keeps (choose t)) :
    Keeps (byNext choose) := by
  intro c next hresult
  unfold byNext at hresult
  split at hresult
  · exact h _ c next hresult
  · cases hresult

/-- Reads items for as long as the next token is one that items go on with. -/
def repeatWhile (goesOn : Token → Bool) (item : Cursor → Reading α) (h : Advances item)
    (c : Cursor) : Reading α :=
  match c.peek with
  | .error e => refuse e
  | .ok t =>
    if goesOn t then
      match _hresult : (item c).result with
      | .error e => ⟨(item c).items, .error e⟩
      | .ok next =>
        let rest := repeatWhile goesOn item h next
        ⟨(item c).items ++ rest.items, rest.result⟩
    else ⟨[], .ok c⟩
termination_by c.remaining
decreasing_by exact h c next ‹_›

theorem keeps_repeatWhile (goesOn : Token → Bool) (item : Cursor → Reading α) (h : Advances item) :
    Keeps (repeatWhile goesOn item h) := by
  intro c
  fun_induction repeatWhile goesOn item h c with
  | case1 => intro next hresult; cases hresult
  | case2 => intro next hresult; cases hresult
  | case3 c t _ _ middle hmiddle _ ih =>
    intro next hresult
    exact Nat.le_trans (ih next hresult) (Nat.le_of_lt (h c middle hmiddle))
  | case4 => intro next hresult; cases hresult; exact Nat.le_refl _

end Reading

end SigilAsm
