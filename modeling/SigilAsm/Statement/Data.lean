import SigilAsm.Statement.Rule

/-! # Data expressions

The data of a global is a list of elements separated by commas: bytes of two
hexadecimal digits, strings, and repetitions `[elements] * count`.  The value
is a list of bytes.

Two limits hold.  Brackets nest at most `maxDataDepth` deep, and no expression,
bracketed ones included, has more bytes than a limit set from outside.  The
size is checked before a repetition is carried out, so no count can make the
value large; an empty repetition is empty for every count.
-/

namespace SigilAsm.Rule

/-- Bytes and the place after them, where fewer characters are left than at `c`. -/
abbrev DataAfter (c : Cursor) := { p : List UInt8 × Cursor // p.2.remaining < c.remaining }

/-- A string if a quote comes next, otherwise a byte. -/
def dataBytes : Rule (List UInt8) := do
  let c ← get
  if c.peekChar = some '"' then
    let t ← expect .string
    return Utf8.encode t.text.toList
  else
    let b ← byte
    return [b]

/-- A byte or a string, in an expression that has `used` bytes before it. -/
def dataLiteral (limit used : Nat) : Rule (List UInt8) := do
  let before ← get
  let bytes ← dataBytes
  let after ← get
  if used + bytes.length ≤ limit then return bytes
  else throw ⟨.dataTooLong limit, .between before.skipTrivia.offset after.skipTrivia.offset⟩

/-- What follows the contents of a repetition that starts at the offset `start`. -/
def dataRepetition (limit used start : Nat) (contents : List UInt8) : Rule (List UInt8) := do
  let _ ← expect .closeBracket
  let _ ← expect .star
  let (count, extent) ← number
  if contents.isEmpty then return []
  else if used + contents.length * count.toNat ≤ limit then
    return (List.replicate count.toNat contents).flatten
  else throw ⟨.dataTooLong limit, .between start extent.stop⟩

theorem keeps_get : Keeps (get : Rule Cursor) := by
  intro c a next h
  cases h
  exact Nat.le_refl _

theorem advances_dataBytes : Advances dataBytes := by
  refine keeps_get.bind_advances fun c => ?_
  split
  · exact (advances_expect (by simp)).bind fun _ => keeps_pure _
  · exact advances_byte.bind fun _ => keeps_pure _

theorem advances_dataLiteral (limit used : Nat) : Advances (dataLiteral limit used) := by
  refine keeps_get.bind_advances fun before => advances_dataBytes.bind fun bytes => ?_
  refine keeps_get.bind fun after => ?_
  split
  · exact keeps_pure _
  · exact (advances_throw _).keeps

theorem advances_dataRepetition (limit used start : Nat) (contents : List UInt8) :
    Advances (dataRepetition limit used start contents) := by
  refine (advances_expect (by simp)).bind fun _ => ?_
  refine (advances_expect (by simp)).keeps.bind fun _ => ?_
  refine advances_number.keeps.bind fun p => ?_
  dsimp only
  split
  · exact keeps_pure _
  · split
    · exact keeps_pure _
    · exact (advances_throw _).keeps

/-- One element of an expression inside `depth` brackets that has `used` bytes before it, where
`nested` reads what stands between the brackets of a repetition. -/
def dataElementOf (limit depth used : Nat) (c : Cursor)
    (nested : (inside : Cursor) → inside.remaining < c.remaining →
      Except SyntaxError (DataAfter inside)) : Except SyntaxError (DataAfter c) :=
  if c.peekChar = some '[' then
    match (expect .openBracket).advance (advances_expect (by simp)) c with
    | .error e => .error e
    | .ok ⟨(_, inside), h₁⟩ =>
      if maxDataDepth ≤ depth then .error ⟨.dataTooDeep, .point inside.skipTrivia.offset⟩
      else
        match nested inside h₁ with
        | .error e => .error e
        | .ok ⟨(contents, closing), h₂⟩ =>
          match (dataRepetition limit used c.skipTrivia.offset contents).advance
              (advances_dataRepetition limit used _ contents) closing with
          | .error e => .error e
          | .ok ⟨(bytes, after), h₃⟩ =>
            .ok ⟨(bytes, after), Nat.lt_trans h₃ (Nat.lt_trans h₂ h₁)⟩
  else (dataLiteral limit used).advance (advances_dataLiteral limit used) c

/-- The elements from `c` on, in an expression inside `depth` brackets that has `used` bytes before
them. -/
def dataElements (limit depth used : Nat) (c : Cursor) : Except SyntaxError (DataAfter c) :=
  match dataElementOf limit depth used c fun inside _ =>
    dataElements limit (depth + 1) 0 inside with
  | .error e => .error e
  | .ok ⟨(bytes, after), h₁⟩ =>
    if after.peekChar = some ',' then
      match (expect .comma).advance (advances_expect (by simp)) after with
      | .error e => .error e
      | .ok ⟨(_, next), h₂⟩ =>
        match dataElements limit depth (used + bytes.length) next with
        | .error e => .error e
        | .ok ⟨(more, stop), h₃⟩ =>
          .ok ⟨(bytes ++ more, stop), Nat.lt_trans h₃ (Nat.lt_trans h₂ h₁)⟩
    else .ok ⟨(bytes, after), h₁⟩
termination_by c.remaining
decreasing_by
  · assumption
  · exact Nat.lt_trans h₂ h₁

/-- The first element of an expression. -/
def dataElement (limit depth used : Nat) (c : Cursor) : Except SyntaxError (DataAfter c) :=
  dataElementOf limit depth used c fun inside _ => dataElements limit (depth + 1) 0 inside

/-- An expression is an element, and after a comma the rest of the expression. -/
theorem dataElements_eq (limit depth used : Nat) (c : Cursor) :
    dataElements limit depth used c =
    match dataElement limit depth used c with
    | .error e => .error e
    | .ok ⟨(bytes, after), h₁⟩ =>
      if after.peekChar = some ',' then
        match (expect .comma).advance (advances_expect (by simp)) after with
        | .error e => .error e
        | .ok ⟨(_, next), h₂⟩ =>
          match dataElements limit depth (used + bytes.length) next with
          | .error e => .error e
          | .ok ⟨(more, stop), h₃⟩ =>
            .ok ⟨(bytes ++ more, stop), Nat.lt_trans h₃ (Nat.lt_trans h₂ h₁)⟩
      else .ok ⟨(bytes, after), h₁⟩ := by
  rw [dataElements]
  rfl

def dataExpression (limit : Nat) : Rule (List UInt8) := fun c =>
  match dataElements limit 0 0 c with
  | .error e => .error e
  | .ok ⟨p, _⟩ => .ok p

theorem advances_dataExpression (limit : Nat) : Advances (dataExpression limit) := by
  intro c bytes next h
  simp only [dataExpression, StateT.run] at h
  split at h
  · cases h
  · next p hlt _ =>
    cases h
    exact hlt

end SigilAsm.Rule
