import SigilAsm.Statement.Basic
import SigilAsm.Token.Scan

/-! # Rules of the grammar

A `Rule` reads one construct: it takes a cursor and gives either what was read
and the cursor after it, or the fault that makes the text unreadable.

Each rule comes with a statement of progress: `Rule.Advances` for those that
take at least one character whenever they succeed, `Rule.Keeps` for those that
may take none.
-/

namespace SigilAsm

/-- Reads one construct from the place a cursor stands at. -/
abbrev Rule (α : Type) := StateT Cursor (Except SyntaxError) α

namespace Rule

variable {α β : Type}

/-! ## Progress -/

/-- Where the rule succeeds, no character is given back. -/
def Keeps (r : Rule α) : Prop :=
  ∀ c a next, r.run c = .ok (a, next) → next.remaining ≤ c.remaining

/-- Where the rule succeeds, at least one character was taken. -/
def Advances (r : Rule α) : Prop :=
  ∀ c a next, r.run c = .ok (a, next) → next.remaining < c.remaining

theorem Advances.keeps {r : Rule α} (h : r.Advances) : r.Keeps :=
  fun c a next hrun => Nat.le_of_lt (h c a next hrun)

theorem run_bind_eq_ok {r : Rule α} {f : α → Rule β} {c : Cursor} {b : β} {next : Cursor} :
    (r >>= f).run c = .ok (b, next) ↔
      ∃ a middle, r.run c = .ok (a, middle) ∧ (f a).run middle = .ok (b, next) := by
  rw [StateT.run_bind]
  cases h : r.run c with
  | error e => simp [bind, Except.bind]
  | ok p =>
    obtain ⟨a, middle⟩ := p
    constructor
    · intro hf
      exact ⟨a, middle, rfl, hf⟩
    · rintro ⟨_, _, heq, hf⟩
      cases heq
      exact hf

theorem run_bind_of_run {r : Rule α} {f : α → Rule β} {c middle : Cursor} {a : α}
    (h : r.run c = .ok (a, middle)) : (r >>= f).run c = (f a).run middle := by
  rw [StateT.run_bind, h]
  rfl

theorem run_pure_eq_ok {a b : α} {c next : Cursor} :
    (pure a : Rule α).run c = .ok (b, next) ↔ a = b ∧ c = next := by
  constructor
  · intro h
    cases h
    exact ⟨rfl, rfl⟩
  · rintro ⟨rfl, rfl⟩
    rfl

theorem keeps_pure (a : α) : Keeps (pure a : Rule α) := by
  intro c b next h
  obtain ⟨-, rfl⟩ := run_pure_eq_ok.mp h
  exact Nat.le_refl _

theorem advances_throw (e : SyntaxError) : Advances (throw e : Rule α) := by
  intro c b next h
  cases h

theorem Keeps.bind {r : Rule α} {f : α → Rule β} (hr : r.Keeps) (hf : ∀ a, (f a).Keeps) :
    Keeps (r >>= f) := by
  intro c b next h
  obtain ⟨a, middle, h₁, h₂⟩ := run_bind_eq_ok.mp h
  exact Nat.le_trans (hf a middle b next h₂) (hr c a middle h₁)

theorem Advances.bind {r : Rule α} {f : α → Rule β} (hr : r.Advances) (hf : ∀ a, (f a).Keeps) :
    Advances (r >>= f) := by
  intro c b next h
  obtain ⟨a, middle, h₁, h₂⟩ := run_bind_eq_ok.mp h
  exact Nat.lt_of_le_of_lt (hf a middle b next h₂) (hr c a middle h₁)

theorem Keeps.bind_advances {r : Rule α} {f : α → Rule β} (hr : r.Keeps)
    (hf : ∀ a, (f a).Advances) : Advances (r >>= f) := by
  intro c b next h
  obtain ⟨a, middle, h₁, h₂⟩ := run_bind_eq_ok.mp h
  exact Nat.lt_of_lt_of_le (hf a middle b next h₂) (hr c a middle h₁)

/-- Applies a rule that advances, and hands on the proof that it did. -/
def advance (r : Rule α) (h : r.Advances) (c : Cursor) :
    Except SyntaxError { p : α × Cursor // p.2.remaining < c.remaining } :=
  match hrun : r.run c with
  | .error e => .error e
  | .ok (a, next) => .ok ⟨(a, next), h c a next hrun⟩

/-! ## Tokens -/

def token : Rule Token := fun c =>
  match c.scan with
  | (.ok t, next) => .ok (t, next)
  | (.error e, _) => .error e

/-- The next token, which is left to be read again. -/
def peek : Rule Token := fun c =>
  match c.peek with
  | .ok t => .ok (t, c)
  | .error e => .error e

/-- Refuses a token in a place that admits something else. -/
def unexpected (expected : Expectation) (found : Token) : Rule α :=
  throw ⟨.unexpected expected found, found.extent⟩

def expect (kind : Token.Kind) : Rule Token := do
  let t ← token
  if t.kind = kind then return t else unexpected (.kind kind) t

def keyword (word : String) : Rule Unit := do
  let t ← token
  if t.isWord word then return () else unexpected (.keyword word) t

/-- A given bare word, if it comes next. -/
def keyword? (word : String) : Rule Bool := do
  let t ← peek
  if t.isWord word then
    keyword word
    return true
  else return false

def ident (sigil : Sigil) : Rule Ident := do
  let t ← expect (.name sigil)
  return ⟨t.text, t.extent⟩

def byte : Rule UInt8 := fun c =>
  match c.scanByte with
  | (.ok (b, _), next) => .ok (b, next)
  | (.error e, _) => .error e

/-- The number that decimal digits stand for. -/
def decimalValue (digits : List Char) : Nat :=
  digits.foldl (fun n d => 10 * n + (d.toNat - '0'.toNat)) 0

/-- A number of at most 64 bits, and where it stands. -/
def number : Rule (UInt64 × Extent) := do
  let t ← expect .integer
  let value := decimalValue t.text.toList
  if value < UInt64.size then return (value.toUInt64, t.extent)
  else throw ⟨.hugeNumber t.text, t.extent⟩

/-- One count of a signature. -/
def count : Rule UInt8 := do
  let (value, extent) ← number
  if value.toNat < UInt8.size then return value.toUInt8 else throw ⟨.hugeCount value, extent⟩

/-- A signature, if a bracket comes next. -/
def signature? : Rule (Option Signature) := do
  let t ← peek
  if t.kind = .openBracket then
    let _ ← expect .openBracket
    let input ← count
    let _ ← expect .arrow
    let output ← count
    let _ ← expect .closeBracket
    return some ⟨input, output⟩
  else return none

theorem run_token_eq_ok {c next : Cursor} {t : Token} :
    token.run c = .ok (t, next) ↔ c.scan = (.ok t, next) := by
  simp only [token, StateT.run]
  split <;> simp_all

theorem keeps_peek : Keeps peek := by
  intro c t next h
  simp only [peek, StateT.run] at h
  split at h
  · simp only [Except.ok.injEq, Prod.mk.injEq] at h
    exact Nat.le_of_eq (h.2 ▸ rfl)
  · cases h

theorem advances_unexpected (expected : Expectation) (found : Token) :
    Advances (unexpected expected found : Rule α) :=
  advances_throw _

theorem advances_expect {kind : Token.Kind} (h : kind ≠ .endOfInput) : Advances (expect kind) := by
  intro c t next hrun
  obtain ⟨found, middle, h₁, h₂⟩ := run_bind_eq_ok.mp hrun
  split at h₂
  · rw [← (run_pure_eq_ok.mp h₂).2]
    exact Cursor.remaining_scan_lt (run_token_eq_ok.mp h₁) (by simp_all)
  · cases h₂

theorem advances_keyword (word : String) : Advances (keyword word) := by
  intro c _ next hrun
  obtain ⟨found, middle, h₁, h₂⟩ := run_bind_eq_ok.mp hrun
  split at h₂
  · rw [← (run_pure_eq_ok.mp h₂).2]
    refine Cursor.remaining_scan_lt (run_token_eq_ok.mp h₁) ?_
    simp_all [Token.isWord]
  · cases h₂

theorem keeps_keyword? (word : String) : Keeps (keyword? word) := by
  refine keeps_peek.bind fun t => ?_
  split
  · exact (advances_keyword word).keeps.bind fun _ => keeps_pure true
  · exact keeps_pure false

theorem advances_ident (sigil : Sigil) : Advances (ident sigil) :=
  (advances_expect (by simp)).bind fun _ => keeps_pure _

theorem advances_byte : Advances byte := by
  intro c b next h
  simp only [byte, StateT.run] at h
  split at h
  · simp only [Except.ok.injEq, Prod.mk.injEq] at h
    rw [← h.2]
    exact Cursor.remaining_scanByte_lt ‹_›
  · cases h

theorem advances_number : Advances number := by
  refine (advances_expect (by simp)).bind fun t => ?_
  dsimp only
  split
  · exact keeps_pure _
  · exact (advances_throw _).keeps

theorem advances_count : Advances count := by
  refine advances_number.bind fun p => ?_
  dsimp only
  split
  · exact keeps_pure _
  · exact (advances_throw _).keeps

theorem keeps_signature? : Keeps signature? := by
  refine keeps_peek.bind fun t => ?_
  split
  · refine (advances_expect (by simp)).keeps.bind fun _ => ?_
    refine advances_count.keeps.bind fun _ => ?_
    refine (advances_expect (by simp)).keeps.bind fun _ => ?_
    refine advances_count.keeps.bind fun _ => ?_
    exact (advances_expect (by simp)).keeps.bind fun _ => keeps_pure _
  · exact keeps_pure none

end Rule

end SigilAsm
