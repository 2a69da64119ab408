import SigilAsm.Proofs.Program.Consistency

/-! # What a program keeps

Registrations add parts and never take one away: globals and locals stay as
they are, and functions and blocks stay what they are and only get longer lists.
So a handle that was handed out leads to the same part ever after.
-/

namespace SigilAsm

/-! ## Rows -/

/-- Every row of the first array is at the same place in the second, up to what `r` lets change. -/
def Kept {α : Type} (r : α → α → Prop) (rows rows' : Array α) : Prop :=
  ∀ (i : Nat) (a : α), rows[i]? = some a → ∃ a', rows'[i]? = some a' ∧ r a a'

namespace Kept

variable {α : Type} {r : α → α → Prop} {rows rows' rows'' : Array α}

theorem refl (reflexive : ∀ a, r a a) (rows : Array α) : Kept r rows rows :=
  fun _ a found => ⟨a, found, reflexive a⟩

theorem trans (transitive : ∀ a b c, r a b → r b c → r a c) (h : Kept r rows rows')
    (h' : Kept r rows' rows'') : Kept r rows rows'' := by
  intro i a found
  obtain ⟨b, found', first⟩ := h i a found
  obtain ⟨c, found'', second⟩ := h' i b found'
  exact ⟨c, found'', transitive a b c first second⟩

theorem push (reflexive : ∀ a, r a a) (rows : Array α) (new : α) :
    Kept r rows (rows.push new) := by
  intro i a found
  obtain ⟨there, -⟩ := Array.getElem?_eq_some_iff.mp found
  refine ⟨a, ?_, reflexive a⟩
  rw [Array.getElem?_push, if_neg (Nat.ne_of_lt there), found]

theorem modify (reflexive : ∀ a, r a a) (rows : Array α) (place : Nat) {change : α → α}
    (changed : ∀ a, r a (change a)) : Kept r rows (rows.modify place change) := by
  intro i a found
  rw [Array.getElem?_modify]
  by_cases here : place = i
  · rw [if_pos here, found]
    exact ⟨change a, rfl, changed a⟩
  · rw [if_neg here]
    exact ⟨a, found, reflexive a⟩

theorem size_le (h : Kept r rows rows') : rows.size ≤ rows'.size := by
  refine Nat.le_of_not_lt fun shorter => ?_
  obtain ⟨a, found, -⟩ := h rows'.size rows[rows'.size] (Array.getElem?_eq_getElem shorter)
  rw [Array.getElem?_size] at found
  cases found

end Kept

namespace Program

/-- The second function is the first, with some locals and blocks more. -/
structure Function.Grows (f f' : Function) : Prop where
  name : f'.name = f.name
  signature : f'.signature = f.signature
  locals : f.locals.toList <+: f'.locals.toList
  blocks : f.blocks.toList <+: f'.blocks.toList

theorem Function.Grows.refl (f : Function) : f.Grows f :=
  ⟨rfl, rfl, List.prefix_refl _, List.prefix_refl _⟩

theorem Function.Grows.trans (f g h : Function) (first : f.Grows g) (second : g.Grows h) :
    f.Grows h :=
  ⟨second.name.trans first.name, second.signature.trans first.signature,
    first.locals.trans second.locals, first.blocks.trans second.blocks⟩

theorem Function.grows_push_local (f : Function) (id : LocalId) :
    f.Grows { f with locals := f.locals.push id } :=
  ⟨rfl, rfl, by simp, List.prefix_refl _⟩

theorem Function.grows_push_block (f : Function) (id : BlockId) :
    f.Grows { f with blocks := f.blocks.push id } :=
  ⟨rfl, rfl, List.prefix_refl _, by simp⟩

/-- The second block is the first, with some instructions more. -/
structure Block.Grows (b b' : Block) : Prop where
  function : b'.function = b.function
  signature : b'.signature = b.signature
  instructions : b.instructions.toList <+: b'.instructions.toList

theorem Block.Grows.refl (b : Block) : b.Grows b := ⟨rfl, rfl, List.prefix_refl _⟩

theorem Block.Grows.trans (a b c : Block) (first : a.Grows b) (second : b.Grows c) : a.Grows c :=
  ⟨second.function.trans first.function, second.signature.trans first.signature,
    first.instructions.trans second.instructions⟩

theorem Block.grows_push (b : Block) (i : Instruction) :
    b.Grows { b with instructions := b.instructions.push i } :=
  ⟨rfl, rfl, by simp⟩

/-! ## Programs -/

/-- All parts of the first program are parts of the second. -/
structure Retains (p p' : Program) : Prop where
  globals : Kept Eq p.globals p'.globals
  functions : Kept Function.Grows p.functions p'.functions
  locals : Kept Eq p.locals p'.locals
  blocks : Kept Block.Grows p.blocks p'.blocks

namespace Retains

variable {p p' p'' : Program}

theorem refl (p : Program) : p.Retains p :=
  ⟨.refl Eq.refl _, .refl Function.Grows.refl _, .refl Eq.refl _, .refl Block.Grows.refl _⟩

theorem trans (h : p.Retains p') (h' : p'.Retains p'') : p.Retains p'' where
  globals := h.globals.trans (fun _ _ _ => Eq.trans) h'.globals
  functions := h.functions.trans Function.Grows.trans h'.functions
  locals := h.locals.trans (fun _ _ _ => Eq.trans) h'.locals
  blocks := h.blocks.trans Block.Grows.trans h'.blocks

theorem local? (h : p.Retains p') {id : LocalId} {l : Local} (found : p.local? id = some l) :
    p'.local? id = some l := by
  obtain ⟨l', found', rfl⟩ := h.locals id.index l found
  exact found'

theorem function? (h : p.Retains p') {id : FunctionId} {f : Function}
    (found : p.function? id = some f) : ∃ f', p'.function? id = some f' ∧ f.Grows f' :=
  h.functions id.index f found

theorem block? (h : p.Retains p') {id : BlockId} {b : Block} (found : p.block? id = some b) :
    ∃ b', p'.block? id = some b' ∧ b.Grows b' :=
  h.blocks id.index b found

/-! ### Registrations -/

theorem beginModule (p : Program) (x : String) : p.Retains (p.beginModule x) :=
  ⟨.refl Eq.refl _, .refl Function.Grows.refl _, .refl Eq.refl _, .refl Block.Grows.refl _⟩

theorem addGlobal (p : Program) (x : String) (m : Mutability) (data : List UInt8) :
    p.Retains (p.addGlobal x m data).2 :=
  { refl p with globals := .push Eq.refl _ _ }

theorem addFunction (p : Program) (x : String) (s : Signature) :
    p.Retains (p.addFunction x s).2 :=
  { refl p with functions := .push Function.Grows.refl _ _ }

theorem addLocal (p : Program) (f : FunctionId) (x : String) : p.Retains (p.addLocal f x).2 :=
  { refl p with
    locals := .push Eq.refl _ _
    functions := .modify Function.Grows.refl _ _ (·.grows_push_local _) }

theorem addBlock (p : Program) (f : FunctionId) (s : Signature) : p.Retains (p.addBlock f s).2 :=
  { refl p with
    blocks := .push Block.Grows.refl _ _
    functions := .modify Function.Grows.refl _ _ (·.grows_push_block _) }

theorem emit (p : Program) (k : BlockId) (i : Instruction) : p.Retains (p.emit k i) :=
  { refl p with blocks := .modify Block.Grows.refl _ _ (·.grows_push i) }

end Retains

end Program

end SigilAsm
