import SigilAsm.Proofs.Elaboration.Parametricity

/-! # What a builder is told

The calls that a builder is told while a source text is taken in are read off
the record of `Logged`, which changes nothing else about the run.  They are the
same for every builder up to handles, and a handle that is given to the builder
is always the answer to an earlier call, which is the same for every builder.
-/

namespace SigilAsm

/-- The calls of a run in order, each with the answer of the builder. -/
def calls {σ : Type} [Builder σ] (settings : Settings) (target : σ) (source : String) :
    List Registration :=
  (elaborate settings (Logged.start target) source).2.target.registrations.toList

/-! ## Answers -/

namespace Registration

def functionAnswer? : Registration → Option FunctionId
  | function _ _ id => some id
  | _ => none

def globalAnswer? : Registration → Option GlobalId
  | global _ _ _ id => some id
  | _ => none

def localAnswer? : Registration → Option LocalId
  | localName _ _ id => some id
  | _ => none

def blockAnswer? : Registration → Option BlockId
  | block _ _ id => some id
  | _ => none

end Registration

section Answered

variable {η : Type} {answer? : Registration → Option η} {a b : List Registration}
  {r r' : Registration} {x y : η}

/-- In two records the same call was answered with the one handle and with the other. -/
def Answered (answer? : Registration → Option η) (a b : List Registration) (x y : η) : Prop :=
  ∃ n : Nat, a[n]?.bind answer? = some x ∧ b[n]?.bind answer? = some y

theorem Answered.snoc (h : Answered answer? a b x y) (r r' : Registration) :
    Answered answer? (a ++ [r]) (b ++ [r']) x y := by
  have earlier {l : List Registration} {r : Registration} {n : Nat} {z : η}
      (h : l[n]?.bind answer? = some z) : (l ++ [r])[n]?.bind answer? = some z := by
    obtain ⟨q, here, answer⟩ := Option.bind_eq_some_iff.mp h
    have lt := (List.getElem?_eq_some_iff.mp here).1
    rw [List.getElem?_append_left lt, here]
    exact answer
  obtain ⟨n, first, second⟩ := h
  exact ⟨n, earlier first, earlier second⟩

theorem Answered.last (lengths : a.length = b.length) (first : answer? r = some x)
    (second : answer? r' = some y) : Answered answer? (a ++ [r]) (b ++ [r']) x y := by
  refine ⟨a.length, ?_, ?_⟩
  · simpa using first
  · simpa [lengths] using second

end Answered

/-- The handles of two builders that answered the same calls. -/
def answers (a b : List Registration) : HandleRelation where
  function := Answered Registration.functionAnswer? a b
  global := Answered Registration.globalAnswer? a b
  localName := Answered Registration.localAnswer? a b
  block := Answered Registration.blockAnswer? a b

theorem answers_within_snoc (a b : List Registration) (r r' : Registration) :
    (answers a b).Within (answers (a ++ [r]) (b ++ [r'])) :=
  ⟨fun _ _ h => h.snoc r r', fun _ _ h => h.snoc r r', fun _ _ h => h.snoc r r',
    fun _ _ h => h.snoc r r'⟩

/-- The handles themselves. -/
def HandleRelation.equality : HandleRelation := ⟨Eq, Eq, Eq, Eq⟩

theorem HandleRelation.SameInstruction.eq {i j : Instruction}
    (h : equality.SameInstruction i j) : i = j := by
  have operand {o o' : Operand} (h : equality.SameOperand o o') : o = o' := by
    cases h with
    | ofLocal same => exact congrArg Operand.ofLocal same
    | ofGlobal same => exact congrArg Operand.ofGlobal same
    | ofType id => rfl
    | immediate value => rfl
  cases h with
  | call same => exact congrArg Instruction.call same
  | operation id same =>
    have equal := same.imp fun _ _ => operand
    rw [List.forall₂_eq_eq_eq] at equal
    rw [equal]

/-! ## Equal calls -/

/-- The same operation with the same arguments, where a handle among them is the answer to the same
call of the records `a` and `b`.  What is answered may differ. -/
inductive SameCall (a b : List Registration) : Registration → Registration → Prop
  | module (name : String) : SameCall a b (.module name) (.module name)
  | function (name : String) (signature : Signature) (f g : FunctionId) :
      SameCall a b (.function name signature f) (.function name signature g)
  | global (name : String) (mutability : Mutability) (data : List UInt8) (x y : GlobalId) :
      SameCall a b (.global name mutability data x) (.global name mutability data y)
  | localName {f g : FunctionId} (name : String) (x y : LocalId) : (answers a b).function f g →
      SameCall a b (.localName f name x) (.localName g name y)
  | block {f g : FunctionId} (signature : Signature) (k l : BlockId) : (answers a b).function f g →
      SameCall a b (.block f signature k) (.block g signature l)
  | instruction {f g : FunctionId} {k l : BlockId} {i j : Instruction} :
      (answers a b).function f g → (answers a b).block k l → (answers a b).SameInstruction i j →
      SameCall a b (.instruction f k i) (.instruction g l j)

/-- As many calls, and each is the same, given the calls before it. -/
def SameCalls (a b : List Registration) : Prop :=
  ∀ n : Nat, Option.Rel (SameCall (a.take n) (b.take n)) a[n]? b[n]?

namespace SameCalls

variable {a b : List Registration} {r r' : Registration}

theorem length_eq (h : SameCalls a b) : a.length = b.length := by
  have first := eq_none_of_rel (h a.length) (List.getElem?_eq_none (Nat.le_refl _))
  have second : a[b.length]? = none := by
    cases found : a[b.length]? with
    | none => rfl
    | some r =>
      obtain ⟨r', found', -⟩ := exists_of_rel_some (h b.length) found
      rw [List.getElem?_eq_none (Nat.le_refl _)] at found'
      cases found'
  exact Nat.le_antisymm (List.getElem?_eq_none_iff.mp second) (List.getElem?_eq_none_iff.mp first)

theorem snoc (h : SameCalls a b) (same : SameCall a b r r') : SameCalls (a ++ [r]) (b ++ [r']) := by
  intro n
  have lengths := h.length_eq
  rcases Nat.lt_trichotomy n a.length with before | rfl | after
  · have first : (a ++ [r]).take n = a.take n := List.take_append_of_le_length (Nat.le_of_lt before)
    have second : (b ++ [r']).take n = b.take n := List.take_append_of_le_length (by omega)
    rw [List.getElem?_append_left before, List.getElem?_append_left (lengths ▸ before), first,
      second]
    exact h n
  · simpa [lengths] using Option.Rel.some same
  · have beyond : a.length + 1 ≤ n := after
    rw [List.getElem?_eq_none (by simpa using beyond),
      List.getElem?_eq_none (by simpa [← lengths] using beyond)]
    exact .none

end SameCalls

namespace Logged

variable {σ τ : Type}

/-- Builders whose records have the same calls, and the handles that those answered. -/
def comparison (σ τ : Type) : Comparison (Logged σ) (Logged τ) where
  related s t := SameCalls s.registrations.toList t.registrations.toList
  handles s t := answers s.registrations.toList t.registrations.toList

theorem leads_record {s : Logged σ} {t : Logged τ} {r r' : Registration}
    (h : (comparison σ τ).related s t)
    (same : SameCall s.registrations.toList t.registrations.toList r r') (x : σ) (y : τ) :
    (comparison σ τ).Leads s t (s.record x r) (t.record y r') where
  related := by
    simp only [comparison, record, Array.toList_push]
    exact h.snoc same
  handles := by
    simp only [comparison, record, Array.toList_push]
    exact answers_within_snoc _ _ r r'

theorem answered_record {η : Type} (answer? : Registration → Option η) {s : Logged σ} {t : Logged τ}
    {r r' : Registration} {u v : η} (h : (comparison σ τ).related s t)
    (first : answer? r = some u) (second : answer? r' = some v) (x : σ) (y : τ) :
    Answered answer? (s.record x r).registrations.toList (t.record y r').registrations.toList
      u v := by
  simp only [record, Array.toList_push]
  exact .last h.length_eq first second

/-- Any two builders are told the same calls. -/
def sameCalls (σ τ : Type) [Builder σ] [Builder τ] : Correspondence (Logged σ) (Logged τ) where
  toComparison := comparison σ τ
  beginModule name h := leads_record h (.module name) _ _
  addFunction name signature h :=
    ⟨leads_record h (.function name signature _ _) _ _,
      answered_record Registration.functionAnswer? h rfl rfl _ _⟩
  addGlobal name mutability data h :=
    ⟨leads_record h (.global name mutability data _ _) _ _,
      answered_record Registration.globalAnswer? h rfl rfl _ _⟩
  addLocal name h function :=
    ⟨leads_record h (.localName name _ _ function) _ _,
      answered_record Registration.localAnswer? h rfl rfl _ _⟩
  addBlock signature h function :=
    ⟨leads_record h (.block signature _ _ function) _ _,
      answered_record Registration.blockAnswer? h rfl rfl _ _⟩
  emit h function block instruction :=
    leads_record h (.instruction function block instruction) _ _

/-! ## The record changes nothing -/

/-- With and without the record the builder goes through the same states. -/
def transparent (σ : Type) [Builder σ] : Correspondence (Logged σ) σ where
  related s t := s.target = t
  handles _ _ := .equality
  beginModule _ h := by
    subst h
    exact ⟨rfl, .refl _⟩
  addFunction _ _ h := by
    subst h
    exact ⟨⟨rfl, .refl _⟩, rfl⟩
  addGlobal _ _ _ h := by
    subst h
    exact ⟨⟨rfl, .refl _⟩, rfl⟩
  addLocal _ h function := by
    subst h
    cases function
    exact ⟨⟨rfl, .refl _⟩, rfl⟩
  addBlock _ h function := by
    subst h
    cases function
    exact ⟨⟨rfl, .refl _⟩, rfl⟩
  emit h function block instruction := by
    subst h
    cases function
    cases block
    cases instruction.eq
    exact ⟨rfl, .refl _⟩

end Logged

/-! ## The same run for every builder -/

variable {σ τ : Type} [Builder σ] [Builder τ]

/-- Keeping a record of the calls has no influence on a run: the builder ends in the same state, the
same is reported, and the same is told of the module. -/
theorem elaborate_logged (settings : Settings) (a : σ) (source : String) :
    (elaborate settings (Logged.start a) source).1.map Outline.withoutHandles =
        (elaborate settings a source).1.map Outline.withoutHandles ∧
      (elaborate settings (Logged.start a) source).2.diagnostics =
        (elaborate settings a source).2.diagnostics ∧
      (elaborate settings (Logged.start a) source).2.target.target =
        (elaborate settings a source).2.target := by
  obtain ⟨outlines, related⟩ :=
    elaborate_related (Logged.transparent σ) (a := Logged.start a) (b := a) rfl settings source
  exact ⟨outlines, related.alike.diagnostics, related.target⟩

/-- Two builders, whatever handles they hand out, see the same run: the text is accepted or refused
alike, with the same fault, the same outline but for handles and the same diagnostics, and the
builders are told the same calls. -/
theorem elaborate_parametric (settings : Settings) (a : σ) (b : τ) (source : String) :
    (elaborate settings a source).1.map Outline.withoutHandles =
        (elaborate settings b source).1.map Outline.withoutHandles ∧
      (elaborate settings a source).2.diagnostics = (elaborate settings b source).2.diagnostics ∧
      SameCalls (calls settings a source) (calls settings b source) := by
  obtain ⟨outlines, diagnostics, -⟩ := elaborate_logged settings a source
  obtain ⟨outlines', diagnostics', -⟩ := elaborate_logged settings b source
  -- Both records begin empty, and empty records have the same calls.
  obtain ⟨same, related⟩ := elaborate_related (Logged.sameCalls σ τ) (a := Logged.start a)
    (b := Logged.start b) (fun _ => .none) settings source
  refine ⟨?_, ?_, related.target⟩
  · rw [← outlines, ← outlines', same]
  · rw [← diagnostics, ← diagnostics', related.alike.diagnostics]

end SigilAsm
