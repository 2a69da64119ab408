import SigilAsm.Proofs.Name.History
import SigilAsm.Proofs.Name.Vocabulary

/-! # Numbers and names are inverse

However a vocabulary came about, its two tables number the names that were
defined in them without gaps, in the order in which the names came up.  A number
has the name that leads to it and no other, and what is not the number of a
name has none (`NameTable.Indexes`).

A further definition is told whether its name is new to its own table.  It leaves
all numbers that there are, and the other table (`Vocabulary.Extends`).
-/

namespace SigilAsm

namespace NameTable

variable {α : Type} {index : α → Nat} {t : NameTable α} {names : List String}

/-- The table numbers the names from zero on, each when it first came up, and numbers lead back to
names. -/
structure Indexes (index : α → Nat) (nameOf? : α → Option String) (t : NameTable α)
    (names : List String) : Prop where
  names : t.entries.map Prod.fst = firsts id names
  numbers : t.entries.map (fun entry => index entry.2) = List.range t.size
  inverse : ∀ name number, t.lookup? name = some number ↔ nameOf? number = some name
  beyond : ∀ number, t.size ≤ index number → nameOf? number = none

theorem contains_iff_mem (h : t.entries.map Prod.fst = firsts id names) (name : String) :
    t.contains name = true ↔ name ∈ names := by
  rw [contains, lookup?, isSome_lookup_iff, h]
  have member : name ∈ (firsts id names).map id ↔ name ∈ names.map id := mem_map_firsts
  simpa using member

theorem isNew_iff (h : t.entries.map Prod.fst = firsts id names) (name : String) (value : α) :
    (t.bind name value).1 = true ↔ name ∉ names := by
  rw [fst_bind, ← contains_iff_mem h]
  simp

/-- A definition puts its name behind the others if it is new. -/
theorem names_bind (h : t.entries.map Prod.fst = firsts id names) (name : String) (value : α) :
    (t.bind name value).2.entries.map Prod.fst = firsts id (names ++ [name]) := by
  have known := contains_iff_mem h name
  cases found : t.lookup? name with
  | some old =>
    have seen : id name ∈ names.map id := by
      rw [List.map_id]
      exact known.mp (by rw [contains, found]; rfl)
    rw [bind_of_lookup?_eq_some value found, firsts_snoc_of_mem seen, h]
  | none =>
    have fresh : id name ∉ names.map id := by
      rw [List.map_id, id, ← known, contains, found]
      exact Bool.false_ne_true
    rw [entries_bind_of_lookup?_eq_none value found, firsts_snoc_of_not_mem fresh, ← h,
      List.map_append]
    rfl

theorem NumberedBy.numbers (h : t.NumberedBy index) :
    t.entries.map (fun entry => index entry.2) = List.range t.size := by
  refine List.ext_getElem (by simp [size]) fun place here _ => ?_
  rw [List.getElem_map, List.getElem_range]
  exact h place _ (List.getElem?_eq_getElem (by simpa using here))

/-- If a number is nothing but its place, the name at this place leads to it. -/
theorem NumberedBy.lookup?_of_getElem? (h : t.NumberedBy index)
    (faithful : ∀ a b, index a = index b → a = b) {name : String} {number : α}
    (there : t.entries[index number]?.map Prod.fst = some name) :
    t.lookup? name = some number := by
  obtain ⟨⟨_, value⟩, here, rfl⟩ := Option.map_eq_some_iff.mp there
  obtain rfl : value = number := faithful _ _ (h _ _ here)
  exact lookup_of_nodup t.nodup (List.mem_of_getElem? here)

theorem NumberedBy.indexes (h : t.NumberedBy index) (faithful : ∀ a b, index a = index b → a = b)
    (names_eq : t.entries.map Prod.fst = firsts id names) :
    t.Indexes index (fun number => t.entries[index number]?.map Prod.fst) names where
  names := names_eq
  numbers := h.numbers
  inverse _ _ := ⟨h.getElem?_of_lookup?, h.lookup?_of_getElem? faithful⟩
  beyond number behind := by rw [List.getElem?_eq_none behind, Option.map_none]

theorem lookup?_bind_of_lookup? {name other : String} {value found : α}
    (h : t.lookup? other = some found) : (t.bind name value).2.lookup? other = some found := by
  have bound := lookup?_insert t name value other
  rw [h, Option.some_or] at bound
  exact bound

end NameTable

namespace Vocabulary

/-- The ways to define a name.  Two of them answer whether it was new. -/
inductive Definition where
  | defineOperation (name : String)
  | defineType (name : String)
  | withOperation (name : String)
  | withType (name : String)
  deriving DecidableEq, Repr

namespace Definition

/-- The name that is defined as an operation, if one is. -/
def operation? : Definition → Option String
  | defineOperation name | withOperation name => some name
  | defineType _ | withType _ => none

/-- The name that is defined as an operand type, if one is. -/
def operandType? : Definition → Option String
  | defineType name | withType name => some name
  | defineOperation _ | withOperation _ => none

end Definition

variable {v : Vocabulary} {operations types : List String}

def define (v : Vocabulary) : Definition → Vocabulary
  | .defineOperation name => (v.defineOperation name).2
  | .defineType name => (v.defineType name).2
  | .withOperation name => v.withOperation name
  | .withType name => v.withType name

def defineAll (v : Vocabulary) (definitions : List Definition) : Vocabulary :=
  definitions.foldl define v

def operationNames (v : Vocabulary) : List String := v.operations.entries.map Prod.fst

def typeNames (v : Vocabulary) : List String := v.types.entries.map Prod.fst

/-- What one more definition does to a vocabulary in which these names were defined. -/
structure Extends (v : Vocabulary) (operations types : List String) : Prop where
  newOperation : ∀ name, (v.defineOperation name).1 = true ↔ name ∉ operations
  newType : ∀ name, (v.defineType name).1 = true ↔ name ∉ types
  keepsOperation : ∀ d name id,
    v.operations.lookup? name = some id → (v.define d).operations.lookup? name = some id
  keepsType : ∀ d name id,
    v.types.lookup? name = some id → (v.define d).types.lookup? name = some id
  operationsApart : ∀ d : Definition, d.operation? = none → (v.define d).operations = v.operations
  typesApart : ∀ d : Definition, d.operandType? = none → (v.define d).types = v.types

/-- These names were defined, in this order. -/
structure Names (v : Vocabulary) (operations types : List String) : Prop where
  operations : v.operationNames = firsts id operations
  types : v.typeNames = firsts id types

theorem names_self (v : Vocabulary) : v.Names v.operationNames v.typeNames where
  operations := (firsts_eq_self (by simpa [operationNames] using v.operations.nodup)).symm
  types := (firsts_eq_self (by simpa [typeNames] using v.types.nodup)).symm

theorem Names.define (h : v.Names operations types) (d : Definition) :
    (v.define d).Names (operations ++ d.operation?.toList) (types ++ d.operandType?.toList) := by
  have operationsSame := (List.append_nil operations).symm ▸ h.operations
  have typesSame := (List.append_nil types).symm ▸ h.types
  cases d with
  | defineOperation name | withOperation name =>
    exact ⟨NameTable.names_bind h.operations name _, typesSame⟩
  | defineType name | withType name =>
    exact ⟨operationsSame, NameTable.names_bind h.types name _⟩

theorem Names.defineAll (h : v.Names operations types) (definitions : List Definition) :
    (v.defineAll definitions).Names (operations ++ definitions.filterMap Definition.operation?)
      (types ++ definitions.filterMap Definition.operandType?) := by
  induction definitions using List.reverseRecOn with
  | nil => simpa [Vocabulary.defineAll] using h
  | append_singleton definitions d ih =>
    have last (name? : Definition → Option String) : [d].filterMap name? = (name? d).toList := by
      cases name : name? d <;> simp [name]
    rw [Vocabulary.defineAll, List.foldl_append]
    simp only [List.filterMap_append, last, ← List.append_assoc]
    exact ih.define d

theorem Names.extends (h : v.Names operations types) : v.Extends operations types where
  newOperation name := NameTable.isNew_iff h.operations name _
  newType name := NameTable.isNew_iff h.types name _
  keepsOperation d name id found := by
    cases d with
    | defineOperation _ | withOperation _ => exact NameTable.lookup?_bind_of_lookup? found
    | defineType _ | withType _ => exact found
  keepsType d name id found := by
    cases d with
    | defineOperation _ | withOperation _ => exact found
    | defineType _ | withType _ => exact NameTable.lookup?_bind_of_lookup? found
  operationsApart d other := by
    cases d with
    | defineOperation _ | withOperation _ => cases other
    | defineType _ | withType _ => rfl
  typesApart d other := by
    cases d with
    | defineOperation _ | withOperation _ => rfl
    | defineType _ | withType _ => cases other

theorem Built.define (h : v.Built) (d : Definition) : (v.define d).Built := by
  cases d with
  | defineOperation name | withOperation name => exact h.withOperation name
  | defineType name | withType name => exact h.withType name

theorem Built.defineAll (h : v.Built) (definitions : List Definition) :
    (v.defineAll definitions).Built := by
  induction definitions generalizing v with
  | nil => exact h
  | cons d rest ih => exact ih (h.define d)

/-- However names are defined in an empty vocabulary or in the standard one, with numbers of 32 bits
for all of them: both tables number their names in the order in which they came up, their numbers
and names are inverse, and a further definition is told whether its name is new and leaves what
there is. -/
theorem indexes_of_defineAll (start : Vocabulary) (begun : start = empty ∨ start = standard)
    (definitions : List Definition) (fits : (start.defineAll definitions).Fits) :
    let v := start.defineAll definitions
    let operations := start.operationNames ++ definitions.filterMap Definition.operation?
    let types := start.typeNames ++ definitions.filterMap Definition.operandType?
    v.operations.Indexes OperationId.index v.operationName? operations ∧
      v.types.Indexes TypeId.index v.typeName? types ∧ v.Extends operations types := by
  intro v operations types
  have built : v.Built := by
    rcases begun with rfl | rfl
    · exact Built.empty.defineAll definitions
    · exact built_standard.defineAll definitions
  have numbered : v.Numbered := built.numbered fits
  have names : v.Names operations types := start.names_self.defineAll definitions
  have operationFaithful (a b : OperationId) (same : a.index = b.index) : a = b :=
    congrArg OperationId.mk same
  have typeFaithful (a b : TypeId) (same : a.index = b.index) : a = b := congrArg TypeId.mk same
  exact ⟨numbered.operations.indexes operationFaithful names.operations,
    numbered.types.indexes typeFaithful names.types, names.extends⟩

/-- A type may be called like an operation, and the standard vocabulary keeps its numbers. -/
theorem indexes_of_defineAll_standard :
    let definitions : List Definition := [
      .withOperation "emit", .defineType "add", .defineOperation "nop", .withType "add",
      .defineOperation "trap"]
    let v := standard.defineAll definitions
    let operations := standardOperations ++ ["emit", "nop", "trap"]
    let types := standardTypes ++ ["add", "add"]
    v.Fits ∧ v.operations.Indexes OperationId.index v.operationName? operations ∧
      v.types.Indexes TypeId.index v.typeName? types ∧ v.Extends operations types ∧
      v.operations.lookup? "trap" = some ⟨23⟩ ∧ v.operationName? ⟨23⟩ = some "trap" ∧
      v.operationName? ⟨24⟩ = none ∧ v.typeName? ⟨7⟩ = some "add" := by
  intro definitions v operations types
  have fits : v.Fits := ⟨by decide +kernel, by decide +kernel⟩
  obtain ⟨ofOperations, ofTypes, more⟩ := indexes_of_defineAll standard (.inr rfl) definitions fits
  refine ⟨fits, ofOperations, ofTypes, more, by decide +kernel, ?_, ?_, by decide +kernel⟩
  · exact (ofOperations.inverse "trap" ⟨23⟩).mp (by decide +kernel)
  · exact ofOperations.beyond ⟨24⟩ (by decide +kernel)

end Vocabulary

end SigilAsm
