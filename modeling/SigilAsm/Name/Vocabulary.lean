import SigilAsm.Name.Table

/-! # Builtin vocabulary

The operations and operand types that a source may use without declaring them.
Both are numbered from zero in the order of their definition.
-/

namespace SigilAsm

/-- The number of an operation in its vocabulary. -/
structure OperationId where
  index : Nat
  deriving DecidableEq, Repr

/-- The number of an operand type in its vocabulary. -/
structure TypeId where
  index : Nat
  deriving DecidableEq, Repr

/-- The builtin operations and operand types, each with its number, which is a place in its own
table. -/
structure Vocabulary where
  operations : NameTable OperationId
  types : NameTable TypeId
  operations_index_lt : ∀ entry ∈ operations.entries, entry.2.index < operations.size
  types_index_lt : ∀ entry ∈ types.entries, entry.2.index < types.size

namespace Vocabulary

def empty : Vocabulary where
  operations := .empty
  types := .empty
  operations_index_lt := by simp [NameTable.empty]
  types_index_lt := by simp [NameTable.empty]

/-- The number that a new name gets in a table of a given size.  Numbers have 32 bits. -/
def numberAt (size : Nat) : Nat := size.toUInt32.toNat

theorem numberAt_le (size : Nat) : numberAt size ≤ size := by
  unfold numberAt
  rw [Nat.toUInt32_eq, UInt32.toNat_ofNat']
  exact Nat.mod_le _ _

theorem index_lt_of_bind {α : Type} {index : α → Nat} {t : NameTable α} {name : String} {value : α}
    (h : ∀ entry ∈ t.entries, index entry.2 < t.size) (fits : index value ≤ t.size) :
    ∀ entry ∈ (t.bind name value).2.entries, index entry.2 < (t.bind name value).2.size := by
  cases found : t.lookup? name with
  | some old =>
    rw [NameTable.bind_of_lookup?_eq_some value found]
    exact h
  | none =>
    have entries := NameTable.entries_insert_of_lookup?_eq_none value found
    have size : (t.insert name value).size = t.size + 1 := by
      simp [NameTable.size, entries]
    intro entry member
    rw [show (t.bind name value).2 = t.insert name value from rfl] at member ⊢
    rw [entries, List.mem_append, List.mem_singleton] at member
    rw [size]
    rcases member with member | rfl
    · exact Nat.lt_succ_of_lt (h entry member)
    · exact Nat.lt_succ_of_le fits

/-- Numbers a new operation; one that is there already keeps its number.  Also answers whether it
was new. -/
def defineOperation (v : Vocabulary) (name : String) : Bool × Vocabulary :=
  let bound := v.operations.bind name ⟨numberAt v.operations.size⟩
  (bound.1, { v with
    operations := bound.2
    operations_index_lt := index_lt_of_bind v.operations_index_lt (numberAt_le _) })

/-- Numbers a new operand type; one that is there already keeps its number.  Also answers whether
it was new. -/
def defineType (v : Vocabulary) (name : String) : Bool × Vocabulary :=
  let bound := v.types.bind name ⟨numberAt v.types.size⟩
  (bound.1, { v with
    types := bound.2
    types_index_lt := index_lt_of_bind v.types_index_lt (numberAt_le _) })

def withOperation (v : Vocabulary) (name : String) : Vocabulary := (v.defineOperation name).2

def withType (v : Vocabulary) (name : String) : Vocabulary := (v.defineType name).2

def ofNames (operations types : List String) : Vocabulary :=
  types.foldl withType (operations.foldl withOperation empty)

def operationName? (v : Vocabulary) (id : OperationId) : Option String :=
  v.operations.entries[id.index]?.map Prod.fst

def typeName? (v : Vocabulary) (id : TypeId) : Option String :=
  v.types.entries[id.index]?.map Prod.fst

def standardOperations : List String :=
  ["nop", "add", "sub", "mul", "div", "rem", "and", "or", "xor", "shl", "shr", "eq", "ne", "lt",
    "le", "gt", "ge", "load", "store", "copy", "ret", "br"]

def standardTypes : List String := ["i8", "i16", "i32", "i64", "f32", "f64", "ptr"]

def standard : Vocabulary := ofNames standardOperations standardTypes

end Vocabulary

end SigilAsm
