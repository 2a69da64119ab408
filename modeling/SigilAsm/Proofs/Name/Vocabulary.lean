import SigilAsm.Name.Vocabulary

/-! # Numbers and names of a vocabulary

A vocabulary that was built by definitions numbers the names of each of its
tables by their places (`Vocabulary.Built.numbered`), as long as there are
numbers left for them.  So a number leads back to the name that it was looked up
by.
-/

namespace SigilAsm

namespace NameTable

variable {α : Type} {index : α → Nat} {t : NameTable α} {name : String} {value found : α}

/-- Every value is the place of its name. -/
def NumberedBy (index : α → Nat) (t : NameTable α) : Prop :=
  ∀ place entry, t.entries[place]? = some entry → index entry.2 = place

theorem entries_bind_of_lookup?_eq_none (value : α) (h : t.lookup? name = none) :
    (t.bind name value).2.entries = t.entries ++ [(name, value)] :=
  entries_insert_of_lookup?_eq_none value h

theorem size_bind_le (t : NameTable α) (name : String) (value : α) :
    t.size ≤ (t.bind name value).2.size := by
  cases known : t.lookup? name with
  | some old => simp [bind_of_lookup?_eq_some value known]
  | none => simp [size, entries_bind_of_lookup?_eq_none value known]

/-- A new name keeps its table numbered if its value is the next place. -/
theorem NumberedBy.bind (h : t.NumberedBy index)
    (next : t.size < (t.bind name value).2.size → index value = t.size) :
    (t.bind name value).2.NumberedBy index := by
  cases known : t.lookup? name with
  | some old =>
    rw [bind_of_lookup?_eq_some value known]
    exact h
  | none =>
    have entries := entries_bind_of_lookup?_eq_none value known
    intro place entry found
    rw [entries, List.getElem?_append] at found
    split at found
    · exact h place entry found
    · next behind =>
      obtain ⟨last, rfl⟩ : place - t.entries.length = 0 ∧ (name, value) = entry := by
        cases offset : place - t.entries.length with
        | zero => simpa [offset] using found
        | succ n => simp [offset] at found
      rw [next (by simp [size, entries]), size]
      omega

/-- The name that a value was looked up by stands at the place that is its number. -/
theorem NumberedBy.getElem?_of_lookup? (h : t.NumberedBy index)
    (looked : t.lookup? name = some found) : t.entries[index found]?.map Prod.fst = some name := by
  obtain ⟨place, here⟩ := List.mem_iff_getElem?.mp (mem_entries_of_lookup? looked)
  rw [h place _ here, here, Option.map_some]

end NameTable

namespace Vocabulary

/-- The vocabularies that come of definitions, in any order and with any names. -/
inductive Built : Vocabulary → Prop
  | empty : Built .empty
  | withOperation {v : Vocabulary} (name : String) : Built v → Built (v.withOperation name)
  | withType {v : Vocabulary} (name : String) : Built v → Built (v.withType name)

/-- There are numbers of 32 bits for all names of a table. -/
structure Fits (v : Vocabulary) : Prop where
  operations : v.operations.size ≤ 0x100000000
  types : v.types.size ≤ 0x100000000

structure Numbered (v : Vocabulary) : Prop where
  operations : v.operations.NumberedBy OperationId.index
  types : v.types.NumberedBy TypeId.index

theorem numberAt_of_lt {size : Nat} (h : size < 0x100000000) : numberAt size = size := by
  rw [numberAt, Nat.toUInt32_eq, UInt32.toNat_ofNat']
  exact Nat.mod_eq_of_lt h

theorem Built.numbered {v : Vocabulary} (h : v.Built) (fits : v.Fits) : v.Numbered := by
  induction h with
  | empty => exact ⟨nofun, nofun⟩
  | @withOperation v name _ ih =>
    have numbered := ih ⟨Nat.le_trans (NameTable.size_bind_le ..) fits.operations, fits.types⟩
    exact ⟨numbered.operations.bind fun more =>
      numberAt_of_lt (Nat.lt_of_lt_of_le more fits.operations), numbered.types⟩
  | @withType v name _ ih =>
    have numbered := ih ⟨fits.operations, Nat.le_trans (NameTable.size_bind_le ..) fits.types⟩
    exact ⟨numbered.operations, numbered.types.bind fun more =>
      numberAt_of_lt (Nat.lt_of_lt_of_le more fits.types)⟩

variable {v : Vocabulary} {name : String}

theorem Numbered.operationName?_of_lookup? (h : v.Numbered) {id : OperationId}
    (found : v.operations.lookup? name = some id) : v.operationName? id = some name :=
  h.operations.getElem?_of_lookup? found

theorem Numbered.typeName?_of_lookup? (h : v.Numbered) {id : TypeId}
    (found : v.types.lookup? name = some id) : v.typeName? id = some name :=
  h.types.getElem?_of_lookup? found

/-! ## Lists of names -/

theorem Built.withOperations (h : v.Built) (names : List String) :
    (names.foldl Vocabulary.withOperation v).Built := by
  induction names generalizing v with
  | nil => exact h
  | cons name names ih => exact ih (h.withOperation name)

theorem Built.withTypes (h : v.Built) (names : List String) :
    (names.foldl Vocabulary.withType v).Built := by
  induction names generalizing v with
  | nil => exact h
  | cons name names ih => exact ih (h.withType name)

theorem built_ofNames (operations types : List String) : (ofNames operations types).Built :=
  (Built.empty.withOperations operations).withTypes types

theorem built_standard : standard.Built := built_ofNames _ _

end Vocabulary

end SigilAsm
