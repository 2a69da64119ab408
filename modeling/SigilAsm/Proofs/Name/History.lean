import Mathlib.Data.Finset.Card
import SigilAsm.Name.Table
import SigilAsm.Proofs.Elaboration.Firsts

/-! # Histories of a table

A table that names are bound in, and that is cleared now and then, is told by
the bindings that were asked for since it was cleared last.  It holds the first
binding of each name, in the order in which the names came up, and whatever is
asked of it is answered from there (`NameTable.Shows`).
-/

namespace SigilAsm

/-- A name leads to what its first element says. -/
theorem lookup_firsts {α : Type} (bindings : List (String × α)) (name : String) :
    (firsts Prod.fst bindings).lookup name = bindings.lookup name := by
  induction bindings using List.reverseRecOn with
  | nil => rfl
  | append_singleton bindings binding ih =>
    by_cases seen : binding.1 ∈ bindings.map Prod.fst
    · -- The name leads to an earlier element already, whichever name it is.
      have later : (bindings.lookup name).or ([binding].lookup name) = bindings.lookup name := by
        by_cases same : name = binding.1
        · have bound := isSome_lookup_iff.mpr (same ▸ seen)
          exact Option.or_of_isSome bound
        · have other : [binding].lookup name = none := by
            rw [List.lookup_cons, beq_false_of_ne same]
            rfl
          rw [other, Option.or_none]
      rw [firsts_snoc_of_mem seen, ih, List.lookup_append, later]
    · rw [firsts_snoc_of_not_mem seen, List.lookup_append, ih, List.lookup_append]

namespace NameTable

/-- What is done to a table. -/
inductive Change (α : Type) where
  | bind (name : String) (value : α)
  | clear

variable {α : Type} {t : NameTable α} {bindings : List (String × α)}

/-- The binding that is asked for, if one is. -/
def Change.binding? : Change α → Option (String × α)
  | bind name value => some (name, value)
  | clear => none

def change (t : NameTable α) : Change α → NameTable α
  | .bind name value => (t.bind name value).2
  | .clear => .empty

/-- A new table after the changes, one after the other. -/
def changed (changes : List (Change α)) : NameTable α := changes.foldl change .empty

/-- The bindings that were asked for since the table was cleared last. -/
def sinceCleared (changes : List (Change α)) : List (String × α) :=
  (changes.reverse.takeWhile (·.binding?.isSome)).reverse.filterMap Change.binding?

theorem sinceCleared_bind (changes : List (Change α)) (name : String) (value : α) :
    sinceCleared (changes ++ [.bind name value]) = sinceCleared changes ++ [(name, value)] := by
  simp [sinceCleared, Change.binding?]

theorem sinceCleared_clear (changes : List (Change α)) :
    sinceCleared (changes ++ [.clear]) = [] := by
  simp [sinceCleared, Change.binding?]

/-- One more binding that is asked for is one more element of the list. -/
theorem entries_bind_of_firsts (h : t.entries = firsts Prod.fst bindings) (name : String)
    (value : α) :
    (t.bind name value).2.entries = firsts Prod.fst (bindings ++ [(name, value)]) := by
  have same : t.lookup? name = bindings.lookup name := by
    rw [lookup?, h, lookup_firsts]
  cases known : t.lookup? name with
  | some old =>
    have seen : name ∈ bindings.map Prod.fst := by
      rw [← isSome_lookup_iff, ← same, known]
      rfl
    rw [bind_of_lookup?_eq_some value known, firsts_snoc_of_mem seen, h]
  | none =>
    have fresh : name ∉ bindings.map Prod.fst := by
      rw [← isSome_lookup_iff, ← same, known]
      exact Bool.false_ne_true
    rw [firsts_snoc_of_not_mem fresh, ← h]
    exact entries_insert_of_lookup?_eq_none value known

theorem entries_changed (changes : List (Change α)) :
    (changed changes).entries = firsts Prod.fst (sinceCleared changes) := by
  induction changes using List.reverseRecOn with
  | nil => rfl
  | append_singleton changes last ih =>
    rw [changed, List.foldl_append]
    cases last with
    | bind name value =>
      rw [sinceCleared_bind]
      exact entries_bind_of_firsts ih name value
    | clear =>
      rw [sinceCleared_clear]
      rfl

/-- What a table shows of the bindings that were asked for. -/
structure Shows (t : NameTable α) (bindings : List (String × α)) : Prop where
  -- One more name is new if it was not asked for before.
  isNew : ∀ name value, (t.bind name value).1 = true ↔ name ∉ bindings.map Prod.fst
  lookup? : ∀ name, t.lookup? name = bindings.lookup name
  contains : ∀ name, t.contains name = true ↔ name ∈ bindings.map Prod.fst
  isEmpty : t.isEmpty = true ↔ bindings = []
  size : t.size = (bindings.map Prod.fst).toFinset.card
  entries : t.entries = firsts Prod.fst bindings

theorem card_names_firsts (bindings : List (String × α)) :
    (bindings.map Prod.fst).toFinset.card = (firsts Prod.fst bindings).length := by
  have names : (bindings.map Prod.fst).toFinset =
      ((firsts Prod.fst bindings).map Prod.fst).toFinset := by
    ext name
    rw [List.mem_toFinset, List.mem_toFinset, mem_map_firsts]
  rw [names, List.toFinset_card_of_nodup (nodup_firsts bindings), List.length_map]

theorem shows_of_entries (h : t.entries = firsts Prod.fst bindings) : t.Shows bindings := by
  have found (name : String) : t.lookup? name = bindings.lookup name := by
    rw [NameTable.lookup?, h, lookup_firsts]
  have bound (name : String) : t.contains name = true ↔ name ∈ bindings.map Prod.fst := by
    rw [NameTable.contains, found, isSome_lookup_iff]
  exact {
    isNew := fun name value => by
      rw [fst_bind, ← bound]
      simp
    lookup? := found
    contains := bound
    isEmpty := by
      have nothing : bindings = [] ↔ firsts Prod.fst bindings = [] := by
        rw [← List.map_eq_nil_iff (f := Prod.fst), ← List.map_eq_nil_iff (f := Prod.fst)]
        simp only [List.eq_nil_iff_forall_not_mem, mem_map_firsts]
      rw [NameTable.isEmpty, h, nothing, List.isEmpty_iff]
    size := by rw [NameTable.size, h, card_names_firsts]
    entries := h }

/-- Whatever was done to a table, it shows the bindings that were asked for since it was cleared
last: the first of each name, in the order in which the names came up. -/
theorem changed_shows (changes : List (Change α)) :
    (changed changes).Shows (sinceCleared changes) :=
  shows_of_entries (entries_changed changes)

/-- What was bound before the table was cleared is gone, and `y` keeps its first value. -/
example : (changed [.bind "x" 1, .clear, .bind "y" 2, .bind "x" 3, .bind "y" 4]).entries =
    [("y", 2), ("x", 3)] := by decide

end NameTable

end SigilAsm
