/-! # Name tables

A name table binds names to values and remembers the order in which they were
bound.  The first binding of a name stays: binding it again changes nothing,
and whoever binds can tell, since `bind` answers whether the name was new.
-/

namespace SigilAsm

theorem isSome_lookup_iff {α : Type} {entries : List (String × α)} {name : String} :
    (entries.lookup name).isSome = true ↔ name ∈ entries.map Prod.fst := by
  rw [List.lookup_isSome_iff]
  constructor
  · rintro ⟨entry, member, same⟩
    exact List.mem_map.mpr ⟨entry, member, (beq_iff_eq.mp same).symm⟩
  · intro h
    obtain ⟨entry, member, rfl⟩ := List.mem_map.mp h
    exact ⟨entry, member, beq_self_eq_true _⟩

/-- Bindings in the order they were made, at most one for each name. -/
structure NameTable (α : Type) where
  entries : List (String × α)
  nodup : (entries.map Prod.fst).Nodup

namespace NameTable

variable {α : Type}

def empty : NameTable α := ⟨[], List.nodup_nil⟩

instance : Inhabited (NameTable α) := ⟨empty⟩

def lookup? (t : NameTable α) (name : String) : Option α := t.entries.lookup name

def contains (t : NameTable α) (name : String) : Bool := (t.lookup? name).isSome

def size (t : NameTable α) : Nat := t.entries.length

def isEmpty (t : NameTable α) : Bool := t.entries.isEmpty

theorem not_mem_of_lookup?_eq_none {t : NameTable α} {name : String}
    (h : t.lookup? name = none) : name ∉ t.entries.map Prod.fst := by
  intro bound
  obtain ⟨entry, hentry, rfl⟩ := List.mem_map.mp bound
  simpa using List.lookup_eq_none_iff.mp h entry hentry

/-- Binds a name that is not bound yet; a bound name keeps its value.  Also answers whether the
name was new. -/
def bind (t : NameTable α) (name : String) (value : α) : Bool × NameTable α :=
  match h : t.lookup? name with
  | some _ => (false, t)
  | none =>
    (true, {
      entries := t.entries ++ [(name, value)]
      nodup := by
        have fresh := not_mem_of_lookup?_eq_none h
        simp only [List.map_append, List.map_cons, List.map_nil]
        refine List.nodup_append.mpr ⟨t.nodup, by simp, ?_⟩
        intro a ha b hb
        simp only [List.mem_singleton] at hb
        subst hb
        exact fun heq => fresh (heq ▸ ha) })

/-- The table after binding a name, for those who do not ask whether it was new. -/
def insert (t : NameTable α) (name : String) (value : α) : NameTable α := (t.bind name value).2

theorem bind_of_lookup?_eq_some {t : NameTable α} {name : String} {old : α} (value : α)
    (h : t.lookup? name = some old) : t.bind name value = (false, t) := by
  unfold bind
  split
  · rfl
  · simp_all

theorem fst_bind (t : NameTable α) (name : String) (value : α) :
    (t.bind name value).1 = !t.contains name := by
  unfold bind contains
  split <;> simp_all

theorem entries_insert_of_lookup?_eq_none {t : NameTable α} {name : String} (value : α)
    (h : t.lookup? name = none) : (t.insert name value).entries = t.entries ++ [(name, value)] := by
  unfold insert bind
  split
  · simp_all
  · rfl

@[simp] theorem lookup?_empty (name : String) : (empty : NameTable α).lookup? name = none := rfl

theorem lookup?_insert (t : NameTable α) (name : String) (value : α) (other : String) :
    (t.insert name value).lookup? other =
      (t.lookup? other).or (if other = name then some value else none) := by
  cases h : t.lookup? name with
  | some old =>
    have same : t.insert name value = t := by
      rw [insert, bind_of_lookup?_eq_some value h]
    rw [same]
    by_cases equal : other = name
    · rw [equal, h]
      rfl
    · rw [if_neg equal, Option.or_none]
  | none =>
    rw [lookup?, entries_insert_of_lookup?_eq_none value h, List.lookup_append]
    by_cases equal : other = name
    · simp [equal, lookup?]
    · simp [equal, lookup?, List.lookup_cons, beq_false_of_ne equal]

theorem eq_some_or_eq_of_lookup?_insert {t : NameTable α} {name other : String} {value found : α}
    (h : (t.insert name value).lookup? other = some found) :
    t.lookup? other = some found ∨ found = value := by
  rw [lookup?_insert, Option.or_eq_some_iff] at h
  rcases h with old | ⟨-, new⟩
  · exact .inl old
  · split at new
    · exact .inr (Option.some.inj new).symm
    · cases new

theorem mem_entries_of_lookup? {t : NameTable α} {name : String} {found : α}
    (h : t.lookup? name = some found) : (name, found) ∈ t.entries := by
  obtain ⟨before, after, entries, -⟩ := List.lookup_eq_some_iff.mp h
  rw [entries]
  exact List.mem_append_right _ List.mem_cons_self

theorem mem_entries_insert {t : NameTable α} {name other : String} {value found : α}
    (h : (other, found) ∈ (t.insert name value).entries) :
    (other, found) ∈ t.entries ∨ (other = name ∧ found = value) := by
  cases known : t.lookup? name with
  | some old =>
    rw [insert, bind_of_lookup?_eq_some value known] at h
    exact .inl h
  | none =>
    rw [entries_insert_of_lookup?_eq_none value known] at h
    simpa using h

theorem contains_insert (t : NameTable α) (name : String) (value : α) (other : String) :
    (t.insert name value).contains other = true ↔ t.contains other = true ∨ other = name := by
  by_cases equal : other = name <;> simp [contains, lookup?_insert, equal]

theorem contains_iff_or_eq_of_contains {t : NameTable α} {name : String}
    (h : t.contains name = true) (other : String) :
    t.contains other = true ↔ t.contains other = true ∨ other = name := by
  constructor
  · exact .inl
  · rintro (old | rfl)
    · exact old
    · exact h

end NameTable

end SigilAsm
