import Mathlib.Data.List.Forall2
import Mathlib.Data.List.Induction

/-! # First of their key

What is declared twice counts once, with what its first declaration says.
`firsts` keeps of a list the elements whose key is new, and a key is known by
its place among them, which no later element changes.
-/

namespace SigilAsm

variable {α β κ : Type}

/-- Where no two elements have the same key, each is found by its own. -/
theorem lookup_of_nodup [BEq κ] [LawfulBEq κ] {l : List (κ × α)} {x : κ × α}
    (distinct : (l.map Prod.fst).Nodup) (member : x ∈ l) : l.lookup x.1 = some x.2 := by
  obtain ⟨before, after, rfl⟩ := List.append_of_mem member
  rw [List.map_append, List.nodup_append] at distinct
  refine List.lookup_eq_some_iff.mpr ⟨before, after, rfl, fun y earlier => ?_⟩
  have apart : y.1 ≠ x.1 := distinct.2.2 y.1 (List.mem_map_of_mem earlier) x.1 (by simp)
  simpa using apart.symm

/-- Each element of a list with those before it, where `before` comes before all. -/
def precededBy (before : List α) : List α → List (List α × α)
  | [] => []
  | a :: rest => (before, a) :: precededBy (before ++ [a]) rest

theorem precededBy_snoc (before l : List α) (a : α) :
    precededBy before (l ++ [a]) = precededBy before l ++ [(before ++ l, a)] := by
  induction l generalizing before with
  | nil => simp [precededBy]
  | cons b l ih => simp [precededBy, ih]

variable [DecidableEq κ] (key : α → κ)

/-- The elements whose key no element before them has. -/
def firsts (l : List α) : List α :=
  (precededBy [] l).filterMap fun (before, a) => if key a ∈ before.map key then none else some a

/-- How many other keys come before the first element of a key. -/
def placeOf (k : κ) (l : List α) : Nat := (firsts key l).findIdx (key · = k)

/-- The place of a key, if some element has it. -/
def placeOf? (k : κ) (l : List α) : Option Nat :=
  if k ∈ l.map key then some (placeOf key k l) else none

/-- The places of the elements that pass a test. -/
def placesWhere (p : α → Bool) (l : List α) : List Nat := (l.zipIdx.filter (p ·.1)).map Prod.snd

theorem placesWhere_snoc (p : α → Bool) (l : List α) (a : α) :
    placesWhere p (l ++ [a]) = placesWhere p l ++ if p a then [l.length] else [] := by
  by_cases h : p a = true <;> simp [placesWhere, List.zipIdx_append, h]

theorem placesWhere_eq_nil {p : α → Bool} {l : List α} (h : ∀ a ∈ l, p a = false) :
    placesWhere p l = [] := by
  induction l using List.reverseRecOn with
  | nil => rfl
  | append_singleton l a ih =>
    rw [placesWhere_snoc, ih fun b member => h b (List.mem_append_left _ member), h a (by simp)]
    rfl

theorem placesWhere_map (p : β → Bool) (f : α → β) (l : List α) :
    placesWhere p (l.map f) = placesWhere (fun a => p (f a)) l := by
  simp [placesWhere, List.zipIdx_map, List.filter_map, Function.comp_def]

/-- At the places stand, one after the other, the elements that pass the test. -/
theorem forall₂_placesWhere (p : α → Bool) (l : List α) :
    List.Forall₂ (fun i a => l[i]? = some a ∧ p a = true) (placesWhere p l) (l.filter p) := by
  have both : l.filter p = (l.zipIdx.filter (p ·.1)).map Prod.fst := by
    conv_lhs => rw [← List.zipIdx_map_fst 0 l, List.filter_map]
    rfl
  rw [both, placesWhere, List.forall₂_map_left_iff, List.forall₂_map_right_iff, List.forall₂_same]
  intro x member
  obtain ⟨inside, passes⟩ := List.mem_filter.mp member
  exact ⟨List.mem_zipIdx_iff_getElem?.mp inside, passes⟩

/-- Whatever holds the elements of a list at their places shows those that pass the test. -/
theorem map_placesWhere {p : α → Bool} {l : List α} {shown : Nat → β} {r : α → β}
    (here : ∀ i a, l[i]? = some a → shown i = r a) :
    (placesWhere p l).map shown = (l.filter p).map r := by
  rw [← List.forall₂_eq_eq_eq, List.forall₂_map_left_iff, List.forall₂_map_right_iff]
  exact (forall₂_placesWhere p l).imp fun i a h => here i a h.1

variable {key} {l : List α} {a : α} {k : κ}

theorem firsts_snoc_of_mem (h : key a ∈ l.map key) : firsts key (l ++ [a]) = firsts key l := by
  rw [firsts, precededBy_snoc, List.filterMap_append]
  simp only [List.nil_append, List.filterMap_cons, List.filterMap_nil, if_pos h, List.append_nil]
  rfl

theorem firsts_snoc_of_not_mem (h : key a ∉ l.map key) :
    firsts key (l ++ [a]) = firsts key l ++ [a] := by
  rw [firsts, precededBy_snoc, List.filterMap_append]
  simp only [List.nil_append, List.filterMap_cons, List.filterMap_nil, if_neg h]
  rfl

theorem firsts_eq_self (h : (l.map key).Nodup) : firsts key l = l := by
  induction l using List.reverseRecOn with
  | nil => rfl
  | append_singleton l a ih =>
    rw [List.map_append, List.nodup_append] at h
    obtain ⟨nodup, -, apart⟩ := h
    have fresh : key a ∉ l.map key := fun member => apart _ member _ (by simp) rfl
    rw [firsts_snoc_of_not_mem fresh, ih nodup]

theorem mem_of_mem_firsts (h : a ∈ firsts key l) : a ∈ l := by
  induction l using List.reverseRecOn with
  | nil => exact h
  | append_singleton l b ih =>
    by_cases seen : key b ∈ l.map key
    · exact List.mem_append_left _ (ih (by rwa [firsts_snoc_of_mem seen] at h))
    · rw [firsts_snoc_of_not_mem seen] at h
      exact List.mem_append.mpr ((List.mem_append.mp h).imp_left ih)

theorem mem_map_firsts : k ∈ (firsts key l).map key ↔ k ∈ l.map key := by
  induction l using List.reverseRecOn with
  | nil => rfl
  | append_singleton l a ih =>
    by_cases h : key a ∈ l.map key
    · rw [firsts_snoc_of_mem h, ih, List.map_append, List.mem_append]
      constructor
      · exact .inl
      · rintro (old | new)
        · exact old
        · rwa [List.mem_singleton.mp new]
    · rw [firsts_snoc_of_not_mem h, List.map_append, List.mem_append, ih, List.map_append,
        List.mem_append]

theorem nodup_firsts (l : List α) : ((firsts key l).map key).Nodup := by
  induction l using List.reverseRecOn with
  | nil => exact List.nodup_nil
  | append_singleton l a ih =>
    by_cases h : key a ∈ l.map key
    · rwa [firsts_snoc_of_mem h]
    · rw [firsts_snoc_of_not_mem h, List.map_append, List.nodup_append]
      refine ⟨ih, by simp, ?_⟩
      rintro k member _ new rfl
      rw [List.mem_singleton.mp new] at member
      exact h (mem_map_firsts.mp member)

/-- A name is looked up as what its first element says. -/
theorem lookup_of_mem_firsts {l : List (String × α)} {x : String × α}
    (h : x ∈ firsts Prod.fst l) : l.lookup x.1 = some x.2 := by
  induction l using List.reverseRecOn with
  | nil => cases h
  | append_singleton l a ih =>
    rw [List.lookup_append]
    by_cases seen : a.1 ∈ l.map Prod.fst
    · rw [firsts_snoc_of_mem seen] at h
      rw [ih h, Option.some_or]
    · rw [firsts_snoc_of_not_mem seen] at h
      rcases List.mem_append.mp h with old | new
      · rw [ih old, Option.some_or]
      · obtain rfl := List.mem_singleton.mp new
        have absent : l.lookup x.1 = none := by
          rw [List.lookup_eq_none_iff]
          intro b member
          have other : x.1 ≠ b.1 := fun same => seen (List.mem_map.mpr ⟨b, member, same.symm⟩)
          simpa using other
        rw [absent, Option.none_or]
        exact List.lookup_cons_self

theorem length_firsts_le (l : List α) : (firsts key l).length ≤ l.length := by
  induction l using List.reverseRecOn with
  | nil => exact Nat.le_refl _
  | append_singleton l a ih =>
    by_cases h : key a ∈ l.map key
    · rw [firsts_snoc_of_mem h, List.length_append]
      omega
    · rw [firsts_snoc_of_not_mem h, List.length_append, List.length_append]
      simpa using ih

theorem isSome_placeOf?_iff : (placeOf? key k l).isSome = true ↔ k ∈ l.map key := by
  by_cases h : k ∈ l.map key <;> simp only [placeOf?, h, if_true, if_false] <;> simp

theorem placeOf?_of_mem (h : k ∈ l.map key) : placeOf? key k l = some (placeOf key k l) :=
  if_pos h

/-! ## Places do not change -/

theorem placeOf_lt (h : k ∈ l.map key) : placeOf key k l < (firsts key l).length := by
  obtain ⟨a, member, same⟩ := List.mem_map.mp (mem_map_firsts.mpr h)
  exact List.findIdx_lt_length.mpr ⟨a, member, by simpa using same⟩

theorem placeOf_snoc_of_mem (h : k ∈ l.map key) (a : α) :
    placeOf key k (l ++ [a]) = placeOf key k l := by
  by_cases seen : key a ∈ l.map key
  · rw [placeOf, firsts_snoc_of_mem seen]
    rfl
  · -- A new key goes to the end, behind the first element of `k`.
    rw [placeOf, firsts_snoc_of_not_mem seen, List.findIdx_append]
    exact if_pos (placeOf_lt h)

theorem placeOf_append_of_mem (h : k ∈ l.map key) (more : List α) :
    placeOf key k (l ++ more) = placeOf key k l := by
  induction more using List.reverseRecOn with
  | nil => rw [List.append_nil]
  | append_singleton more a ih =>
    have member : k ∈ (l ++ more).map key := by
      rw [List.map_append]
      exact List.mem_append_left _ h
    rw [← List.append_assoc, placeOf_snoc_of_mem member, ih]

/-- At the place of a key stands the first element that has it. -/
theorem exists_getElem?_placeOf (h : k ∈ l.map key) :
    ∃ a, (firsts key l)[placeOf key k l]? = some a ∧ key a = k := by
  have here := placeOf_lt h
  refine ⟨_, List.getElem?_eq_getElem here, ?_⟩
  have found := List.findIdx_getElem (w := here)
  exact of_decide_eq_true found

theorem placeOf_snoc_of_not_mem (h : key a ∉ l.map key) :
    placeOf key (key a) (l ++ [a]) = (firsts key l).length := by
  have absent : (firsts key l).findIdx (key · = key a) = (firsts key l).length := by
    rw [List.findIdx_eq_length]
    intro b member
    have other : key b ≠ key a := fun same =>
      h (mem_map_firsts.mp (List.mem_map.mpr ⟨b, member, same⟩))
    simpa using other
  rw [placeOf, firsts_snoc_of_not_mem h, List.findIdx_append, absent]
  simp

theorem placeOf?_snoc_of_mem (h : key a ∈ l.map key) :
    placeOf? key k (l ++ [a]) = placeOf? key k l := by
  have same : k ∈ (l ++ [a]).map key ↔ k ∈ l.map key := by
    rw [← mem_map_firsts, firsts_snoc_of_mem h, mem_map_firsts]
  by_cases member : k ∈ l.map key
  · rw [placeOf?, placeOf?, if_pos (same.mpr member), if_pos member, placeOf_snoc_of_mem member]
  · rw [placeOf?, placeOf?, if_neg (mt same.mp member), if_neg member]

theorem placeOf?_snoc_of_not_mem (h : key a ∉ l.map key) : placeOf? key k (l ++ [a]) =
    (placeOf? key k l).or (if k = key a then some (firsts key l).length else none) := by
  by_cases member : k ∈ l.map key
  · have later : k ∈ (l ++ [a]).map key := by
      rw [List.map_append]
      exact List.mem_append_left _ member
    rw [placeOf?, placeOf?, if_pos later, if_pos member, placeOf_snoc_of_mem member]
    rfl
  · rw [placeOf?, placeOf?, if_neg member]
    by_cases same : k = key a
    · subst same
      simp [placeOf_snoc_of_not_mem h]
    · simp [same, member]

/-- One row of a table of first elements is changed, and it is the row of its key. -/
theorem modify_map_firsts {r r' : α → β} {g : β → β} (l : List α) (k : κ)
    (here : ∀ a, key a = k → r' a = g (r a)) (elsewhere : ∀ a, key a ≠ k → r' a = r a) :
    ((firsts key l).map r).toArray.modify (placeOf key k l) g =
      ((firsts key l).map r').toArray := by
  have rows (rows : List α) (nodup : (rows.map key).Nodup) :
      (rows.map r).modify (rows.findIdx (key · = k)) g = rows.map r' := by
    induction rows with
    | nil => rfl
    | cons a rows ih =>
      obtain ⟨fresh, nodup⟩ := List.nodup_cons.mp nodup
      rw [List.findIdx_cons]
      by_cases same : key a = k
      · -- No later row has the key, so only the first is changed.
        have others : rows.map r' = rows.map r := List.map_congr_left fun b member =>
          elsewhere b fun sameToo =>
            fresh (List.mem_map.mpr ⟨b, member, sameToo.trans same.symm⟩)
        simp [same, here a same, others]
      · simp [same, elsewhere a same, ih nodup]
  rw [List.modify_toArray, placeOf, rows _ (nodup_firsts l)]

end SigilAsm
