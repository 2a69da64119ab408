import SigilAsm.Program.Listing

/-! # Rows of a listing

Every row of a listing is ended by a line feed.  Where no row has one inside,
the lines of the listing are its rows (`Program.splitOn_listing`).  Nothing that
is put between names in a row has a line feed, nor do numbers and bytes.
-/

namespace SigilAsm

/-- The text has no line feed. -/
def OneLine (text : String) : Prop := '\n' ∉ text.toList

instance (text : String) : Decidable (OneLine text) :=
  inferInstanceAs (Decidable ('\n' ∉ text.toList))

namespace OneLine

variable {first second separator : String} {texts : List String}

theorem append (h : OneLine first) (h' : OneLine second) : OneLine (first ++ second) := by
  simp only [OneLine, String.toList_append, List.mem_append, not_or]
  exact ⟨h, h'⟩

theorem join (h : ∀ text ∈ texts, OneLine text) : OneLine (String.join texts) := by
  intro member
  rw [String.toList_join] at member
  obtain ⟨text, inside, here⟩ := List.mem_flatMap.mp member
  exact h text inside here

theorem intercalate (between : OneLine separator) (h : ∀ text ∈ texts, OneLine text) :
    OneLine (separator.intercalate texts) := by
  simp only [OneLine, String.toList_intercalate]
  induction texts with
  | nil => exact List.not_mem_nil
  | cons text texts ih =>
    obtain ⟨here, later⟩ := List.forall_mem_cons.mp h
    cases texts with
    | nil =>
      rw [List.map_singleton, List.intercalate_singleton]
      exact here
    | cons next texts =>
      simp only [List.map_cons, List.intercalate_cons_cons, List.mem_append, not_or]
      exact ⟨⟨here, between⟩, ih later⟩

theorem toString (n : Nat) : OneLine (toString n) := by
  intro member
  rw [Nat.toString_eq_repr, Nat.toList_repr] at member
  cases Nat.isDigit_of_mem_toDigits (by decide) (by decide) member

theorem byteText (b : UInt8) : OneLine (byteText b) := by
  have digit : ∀ n < 16, '\n' ≠ Nat.digitChar n := by decide
  have size := b.toNat_lt
  have high := digit (b.toNat / 16) (by omega)
  have low := digit (b.toNat % 16) (by omega)
  simp [OneLine, SigilAsm.byteText, high, low]

theorem render (s : Signature) : OneLine s.render :=
  ((((show OneLine "[" by decide).append (.toString _)).append (by decide)).append
    (.toString _)).append (by decide)

theorem row {g : Program.Global} (h : OneLine g.name) : OneLine g.row := by
  have bytes : OneLine (.join
      ((g.data.take Program.listedBytes).map (" " ++ SigilAsm.byteText ·))) :=
    .join fun text member => by
      obtain ⟨b, -, rfl⟩ := List.mem_map.mp member
      exact .append (by decide) (.byteText b)
  simp only [Program.Global.row]
  refine ((((((append ?_ (by decide)).append h).append (by decide)).append (.toString _)).append
    (by decide)).append bytes).append ?_
  · cases g.mutability <;> decide
  · split <;> decide

end OneLine

/-! ## Lines -/

theorem splitOn_join_rows {rows : List String} (h : ∀ row ∈ rows, OneLine row) :
    (String.join (rows.map (· ++ "\n"))).toList.splitOn '\n' = rows.map String.toList ++ [[]] := by
  rw [String.toList_join]
  induction rows with
  | nil => rfl
  | cons row rows ih =>
    obtain ⟨here, later⟩ := List.forall_mem_cons.mp h
    have split : (row ++ "\n").toList = row.toList ++ ['\n'] := by
      rw [String.toList_append]
      rfl
    rw [List.map_cons, List.flatMap_cons, split, List.append_assoc, List.singleton_append,
      List.splitOn_append_cons_self, List.splitOn_eq_singleton here, ih later]
    rfl

theorem Program.splitOn_listing {p : Program} {vocabulary : Vocabulary}
    (h : ∀ row ∈ p.listingRows vocabulary, OneLine row) :
    (p.listing vocabulary).toList.splitOn '\n' =
      (p.listingRows vocabulary).map String.toList ++ [[]] :=
  splitOn_join_rows h

end SigilAsm
