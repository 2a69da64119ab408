import SigilAsm.Program.Layout

/-! # Where data is placed

The pieces of a layout come one after the other: each ends before the next one
starts, and all of them end before the layout does.
-/

namespace SigilAsm

namespace DataLayout

variable {α : Type}

theorem le_total_place (start : Nat) (sizes : List Nat) : start ≤ (place start sizes).total := by
  induction sizes generalizing start with
  | nil => exact Nat.le_refl _
  | cons size sizes ih =>
    calc
      start ≤ start + size := Nat.le_add_right _ _
      _ ≤ alignUp (start + size) := le_alignUp _
      _ ≤ (place (alignUp (start + size)) sizes).total := ih _

/-- The items with their places when items of the given sizes are laid out. -/
def placed (start : Nat) (size : α → Nat) (items : List α) : List (α × Nat) :=
  items.zip (place start (items.map size)).offsets

theorem placed_cons (start : Nat) (size : α → Nat) (x : α) (items : List α) :
    placed start size (x :: items) = (x, start) :: placed (alignUp (start + size x)) size items :=
  rfl

theorem mem_placed {start : Nat} {size : α → Nat} {items : List α} {x : α} {offset : Nat}
    (member : (x, offset) ∈ placed start size items) :
    start ≤ offset ∧ offset + size x ≤ (place start (items.map size)).total := by
  induction items generalizing start with
  | nil => cases member
  | cons y items ih =>
    have room := le_alignUp (start + size y)
    rw [placed_cons] at member
    rcases List.mem_cons.mp member with same | later
    · cases same
      have rest := le_total_place (alignUp (offset + size x)) (items.map size)
      exact ⟨Nat.le_refl _, Nat.le_trans room rest⟩
    · obtain ⟨after, before⟩ := ih later
      exact ⟨by omega, before⟩

theorem pairwise_placed (start : Nat) (size : α → Nat) (items : List α) :
    (placed start size items).Pairwise fun a b => a.2 + size a.1 ≤ b.2 := by
  induction items generalizing start with
  | nil => exact .nil
  | cons x items ih =>
    rw [placed_cons]
    refine .cons (fun later member => ?_) (ih _)
    exact Nat.le_trans (le_alignUp _) (mem_placed member).1

theorem map_fst_placed (start : Nat) (size : α → Nat) (items : List α) :
    (placed start size items).map Prod.fst = items :=
  List.map_fst_zip (by simp [length_offsets_place])

theorem map_snd_placed (start : Nat) (size : α → Nat) (items : List α) :
    (placed start size items).map Prod.snd = (place start (items.map size)).offsets :=
  List.map_snd_zip (by simp [length_offsets_place])

end DataLayout

namespace Program

/-- The globals, each with the offset of its data. -/
def placed (p : Program) : List (Global × Nat) :=
  DataLayout.placed 0 (·.data.length) p.globals.toList

theorem map_fst_placed (p : Program) : p.placed.map Prod.fst = p.globals.toList :=
  DataLayout.map_fst_placed _ _ _

theorem map_snd_placed (p : Program) : p.placed.map Prod.snd = p.dataLayout.offsets :=
  DataLayout.map_snd_placed _ _ _

theorem length_offsets (p : Program) : p.dataLayout.offsets.length = p.globals.size := by
  simp [dataLayout, DataLayout.ofSizes, DataLayout.length_offsets_place]

theorem add_length_le_total {p : Program} {g : Global} {offset : Nat}
    (member : (g, offset) ∈ p.placed) : offset + g.data.length ≤ p.dataLayout.total :=
  (DataLayout.mem_placed member).2

/-- The data of a global ends before the data of any later one. -/
theorem pairwise_placed (p : Program) :
    p.placed.Pairwise fun a b => a.2 + a.1.data.length ≤ b.2 :=
  DataLayout.pairwise_placed 0 (·.data.length) p.globals.toList

theorem le_total_of_mem_offsets {p : Program} {offset : Nat}
    (member : offset ∈ p.dataLayout.offsets) : offset ≤ p.dataLayout.total := by
  rw [← map_snd_placed] at member
  obtain ⟨⟨g, _⟩, placed, rfl⟩ := List.mem_map.mp member
  exact Nat.le_trans (Nat.le_add_right _ _) (add_length_le_total placed)

end Program

end SigilAsm
