import SigilAsm.Text.LineMap

/-! # Searching a table of line starts

A table is cut at a number into the rows up to it and the rows above it.  The
search finds the cut by halving, reads only rows that the table has, and ends on
the last row in front of the cut or right behind it (`LineMap.row?_of_cut`).
-/

namespace SigilAsm

namespace LineMap

/-- The first `count` rows are the ones that are not above the number. -/
structure Cut (table : List Nat) (sought count : Nat) : Prop where
  inside : count ≤ table.length
  le_iff : ∀ i row, table[i]? = some row → (row ≤ sought ↔ i < count)

variable {table low high : List Nat} {sought count base size : Nat}

theorem cut_append (upTo : ∀ row ∈ low, row ≤ sought) (above : ∀ row ∈ high, sought < row) :
    Cut (low ++ high) sought low.length := by
  refine ⟨by simp, fun i row read => ?_⟩
  rcases Nat.lt_or_ge i low.length with here | there
  · rw [List.getElem?_append_left here] at read
    exact iff_of_true (upTo row (List.mem_of_getElem? read)) here
  · rw [List.getElem?_append_right there] at read
    exact iff_of_false (Nat.not_le_of_lt (above row (List.mem_of_getElem? read)))
      (Nat.not_lt_of_le there)

/-- Halving reads only rows of the table, and comes to the last row in front of the cut where that
is one of the rows it is given. -/
theorem halve_of_cut (cut : Cut table sought count) (inside : base + size ≤ table.length)
    (lower : base < count) (upper : count ≤ base + size) :
    halve table sought base size = some (count - 1) := by
  fun_induction halve table sought base size with
  | case1 base size more middle outside =>
    rw [List.getElem?_eq_none_iff] at outside
    omega
  | case2 base size more middle row read ih =>
    -- The cut is in the half that is kept.
    have side := cut.le_iff middle row read
    by_cases above : sought < row
    · rw [dif_pos above] at ih
      rw [if_pos above]
      exact ih (by omega) (by omega) (by omega)
    · rw [dif_neg above] at ih
      rw [if_neg above]
      exact ih (by omega) (by omega) (by omega)
  | case3 base size one => exact congrArg some (by omega)

/-- The search ends on the last row in front of the cut if that row holds the number, and behind
it if the number is greater. -/
theorem search?_of_cut (cut : Cut table sought (count + 1)) :
    search? table sought = some (.on count) ∨
      search? table sought = some (.before (count + 1)) := by
  have inside := cut.inside
  have read : table[count]? = some table[count] := List.getElem?_eq_getElem inside
  have upTo : table[count] ≤ sought := (cut.le_iff count _ read).mpr (Nat.lt_succ_self count)
  have base : halve table sought 0 table.length = some count :=
    halve_of_cut cut (by omega) (Nat.succ_pos count) (by omega)
  have rows : table.isEmpty = false :=
    List.isEmpty_eq_false_iff_exists_mem.mpr ⟨_, List.getElem_mem inside⟩
  rcases Nat.lt_or_eq_of_le upTo with less | equal
  · right
    simp [search?, rows, base, read, less, Nat.ne_of_lt less]
  · left
    simp [search?, rows, base, read, equal]

/-- The row of an offset is the last one in front of the cut. -/
theorem row?_of_cut {m : LineMap} {offset : Nat} (cut : Cut m.starts offset (count + 1)) :
    m.row? offset = some count := by
  rcases search?_of_cut cut with ended | ended <;> rw [row?, ended]

end LineMap

end SigilAsm
