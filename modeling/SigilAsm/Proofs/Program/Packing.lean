import Mathlib.Data.List.Chain
import Mathlib.Data.List.Forall2
import SigilAsm.Proofs.Grammar.DataSize
import SigilAsm.Proofs.Program.Layout

/-! # The tightest packing

The layout of data is a packing: every piece has an aligned offset of its own,
the pieces come one after the other, and the whole ends behind them at an
aligned size (`DataLayout.Packs`).  Among all ways to set aligned pieces apart in
the same order (`DataLayout.Spaced`) it is the tightest, since it takes the first
aligned offset each time: no offset can be smaller, and the whole cannot end
earlier.

Offsets are natural numbers here.  For less than 2^60 bytes of data words of 64
bits hold every number that comes up on the way (`DataLayout.placeInWords`).
-/

namespace SigilAsm

/-- Rounding up stays below any aligned number that is not below. -/
theorem alignUp_le {n m : Nat} (le : n ≤ m) (aligned : dataAlignment ∣ m) : alignUp n ≤ m := by
  obtain ⟨k, rfl⟩ := aligned
  unfold alignUp
  unfold dataAlignment at le ⊢
  omega

theorem alignUp_mono {n m : Nat} (le : n ≤ m) : alignUp n ≤ alignUp m :=
  alignUp_le (Nat.le_trans le (le_alignUp m)) (dvd_alignUp m)

/-- A piece that is not empty takes at most seven bytes that are not its own. -/
theorem alignUp_add_le {offset : Nat} (aligned : dataAlignment ∣ offset) (size : Nat) :
    alignUp (offset + size) ≤ offset + dataAlignment * size := by
  refine alignUp_le ?_ (Nat.dvd_add aligned (Nat.dvd_mul_right _ _))
  exact Nat.add_le_add_left (Nat.le_mul_of_pos_left size (by decide)) offset

namespace DataLayout

/-! ## Packings -/

/-- Offsets for pieces of the given sizes, one for each: all are aligned, and each piece ends before
the next one starts. -/
structure Spaced (sizes offsets : List Nat) : Prop where
  length : offsets.length = sizes.length
  aligned : ∀ offset ∈ offsets, dataAlignment ∣ offset
  apart : (sizes.zip offsets).IsChain fun piece next => piece.2 + piece.1 ≤ next.2

/-- Where pieces with their offsets end: behind the last one, rounded up, or at the start if there
are none. -/
def stop (start : Nat) (pieces : List (Nat × Nat)) : Nat :=
  pieces.getLast?.elim start fun piece => alignUp (piece.2 + piece.1)

/-- The layout has room for pieces of the given sizes: each has an aligned offset of its own, and
ends before any later one starts and before the layout ends. -/
structure Packs (l : DataLayout) (sizes : List Nat) : Prop where
  length : l.offsets.length = sizes.length
  aligned : ∀ offset ∈ l.offsets, dataAlignment ∣ offset
  total_aligned : dataAlignment ∣ l.total
  disjoint : (sizes.zip l.offsets).Pairwise fun piece later => piece.2 + piece.1 ≤ later.2
  inside : ∀ piece ∈ sizes.zip l.offsets, piece.2 + piece.1 ≤ l.total

variable {start bound : Nat} {sizes offsets : List Nat}

theorem aligned_place (aligned : dataAlignment ∣ start) (sizes : List Nat) :
    (∀ offset ∈ (place start sizes).offsets, dataAlignment ∣ offset) ∧
      dataAlignment ∣ (place start sizes).total := by
  induction sizes generalizing start with
  | nil => exact ⟨fun _ member => (List.not_mem_nil member).elim, aligned⟩
  | cons size sizes ih =>
    obtain ⟨offsets, total⟩ := ih (dvd_alignUp (start + size))
    exact ⟨List.forall_mem_cons.mpr ⟨aligned, offsets⟩, total⟩

theorem placed_id (start : Nat) (sizes : List Nat) :
    placed start id sizes = sizes.zip (place start sizes).offsets := by
  rw [placed, List.map_id]

theorem ofSizes_packs (sizes : List Nat) : (ofSizes sizes).Packs sizes where
  length := length_offsets_place 0 sizes
  aligned := (aligned_place (Nat.dvd_zero _) sizes).1
  total_aligned := (aligned_place (Nat.dvd_zero _) sizes).2
  disjoint := by
    have apart := pairwise_placed 0 id sizes
    rwa [placed_id] at apart
  inside piece member := by
    rw [ofSizes, ← placed_id] at member
    have within := (mem_placed member).2
    rwa [List.map_id] at within

/-! ## No packing is tighter -/

theorem stop_cons (start size offset : Nat) (pieces : List (Nat × Nat)) :
    stop start ((size, offset) :: pieces) = stop (alignUp (offset + size)) pieces := by
  rw [stop, stop, List.getLast?_cons]
  cases pieces.getLast? <;> rfl

theorem Spaced.tail {size offset : Nat} (h : Spaced (size :: sizes) (offset :: offsets)) :
    Spaced sizes offsets where
  length := Nat.succ.inj h.length
  aligned later member := h.aligned later (List.mem_cons_of_mem _ member)
  apart := h.apart.tail

/-- The first of the other pieces starts behind the rounded end of this one. -/
theorem Spaced.next_le {size offset : Nat} (h : Spaced (size :: sizes) (offset :: offsets)) :
    ∀ next ∈ offsets.head?, alignUp (offset + size) ≤ next := by
  intro next head
  obtain ⟨later, rfl⟩ : ∃ later, offsets = next :: later := List.head?_eq_some_iff.mp head
  obtain ⟨size', sizes', rfl⟩ := List.exists_cons_of_length_eq_add_one h.tail.length.symm
  exact alignUp_le (List.isChain_cons_cons.mp h.apart).1
    (h.aligned next (List.mem_cons_of_mem _ List.mem_cons_self))

/-- Pieces that are placed from `start` on stay behind no others that begin there or later. -/
theorem place_le_of_spaced (spaced : Spaced sizes offsets)
    (first : ∀ offset ∈ offsets.head?, start ≤ offset) (le : start ≤ bound) :
    List.Forall₂ (· ≤ ·) (place start sizes).offsets offsets ∧
      (place start sizes).total ≤ stop bound (sizes.zip offsets) := by
  induction sizes generalizing start bound offsets with
  | nil =>
    obtain rfl := List.eq_nil_of_length_eq_zero spaced.length
    exact ⟨.nil, le⟩
  | cons size sizes ih =>
    obtain ⟨offset, offsets, rfl⟩ := List.exists_cons_of_length_eq_add_one spaced.length
    have here : start ≤ offset := first offset rfl
    have next : alignUp (start + size) ≤ alignUp (offset + size) :=
      alignUp_mono (Nat.add_le_add_right here size)
    obtain ⟨others, total⟩ := ih spaced.tail
      (fun o head => Nat.le_trans next (spaced.next_le o head)) next
    rw [List.zip_cons_cons, stop_cons]
    exact ⟨.cons here others, total⟩

/-! ## In words -/

open Rule (checkedAdd checkedMul)

/-- The first aligned offset behind a piece, by whole units of the alignment, in words of 64 bits;
none if a word does not hold one of the sums or the product. -/
def nextInWords (offset size : UInt64) : Option UInt64 := do
  let stop ← checkedAdd offset size
  let units ← checkedAdd (stop / 8) (if stop % 8 = 0 then 0 else 1)
  checkedMul units 8

/-- The offsets of pieces of the given sizes and the total, in words of 64 bits. -/
def placeInWords (offset : UInt64) : List UInt64 → Option (List UInt64 × UInt64)
  | [] => some ([], offset)
  | size :: sizes => do
    let next ← nextInWords offset size
    let (offsets, total) ← placeInWords next sizes
    some (offset :: offsets, total)

theorem exists_checkedAdd {a b : UInt64} (small : a.toNat + b.toNat < 0x10000000000000000) :
    ∃ c, checkedAdd a b = some c ∧ c.toNat = a.toNat + b.toNat := by
  refine ⟨a + b, if_pos small, ?_⟩
  rw [UInt64.toNat_add]
  exact Nat.mod_eq_of_lt small

theorem exists_checkedMul {a b : UInt64} (small : a.toNat * b.toNat < 0x10000000000000000) :
    ∃ c, checkedMul a b = some c ∧ c.toNat = a.toNat * b.toNat := by
  refine ⟨a * b, if_pos small, ?_⟩
  rw [UInt64.toNat_mul]
  exact Nat.mod_eq_of_lt small

theorem exists_nextInWords {offset size : UInt64}
    (small : alignUp (offset.toNat + size.toNat) < 0x10000000000000000) :
    ∃ next, nextInWords offset size = some next ∧
      next.toNat = alignUp (offset.toNat + size.toNat) := by
  have below := le_alignUp (offset.toNat + size.toNat)
  obtain ⟨stop, sum, stop_eq⟩ := exists_checkedAdd (Nat.lt_of_le_of_lt below small)
  rw [← stop_eq] at small ⊢
  unfold alignUp dataAlignment at small ⊢
  -- A unit that the piece only begins is used up.
  have begun : (if stop % 8 = 0 then 0 else 1 : UInt64).toNat =
      if stop.toNat % 8 = 0 then 0 else 1 := by
    have same : stop % 8 = 0 ↔ stop.toNat % 8 = 0 := by
      rw [← UInt64.toNat_inj, UInt64.toNat_mod]
      rfl
    simp only [same]
    split <;> rfl
  have whole : (stop / 8).toNat = stop.toNat / 8 := UInt64.toNat_div stop 8
  obtain ⟨units, units_eq, count⟩ := exists_checkedAdd (a := stop / 8)
    (b := if stop % 8 = 0 then 0 else 1) (by rw [begun, whole]; split <;> omega)
  rw [begun, whole] at count
  have unit : (8 : UInt64).toNat = 8 := rfl
  obtain ⟨next, product, next_eq⟩ := exists_checkedMul (a := units) (b := 8)
    (by rw [count, unit]; split <;> omega)
  refine ⟨next, ?_, ?_⟩
  · simp only [nextInWords, sum, Option.bind_eq_bind, Option.bind_some, units_eq, product]
  · rw [next_eq, count, unit]
    split <;> omega

/-- The bytes that pieces of the given sizes have together. -/
def bytes (sizes : List Nat) : Nat := sizes.foldr (· + ·) 0

theorem placeInWords_eq {offset : UInt64} {sizes : List UInt64}
    (aligned : dataAlignment ∣ offset.toNat)
    (small : offset.toNat + dataAlignment * bytes (sizes.map (·.toNat)) < 0x10000000000000000) :
    ∃ offsets total, placeInWords offset sizes = some (offsets, total) ∧
      place offset.toNat (sizes.map (·.toNat)) = ⟨offsets.map (·.toNat), total.toNat⟩ := by
  induction sizes generalizing offset with
  | nil => exact ⟨[], offset, rfl, rfl⟩
  | cons size sizes ih =>
    have taken : alignUp (offset.toNat + size.toNat) ≤ offset.toNat + dataAlignment * size.toNat :=
      alignUp_add_le aligned size.toNat
    have sum : bytes ((size :: sizes).map (·.toNat)) =
        size.toNat + bytes (sizes.map (·.toNat)) := rfl
    rw [sum, Nat.mul_add] at small
    have fits : alignUp (offset.toNat + size.toNat) < 0x10000000000000000 := by omega
    obtain ⟨next, step, next_eq⟩ := exists_nextInWords fits
    have aligned' : dataAlignment ∣ next.toNat := next_eq ▸ dvd_alignUp _
    obtain ⟨offsets, total, rest, layout⟩ := ih aligned' (by omega)
    refine ⟨offset :: offsets, total, ?_, ?_⟩
    · simp only [placeInWords, step, rest, Option.bind_eq_bind, Option.bind_some]
    · rw [List.map_cons, place, ← next_eq, layout]
      rfl

theorem le_bytes_of_mem {size : Nat} (member : size ∈ sizes) : size ≤ bytes sizes := by
  induction sizes with
  | nil => cases member
  | cons first sizes ih =>
    rcases List.mem_cons.mp member with rfl | later
    · exact Nat.le_add_right _ _
    · exact Nat.le_trans (ih later) (Nat.le_add_left _ _)

/-- Words hold all that comes up on the way if there are less than 2^60 bytes. -/
theorem placeInWords_of_bytes_lt (small : bytes sizes < 0x1000000000000000) :
    ∃ offsets total, placeInWords 0 (sizes.map (·.toUInt64)) = some (offsets, total) ∧
      ofSizes sizes = ⟨offsets.map (·.toNat), total.toNat⟩ := by
  have exact' : (sizes.map (·.toUInt64)).map (·.toNat) = sizes := by
    rw [List.map_map]
    refine (List.map_congr_left fun size member => ?_).trans (List.map_id _)
    have le := le_bytes_of_mem member
    exact Nat.mod_eq_of_lt (by omega)
  have start : (0 : UInt64).toNat = 0 := rfl
  have fits : (0 : UInt64).toNat + dataAlignment * bytes ((sizes.map (·.toUInt64)).map (·.toNat)) <
      0x10000000000000000 := by
    rw [exact', start]
    unfold dataAlignment
    omega
  have words := placeInWords_eq (start ▸ Nat.dvd_zero dataAlignment) fits
  rwa [exact', start] at words

end DataLayout

namespace Program

def dataSizes (p : Program) : List Nat := p.globals.toList.map (·.data.length)

/-- The layout of a program's data is a packing and the tightest one: no other way to set the pieces
apart in this order has a smaller offset anywhere or ends earlier.  With less than 2^60 bytes it is
computed in words of 64 bits without an overflow. -/
theorem dataLayout_tightest (p : Program)
    (small : DataLayout.bytes p.dataSizes < 0x1000000000000000) :
    p.dataLayout.Packs p.dataSizes ∧
      (∀ offsets, DataLayout.Spaced p.dataSizes offsets →
        List.Forall₂ (· ≤ ·) p.dataLayout.offsets offsets ∧
          p.dataLayout.total ≤ DataLayout.stop 0 (p.dataSizes.zip offsets)) ∧
      ∃ offsets total,
        DataLayout.placeInWords 0 (p.dataSizes.map (·.toUInt64)) = some (offsets, total) ∧
          p.dataLayout = ⟨offsets.map (·.toNat), total.toNat⟩ := by
  refine ⟨DataLayout.ofSizes_packs _, fun offsets spaced => ?_, ?_⟩
  · exact DataLayout.place_le_of_spaced spaced (fun _ _ => Nat.zero_le _) (Nat.le_refl 0)
  · exact DataLayout.placeInWords_of_bytes_lt small

/-- A piece that is one unit long, an empty one, and one that is a byte longer than a unit. -/
theorem dataLayout_tightest_around_empty :
    let p : Program := { Program.empty with globals := #[
      ⟨"unit", .immutable, [1, 2, 3, 4, 5, 6, 7, 8]⟩,
      ⟨"empty", .mutable, []⟩,
      ⟨"more", .mutable, [1, 2, 3, 4, 5, 6, 7, 8, 9]⟩] }
    DataLayout.bytes p.dataSizes < 0x1000000000000000 ∧ p.dataLayout = ⟨[0, 8, 8], 24⟩ ∧
      p.dataLayout.Packs p.dataSizes ∧
      DataLayout.Spaced p.dataSizes [0, 16, 24] ∧
      List.Forall₂ (· ≤ ·) p.dataLayout.offsets [0, 16, 24] ∧
      DataLayout.placeInWords 0 [8, 0, 9] = some ([0, 8, 8], 24) := by
  intro p
  have small : DataLayout.bytes p.dataSizes < 0x1000000000000000 := by decide
  have spaced : DataLayout.Spaced p.dataSizes [0, 16, 24] :=
    ⟨rfl, by decide, by decide⟩
  obtain ⟨packs, tightest, -⟩ := dataLayout_tightest p small
  exact ⟨small, rfl, packs, spaced, (tightest _ spaced).1, by decide⟩

end Program

end SigilAsm
