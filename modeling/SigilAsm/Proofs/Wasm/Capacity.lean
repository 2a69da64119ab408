import SigilAsm.Proofs.Program.Packing
import SigilAsm.Proofs.Wasm.Lowered

/-! # Which programs are too large

A memory with 32-bit offsets has at most 65536 pages of 65536 bytes.  A program
is refused for its size alone: the sum of the sizes of its data, each rounded up
to the alignment, however the data is split over globals.  The limit that the sum
is compared with is one byte less than the memory has, so programs whose data
fills the memory to the last byte are refused too, and only those are refused
although they fit.
-/

namespace SigilAsm

/-- Rounding up begins anew at every aligned number. -/
theorem alignUp_add {start : Nat} (aligned : dataAlignment ∣ start) (size : Nat) :
    alignUp (start + size) = start + alignUp size := by
  obtain ⟨units, rfl⟩ := aligned
  unfold alignUp dataAlignment
  omega

namespace DataLayout

theorem total_place {start : Nat} (aligned : dataAlignment ∣ start) (sizes : List Nat) :
    (place start sizes).total = start + bytes (sizes.map alignUp) := by
  induction sizes generalizing start with
  | nil => rfl
  | cons size sizes ih =>
    calc
      (place start (size :: sizes)).total = (place (alignUp (start + size)) sizes).total := rfl
      _ = alignUp (start + size) + bytes (sizes.map alignUp) := ih (dvd_alignUp _)
      _ = start + alignUp size + bytes (sizes.map alignUp) := by rw [alignUp_add aligned]
      _ = start + bytes ((size :: sizes).map alignUp) := Nat.add_assoc _ _ _

theorem total_ofSizes (sizes : List Nat) : (ofSizes sizes).total = bytes (sizes.map alignUp) :=
  (total_place (Nat.dvd_zero _) sizes).trans (Nat.zero_add _)

end DataLayout

namespace Program

/-- The most pages that a memory with 32-bit offsets has. -/
def maxPages : Nat := 65536

/-- The bytes that a memory with 32-bit offsets holds. -/
def memoryBytes : Nat := maxPages * pageBytes

theorem pagesFor_le_maxPages_iff {bytes : Nat} :
    pagesFor bytes ≤ maxPages ↔ bytes ≤ memoryBytes := by
  unfold pagesFor memoryBytes maxPages pageBytes
  omega

/-- The limit is one byte less than the memory holds. -/
theorem maxLayoutBytes_lt_iff {bytes : Nat} : maxLayoutBytes < bytes ↔ memoryBytes ≤ bytes := by
  unfold maxLayoutBytes memoryBytes maxPages pageBytes
  omega

variable {p : Program}

/-- The program is not lowered, for a reason that is given. -/
def IsRefused (p : Program) : Prop := ∃ reason, p.lower = .error (.lowering reason)

theorem isRefused_iff : p.IsRefused ↔ memoryBytes ≤ p.dataLayout.total := by
  simp only [IsRefused, lower_eq_error_iff, refusal?, ← maxLayoutBytes_lt_iff]
  split <;> simp [*]

/-- A program that is not refused is lowered: there is no other way to fail. -/
theorem exists_lower_of_not_isRefused (accepted : ¬p.IsRefused) : ∃ m, p.lower = .ok m :=
  exists_lower (Nat.not_lt.mp fun large => accepted (isRefused_iff.mpr large))

theorem total_dataLayout : p.dataLayout.total = DataLayout.bytes (p.dataSizes.map alignUp) :=
  DataLayout.total_ofSizes p.dataSizes

/-- A program is refused exactly if its data is larger than the memory, except that data of exactly
the memory's size is refused as well.  The sizes of the data decide, each rounded up, and there is
no other way to fail.  With less than 2^60 bytes the total that is compared is computed in words of
64 bits without an overflow. -/
theorem isRefused_iff_unless_full (p : Program)
    (small : DataLayout.bytes p.dataSizes < 0x1000000000000000) :
    ((p.IsRefused ↔ memoryBytes < p.dataLayout.total) ↔ p.dataLayout.total ≠ memoryBytes) ∧
      (p.IsRefused ↔ memoryBytes ≤ p.dataLayout.total) ∧
      p.dataLayout.total = DataLayout.bytes (p.dataSizes.map alignUp) ∧
      (p.IsRefused ∨ ∃ m, p.lower = .ok m) ∧
      ∃ offsets total,
        DataLayout.placeInWords 0 (p.dataSizes.map (·.toUInt64)) = some (offsets, total) ∧
          (p.IsRefused ↔ 0xffffffff < total) := by
  refine ⟨?_, isRefused_iff, total_dataLayout, ?_, ?_⟩
  · rw [isRefused_iff]
    omega
  · exact (Classical.em p.IsRefused).imp_right exists_lower_of_not_isRefused
  · obtain ⟨offsets, total, words, layout⟩ := DataLayout.placeInWords_of_bytes_lt small
    have same : p.dataLayout.total = total.toNat := congrArg DataLayout.total layout
    refine ⟨offsets, total, words, ?_⟩
    rw [isRefused_iff, same, UInt64.lt_iff_toNat_lt]
    exact maxLayoutBytes_lt_iff.symm

/-- A program with zeros for data, as many as each name has. -/
def zeros (pieces : List (String × Nat)) : Program :=
  { Program.empty with
    globals := (pieces.map fun (name, size) => ⟨name, .mutable, List.replicate size 0⟩).toArray }

theorem dataSizes_zeros (pieces : List (String × Nat)) :
    (zeros pieces).dataSizes = pieces.map Prod.snd := by
  simp only [dataSizes, zeros, List.map_map]
  exact List.map_congr_left fun piece _ => List.length_replicate

/-- One byte more than the memory holds. -/
theorem isRefused_iff_unless_full_large :
    let p := zeros [("large", 0x100000001)]
    DataLayout.bytes p.dataSizes < 0x1000000000000000 ∧ p.IsRefused ∧
      memoryBytes < p.dataLayout.total := by
  intro p
  have sizes : p.dataSizes = [0x100000001] := dataSizes_zeros _
  have small : DataLayout.bytes p.dataSizes < 0x1000000000000000 := by rw [sizes]; decide
  obtain ⟨unlessFull, limit, rounded, -, -⟩ := isRefused_iff_unless_full p small
  have total : p.dataLayout.total = 0x100000008 := by rw [rounded, sizes]; decide
  have refused : p.IsRefused := limit.mpr (by rw [total]; decide)
  exact ⟨small, refused, (unlessFull.mpr (by rw [total]; decide)).mp refused⟩

/-- Four pieces that fill the memory to the last byte. -/
theorem not_isRefused_iff_full :
    let p := zeros [("a", 1), ("b", 1), ("c", 1), ("rest", 0xffffffe1)]
    DataLayout.bytes p.dataSizes < 0x1000000000000000 ∧ p.dataLayout.total = memoryBytes ∧
      pagesFor p.dataLayout.total ≤ maxPages ∧ p.IsRefused ∧
      ¬(p.IsRefused ↔ memoryBytes < p.dataLayout.total) := by
  intro p
  have sizes : p.dataSizes = [1, 1, 1, 0xffffffe1] := dataSizes_zeros _
  have total : p.dataLayout.total = memoryBytes := by rw [total_dataLayout, sizes]; decide
  have refused : p.IsRefused := isRefused_iff.mpr (Nat.le_of_eq total.symm)
  refine ⟨by rw [sizes]; decide, total, ?_, refused, fun same => ?_⟩
  · exact pagesFor_le_maxPages_iff.mpr (Nat.le_of_eq total)
  · exact Nat.lt_irrefl _ (total ▸ same.mp refused)

end Program

end SigilAsm
