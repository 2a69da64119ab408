import SigilAsm.Program.Basic

/-! # Data layout

The data of all globals is laid out in one memory, in the order of
registration, each at the next offset that is a multiple of `dataAlignment`.
-/

namespace SigilAsm

def dataAlignment : Nat := 8

/-- The least multiple of the alignment that is not below `n`. -/
def alignUp (n : Nat) : Nat := (n + (dataAlignment - 1)) / dataAlignment * dataAlignment

theorem le_alignUp (n : Nat) : n ≤ alignUp n := by
  unfold alignUp dataAlignment
  omega

theorem alignUp_lt (n : Nat) : alignUp n < n + dataAlignment := by
  unfold alignUp dataAlignment
  omega

theorem dvd_alignUp (n : Nat) : dataAlignment ∣ alignUp n :=
  Nat.dvd_mul_left dataAlignment _

/-- Where each piece of data starts, and the size of the whole. -/
structure DataLayout where
  offsets : List Nat
  total : Nat
  deriving DecidableEq, Repr

namespace DataLayout

/-- Lays out pieces of the given sizes, the first of them at `offset`. -/
def place (offset : Nat) : List Nat → DataLayout
  | [] => ⟨[], offset⟩
  | size :: sizes =>
    let rest := place (alignUp (offset + size)) sizes
    ⟨offset :: rest.offsets, rest.total⟩

def ofSizes (sizes : List Nat) : DataLayout := place 0 sizes

theorem length_offsets_place (offset : Nat) (sizes : List Nat) :
    (place offset sizes).offsets.length = sizes.length := by
  induction sizes generalizing offset with
  | nil => rfl
  | cons size sizes ih => simp [place, ih]

end DataLayout

def Program.dataLayout (p : Program) : DataLayout :=
  .ofSizes (p.globals.toList.map (·.data.length))

end SigilAsm
