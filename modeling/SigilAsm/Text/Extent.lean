/-! # Byte extents

Everything that is said about a source text points at it by byte offsets.  An
*extent* is a half-open range of such offsets; its ends are in order by
construction, so a length never has to be guarded.
-/

namespace SigilAsm

/-- The half-open range of byte offsets from `start` up to, not including, `stop`. -/
@[ext] structure Extent where
  start : Nat
  stop : Nat
  start_le_stop : start ≤ stop
  deriving DecidableEq, Repr

namespace Extent

/-- The extent between two offsets, whichever of them comes first. -/
def between (a b : Nat) : Extent := ⟨min a b, max a b, by omega⟩

def point (offset : Nat) : Extent := ⟨offset, offset, Nat.le_refl offset⟩

def length (e : Extent) : Nat := e.stop - e.start

def isEmpty (e : Extent) : Bool := e.start == e.stop

theorem between_of_le {a b : Nat} (h : a ≤ b) : between a b = ⟨a, b, h⟩ :=
  Extent.ext (Nat.min_eq_left h) (Nat.max_eq_right h)

theorem between_comm (a b : Nat) : between a b = between b a :=
  Extent.ext (Nat.min_comm a b) (Nat.max_comm a b)

theorem between_self (a : Nat) : between a a = point a :=
  between_of_le (Nat.le_refl a)

end Extent

end SigilAsm
