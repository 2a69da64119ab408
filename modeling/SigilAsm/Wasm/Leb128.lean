/-! # LEB128 numbers

The binary format writes numbers in groups of seven bits, the lowest group
first; all bytes but the last have their high bit set.  Both functions give the
shortest form.
-/

namespace SigilAsm.Leb128

def unsigned (n : Nat) : List UInt8 :=
  if n < 128 then [n.toUInt8] else (n % 128 + 128).toUInt8 :: unsigned (n / 128)
termination_by n
decreasing_by omega

/-- The signed form of a number.  The last group shows the sign by its highest bit. -/
def signed (i : Int) : List UInt8 :=
  if -64 ≤ i ∧ i < 64 then [(i % 128).toNat.toUInt8]
  else ((i % 128).toNat + 128).toUInt8 :: signed (i / 128)
termination_by i.natAbs
decreasing_by omega

end SigilAsm.Leb128
