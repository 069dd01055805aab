/-!
The range of binary floating-point numbers of sixty-four bits. They have fifty-three significant
bits; what is too large for them counts as infinite.
-/

namespace Amm
namespace Binary64

/-- The least magnitude that rounds to infinity: halfway from the greatest number to the next power
of two. -/
def limit : Nat :=
  Nat.pow 2 1024 - Nat.pow 2 970

/-- The nearest natural number of fifty-three significant bits. Of two equally near ones it is the
one whose last bit is zero. -/
def nearest (value : Nat) : Nat :=
  let unit := Nat.pow 2 (value.log2 - 52)
  let count := value / unit
  let excess := value % unit
  if unit < 2 * excess || (unit = 2 * excess && count % 2 = 1) then (count + 1) * unit
  else count * unit

/-- Whether the decimal number of the given digits and power of ten is in range. -/
def holdsDecimal (significand : Nat) (power : Int) : Bool :=
  let size : Int := (toString significand).length + power
  if significand = 0 || size < 309 then true
  else if size > 309 then false
  else if power < 0 then significand < limit * Nat.pow 10 power.natAbs
  else significand * Nat.pow 10 power.toNat < limit

/-- Whether the product of a number and a power of ten is in range when both are rounded before they
are multiplied. The powers go up to the greatest that is in range itself. -/
def holdsProduct (significand : Nat) (power : Int) : Bool :=
  if significand = 0 || power < 0 then true
  else if power > 308 then false
  else nearest significand * nearest (Nat.pow 10 power.toNat) < limit

end Binary64
end Amm
