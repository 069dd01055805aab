import Amm.Newton

/-!
The invariant of a stable pool and its solvers. For balances on one scale the invariant is the sum
that the balances would have if they were equal; amplification keeps the price near one around that
point. Both solvers are Newton iterations over integers that round down.
-/

namespace Amm
namespace Stable

/-- The shape of a stable pool at one time. -/
structure Curve where
  /-- The amplification, multiplied by `precision`. -/
  amp : Int
  precision : Int
  /-- Older pools add one to every divisor of the balance product. -/
  offset : Bool
  deriving DecidableEq, Repr

namespace Curve

def steps : Nat :=
  256

def divisor (curve : Curve) (n x : Int) : Int :=
  if curve.offset then x * n + 1 else x * n

/-- The product term `d ^ (n + 1) / (n ^ n * product)`, rounded down after each balance. -/
def productTerm (curve : Curve) (n d : Int) (xp : List Int) : Priced Int :=
  xp.foldlM
    (fun term x =>
      if curve.divisor n x = 0 then Priced.refuse .zero
      else .ok ((term * d).fdiv (curve.divisor n x)))
    d

/-- One step of the iteration for the invariant of balances with the given sum. -/
def invariantStep (curve : Curve) (xp : List Int) (sum d : Int) : Priced Int := do
  let n : Int := xp.length
  let ampTotal := curve.amp * n
  let product ← curve.productTerm n d xp
  let weighted ← Priced.bareQuotient (ampTotal * sum) curve.precision
  let damping ← Priced.bareQuotient ((ampTotal - curve.precision) * d) curve.precision
  Priced.quotient ((weighted + product * n) * d) (damping + product * (n + 1))

/-- The invariant of balances on one scale. -/
def invariant (curve : Curve) (xp : List Int) : Priced Int :=
  let sum := total xp
  if sum = 0 then .ok 0
  else Newton.settle (curve.invariantStep xp sum) .dDoesNotConverge steps sum

/-- Divides the invariant term by the remaining balances, one by one. -/
def remainingTerm (n d : Int) (others : List Int) : Priced Int :=
  others.foldlM
    (fun term x => if x = 0 then Priced.refuse .zero else .ok ((term * d).fdiv (x * n))) d

/-- The coefficients of the quadratic `y ^ 2 + (b - d) * y = c` for the missing balance. -/
def coefficients (curve : Curve) (n d : Int) (others : List Int) : Priced (Int × Int) := do
  let ampTotal := curve.amp * n
  Priced.require (ampTotal ≠ 0) .zero
  let term ← remainingTerm n d others
  let c := (term * d * curve.precision).fdiv (ampTotal * n)
  let b := total others + (d * curve.precision).fdiv ampTotal
  .ok (b, c)

def balanceStep (b c d y : Int) : Priced Int :=
  Priced.quotient (y * y + c) (y * 2 + b - d)

/-- The balance that completes the others to a pool of `n` balances with invariant `d`. -/
def solve (curve : Curve) (n d : Int) (others : List Int) : Priced Int := do
  let (b, c) ← curve.coefficients n d others
  Newton.settle (balanceStep b c d) .yDoesNotConverge steps d

/-- The balance of token `j` that keeps the invariant once token `i` has the balance `x`. -/
def balanceAfter (curve : Curve) (i j : Nat) (x : Int) (xp : List Int) : Priced Int := do
  Priced.require (i ≠ j) .tokenFromEqualsTokenTo
  Priced.require (i < xp.length && j < xp.length) .tokenIndexesOutOfRange
  let d ← curve.invariant xp
  curve.solve xp.length d ((xp.set i x).eraseIdx j)

def balanceFor (curve : Curve) (i : Nat) (xp : List Int) (d : Int) : Priced Int := do
  Priced.require (i < xp.length) .tokenNotFound
  curve.solve xp.length d (xp.eraseIdx i)

end Curve
end Stable
end Amm
