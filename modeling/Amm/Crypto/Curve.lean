import Amm.Crypto.AGammaRamp
import Amm.Newton

/-!
The invariant of crypto pools and its solvers. Balances are on one scale, with eighteen decimals,
and valued at the price scale of the pool. The solvers refuse inputs and results outside the range in
which the integer arithmetic is exact enough.
-/

namespace Amm
namespace Crypto

/-- The amplification is multiplied by this. -/
def ampUnit : Int :=
  10000

def steps : Nat :=
  255

def minGamma : Int :=
  pow10 10

/-- The range of the parameters for a number of coins. -/
structure Limits where
  minAnn : Int
  maxAnn : Int
  maxGamma : Int

/-- The limits of pools of two and of three coins. No other number of coins is supported. -/
def limits (coins : Nat) : Priced Limits :=
  match coins with
  | 2 => .ok ⟨4000, 4000000000, 2 * pow10 16⟩
  | 3 => .ok ⟨2700, 270000000, 5 * pow10 16⟩
  | _ => Priced.refuse .tokenIndexesOutOfRange

def Limits.requireGamma (limits : Limits) (gamma : Int) : Priced Unit :=
  Priced.require (minGamma ≤ gamma && gamma ≤ limits.maxGamma) .unsafeGamma

/-- Puts a balance in front of the first one that is not greater. -/
def insertDescending (balance : Int) : List Int → List Int
  | [] => [balance]
  | other :: rest =>
    if other ≤ balance then balance :: other :: rest else other :: insertDescending balance rest

def descending (x : List Int) : List Int :=
  x.foldr insertDescending []

/-- Multiplies `start` by each factor in turn and divides by `d` each time, rounding down. -/
def reduceBy (d start : Int) (factors : List Int) : Priced Int :=
  factors.foldlM (fun value factor => Priced.quotient (value * factor) d) start

def meanStep (x : List Int) (d : Int) : Priced (Int × Bool) := do
  let n : Int := x.length
  let ratio ← reduceBy d Fixed.one x
  let next ← Priced.bareQuotient (d * ((n - 1) * Fixed.one + ratio)) (n * Fixed.one)
  let change := absDiff next d
  .ok (next, change ≤ 1 || change * Fixed.one < next)

/-- The geometric mean of balances in the given order. -/
def geometricMean (x : List Int) : Priced Int :=
  match x with
  | [] => Priced.refuse .zero
  | first :: _ => Newton.run (meanStep x) .geometricMeanDidNotConverge steps first

/-- Two successive iterates of a square root; the iteration ends when they are equal. -/
def sqrtFrom (x : Int) : (steps : Nat) → (y z : Int) → Priced Int
  | 0, _, _ => Priced.refuse .sqrtDidNotConverge
  | steps + 1, y, z =>
    if z = y then .ok y
    else do
      let ratio ← Priced.quotient (x * Fixed.one) z
      sqrtFrom x steps z ((ratio + z).fdiv 2)

/-- The square root of a fixed-point number. -/
def sqrt (x : Int) : Priced Int :=
  if x = 0 then .ok 0 else sqrtFrom x 256 x ((x + Fixed.one).fdiv 2)

/-- The sum of the binomial series for a half to the power `x`, from term `k` on. The series ends
with the first term below `precision`. -/
def halfSeries (x precision : Int) :
    (steps : Nat) → (k : Int) → (term sum : Int) → (negative : Bool) → Priced Int
  | 0, _, _, _, _ => Priced.refuse .halfPowDidNotConverge
  | steps + 1, k, term, sum, negative => do
    let below := (k - 1) * Fixed.one
    let negative := if below < x then !negative else negative
    let distance := if below < x then x - below else below - x
    let factor := (distance * (5 * pow10 17)).fdiv Fixed.one
    let term ← Priced.bareQuotient (term * factor) (k * Fixed.one)
    let sum := if negative then sum - term else sum + term
    if term < precision then .ok sum else halfSeries x precision steps (k + 1) term sum negative

/-- A half to the given power, both as fixed-point numbers. -/
def halfpow (power precision : Int) : Priced Int := do
  let whole := power.fdiv Fixed.one
  let part := power - whole * Fixed.one
  if 59 < whole then .ok 0
  else do
    Priced.require (0 ≤ whole) .invalidAmount
    let result := Fixed.one >>> whole.toNat
    if part = 0 then .ok result
    else
      let sum ← halfSeries part precision steps 1 Fixed.one Fixed.one false
      .ok ((result * sum).fdiv Fixed.one)

/-- How balanced a pool is: 1 for equal balances, falling toward zero as they drift apart. A
positive `feeGamma` stretches the fall. -/
def reductionCoefficient (x : List Int) (feeGamma : Int) : Priced Int := do
  let n : Int := x.length
  let k ← reduceBy (total x) Fixed.one (x.map (n * ·))
  if 0 < feeGamma then
    Priced.quotient (feeGamma * Fixed.one) (feeGamma + Fixed.one - k)
  else .ok k

/-- The Euclidean quotient; a zero divisor is refused. -/
def euclideanQuotient (a b : Int) : Priced Int :=
  if b = 0 then Priced.refuse .denominatorZero else .ok (a / b)

def gammaGap (gamma k0 : Int) : Int :=
  let g := gamma + Fixed.one
  if k0 < g then g - k0 + 1 else k0 - g + 1

/-- The first coefficient of the derivatives of the invariant. -/
def firstCoefficient (shape : Shape) (d gap : Int) : Priced Int := do
  let scaled ← Priced.quotient (Fixed.one * d) shape.gamma
  let scaled ← Priced.quotient (scaled * gap) shape.gamma
  Priced.quotient (scaled * gap * ampUnit) shape.ann

/-- One step of the iteration for the invariant of sorted balances with the given sum. -/
def invariantStep (shape : Shape) (x : List Int) (sum d : Int) : Priced (Int × Bool) := do
  let n : Int := x.length
  let k0 ← reduceBy d Fixed.one (x.map (· * n))
  let gap := gammaGap shape.gamma k0
  let mul1 ← firstCoefficient shape d gap
  let mul2 ← Priced.quotient (Fixed.one * 2 * n * k0) gap
  let spread ← Priced.quotient (mul1 * n) k0
  let slope := sum + (sum * mul2).fdiv Fixed.one + spread - (mul2 * d).fdiv Fixed.one
  let plus ← euclideanQuotient (d * (slope + sum)) slope
  let square ← euclideanQuotient (d * d) slope
  let share ← euclideanQuotient mul1 slope
  let correction := (d * share).fdiv Fixed.one
  let minus ←
    if k0 < Fixed.one then do
      let part ← Priced.quotient (correction * (Fixed.one - k0)) k0
      .ok (square + part)
    else do
      let part ← Priced.quotient (correction * (k0 - Fixed.one)) k0
      .ok (square - part)
  let next := if minus < plus then plus - minus else (minus - plus).fdiv 2
  .ok (next, absDiff next d * pow10 14 < max (pow10 16) next)

/-- A balance is not too small or too large a part of the invariant. -/
def isSafePart (part : Int) : Bool :=
  pow10 16 ≤ part && part ≤ pow10 20

def requireSafeParts (d : Int) (x : List Int) : Priced Unit :=
  x.forM fun balance => do
    let part ← Priced.quotient (balance * Fixed.one) d
    Priced.require (isSafePart part) .unsafeXi

/-- The balances are in the range of the solver: the greatest one by itself, the others against
it. -/
def requireSafeBalances : List Int → Priced Unit
  | [] => Priced.refuse .unsafeX0
  | greatest :: others => do
    Priced.require (pow10 9 ≤ greatest && greatest ≤ pow10 33) .unsafeX0
    others.forM fun x => do
      let part ← Priced.bareQuotient (x * Fixed.one) greatest
      Priced.require (pow10 11 ≤ part) .unsafeXi

/-- The invariant of balances in any order. -/
def newtonD (shape : Shape) (balances : List Int) : Priced Int := do
  let limits ← limits balances.length
  limits.requireGamma shape.gamma
  let x := descending balances
  requireSafeBalances x
  let mean ← geometricMean x
  let d ← Newton.run (invariantStep shape x (total x)) .dDoesNotConverge steps (x.length * mean)
  requireSafeParts d x
  .ok d

/-- What the iteration for one balance needs to know of the others. -/
structure Others where
  coins : Int
  sum : Int
  k0 : Int
  /-- The change below which the iteration ends. -/
  precision : Int

/-- One step of the iteration for a balance. A step below the tangent halves the value and goes
on. -/
def balanceStep (shape : Shape) (d : Int) (others : Others) (y : Int) : Priced (Int × Bool) := do
  let k0 ← Priced.quotient (others.k0 * y * others.coins) d
  let sum := others.sum + y
  let gap := gammaGap shape.gamma k0
  let mul1 ← firstCoefficient shape d gap
  let ratio ← Priced.quotient (Fixed.one * 2 * k0) gap
  let mul2 := Fixed.one + ratio
  let rise := Fixed.one * y + sum * mul2 + mul1
  let fall := d * mul2
  if rise < fall then .ok (y.fdiv 2, false)
  else
    let slope ← Priced.quotient (rise - fall) y
    Priced.require (slope ≠ 0) .denominatorZero
    let part ← Priced.bareQuotient mul1 slope
    let ahead ← Priced.bareQuotient (rise - fall + Fixed.one * d) slope
    let correction ← Priced.quotient (part * Fixed.one) k0
    let behind ← Priced.bareQuotient (Fixed.one * sum) slope
    let plus := ahead + correction
    let minus := part + behind
    let next := if plus < minus then y.fdiv 2 else plus - minus
    .ok (next, absDiff next y < max others.precision (next.fdiv (pow10 14)))

/-- The first value of the iteration for a balance, from the least of the others to the greatest. -/
def firstBalance (n d : Int) (others : List Int) : Priced Int := do
  let part ← Priced.bareQuotient d n
  others.reverse.foldlM (fun y x => Priced.quotient (y * d) (x * n)) part

/-- The balance of coin `i` for the invariant `d` and the balances of the other coins. The entry of
coin `i` itself is not used. -/
def newtonY (shape : Shape) (x : List Int) (d : Int) (i : Nat) : Priced Int := do
  let limits ← limits x.length
  Priced.require (limits.minAnn ≤ shape.ann && shape.ann ≤ limits.maxAnn) .unsafeA
  limits.requireGamma shape.gamma
  Priced.require (pow10 17 ≤ d && d ≤ pow10 33) .unsafeD
  Priced.require (i < x.length) .tokenIndexesOutOfRange
  let n : Int := x.length
  let sorted := descending (x.set i 0)
  let others := sorted.take (x.length - 1)
  let greatest ← Priced.entry sorted 0
  Priced.require (others.all (· ≠ 0)) .zero
  let start ← firstBalance n d others
  let k0 ← reduceBy d Fixed.one (others.map (· * n))
  let precision := max (max (greatest.fdiv (pow10 14)) (d.fdiv (pow10 14))) 100
  let y ←
    Newton.run (balanceStep shape d ⟨n, total others, k0, precision⟩) .yDoesNotConverge steps start
  let part ← Priced.bareQuotient (y * Fixed.one) d
  Priced.require (isSafePart part) .unsafeY
  .ok y

end Crypto
end Amm
