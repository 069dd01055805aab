import Amm.Newton

/-!
The invariant of composable pools and the amounts of swaps, joins and exits. Balances have eighteen
decimals. Every division says which way it rounds, so that a pool does not lose by rounding; a
difference that would be negative is refused.
-/

namespace Amm
namespace Composable

/-- The amplification is multiplied by this. -/
def ampUnit : Int :=
  1000

def steps : Nat :=
  255

def difference (a b : Int) : Priced Int :=
  if a - b < 0 then Priced.refuse .subUnderflow else .ok (a - b)

/-- A quotient of two integers rounded as asked. -/
def rounded (a b : Int) (roundUp : Bool) : Priced Int :=
  Priced.ofFixed (Fixed.div a b roundUp)

/-- The quotient of two fixed-point numbers, rounded down. -/
def ratioDown (a b : Int) : Priced Int :=
  Priced.ofFixed (Fixed.divDownFixed a b)

/-- The quotient of two fixed-point numbers, rounded up. -/
def ratioUp (a b : Int) : Priced Int :=
  Priced.ofFixed (Fixed.divUpFixed a b)

/-- The product of balances, each times `n`, divided by the invariant between two of them. -/
def balanceProduct (n invariant : Int) (balances : List Int) (roundUp : Bool) : Priced Int :=
  match balances with
  | [] => Priced.abort .indexOutOfRange
  | first :: others =>
    others.foldlM (fun product balance => rounded (product * balance * n) invariant roundUp)
      (first * n)

/-- One step of the iteration in which all divisions round one way. -/
def roundedStep (amp : Int) (balances : List Int) (sum : Int) (roundUp : Bool) (invariant : Int) :
    Priced Int := do
  let n : Int := balances.length
  let ampTotal := amp * n
  let product ← balanceProduct n invariant balances roundUp
  let weighted ← rounded (ampTotal * sum * product) ampUnit roundUp
  let damping ← rounded ((ampTotal - ampUnit) * product) ampUnit (!roundUp)
  rounded (n * invariant * invariant + weighted) ((n + 1) * invariant + damping) roundUp

/-- The invariant with every intermediate division rounded the way that is asked. -/
def roundedInvariant (amp : Int) (balances : List Int) (roundUp : Bool) : Priced Int :=
  let sum := total balances
  if sum = 0 then .ok 0
  else
    Newton.settle (roundedStep amp balances sum roundUp) .stableInvariantDidNotConverge steps sum

/-- One step of the iteration that always rounds down. -/
def invariantStep (amp : Int) (balances : List Int) (sum invariant : Int) : Priced Int := do
  let n : Int := balances.length
  let ampTotal := amp * n
  let product ← balances.foldlM
    (fun product balance => Priced.quotient (product * invariant) (balance * n)) invariant
  let weighted := (ampTotal * sum).fdiv ampUnit
  let damping := ((ampTotal - ampUnit) * invariant).fdiv ampUnit
  Priced.quotient ((weighted + product * n) * invariant) (damping + (n + 1) * product)

/-- The invariant of balances, rounded down. -/
def invariant (amp : Int) (balances : List Int) : Priced Int :=
  let sum := total balances
  if sum = 0 then .ok 0
  else Newton.settle (invariantStep amp balances sum) .stableInvariantDidNotConverge steps sum

/-- The coefficients of the quadratic for the balance of one token. -/
structure Coefficients where
  b : Int
  c : Int

/-- The coefficients for the balance of a token, given the balances of all tokens. -/
def coefficients (amp : Int) (balances : List Int) (invariant : Int) (index : Nat) :
    Priced Coefficients := do
  let n : Int := balances.length
  let ampTotal := amp * n
  let product ← balanceProduct n invariant balances false
  let balance ← Priced.entry balances index
  let share ← rounded (invariant * invariant) (ampTotal * product) true
  let weight ← rounded invariant ampTotal false
  .ok ⟨total balances - balance + weight * ampUnit, share * ampUnit * balance⟩

/-- One step of the iteration for a balance, rounded up. -/
def balanceStep (k : Coefficients) (invariant balance : Int) : Priced Int :=
  rounded (balance * balance + k.c) (balance * 2 + k.b - invariant) true

/-- The balance of a token for which the pool has the given invariant. It is rounded up, so that the
pool does not pay out too much. -/
def balanceFor (amp : Int) (balances : List Int) (invariant : Int) (index : Nat) :
    Priced Int := do
  let k ← coefficients amp balances invariant index
  let start ← rounded (invariant * invariant + k.c) (invariant + k.b) true
  Newton.settle (balanceStep k invariant) .stableGetBalanceDidNotConverge steps start

def outGivenIn (amp : Int) (balances : List Int) (indexIn indexOut : Nat)
    (amountIn invariant : Int) : Priced Int := do
  let balanceIn ← Priced.entry balances indexIn
  let after := balances.set indexIn (balanceIn + amountIn)
  let rest ← balanceFor amp after invariant indexOut
  let balanceOut ← Priced.entry after indexOut
  let released ← difference balanceOut rest
  difference released 1

def inGivenOut (amp : Int) (balances : List Int) (indexIn indexOut : Nat)
    (amountOut invariant : Int) : Priced Int := do
  let balanceOut ← Priced.entry balances indexOut
  let left ← difference balanceOut amountOut
  let after := balances.set indexOut left
  let filled ← balanceFor amp after invariant indexIn
  let balanceIn ← Priced.entry after indexIn
  let paid ← difference filled balanceIn
  .ok (paid + 1)

/-- What a join or an exit moves, and the fee it pays. -/
structure Outcome where
  amount : Int
  fee : Int
  deriving DecidableEq, Repr

/-- A deposit less the fee on the part that unbalances the pool. -/
def depositAfterFee (swapFee mean balance amount ratio : Int) : Priced Int :=
  if mean < ratio then do
    let growth ← difference mean Fixed.one
    let nonTaxable := Fixed.mulDown balance growth
    let taxable ← difference amount nonTaxable
    let kept ← difference Fixed.one swapFee
    .ok (nonTaxable + Fixed.mulDown taxable kept)
  else .ok amount

/-- The growth of one balance by a deposit, and its weight in the pool. -/
def growthOf (sum balance amount : Int) : Priced (Int × Int) := do
  let weight ← ratioDown balance sum
  let ratio ← ratioDown (balance + amount) balance
  .ok (ratio, weight)

/-- The shares minted for exact amounts of the tokens, and the fee in the tokens. -/
def sharesOut (amp : Int) (balances amountsIn : List Int) (supply invariant swapFee : Int) :
    Priced Outcome := do
  let pairs := balances.zip amountsIn
  let growths ← pairs.mapM fun (balance, amount) => growthOf (total balances) balance amount
  let mean := total (growths.map fun (ratio, weight) => Fixed.mulDown ratio weight)
  let kept ← (pairs.zip growths).mapM fun ((balance, amount), ratio, _) =>
    depositAfterFee swapFee mean balance amount ratio
  let fee := total (pairs.zipWith (fun pair after => pair.2 - after) kept)
  let next ← Composable.invariant amp (pairs.zipWith (fun pair after => pair.1 + after) kept)
  let ratio ← ratioDown next invariant
  .ok ⟨if Fixed.one < ratio then Fixed.mulDown supply (ratio - Fixed.one) else 0, fee⟩

/-- The amount of one token paid out for exact shares, and the fee in the token. The part of the
withdrawal beyond the weight of the token pays the fee. -/
def tokenOut (amp : Int) (balances : List Int) (index : Nat)
    (sharesIn supply invariant swapFee : Int) : Priced Outcome := do
  let left ← difference supply sharesIn
  let ratio ← ratioUp left supply
  let rest ← balanceFor amp balances (Fixed.mulUp ratio invariant) index
  let balance ← Priced.entry balances index
  let withoutFee ← difference balance rest
  let weight ← ratioDown balance (total balances)
  let taxable := Fixed.mulUp withoutFee (Fixed.complement weight)
  let nonTaxable ← difference withoutFee taxable
  let kept ← difference Fixed.one swapFee
  let afterFee := Fixed.mulDown taxable kept
  .ok ⟨nonTaxable + afterFee, taxable - afterFee⟩

end Composable
end Amm
