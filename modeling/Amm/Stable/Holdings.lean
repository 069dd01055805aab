import Amm.Ramp
import Amm.Stable.Curve

/-!
The reserves and shares of a stable pool, and what swaps, deposits and withdrawals do to them. Each
operation takes the rates that bring the raw balances to eighteen decimals. An operation that fails
leaves nothing behind, because it answers with the new state only when it succeeds.
-/

namespace Amm
namespace Stable

/-- Fees are fractions of ten to the tenth. -/
def feeUnit : Int :=
  10000000000

structure Holdings where
  reserves : List Int
  supply : Int
  amp : Ramp
  precision : Int
  swapFee : Int
  adminFee : Int
  offset : Bool
  deriving DecidableEq, Repr

/-- An amount paid out and the fee kept. -/
structure Withdrawal where
  amount : Int
  fee : Int
  deriving DecidableEq, Repr

/-- Balances on the internal scale. -/
def scaled (balances rates : List Int) : Priced (List Int) :=
  if balances.length = rates.length then
    .ok (balances.zipWith (fun balance rate => (balance * rate).fdiv Fixed.one) rates)
  else Priced.refuse .balancesMustMatchMultipliers

def share (amount fee : Int) : Int :=
  (fee * amount).fdiv feeUnit

/-- The fee on the part of a deposit or withdrawal of one token that unbalances `n` tokens. -/
def imbalanceFee (swapFee : Int) (n : Nat) : Int :=
  (swapFee * n).fdiv (4 * ((max n 2 : Nat) - 1))

/-- What a swap pays out and keeps, in units of the bought token and on the internal scale. -/
structure SwapAmounts where
  out : Int
  fee : Int
  scaledFee : Int

namespace Holdings

/-- The curve to price on at a time. -/
def solver (holdings : Holdings) (now : Time) : Priced Curve := do
  let amp ← holdings.amp.value now
  .ok ⟨amp, holdings.precision, holdings.offset⟩

def requirePair (holdings : Holdings) (i j : Nat) : Priced Unit := do
  Priced.require (i ≠ j) .tokenFromEqualsTokenTo
  Priced.require (i < holdings.reserves.length && j < holdings.reserves.length)
    .tokenIndexesOutOfRange

def swapAmounts (holdings : Holdings) (i j : Nat) (dx : Int) (rates : List Int) (now : Time) :
    Priced SwapAmounts := do
  holdings.requirePair i j
  let xp ← scaled holdings.reserves rates
  let balanceIn ← Priced.entry xp i
  let rateIn ← Priced.entry rates i
  let solver ← holdings.solver now
  let y ← solver.balanceAfter i j (balanceIn + (dx * rateIn).fdiv Fixed.one) xp
  let balanceOut ← Priced.entry xp j
  let rateOut ← Priced.entry rates j
  let dy := balanceOut - y - 1
  let fee := share dy holdings.swapFee
  let out ← Priced.bareQuotient ((dy - fee) * Fixed.one) rateOut
  let feeOut ← Priced.bareQuotient (fee * Fixed.one) rateOut
  .ok ⟨out, feeOut, fee⟩

def quote (holdings : Holdings) (i j : Nat) (dx : Int) (rates : List Int) (now : Time) :
    Priced (Int × Int) := do
  let amounts ← holdings.swapAmounts i j dx rates now
  .ok (amounts.out, amounts.fee)

/-- Swaps `dx` of token `i`. The admin share of the fee leaves the pool with the amount paid out. -/
def exchange (holdings : Holdings) (i j : Nat) (dx : Int) (rates : List Int) (now : Time) :
    Priced (Int × Holdings) := do
  let amounts ← holdings.swapAmounts i j dx rates now
  let rateOut ← Priced.entry rates j
  let admin ← Priced.bareQuotient (share amounts.scaledFee holdings.adminFee * Fixed.one) rateOut
  let reserveOut ← Priced.entry holdings.reserves j
  let remaining := reserveOut - amounts.out - admin
  Priced.require (0 ≤ remaining) .insufficientOutput
  let reserves := (holdings.reserves.modify i (· + dx)).set j remaining
  .ok (amounts.out, { holdings with reserves })

def invariant (holdings : Holdings) (balances rates : List Int) (now : Time) : Priced Int := do
  let solver ← holdings.solver now
  let xp ← scaled balances rates
  solver.invariant xp

def virtualPrice (holdings : Holdings) (rates : List Int) (now : Time) : Priced Int := do
  Priced.require (holdings.supply ≠ 0) .denominatorZero
  let d ← holdings.invariant holdings.reserves rates now
  .ok ((d * Fixed.one).fdiv holdings.supply)

def moved (deposit : Bool) (balance amount : Int) : Priced Int :=
  let after := if deposit then balance + amount else balance - amount
  if after < 0 then Priced.refuse .withdrawMoreThanAvailable else .ok after

/-- The shares that a deposit mints or a withdrawal burns, without fees. -/
def sharesFor (holdings : Holdings) (amounts : List Int) (deposit : Bool) (rates : List Int)
    (now : Time) : Priced Int := do
  Priced.require (amounts.length = holdings.reserves.length) .invalidAmount
  let before ← holdings.invariant holdings.reserves rates now
  let balances ← (holdings.reserves.zip amounts).mapM fun (balance, amount) =>
    moved deposit balance amount
  let after ← holdings.invariant balances rates now
  Priced.require (before ≠ 0) .denominatorZero
  let change := if deposit then after - before else before - after
  .ok ((change * holdings.supply).fdiv before)

/-- A balance less the fee on its distance from the proportional withdrawal. -/
def reduced (fee d0 d1 y : Int) (isTarget : Bool) (x : Int) : Int :=
  let ideal := (x * d1).fdiv d0
  x - share (if isTarget then ideal - y else x - ideal) fee

def withdrawalFor (holdings : Holdings) (shares : Int) (i : Nat) (rates : List Int) (now : Time) :
    Priced Withdrawal := do
  let n := holdings.reserves.length
  Priced.require (i < n) .tokenNotFound
  Priced.require (holdings.supply ≠ 0) .denominatorZero
  Priced.require (shares ≤ holdings.supply) .withdrawMoreThanAvailable
  let solver ← holdings.solver now
  let xp ← scaled holdings.reserves rates
  let d0 ← solver.invariant xp
  Priced.require (d0 ≠ 0) .denominatorZero
  let d1 := d0 - (shares * d0).fdiv holdings.supply
  let y ← solver.balanceFor i xp d1
  let fee := imbalanceFee holdings.swapFee n
  let reducedBalances := xp.mapIdx fun j x => reduced fee d0 d1 y (j = i) x
  let rest ← solver.balanceFor i reducedBalances d1
  let reducedBalance ← Priced.entry reducedBalances i
  let balance ← Priced.entry xp i
  let rate ← Priced.entry rates i
  let amount ← Priced.bareQuotient ((reducedBalance - rest - 1) * Fixed.one) rate
  let amountWithoutFee ← Priced.bareQuotient ((balance - y) * Fixed.one) rate
  .ok ⟨amount, amountWithoutFee - amount⟩

/-- The fee on a balance that deviates from the proportional deposit. -/
def depositCharge (fee d0 d1 old new : Int) : Int :=
  share (absDiff ((d1 * old).fdiv d0) new) fee

/-- A deposit before any fee: the balances with it, and the invariant before and after. -/
structure Inflow where
  balances : List Int
  d0 : Int
  d1 : Int

/-- Works out what one amount for each token, none negative, does to the invariant. It must grow. -/
def inflow (holdings : Holdings) (amounts rates : List Int) (now : Time) : Priced Inflow := do
  Priced.require (amounts.length = holdings.reserves.length && amounts.all (0 ≤ ·)) .invalidAmount
  let d0 ← holdings.invariant holdings.reserves rates now
  let balances := holdings.reserves.zipWith (· + ·) amounts
  let d1 ← holdings.invariant balances rates now
  Priced.require (d0 < d1) .d1LowerThanD0
  .ok ⟨balances, d0, d1⟩

def charges (holdings : Holdings) (inflow : Inflow) : List Int :=
  let fee := imbalanceFee holdings.swapFee holdings.reserves.length
  holdings.reserves.zipWith (depositCharge fee inflow.d0 inflow.d1) inflow.balances

/-- The balances that a deposit is paid for: what is left of them after the fees. -/
def afterFees (holdings : Holdings) (inflow : Inflow) : List Int :=
  inflow.balances.zipWith (· - ·) (holdings.charges inflow)

/-- The balances that the pool keeps: only the admin part of the fees leaves it. -/
def afterAdminFees (holdings : Holdings) (inflow : Inflow) : List Int :=
  inflow.balances.zipWith (fun balance charge => balance - share charge holdings.adminFee)
    (holdings.charges inflow)

/-- Deposits one amount for each token and mints shares. A deposit that unbalances the pool pays a
fee; the admin part of it leaves the pool. -/
def deposit (holdings : Holdings) (amounts : List Int) (rates : List Int) (now : Time) :
    Priced (Int × Holdings) := do
  let inflow ← holdings.inflow amounts rates now
  if 0 < holdings.supply then do
    Priced.require (inflow.d0 ≠ 0) .denominatorZero
    let d2 ← holdings.invariant (holdings.afterFees inflow) rates now
    let mint := (holdings.supply * (d2 - inflow.d0)).fdiv inflow.d0
    .ok (mint,
      { holdings with
        reserves := holdings.afterAdminFees inflow
        supply := holdings.supply + mint })
  else
    .ok (inflow.d1,
      { holdings with reserves := inflow.balances, supply := holdings.supply + inflow.d1 })

/-- Burns shares for token `i`. The admin part of the fee leaves the pool with the amount. -/
def withdraw (holdings : Holdings) (shares : Int) (i : Nat) (rates : List Int) (now : Time) :
    Priced (Withdrawal × Holdings) := do
  let withdrawal ← holdings.withdrawalFor shares i rates now
  let removed := withdrawal.amount + share withdrawal.fee holdings.adminFee
  let reserve ← Priced.entry holdings.reserves i
  Priced.require (removed ≤ reserve) .withdrawMoreThanAvailable
  .ok (withdrawal,
    { holdings with
      reserves := holdings.reserves.set i (reserve - removed)
      supply := holdings.supply - shares })

/-- Books a swap as quoted: the input enters, the output and the admin share of the fee leave. -/
def credit (holdings : Holdings) (i j : Nat) (amountIn amountOut fee : Int) : Priced Holdings := do
  holdings.requirePair i j
  let reserveOut ← Priced.entry holdings.reserves j
  let remaining := reserveOut - amountOut - share fee holdings.adminFee
  Priced.require (0 ≤ remaining) .invalidUpdate
  .ok { holdings with reserves := (holdings.reserves.modify i (· + amountIn)).set j remaining }

/-- Books a swap whose fee is not given: the admin share of the fee on the amount out leaves too. -/
def book (holdings : Holdings) (i j : Nat) (amountIn amountOut : Int) : Priced Holdings := do
  let reserveOut ← Priced.entry holdings.reserves j
  let admin := share (share amountOut holdings.swapFee) holdings.adminFee
  let remaining := reserveOut - amountOut - admin
  Priced.require (0 ≤ remaining) .invalidUpdate
  .ok { holdings with reserves := (holdings.reserves.modify i (· + amountIn)).set j remaining }

end Holdings
end Stable
end Amm
