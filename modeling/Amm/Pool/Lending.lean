import Amm.Snapshot
import Amm.Stable.Holdings
import Amm.Stable.Terms
import Amm.Swap

/-!
Stable pools over tokens of a lending market. Swaps are priced in the underlying tokens, and the fee
rises as the two balances of a trade drift apart.
-/

namespace Amm

structure LendingPool where
  address : Address
  shareToken : Address
  /-- The underlying tokens. -/
  tokens : List Address
  multipliers : List Int
  rates : List Int
  holdings : Stable.Holdings
  offPegMultiplier : Int
  deriving DecidableEq, Repr

namespace LendingPool

def exchangeGas : Nat :=
  495000

/-- The amplification of these pools has two decimal places. -/
def precision : Int :=
  100

/-- The fee for two balances: `fee` where they are equal, rising toward `multiplier` times `fee` as
one of them vanishes. -/
def dynamicFee (first second fee multiplier : Int) : Priced Int :=
  let sum := first + second
  if multiplier ≤ Stable.feeUnit || sum * sum = 0 then .ok fee
  else
    let balance := ((multiplier - Stable.feeUnit) * 4 * first * second).fdiv (sum * sum)
    Priced.bareQuotient (multiplier * fee) (balance + Stable.feeUnit)

structure Static where
  shareToken : Address
  multipliers : List Int
  underlying : List Address

def Static.ofJson? (value : Json) : Option Static := do
  let record ← value.openRecord? ["lpToken", "precisionMultipliers", "underlyingTokens"]
  let shareToken ← record.withDefault "lpToken" Json.address? Address.zero
  let multipliers ← record.required "precisionMultipliers" (Json.list? Json.amount?)
  let underlying ← record.withDefault "underlyingTokens" (Json.list? Json.address?) []
  some ⟨shareToken, multipliers, underlying⟩

def ofSnapshot (snapshot : Snapshot) : Priced LendingPool := do
  let (terms, offPegMultiplier) ←
    snapshot.decodeExtra (Stable.Terms.withAmount? "offpegFeeMultiplier")
  let static ← snapshot.decodeStaticExtra Static.ofJson?
  let n := snapshot.tokens.length
  Priced.require (static.underlying.isEmpty || static.underlying.length = n)
    (.invalidSnapshot (.underlyingCount static.underlying.length n))
  let rates ← Stable.ratesFor static.multipliers n
  let reserves ← snapshot.tokenReserves
  .ok {
    address := snapshot.address
    shareToken := static.shareToken
    tokens := if static.underlying.isEmpty then snapshot.tokens else static.underlying
    multipliers := static.multipliers
    rates
    holdings := {
      reserves
      supply := snapshot.supply?.getD 1
      amp := terms.amp
      precision
      swapFee := terms.swapFee
      adminFee := terms.adminFee
      offset := true }
    offPegMultiplier }

def virtualPrice (pool : LendingPool) (now : Time) : Priced Int :=
  pool.holdings.virtualPrice pool.rates now

/-- What a swap between two underlying tokens pays out, and its fee. -/
def quoteExchange (pool : LendingPool) (i j : Nat) (dx : Int) (now : Time) :
    Priced (Int × Int) := do
  let n := pool.tokens.length
  Priced.require (i < n && j < n) .tokenIndexesOutOfRange
  let xp ← Stable.scaled pool.holdings.reserves pool.rates
  let balanceIn ← Priced.entry xp i
  let multiplierIn ← Priced.entry pool.multipliers i
  let x := balanceIn + dx * multiplierIn
  let solver ← pool.holdings.solver now
  let y ← solver.balanceAfter i j x xp
  let balanceOut ← Priced.entry xp j
  let multiplierOut ← Priced.entry pool.multipliers j
  let dy ← Priced.bareQuotient (balanceOut - y) multiplierOut
  let rate ← dynamicFee ((balanceIn + x).fdiv 2) ((balanceOut + y).fdiv 2)
    pool.holdings.swapFee pool.offPegMultiplier
  let fee := Stable.share dy rate
  .ok (dy - fee, fee)

/-- Always priced as a deposit. -/
def sharesFor (pool : LendingPool) (amounts : List Int) (now : Time) : Priced Int :=
  pool.holdings.sharesFor amounts true pool.rates now

def withdrawalFor (pool : LendingPool) (shares : Int) (i : Nat) (now : Time) :
    Priced Stable.Withdrawal :=
  pool.holdings.withdrawalFor shares i pool.rates now

/-- A deposited balance less the dynamic fee on its distance from the proportional deposit. -/
def chargedBalance (pool : LendingPool) (fee average d0 d1 old new : Int) : Priced Int := do
  let ideal := (d1 * old).fdiv d0
  let rate ← dynamicFee (old + new) average fee pool.offPegMultiplier
  .ok (new - Stable.share (absDiff ideal new) rate)

/-- Deposits one amount for each token. The whole deposit stays in the pool, because the admin share
of the fee cannot be observed. -/
def deposit (pool : LendingPool) (amounts : List Int) (now : Time) :
    Priced (Int × LendingPool) := do
  let holdings := pool.holdings
  let n := pool.tokens.length
  Priced.require (amounts.length = n && amounts.all (0 ≤ ·)) .invalidAmount
  let d0 ← holdings.invariant holdings.reserves pool.rates now
  let balances := holdings.reserves.zipWith (· + ·) amounts
  let d1 ← holdings.invariant balances pool.rates now
  Priced.require (d0 < d1) .d1LowerThanD0
  let minted ←
    if 0 < holdings.supply then do
      Priced.require (d0 ≠ 0) .denominatorZero
      let average := (d0 + d1).fdiv n
      let fee := Stable.imbalanceFee holdings.swapFee n
      let charged ← (holdings.reserves.zip balances).mapM fun (old, new) =>
        pool.chargedBalance fee average d0 d1 old new
      let d2 ← holdings.invariant charged pool.rates now
      .ok ((holdings.supply * (d2 - d0)).fdiv d0)
    else .ok d1
  let holdings := { holdings with reserves := balances, supply := holdings.supply + minted }
  .ok (minted, { pool with holdings })

def withdraw (pool : LendingPool) (shares : Int) (i : Nat) (now : Time) :
    Priced (Stable.Withdrawal × LendingPool) := do
  let (withdrawal, holdings) ← pool.holdings.withdraw shares i pool.rates now
  .ok (withdrawal, { pool with holdings })

def indices (pool : LendingPool) (tokenIn tokenOut : Address) : Priced (Nat × Nat) :=
  match pool.tokens.idxOf? tokenIn, pool.tokens.idxOf? tokenOut with
  | some i, some j => .ok (i, j)
  | _, _ => Priced.refuse .tokenNotFound

def quote (pool : LendingPool) (order : Order) (now : Time) : Priced Quote := do
  let (i, j) ← pool.indices order.tokenIn order.tokenOut
  let (out, fee) ← pool.quoteExchange i j order.amountIn now
  order.quote out fee order.tokenOut exchangeGas i j true none

/-- Applies a quoted swap. The admin share is taken on the whole amount out. -/
def apply (pool : LendingPool) (update : Update) : Priced LendingPool := do
  let (i, j) ← pool.indices update.tokenIn update.tokenOut
  Priced.require (i ≠ j) .tokenFromEqualsTokenTo
  let holdings ← pool.holdings.book i j update.amountIn update.amountOut
  .ok { pool with holdings }

end LendingPool
end Amm
