import Amm.Pool.Composable.Growth

/-!
Joins and exits of composable pools, and the operations built on them. A join or an exit first mints
the shares that the protocol is owed, and leaves the amplification and the invariant from which the
next one measures growth.
-/

namespace Amm
namespace ComposablePool

/-- What a join or an exit starts from: supply with the shares of the protocol, short balances and
their invariant. -/
structure Basis where
  supply : Int
  balances : List Int
  invariant : Int
  deriving DecidableEq, Repr

/-- The basis for registered balances with eighteen decimals. -/
def basis (pool : ComposablePool) (registeredBalances : List Int) : Priced Basis := do
  let held ← Priced.entry registeredBalances pool.shareIndex
  let supply ← Composable.difference pool.totalShares held
  let balances := pool.dropShare registeredBalances
  let ownership ← pool.ownership balances
  let owed ← pool.protocolShares supply ownership.percentage
  let invariant ←
    if pool.amp = pool.lastJoinExit.amplification then .ok ownership.invariant
    else Composable.invariant pool.amp balances
  .ok ⟨supply + owed, balances, invariant⟩

def after (pool : ComposablePool) (balances : List Int) : Priced JoinExit := do
  let invariant ← Composable.invariant pool.amp balances
  .ok ⟨pool.amp, invariant⟩

/-- The shares minted by a join or the amount paid out by an exit, the fee, and what is left for the
next one. -/
structure Passage where
  amount : Int
  fee : Int
  left : JoinExit
  deriving DecidableEq, Repr

/-- A join with registered amounts. The fee has eighteen decimals. -/
def join (pool : ComposablePool) (amounts : List Int) : Priced Passage := do
  Priced.require
    (amounts.length = pool.tokens.length && amounts[pool.shareIndex]? = some 0) .invalidAmount
  let basis ← pool.basis (pool.upscaled pool.reserves)
  let amountsIn := pool.dropShare (pool.upscaled amounts)
  let outcome ← Composable.sharesOut pool.amp basis.balances amountsIn basis.supply basis.invariant
    pool.swapFee
  let shares ← pool.downscale outcome.amount pool.shareIndex
  let left ← pool.after (basis.balances.zipWith (· + ·) amountsIn)
  .ok ⟨shares, outcome.fee, left⟩

/-- An exit with shares into one token. Amount and fee are in units of the token. -/
def exit (pool : ComposablePool) (shares : Int) (indexOut : Nat) : Priced Passage := do
  Priced.require (indexOut ≠ pool.shareIndex) .tokenFromEqualsTokenTo
  let basis ← pool.basis (pool.upscaled pool.reserves)
  let sharesIn ← pool.upscale shares pool.shareIndex
  let index ← pool.skipShare indexOut
  let outcome ← Composable.tokenOut pool.amp basis.balances index sharesIn basis.supply
    basis.invariant pool.swapFee
  let amount ← pool.downscale outcome.amount indexOut
  let fee ← pool.downscale outcome.fee indexOut
  let left ← pool.after (basis.balances.modify index (· - outcome.amount))
  .ok ⟨amount, fee, left⟩

def indices (pool : ComposablePool) (tokenIn tokenOut : Address) : Priced (Nat × Nat) := do
  let i ← Priced.ofOption (pool.tokens.idxOf? tokenIn) .tokenNotFound
  let j ← Priced.ofOption (pool.tokens.idxOf? tokenOut) .tokenNotFound
  Priced.require (i ≠ j) .tokenFromEqualsTokenTo
  .ok (i, j)

def renewedCaches (pool : ComposablePool) : List (Option Composable.RateCache) :=
  pool.rateCaches.map (Option.map Composable.RateCache.renew)

def commit (pool : ComposablePool) (i : Nat) (amountIn : Int) (j : Nat) (amountOut : Int) :
    Priced ComposablePool := do
  let reserveOut ← Priced.entry pool.reserves j
  let remaining := reserveOut - amountOut
  Priced.require (0 ≤ remaining) .invalidUpdate
  .ok { pool with
    reserves := (pool.reserves.modify i (· + amountIn)).set j remaining
    rateCaches := pool.renewedCaches }

def quote (pool : ComposablePool) (order : Order) : Priced Quote := do
  pool.requireTradable
  let (i, j) ← pool.indices order.tokenIn order.tokenOut
  if j = pool.shareIndex then do
    let passage ← pool.join (singleAmount pool.tokens.length i order.amountIn)
    let fee ← pool.downscale passage.fee i
    order.quote passage.amount fee order.tokenIn exchangeGas i j false (some passage.left)
  else if i = pool.shareIndex then do
    let passage ← pool.exit order.amountIn j
    order.quote passage.amount passage.fee order.tokenOut exchangeGas i j false (some passage.left)
  else do
    let (out, fee) ← pool.swapGivenIn i j order.amountIn
    order.quote out fee order.tokenIn exchangeGas i j false none

def apply (pool : ComposablePool) (update : Update) : Priced ComposablePool := do
  let (i, j) ← pool.indices update.tokenIn update.tokenOut
  let next ← pool.commit i update.amountIn j update.amountOut
  .ok { next with lastJoinExit := update.joinExit.getD pool.lastJoinExit }

/-- Joins with registered amounts, none of them of the share token. -/
def deposit (pool : ComposablePool) (amounts : List Int) : Priced (Int × ComposablePool) := do
  pool.requireTradable
  let passage ← pool.join amounts
  let held ← Priced.entry pool.reserves pool.shareIndex
  let remaining := held - passage.amount
  Priced.require (0 ≤ remaining) .invalidUpdate
  .ok (passage.amount,
    { pool with
      reserves := (pool.reserves.zipWith (· + ·) amounts).set pool.shareIndex remaining
      rateCaches := pool.renewedCaches
      lastJoinExit := passage.left })

def withdraw (pool : ComposablePool) (shares : Int) (index : Nat) :
    Priced (Stable.Withdrawal × ComposablePool) := do
  pool.requireTradable
  Priced.require (index < pool.tokens.length) .tokenIndexesOutOfRange
  let passage ← pool.exit shares index
  let reserve ← Priced.entry pool.reserves index
  Priced.require (passage.amount ≤ reserve) .withdrawMoreThanAvailable
  let next ← pool.commit pool.shareIndex shares index passage.amount
  .ok (⟨passage.amount, passage.fee⟩, { next with lastJoinExit := passage.left })

/-- The invariant for one unit of the supply, with the shares of the protocol minted. -/
def virtualPrice (pool : ComposablePool) : Priced Int := do
  let basis ← pool.basis (pool.upscaled pool.reserves)
  Priced.require (basis.supply ≠ 0) .denominatorZero
  let invariant ← Composable.invariant pool.amp basis.balances
  Composable.ratioDown invariant basis.supply

end ComposablePool
end Amm
