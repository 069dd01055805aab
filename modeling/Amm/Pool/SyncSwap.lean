import Amm.Newton
import Amm.Snapshot
import Amm.Stable.Holdings
import Amm.Swap

/-!
Stable pools of exactly two tokens with a fixed amplification. Each direction has a swap fee of its
own, which is taken from the amount sold. The first deposit mints a fixed number of shares less than
the invariant.
-/

namespace Amm
namespace SyncSwap

def steps : Nat :=
  256

/-- One step of the iteration for the invariant of two balances with the given sum. -/
def invariantStep (a x0 x1 sum d : Int) : Priced Int := do
  let ampTotal := a * 2
  let first ← Priced.quotient (d * d) x0
  let second ← Priced.quotient (first * d) x1
  let product := second.fdiv 4
  Priced.quotient ((ampTotal * sum + product * 2) * d) ((ampTotal - 1) * d + product * 3)

/-- The invariant of two balances on one scale. -/
def invariant (a x0 x1 : Int) : Priced Int :=
  let sum := x0 + x1
  if sum = 0 then .ok 0
  else Newton.settle (invariantStep a x0 x1 sum) .dDoesNotConverge steps sum

/-- The coefficients of the quadratic for one balance, given the other balance `x`. -/
def coefficients (a x d : Int) : Priced (Int × Int) := do
  let ampTotal := a * 2
  let first ← Priced.quotient (d * d) (x * 2)
  let c ← Priced.quotient (first * d) (ampTotal * 2)
  let share ← Priced.quotient d ampTotal
  .ok (x + share, c)

def balanceStep (b c d y : Int) : Priced Int :=
  Priced.quotient (y * y + c) (y * 2 + b - d)

/-- The balance of one token that keeps the invariant when the other has the balance `x`. -/
def balanceFor (a x d : Int) : Priced Int := do
  let (b, c) ← coefficients a x d
  Newton.settle (balanceStep b c d) .yDoesNotConverge steps d

end SyncSwap

structure SyncSwapPool where
  address : Address
  vault : Option Address
  tokens : List Address
  reserve0 : Int
  reserve1 : Int
  supply : Int
  amp : Int
  multiplier0 : Int
  multiplier1 : Int
  /-- The fee on swaps of token 0 for token 1. -/
  fee0 : Int
  /-- The fee on swaps of token 1 for token 0. -/
  fee1 : Int
  deriving DecidableEq, Repr

namespace SyncSwapPool

def exchangeGas : Nat :=
  150000

def amplification : Int :=
  1000

/-- The shares that the first deposit leaves unminted. -/
def minimumLiquidity : Int :=
  1000

/-- Swap fees are fractions of a hundred thousand. -/
def feeUnit : Int :=
  100000

structure Extra where
  fee0 : Int
  fee1 : Int
  multiplier0 : Int
  multiplier1 : Int
  vault : Option Address

def Extra.ofJson? (value : Json) : Option Extra := do
  let record ← value.record?
    ["swapFee0To1", "swapFee1To0", "token0PrecisionMultiplier", "token1PrecisionMultiplier",
      "vaultAddress"]
  let fee0 ← record.required "swapFee0To1" Json.amount?
  let fee1 ← record.required "swapFee1To0" Json.amount?
  let multiplier0 ← record.required "token0PrecisionMultiplier" Json.amount?
  let multiplier1 ← record.required "token1PrecisionMultiplier" Json.amount?
  let vault ← record.withDefault "vaultAddress" (Json.nullable? Json.address?) none
  some ⟨fee0, fee1, multiplier0, multiplier1, vault⟩

def ofSnapshot (snapshot : Snapshot) : Priced SyncSwapPool := do
  let extra ← snapshot.decodeExtra Extra.ofJson?
  Priced.require (snapshot.tokens.length = 2)
    (.invalidSnapshot (.twoTokenCount snapshot.tokens.length))
  let reserves ← snapshot.tokenReserves
  let reserve0 ← Priced.entry reserves 0
  let reserve1 ← Priced.entry reserves 1
  .ok {
    address := snapshot.address
    vault := extra.vault
    tokens := snapshot.tokens
    reserve0
    reserve1
    supply := snapshot.supply?.getD 0
    amp := amplification
    multiplier0 := extra.multiplier0
    multiplier1 := extra.multiplier1
    fee0 := extra.fee0
    fee1 := extra.fee1 }

def reserves (pool : SyncSwapPool) : List Int :=
  [pool.reserve0, pool.reserve1]

def invariantOf (pool : SyncSwapPool) (reserve0 reserve1 : Int) : Priced Int :=
  SyncSwap.invariant pool.amp (reserve0 * pool.multiplier0) (reserve1 * pool.multiplier1)

def invariant (pool : SyncSwapPool) : Priced Int :=
  pool.invariantOf pool.reserve0 pool.reserve1

/-- What a swap against given reserves pays out, and its fee in the token sold. -/
def amountOutOf (pool : SyncSwapPool) (reserve0 reserve1 amountIn : Int) (zeroForOne : Bool) :
    Priced (Int × Int) := do
  let fee := (amountIn * (if zeroForOne then pool.fee0 else pool.fee1)).fdiv feeUnit
  let d ← pool.invariantOf reserve0 reserve1
  let adjusted0 := reserve0 * pool.multiplier0
  let adjusted1 := reserve1 * pool.multiplier1
  let (adjustedIn, multiplierIn, adjustedOut, multiplierOut) :=
    if zeroForOne then (adjusted0, pool.multiplier0, adjusted1, pool.multiplier1)
    else (adjusted1, pool.multiplier1, adjusted0, pool.multiplier0)
  let y ← SyncSwap.balanceFor pool.amp (adjustedIn + (amountIn - fee) * multiplierIn) d
  let out ← Priced.quotient (adjustedOut - y - 1) multiplierOut
  .ok (out, fee)

def amountOut (pool : SyncSwapPool) (amountIn : Int) (zeroForOne : Bool) : Priced (Int × Int) :=
  pool.amountOutOf pool.reserve0 pool.reserve1 amountIn zeroForOne

/-- Half the swap fee on the part of a deposit that unbalances the pool. -/
def depositFees (pool : SyncSwapPool) (amount0 amount1 : Int) : Priced (Int × Int) := do
  if pool.supply = 0 then .ok (0, 0)
  else
    let optimal1 ← Priced.quotient (amount0 * pool.reserve1) pool.reserve0
    if optimal1 ≤ amount1 then
      .ok (0, (pool.fee1 * (amount1 - optimal1)).fdiv (feeUnit * 2))
    else
      let optimal0 ← Priced.quotient (amount1 * pool.reserve0) pool.reserve1
      .ok ((pool.fee0 * (amount0 - optimal0)).fdiv (feeUnit * 2), 0)

def mintFor (pool : SyncSwapPool) (amount0 amount1 : Int) : Priced Int := do
  let before ← pool.invariant
  let (fee0, fee1) ← pool.depositFees amount0 amount1
  let after ← pool.invariantOf (pool.reserve0 + amount0 - fee0) (pool.reserve1 + amount1 - fee1)
  let minted ←
    if pool.supply = 0 then .ok (after - minimumLiquidity)
    else Priced.quotient ((after - before) * pool.supply) before
  Priced.require (0 < minted) .insufficientOutput
  .ok minted

def amountPair (amounts : List Int) : Priced (Int × Int) :=
  match amounts with
  | [amount0, amount1] => .ok (amount0, amount1)
  | _ => Priced.refuse .tokenIndexesOutOfRange

def sharesFor (pool : SyncSwapPool) (amounts : List Int) : Priced Int := do
  let (amount0, amount1) ← amountPair amounts
  pool.mintFor amount0 amount1

/-- A withdrawal in one token and the reserves that it leaves. -/
structure Burn where
  withdrawal : Stable.Withdrawal
  reserve0 : Int
  reserve1 : Int
  deriving DecidableEq, Repr

/-- Burns shares for their part of both tokens and swaps one part into the other token. -/
def burnFor (pool : SyncSwapPool) (shares : Int) (index : Nat) : Priced Burn := do
  Priced.require (index ≤ 1) .tokenIndexesOutOfRange
  Priced.require (shares ≤ pool.supply) .withdrawMoreThanAvailable
  let amount0 ← Priced.quotient (shares * pool.reserve0) pool.supply
  let amount1 ← Priced.quotient (shares * pool.reserve1) pool.supply
  let rest0 := pool.reserve0 - amount0
  let rest1 := pool.reserve1 - amount1
  let burn ←
    if index = 1 then do
      let (out, fee) ← pool.amountOutOf rest0 rest1 amount0 true
      .ok (Burn.mk ⟨amount1 + out, fee⟩ (rest0 + amount0) (rest1 - out))
    else do
      let (out, fee) ← pool.amountOutOf rest0 rest1 amount1 false
      .ok (Burn.mk ⟨amount0 + out, fee⟩ (rest0 - out) (rest1 + amount1))
  Priced.require (0 ≤ burn.reserve0 && 0 ≤ burn.reserve1) .withdrawMoreThanAvailable
  .ok burn

def indices (pool : SyncSwapPool) (tokenIn tokenOut : Address) : Priced (Nat × Nat) := do
  let i ← Priced.ofOption (pool.tokens.idxOf? tokenIn) .tokenNotFound
  let j ← Priced.ofOption (pool.tokens.idxOf? tokenOut) .tokenNotFound
  Priced.require (i ≠ j) .tokenFromEqualsTokenTo
  .ok (i, j)

def reserve (pool : SyncSwapPool) (index : Nat) : Int :=
  if index = 0 then pool.reserve0 else pool.reserve1

def withReserves (pool : SyncSwapPool) (reserve0 reserve1 : Int) : SyncSwapPool :=
  { pool with reserve0, reserve1 }

def quote (pool : SyncSwapPool) (order : Order) : Priced Quote := do
  let (i, j) ← pool.indices order.tokenIn order.tokenOut
  let (out, fee) ← pool.amountOut order.amountIn (i = 0)
  Priced.require (out < pool.reserve j) .insufficientOutput
  order.quote out fee order.tokenIn exchangeGas i j false none

def apply (pool : SyncSwapPool) (update : Update) : Priced SyncSwapPool := do
  let (i, j) ← pool.indices update.tokenIn update.tokenOut
  let remaining := pool.reserve j - update.amountOut
  Priced.require (0 ≤ remaining) .invalidUpdate
  let filled := pool.reserve i + update.amountIn
  .ok (if i = 0 then pool.withReserves filled remaining else pool.withReserves remaining filled)

def deposit (pool : SyncSwapPool) (amounts : List Int) : Priced (Int × SyncSwapPool) := do
  let (amount0, amount1) ← amountPair amounts
  let minted ← pool.mintFor amount0 amount1
  .ok (minted,
    { pool with
      reserve0 := pool.reserve0 + amount0
      reserve1 := pool.reserve1 + amount1
      supply := pool.supply + minted })

def withdraw (pool : SyncSwapPool) (shares : Int) (index : Nat) :
    Priced (Stable.Withdrawal × SyncSwapPool) := do
  let burn ← pool.burnFor shares index
  .ok (burn.withdrawal,
    { pool with
      reserve0 := burn.reserve0
      reserve1 := burn.reserve1
      supply := pool.supply - shares })

def virtualPrice (pool : SyncSwapPool) : Priced Int := do
  Priced.require (pool.supply ≠ 0) .denominatorZero
  let d ← pool.invariant
  Priced.quotient (d * Fixed.one) pool.supply

end SyncSwapPool
end Amm
