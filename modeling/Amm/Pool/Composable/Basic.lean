import Amm.Composable.Curve
import Amm.Stable.Holdings
import Amm.Swap

/-!
Composable pools. The share token of such a pool is registered among its own tokens, so lists come
in two forms: registered ones, with an entry for the share token, and short ones without it. A swap
with the share token is a join or an exit of one token.
-/

namespace Amm

namespace Composable

/-- The rate of a token now, and the one at the last join or exit. -/
structure RateCache where
  rate : Int
  oldRate : Int
  deriving DecidableEq, Repr

def RateCache.adjust (cache : RateCache) (balance : Int) : Priced Int :=
  Priced.quotient (balance * cache.oldRate) cache.rate

def RateCache.renew (cache : RateCache) : RateCache :=
  { cache with oldRate := cache.rate }

/-- What the protocol charges on growth before a join or an exit. -/
structure ProtocolFees where
  swap : Int
  yield : Int
  /-- One flag for each registered token. -/
  exemptTokens : List Bool
  poolExempt : Bool
  recovery : Bool
  deriving DecidableEq, Repr

/-- The percentages of swap fees and of yield. In recovery mode nothing is charged. -/
def ProtocolFees.percentages (fees : ProtocolFees) : Int × Int :=
  if fees.recovery then (0, 0) else (fees.swap, fees.yield)

end Composable

structure ComposablePool where
  address : Address
  poolId : String
  vault : Address
  version : Nat
  tokens : List Address
  reserves : List Int
  /-- The index of the share token. -/
  shareIndex : Nat
  scalingFactors : List Int
  totalShares : Int
  amp : Int
  swapFee : Int
  lastJoinExit : JoinExit
  rateCaches : List (Option Composable.RateCache)
  protocolFees : Composable.ProtocolFees
  paused : Bool
  ratesStuck : Bool
  deriving DecidableEq, Repr

namespace ComposablePool

def exchangeGas : Nat :=
  80000

/-- The pool takes orders. -/
def requireTradable (pool : ComposablePool) : Priced Unit := do
  Priced.require (!pool.paused) .poolPaused
  Priced.require (!pool.ratesStuck) .canNotUpdateTokenRates

/-- An amount of a token brought to eighteen decimals. -/
def upscale (pool : ComposablePool) (amount : Int) (index : Nat) : Priced Int := do
  let factor ← Priced.entry pool.scalingFactors index
  .ok (Fixed.mulDown amount factor)

def downscale (pool : ComposablePool) (amount : Int) (index : Nat) : Priced Int := do
  let factor ← Priced.entry pool.scalingFactors index
  Composable.ratioDown amount factor

/-- Registered amounts brought to eighteen decimals. -/
def upscaled (pool : ComposablePool) (amounts : List Int) : List Int :=
  amounts.zipWith Fixed.mulDown pool.scalingFactors

/-- A registered list without the entry of the share token. -/
def dropShare {α : Type} (pool : ComposablePool) (amounts : List α) : List α :=
  amounts.eraseIdx pool.shareIndex

def skipShare (pool : ComposablePool) (index : Nat) : Priced Nat :=
  if index < pool.shareIndex then .ok index
  else if index = 0 then Priced.abort .countBelowZero
  else .ok (index - 1)

def registered (pool : ComposablePool) (index : Nat) : Nat :=
  if index < pool.shareIndex then index else index + 1

/-- What a swap between two tokens other than the share token pays out, and its fee in the token
sold. -/
def swapGivenIn (pool : ComposablePool) (indexIn indexOut : Nat) (amountIn : Int) :
    Priced (Int × Int) := do
  let fee := Fixed.mulUp amountIn pool.swapFee
  let amount ← pool.upscale (amountIn - fee) indexIn
  let balances := pool.dropShare (pool.upscaled pool.reserves)
  let invariant ← Composable.roundedInvariant pool.amp balances false
  let shortIn ← pool.skipShare indexIn
  let shortOut ← pool.skipShare indexOut
  let out ← Composable.outGivenIn pool.amp balances shortIn shortOut amount invariant
  let amountOut ← pool.downscale out indexOut
  .ok (amountOut, fee)

end ComposablePool
end Amm
