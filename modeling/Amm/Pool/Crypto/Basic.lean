import Amm.Crypto.Curve
import Amm.Stable.Holdings
import Amm.Swap

/-!
Crypto pools of two and three coins. Coin 0 is the unit in which the others are priced. A pool
values its balances at its price scale, and moves the scale toward a moving average of its own
trade prices when it has earned enough to afford the loss. Here are the state of a pool and what
can be read from it.
-/

namespace Amm
namespace Crypto

/-- Fees are fractions of ten to the tenth. -/
def feeUnit : Int :=
  Stable.feeUnit

/-- The flat part of every deposit fee. -/
def noiseFee : Int :=
  pow10 5

/-- Amounts up to this are too small to tell a price. -/
def minPriceAmount : Int :=
  pow10 5

/-- How many coins a pool has, and how it keeps their prices. -/
inductive Layout where
  | pair
  | triple
  deriving DecidableEq, Repr

namespace Layout

def coins : Layout → Nat
  | .pair => 2
  | .triple => 3

/-- The prices of all coins but the first as they read back after being kept. Two prices share a
word, one lane for each, so a price that does not fit its lane spills over. -/
def kept (layout : Layout) (prices : List Int) : List Int :=
  match layout with
  | .pair => prices
  | .triple => Lanes.unpack (Lanes.pack prices) 2

def exchangeGas : Layout → Nat
  | .pair => 180000
  | .triple => 250000

end Layout

end Crypto

structure CryptoPool where
  address : Address
  layout : Crypto.Layout
  shareToken : Address
  tokens : List Address
  reserves : List Int
  precisions : List Int
  supply : Int
  ramp : Crypto.AGammaRamp
  d : Int
  /-- The prices that value the balances, for all coins but the first. -/
  priceScale : List Int
  priceOracle : List Int
  lastPrices : List Int
  lastPricesTime : Time
  maHalfTime : Int
  feeGamma : Int
  midFee : Int
  outFee : Int
  xcpProfit : Int
  virtualPrice : Int
  allowedExtraProfit : Int
  adjustmentStep : Int
  notAdjusted : Bool
  deriving DecidableEq, Repr

namespace CryptoPool

open Crypto

/-- The prices of all coins; the first coin is worth one of itself. -/
def withUnit (prices : List Int) : List Int :=
  Fixed.one :: prices

def valued (pool : CryptoPool) (balances prices : List Int) : List Int :=
  (balances.zipWith (· * ·) pool.precisions).zipWith
    (fun balance price => (balance * price).fdiv Fixed.one) (withUnit prices)

/-- Balances valued at the price scale. -/
def scaled (pool : CryptoPool) (balances : List Int) : List Int :=
  pool.valued balances pool.priceScale

/-- The fee for balances on one scale, between `midFee` and `outFee` as they are more or less
balanced. -/
def fee (pool : CryptoPool) (xp : List Int) : Priced Int := do
  let f ← reductionCoefficient xp pool.feeGamma
  .ok ((pool.midFee * f + pool.outFee * (Fixed.one - f)).fdiv Fixed.one)

def requirePair (pool : CryptoPool) (i j : Nat) : Priced Unit := do
  Priced.require (i ≠ j) .tokenFromEqualsTokenTo
  Priced.require (i < pool.layout.coins && j < pool.layout.coins) .tokenIndexesOutOfRange

def quoteExchange (pool : CryptoPool) (i j : Nat) (dx : Int) (now : Time) :
    Priced (Int × Int) := do
  pool.requirePair i j
  let shape ← pool.ramp.shape now
  let received ← Priced.modify pool.reserves i (· + dx)
  let xp := pool.scaled received
  let y ← newtonY shape xp pool.d j
  let balance ← Priced.entry xp j
  let price ← Priced.entry (withUnit pool.priceScale) j
  let precision ← Priced.entry pool.precisions j
  let scaledOut := (balance - y - 1) * Fixed.one
  let out ←
    match pool.layout with
    | .pair => Priced.quotient scaledOut (price * precision)
    | .triple => do
      let priced ← Priced.quotient scaledOut price
      Priced.quotient priced precision
  let rate ← pool.fee (xp.set j y)
  let fee := Stable.share out rate
  .ok (out - fee, fee)

/-- The geometric mean of the balances of a balanced pool with invariant `d`. -/
def balancedMean (d : Int) (prices : List Int) : Priced Int := do
  let n : Int := (withUnit prices).length
  let balances ← (withUnit prices).mapM fun price => Priced.quotient (d * Fixed.one) (n * price)
  geometricMean (descending balances)

def shareValue (d supply : Int) (prices : List Int) : Priced Int := do
  let mean ← balancedMean d prices
  Priced.quotient (Fixed.one * mean) supply

/-- The value of one share at the price scale. -/
def currentVirtualPrice (pool : CryptoPool) : Priced Int :=
  shareValue pool.d pool.supply pool.priceScale

end CryptoPool
end Amm
