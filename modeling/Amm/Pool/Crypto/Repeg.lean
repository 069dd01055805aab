import Amm.Pool.Crypto.Basic

/-!
What every trade does to the prices of a crypto pool: the moving average decays toward the last
prices, the trade leaves new last prices, the profit is booked, and the price scale may move one
step toward the average.
-/

namespace Amm
namespace CryptoPool

open Crypto

/-- The price of a coin in the first coin, as a trade shows it. -/
structure TradePrice where
  coin : Nat
  price : Int
  deriving DecidableEq, Repr

/-- A price of the moving average: the part `alpha` of the old average, the rest the last price. -/
def averaged (alpha oracle last : Int) : Int :=
  (last * (Fixed.one - alpha) + oracle * alpha).fdiv Fixed.one

def oracleAt (pool : CryptoPool) (now : Time) : Priced (List Int) :=
  if pool.lastPricesTime < now then do
    let elapsed ← now.since pool.lastPricesTime
    let power ← Priced.quotient (elapsed * Fixed.one) pool.maHalfTime
    let alpha ← halfpow power (pow10 10)
    .ok (pool.priceOracle.zipWith (averaged alpha) pool.lastPrices)
  else .ok pool.priceOracle

/-- The last prices after a trade that shows a price. A dearer first coin makes all others
cheaper. -/
def tradedPrices (pool : CryptoPool) (trade : TradePrice) : Priced (List Int) :=
  if trade.coin = 0 then
    pool.lastPrices.mapM fun last => Priced.quotient (last * Fixed.one) trade.price
  else Priced.modify pool.lastPrices (trade.coin - 1) fun _ => trade.price

/-- The prices of a trade of a millionth of the first coin for each of the others. -/
def marginalPrices (pool : CryptoPool) (shape : Shape) (xp : List Int) (d : Int) :
    Priced (List Int) := do
  let balance ← Priced.entry xp 0
  let dx := balance.fdiv (pow10 6)
  let moved := xp.set 0 (balance + dx)
  pool.priceScale.zipIdx.mapM fun (scale, k) => do
    let y ← newtonY shape moved d (k + 1)
    let before ← Priced.entry xp (k + 1)
    Priced.quotient (scale * dx) (before - y)

/-- The last prices after a trade. A trade without a positive price shows the marginal prices. -/
def nextPrices (pool : CryptoPool) (shape : Shape) (xp : List Int) (d : Int)
    (trade : Option TradePrice) : Priced (List Int) :=
  match trade with
  | some trade =>
    if 0 < trade.price then pool.tradedPrices trade else pool.marginalPrices shape xp d
  | none => pool.marginalPrices shape xp d

/-- The profit and the value of a share before the scale moves. -/
structure Profit where
  xcpProfit : Int
  virtualPrice : Int

/-- The profit for an invariant. Outside a ramp a share must not lose value. -/
def profit (pool : CryptoPool) (d : Int) : Priced Profit :=
  if 0 < pool.virtualPrice then do
    let value ← shareValue d pool.supply pool.priceScale
    let profit ← Priced.quotient (pool.xcpProfit * value) pool.virtualPrice
    Priced.require (!(value < pool.virtualPrice && pool.ramp.futureTime = 0)) .loss
    .ok ⟨profit, value⟩
  else .ok ⟨Fixed.one, Fixed.one⟩

/-- The squared distance of the moving average from the scale, relative to the scale. -/
def squaredDeviation (oracle scale : List Int) : Priced Int := do
  let ratios ← (oracle.zip scale).mapM fun (average, price) =>
    Priced.quotient (average * Fixed.one) price
  .ok (total (ratios.map fun ratio => absDiff ratio Fixed.one * absDiff ratio Fixed.one))

/-- The scale moved by one step of the given length toward the moving average. -/
def movedScale (pool : CryptoPool) (norm : Int) (oracle : List Int) : Priced (List Int) :=
  (oracle.zip pool.priceScale).mapM fun (average, price) =>
    Priced.quotient (price * (norm - pool.adjustmentStep) + pool.adjustmentStep * average) norm

/-- Balances on the old scale brought to a new one. -/
def rescaled (pool : CryptoPool) (xp scale : List Int) : Priced (List Int) := do
  let balance ← Priced.entry xp 0
  let others ← ((xp.drop 1).zip (scale.zip pool.priceScale)).mapM fun (x, new, old) =>
    Priced.quotient (x * new) old
  .ok (balance :: others)

/-- A new scale with the invariant and the value of a share that go with it. -/
structure Adjustment where
  priceScale : List Int
  d : Int
  virtualPrice : Int

/-- Tries a step of the scale. It is taken only if the shares stay worth more than one and keep
more than half of the profit. -/
def adjustment (pool : CryptoPool) (shape : Shape) (xp oracle : List Int) (deviation profit : Int) :
    Priced (Option Adjustment) := do
  let norm ← sqrt (deviation.fdiv Fixed.one)
  let scale ← pool.movedScale norm oracle
  let balances ← pool.rescaled xp scale
  let d ← newtonD shape balances
  let value ← shareValue d pool.supply scale
  .ok (if Fixed.one < value && profit < value * 2 - Fixed.one then some ⟨scale, d, value⟩ else none)

/-- A trade that its pool has already received and that waits to be booked: the scaled balances after
it, the price it shows, and the invariant after it where that is known. -/
structure Settlement where
  pool : CryptoPool
  shape : Shape
  xp : List Int
  trade : Option TradePrice
  knownD : Option Int

/-- What is read off a trade before the profit is: the moving average, the invariant and the last
prices. -/
structure Observation where
  oracle : List Int
  d : Int
  last : List Int

namespace Settlement

/-- The invariant at the price scale that the trade was made at. -/
def unadjustedD (settlement : Settlement) : Priced Int :=
  match settlement.knownD with
  | some d => .ok d
  | none => newtonD settlement.shape settlement.xp

def observe (settlement : Settlement) (now : Time) : Priced Observation := do
  let oracle ← settlement.pool.oracleAt now
  let d ← settlement.unadjustedD
  let last ← settlement.pool.nextPrices settlement.shape settlement.xp d settlement.trade
  .ok ⟨oracle, d, last⟩

/-- Whether the scale is to move: it is still to be moved from before, or the profit allows it. -/
def wantsMove (settlement : Settlement) (profit : Profit) : Bool :=
  settlement.pool.notAdjusted
    || profit.xcpProfit + settlement.pool.allowedExtraProfit * 2
      < profit.virtualPrice * 2 - Fixed.one

/-- The pool with the trade on record and the scale as it was. -/
def recorded (settlement : Settlement) (seen : Observation) (profit : Profit) (now : Time) :
    CryptoPool :=
  let pool := settlement.pool
  { pool with
    priceOracle :=
      if pool.lastPricesTime < now then pool.layout.kept seen.oracle else pool.priceOracle
    lastPricesTime := max pool.lastPricesTime now
    lastPrices := pool.layout.kept seen.last
    ramp := if 0 < pool.virtualPrice then pool.ramp.clearMark else pool.ramp
    xcpProfit := profit.xcpProfit
    virtualPrice := profit.virtualPrice
    d := seen.d
    notAdjusted := settlement.wantsMove profit }

/-- Records a trade and moves the scale if the profit allows it. -/
def record (settlement : Settlement) (seen : Observation) (profit : Profit) (now : Time) :
    Priced CryptoPool :=
  let pool := settlement.pool
  let recorded := settlement.recorded seen profit now
  if !settlement.wantsMove profit then .ok recorded
  else do
    let deviation ← squaredDeviation seen.oracle pool.priceScale
    if deviation ≤ pool.adjustmentStep * pool.adjustmentStep || pool.virtualPrice ≤ 0 then
      .ok recorded
    else
      match ← pool.adjustment settlement.shape settlement.xp seen.oracle deviation profit.xcpProfit
      with
      | some next =>
        .ok { recorded with
          priceScale := pool.layout.kept next.priceScale
          d := next.d
          virtualPrice := next.virtualPrice }
      | none => .ok { recorded with notAdjusted := false }

/-- Books a trade: reads the prices off it, takes the profit, and puts both on record. -/
def book (settlement : Settlement) (now : Time) : Priced CryptoPool := do
  let seen ← settlement.observe now
  let profit ← settlement.pool.profit seen.d
  settlement.record seen profit now

end Settlement

end CryptoPool
end Amm
