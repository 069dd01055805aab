import Amm.Pool.Crypto.Basic
import Amm.Snapshot

/-!
Crypto pools from snapshots.
-/

namespace Amm
namespace CryptoPool

open Crypto

/-- The part of a snapshot that changes with the pool. -/
structure Extra where
  ramp : AGammaRamp
  priceScale : List Int
  priceOracle : List Int
  lastPrices : List Int
  lastPricesTime : Time
  feeGamma : Int
  midFee : Int
  outFee : Int
  maHalfTime : Int
  xcpProfit : Int
  virtualPrice : Int
  d : Int
  allowedExtraProfit : Int
  adjustmentStep : Int
  notAdjusted : Bool

/-- The prices of a pool: one amount for a pair, a list for more coins. -/
def prices? (layout : Layout) (value : Json) : Option (List Int) :=
  match layout with
  | .pair => (Json.amount? value).map fun price => [price]
  | .triple => Json.list? Json.amount? value

def Extra.ofJson? (layout : Layout) (value : Json) : Option Extra := do
  let record ← value.record?
    ["initialAGamma", "futureAGamma", "initialAGammaTime", "futureAGammaTime", "priceScale",
      "priceOracle", "lastPrices", "lastPricesTimestamp", "feeGamma", "midFee", "outFee",
      "maHalfTime", "xcpProfit", "virtualPrice", "D", "allowedExtraProfit", "adjustmentStep",
      "notAdjusted"]
  let initial ← record.required "initialAGamma" Json.amount?
  let future ← record.required "futureAGamma" Json.amount?
  let initialTime ← record.withDefault "initialAGammaTime" Json.time? 0
  let futureTime ← record.withDefault "futureAGammaTime" Json.time? 0
  let priceScale ← record.required "priceScale" (prices? layout)
  let priceOracle ← record.required "priceOracle" (prices? layout)
  let lastPrices ← record.required "lastPrices" (prices? layout)
  let lastPricesTime ← record.required "lastPricesTimestamp" Json.time?
  let feeGamma ← record.required "feeGamma" Json.amount?
  let midFee ← record.required "midFee" Json.amount?
  let outFee ← record.required "outFee" Json.amount?
  let maHalfTime ← record.required "maHalfTime" Json.amount?
  let xcpProfit ← record.required "xcpProfit" Json.amount?
  let virtualPrice ← record.required "virtualPrice" Json.amount?
  let d ← record.required "D" Json.amount?
  let allowedExtraProfit ← record.required "allowedExtraProfit" Json.amount?
  let adjustmentStep ← record.required "adjustmentStep" Json.amount?
  let notAdjusted ← record.withDefault "notAdjusted" Json.bool? false
  some {
    ramp := ⟨initial, future, initialTime, futureTime⟩
    priceScale
    priceOracle
    lastPrices
    lastPricesTime
    feeGamma
    midFee
    outFee
    maHalfTime
    xcpProfit
    virtualPrice
    d
    allowedExtraProfit
    adjustmentStep
    notAdjusted }

/-- The share token, zero when it is left out, and the precisions of the coins. -/
def static? (value : Json) : Option (Address × List Int) := do
  let record ← value.record? ["lpToken", "precisionMultipliers"]
  let shareToken ← record.withDefault "lpToken" Json.address? Address.zero
  let precisions ← record.required "precisionMultipliers" (Json.list? Json.amount?)
  some (shareToken, precisions)

/-- The flaw of a snapshot with another number of tokens than the pool has coins. -/
def tokenCountFlaw (layout : Layout) (tokens : Nat) : SnapshotFlaw :=
  match layout with
  | .pair => .pairTokenCount tokens
  | .triple => .tripleTokenCount tokens

/-- The prices of a snapshot as the pool keeps them: one for each coin but the first. -/
def keepPrices (layout : Layout) (list : PriceList) (prices : List Int) : Priced (List Int) := do
  Priced.require (prices.length = layout.coins - 1)
    (.invalidSnapshot (.priceCount list prices.length))
  .ok (layout.kept prices)

def ofSnapshot (layout : Layout) (snapshot : Snapshot) : Priced CryptoPool := do
  let extra ← snapshot.decodeExtra (Extra.ofJson? layout)
  let (shareToken, precisions) ← snapshot.decodeStaticExtra static?
  let n := snapshot.tokens.length
  Priced.require (n = layout.coins) (.invalidSnapshot (tokenCountFlaw layout n))
  Priced.require (precisions.length = layout.coins) .balancesMustMatchMultipliers
  let reserves ← snapshot.tokenReserves
  let priceScale ← keepPrices layout .scale extra.priceScale
  let priceOracle ← keepPrices layout .oracle extra.priceOracle
  let lastPrices ← keepPrices layout .last extra.lastPrices
  .ok {
    address := snapshot.address
    layout
    shareToken
    tokens := snapshot.tokens
    reserves
    precisions
    supply := snapshot.supply?.getD 0
    ramp := extra.ramp
    d := extra.d
    priceScale
    priceOracle
    lastPrices
    lastPricesTime := extra.lastPricesTime
    maHalfTime := extra.maHalfTime
    feeGamma := extra.feeGamma
    midFee := extra.midFee
    outFee := extra.outFee
    xcpProfit := extra.xcpProfit
    virtualPrice := extra.virtualPrice
    allowedExtraProfit := extra.allowedExtraProfit
    adjustmentStep := extra.adjustmentStep
    notAdjusted := extra.notAdjusted }

end CryptoPool
end Amm
