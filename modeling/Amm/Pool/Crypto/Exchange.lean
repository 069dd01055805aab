import Amm.Pool.Crypto.Repeg

/-!
Swaps of a crypto pool.
-/

namespace Amm
namespace CryptoPool

open Crypto

/-- The price that a swap shows: of the coin bought, or of the coin sold for the first coin. -/
def exchangePrice (pool : CryptoPool) (i j : Nat) (dx dy : Int) : Priced (Option TradePrice) :=
  if minPriceAmount < dx && minPriceAmount < dy then do
    let precisionIn ← Priced.entry pool.precisions i
    let precisionOut ← Priced.entry pool.precisions j
    if j = 0 then
      let price ← Priced.quotient (dy * precisionOut * Fixed.one) (dx * precisionIn)
      .ok (some ⟨i, price⟩)
    else
      let last ← Priced.entry (withUnit pool.lastPrices) i
      let price ← Priced.quotient (last * (dx * precisionIn)) (dy * precisionOut)
      .ok (some ⟨j, price⟩)
  else .ok none

/-- While a ramp is pending the invariant is found anew; a ramp that has ended is marked. -/
def rampedFor (pool : CryptoPool) (shape : Shape) (now : Time) : Priced CryptoPool :=
  if pool.ramp.isRamping then do
    let d ← newtonD shape (pool.scaled pool.reserves)
    let ramp := if pool.ramp.futureTime ≤ now then pool.ramp.markEnded else pool.ramp
    .ok { pool with d, ramp }
  else .ok pool

/-- The amount out of a swap of `dx` of coin `i` for coin `j`, and the swap as it is to be booked. -/
def settleExchange (pool : CryptoPool) (i j : Nat) (dx : Int) (now : Time) :
    Priced (Int × Settlement) := do
  pool.requirePair i j
  Priced.require (0 < dx) .invalidAmount
  let shape ← pool.ramp.shape now
  let reserveOut ← Priced.entry pool.reserves j
  let received ← Priced.modify pool.reserves i (· + dx)
  let xp := pool.scaled received
  let pool ← pool.rampedFor shape now
  let y ← newtonY shape xp pool.d j
  let balance ← Priced.entry xp j
  let price ← Priced.entry (withUnit pool.priceScale) j
  let precision ← Priced.entry pool.precisions j
  let priced ← Priced.quotient ((balance - y - 1) * Fixed.one) price
  let gross ← Priced.quotient priced precision
  let rate ← pool.fee (xp.set j y)
  let dy := gross - Stable.share gross rate
  Priced.require (0 < dy) .insufficientOutput
  let remaining := reserveOut - dy
  Priced.require (0 ≤ remaining) .insufficientOutput
  let pool := { pool with reserves := received.set j remaining }
  let trade ← pool.exchangePrice i j dx dy
  .ok (dy, ⟨pool, shape, pool.scaled pool.reserves, trade, none⟩)

def exchange (pool : CryptoPool) (i j : Nat) (dx : Int) (now : Time) :
    Priced (Int × CryptoPool) := do
  let (dy, settlement) ← pool.settleExchange i j dx now
  let next ← settlement.book now
  .ok (dy, next)

def quote (pool : CryptoPool) (order : Order) (now : Time) : Priced Quote := do
  let i ← Priced.ofOption (pool.tokens.idxOf? order.tokenIn) .tokenNotFound
  let j ← Priced.ofOption (pool.tokens.idxOf? order.tokenOut) .tokenNotFound
  let (out, fee) ← pool.quoteExchange i j order.amountIn now
  order.quote out fee order.tokenOut pool.layout.exchangeGas i j false none

def apply (pool : CryptoPool) (update : Update) (now : Time) : Priced CryptoPool := do
  let i ← Priced.ofOption (pool.tokens.idxOf? update.tokenIn) .invalidUpdate
  let j ← Priced.ofOption (pool.tokens.idxOf? update.tokenOut) .invalidUpdate
  let (_, next) ← pool.exchange i j update.amountIn now
  .ok next

end CryptoPool
end Amm
