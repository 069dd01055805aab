import Amm.Pool.Crypto.Repeg

/-!
Deposits into a crypto pool and withdrawals of one coin. What an operation would do is worked out
first, by a definition that the views share.
-/

namespace Amm
namespace CryptoPool

open Crypto

/-- The fee on a deposit of scaled amounts, rising as they differ more from one another. -/
def depositFee (pool : CryptoPool) (amounts xp : List Int) : Priced Int := do
  let n : Int := pool.layout.coins
  let rate ← pool.fee xp
  let fee ← Priced.bareQuotient (rate * n) (4 * (n - 1))
  let sum := total amounts
  let average ← Priced.bareQuotient sum n
  let deviation := total (amounts.map fun amount => absDiff amount average)
  let part ← Priced.quotient (fee * deviation) sum
  .ok (part + noiseFee)

/-- What a deposit would do: the balances after it, raw and scaled, their invariant, the shares
minted, and the invariant before. -/
structure Deposit where
  balances : List Int
  xp : List Int
  d : Int
  minted : Int
  oldD : Int

/-- One amount for each coin, none negative and not all zero. -/
def requireDeposit (pool : CryptoPool) (amounts : List Int) : Priced Unit := do
  Priced.require (amounts.length = pool.layout.coins) .invalidAmount
  Priced.require (amounts.all (0 ≤ ·) && amounts.any (· ≠ 0)) .invalidAmount

def depositFor (pool : CryptoPool) (amounts : List Int) (now : Time) : Priced Deposit := do
  pool.requireDeposit amounts
  let shape ← pool.ramp.shape now
  let balances := pool.reserves.zipWith (· + ·) amounts
  let xp := pool.scaled balances
  let oldXp := pool.scaled pool.reserves
  let deposited := (amounts.zip (xp.zip oldXp)).map fun (amount, new, old) =>
    if 0 < amount then new - old else 0
  let oldD ← if pool.ramp.isRamping then newtonD shape oldXp else .ok pool.d
  let d ← newtonD shape xp
  if 0 < oldD then do
    let grown ← Priced.quotient (pool.supply * d) oldD
    let minted := grown - pool.supply
    Priced.require (0 < minted) .insufficientOutput
    let fee ← pool.depositFee deposited xp
    .ok ⟨balances, xp, d, minted - (Stable.share minted fee + 1), oldD⟩
  else do
    let minted ← balancedMean d pool.priceScale
    Priced.require (0 < minted) .insufficientOutput
    .ok ⟨balances, xp, d, minted, oldD⟩

def sharesFor (pool : CryptoPool) (amounts : List Int) (now : Time) : Priced Int := do
  let deposit ← pool.depositFor amounts now
  .ok deposit.minted

/-- The value of all coins but one. Beside the first coin of a pair the other coin is counted in
its own units. -/
def othersValue (pool : CryptoPool) (coin : Nat) : Int :=
  match pool.layout, coin with
  | .pair, 0 => total ((pool.valued pool.reserves (pool.lastPrices.map fun _ => Fixed.one)).eraseIdx 0)
  | _, _ => total ((pool.valued pool.reserves pool.lastPrices).eraseIdx coin)

/-- The coin whose price a deposit or withdrawal of one coin shows. -/
def pricedCoin (pool : CryptoPool) (coin : Nat) : Nat :=
  match pool.layout with
  | .pair => 1
  | .triple => coin

/-- The price that an amount of one coin shows when it is exchanged for the part `num / den` of the
pool: what the part holds of the other coins, against the amount beyond its own share of the
coin. -/
def singlePrice (pool : CryptoPool) (coin : Nat) (amount num den : Int) :
    Priced (Option TradePrice) := do
  let others ← Priced.quotient (pool.othersValue coin * num) den
  let precision ← Priced.entry pool.precisions coin
  let reserve ← Priced.entry pool.reserves coin
  let own ← Priced.quotient (num * reserve * precision) den
  let excess := amount * precision - own
  if 0 < excess then do
    let price ← Priced.quotient (others * Fixed.one) excess
    if coin = 0 then do
      let inverse ← Priced.quotient (Fixed.one * Fixed.one) price
      .ok (some ⟨pool.pricedCoin coin, inverse⟩)
    else .ok (some ⟨pool.pricedCoin coin, price⟩)
  else .ok none

/-- The only coin of a deposit that is priced: a single one, and in a pool of three coins not the
first. -/
def depositedCoin? (pool : CryptoPool) (amounts : List Int) : Option Nat :=
  match amounts.zipIdx.filter (fun (amount, _) => amount ≠ 0) with
  | [(_, coin)] =>
    match pool.layout, coin with
    | .triple, 0 => none
    | _, coin => some coin
  | _ => none

/-- The price that a deposit shows to the pool that has received it. -/
def depositPrice (pool : CryptoPool) (amounts : List Int) (minted : Int) :
    Priced (Option TradePrice) :=
  match pool.depositedCoin? amounts with
  | some coin =>
    if minPriceAmount < minted then do
      let amount ← Priced.entry amounts coin
      pool.singlePrice coin amount minted pool.supply
    else .ok none
  | none => .ok none

def received (pool : CryptoPool) (deposit : Deposit) (now : Time) : CryptoPool :=
  { pool with
    ramp :=
      if pool.ramp.isRamping && pool.ramp.futureTime ≤ now then pool.ramp.markEnded else pool.ramp
    reserves := deposit.balances
    supply := pool.supply + deposit.minted }

def settleDeposit (pool : CryptoPool) (shape : Shape) (amounts : List Int) (deposit : Deposit)
    (now : Time) : Priced Settlement := do
  let received := pool.received deposit now
  let trade ← received.depositPrice amounts deposit.minted
  .ok ⟨received, shape, deposit.xp, trade, some deposit.d⟩

/-- Deposits one amount for each coin. The first deposit sets the profit and the value of a share
to one. -/
def deposit (pool : CryptoPool) (amounts : List Int) (now : Time) : Priced (Int × CryptoPool) := do
  let shape ← pool.ramp.shape now
  let deposit ← pool.depositFor amounts now
  if 0 < deposit.oldD then do
    let settlement ← pool.settleDeposit shape amounts deposit now
    let next ← settlement.book now
    .ok (deposit.minted, next)
  else
    .ok (deposit.minted,
      { pool.received deposit now with
        d := deposit.d
        virtualPrice := Fixed.one
        xcpProfit := Fixed.one })

/-- What a withdrawal of one coin would do: the amount paid out, the price it shows, the invariant
and the scaled balances after it, and the fee. -/
structure SingleWithdrawal where
  amount : Int
  price : Option TradePrice
  d : Int
  xp : List Int
  fee : Int

def singleWithdrawal (pool : CryptoPool) (shares : Int) (coin : Nat) (now : Time)
    (renewD : Bool) : Priced SingleWithdrawal := do
  Priced.require (coin < pool.layout.coins) .tokenIndexesOutOfRange
  Priced.require (shares ≤ pool.supply) .withdrawMoreThanAvailable
  let shape ← pool.ramp.shape now
  let xp := pool.scaled pool.reserves
  let price ← Priced.entry (withUnit pool.priceScale) coin
  let precision ← Priced.entry pool.precisions coin
  let oldD ← if renewD then newtonD shape xp else .ok pool.d
  let rate ← pool.fee xp
  let burnt ← Priced.quotient (shares * oldD) pool.supply
  let fee := (rate * burnt).fdiv (feeUnit * 2) + 1
  let d := oldD - (burnt - fee)
  let y ← newtonY shape xp d coin
  let balance ← Priced.entry xp coin
  let amount ← Priced.quotient ((balance - y) * Fixed.one) (price * precision)
  let trade ←
    if minPriceAmount < amount && minPriceAmount < shares then
      pool.singlePrice coin amount burnt oldD
    else .ok none
  .ok ⟨amount, trade, d, xp.set coin y, fee⟩

def withdrawalFor (pool : CryptoPool) (shares : Int) (coin : Nat) (now : Time) :
    Priced Stable.Withdrawal := do
  let withdrawal ← pool.singleWithdrawal shares coin now false
  .ok ⟨withdrawal.amount, withdrawal.fee⟩

/-- What burning shares pays out in one coin, and the burn as it is to be booked. At and after the
future time of the ramp it is marked as ended. -/
def settleWithdrawal (pool : CryptoPool) (shares : Int) (coin : Nat) (now : Time) :
    Priced (Stable.Withdrawal × Settlement) := do
  let shape ← pool.ramp.shape now
  let withdrawal ← pool.singleWithdrawal shares coin now pool.ramp.isRamping
  let reserve ← Priced.entry pool.reserves coin
  let paid := { pool with
    ramp := if pool.ramp.futureTime ≤ now then pool.ramp.markEnded else pool.ramp
    reserves := pool.reserves.set coin (reserve - withdrawal.amount)
    supply := pool.supply - shares }
  .ok (⟨withdrawal.amount, withdrawal.fee⟩,
    ⟨paid, shape, withdrawal.xp, withdrawal.price, some withdrawal.d⟩)

def withdraw (pool : CryptoPool) (shares : Int) (coin : Nat) (now : Time) :
    Priced (Stable.Withdrawal × CryptoPool) := do
  let (withdrawal, settlement) ← pool.settleWithdrawal shares coin now
  let next ← settlement.book now
  .ok (withdrawal, next)

end CryptoPool
end Amm
