import Amm.Snapshot
import Amm.Stable.Holdings
import Amm.Stable.Terms
import Amm.Swap

/-!
Stable pools with a withdraw fee. The fee is taken from withdrawals in one token, beside the fee on
the imbalance; swaps with the share token are deposits and withdrawals of one token.
-/

namespace Amm

structure SaddlePool where
  address : Address
  shareToken : Address
  tokens : List Address
  rates : List Int
  holdings : Stable.Holdings
  withdrawFee : Int
  deriving DecidableEq, Repr

namespace SaddlePool

def exchangeGas : Nat :=
  85000

def depositGas : Nat :=
  120000

def withdrawGas : Nat :=
  110000

/-- The amplification of these pools has two decimal places. -/
def precision : Int :=
  100

/-- The share token, zero when it is left out, and the multipliers of the tokens. -/
def static? (value : Json) : Option (Address × List Int) := do
  let record ← value.record? ["lpToken", "precisionMultipliers"]
  let shareToken ← record.withDefault "lpToken" Json.address? Address.zero
  let multipliers ← record.required "precisionMultipliers" (Json.list? Json.amount?)
  some (shareToken, multipliers)

def ofSnapshot (snapshot : Snapshot) : Priced SaddlePool := do
  let (terms, withdrawFee) ←
    snapshot.decodeExtra (Stable.Terms.withAmount? "defaultWithdrawFee")
  let (shareToken, multipliers) ← snapshot.decodeStaticExtra static?
  let rates ← Stable.ratesFor multipliers snapshot.tokens.length
  let reserves ← snapshot.tokenReserves
  .ok {
    address := snapshot.address
    shareToken
    tokens := snapshot.tokens
    rates
    holdings := {
      reserves
      supply := snapshot.supply?.getD 0
      amp := terms.amp
      precision
      swapFee := terms.swapFee
      adminFee := terms.adminFee
      offset := true }
    withdrawFee }

def virtualPrice (pool : SaddlePool) (now : Time) : Priced Int :=
  pool.holdings.virtualPrice pool.rates now

/-- What a swap between two tokens of the pool pays out, and its fee. -/
def quoteExchange (pool : SaddlePool) (i j : Nat) (dx : Int) (now : Time) : Priced (Int × Int) :=
  pool.holdings.quote i j dx pool.rates now

/-- What burning shares pays out in token `i` after the withdraw fee, and the fee on the
imbalance. -/
def withdrawalFor (pool : SaddlePool) (shares : Int) (i : Nat) (now : Time) :
    Priced Stable.Withdrawal := do
  let withdrawal ← pool.holdings.withdrawalFor shares i pool.rates now
  .ok { withdrawal with
    amount := (withdrawal.amount * (Stable.feeUnit - pool.withdrawFee)).fdiv Stable.feeUnit }

/-- The shares that a deposit mints, or that a withdrawal burns with its withdraw fee. -/
def sharesFor (pool : SaddlePool) (amounts : List Int) (deposit : Bool) (now : Time) :
    Priced Int := do
  let shares ← pool.holdings.sharesFor amounts deposit pool.rates now
  let kept := Stable.feeUnit - pool.withdrawFee
  if deposit then .ok shares
  else if kept ≤ 0 then Priced.refuse .denominatorZero
  else .ok ((shares * Stable.feeUnit).fdiv kept)

def deposit (pool : SaddlePool) (amounts : List Int) (now : Time) : Priced (Int × SaddlePool) := do
  let (minted, holdings) ← pool.holdings.deposit amounts pool.rates now
  .ok (minted, { pool with holdings })

def withdraw (pool : SaddlePool) (shares : Int) (i : Nat) (now : Time) :
    Priced (Stable.Withdrawal × SaddlePool) := do
  let withdrawal ← pool.withdrawalFor shares i now
  let removed := withdrawal.amount + Stable.share withdrawal.fee pool.holdings.adminFee
  let reserve ← Priced.entry pool.holdings.reserves i
  Priced.require (removed ≤ reserve) .withdrawMoreThanAvailable
  let holdings := { pool.holdings with
    reserves := pool.holdings.reserves.set i (reserve - removed)
    supply := pool.holdings.supply - shares }
  .ok (withdrawal, { pool with holdings })

def quote (pool : SaddlePool) (order : Order) (now : Time) : Priced Quote := do
  let n := pool.tokens.length
  match ← route pool.tokens pool.shareToken order.tokenIn order.tokenOut with
  | .exchange i j =>
    let (out, fee) ← pool.quoteExchange i j order.amountIn now
    order.quote out fee order.tokenOut exchangeGas i j false none
  | .deposit i =>
    let out ← pool.sharesFor (singleAmount n i order.amountIn) true now
    order.quote out 0 order.tokenOut depositGas i n false none
  | .withdraw j =>
    let withdrawal ← pool.withdrawalFor order.amountIn j now
    order.quote withdrawal.amount withdrawal.fee order.tokenOut withdrawGas n j false none

/-- Applies a quoted swap. The admin share is taken on the whole amount out. -/
def apply (pool : SaddlePool) (update : Update) (now : Time) : Priced SaddlePool := do
  match ← route pool.tokens pool.shareToken update.tokenIn update.tokenOut with
  | .exchange i j =>
    let holdings ← pool.holdings.book i j update.amountIn update.amountOut
    .ok { pool with holdings }
  | .deposit i =>
    let (_, next) ← pool.deposit (singleAmount pool.tokens.length i update.amountIn) now
    .ok next
  | .withdraw j =>
    let (_, next) ← pool.withdraw update.amountIn j now
    .ok next

end SaddlePool
end Amm
