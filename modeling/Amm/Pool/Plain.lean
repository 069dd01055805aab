import Amm.Snapshot
import Amm.Stable.Holdings
import Amm.Stable.Terms
import Amm.Swap

/-!
Plain stable pools. A swap with the share token is a deposit or a withdrawal of one token.
-/

namespace Amm

structure PlainPool where
  address : Address
  shareToken : Address
  tokens : List Address
  rates : List Int
  holdings : Stable.Holdings
  deriving DecidableEq, Repr

namespace PlainPool

def exchangeGas : Nat :=
  130000

def depositGas : Nat :=
  180000

def withdrawGas : Nat :=
  160000

/-- What stays the same for the life of the pool. -/
structure Static where
  shareToken : Address
  precision : Int
  multipliers : List Int
  rates : List (Option Int)

/-- A rate: decimal text without white space around it, or nothing. -/
def rate? : Json → Option (Option Int)
  | .null => some none
  | .string text =>
    if text.isEmpty then some none else (Text.integer? 10 text.toList).map some
  | _ => none

def Static.ofJson? (value : Json) : Option Static := do
  let record ← value.record? ["lpToken", "aPrecision", "precisionMultipliers", "rates"]
  let shareToken ← record.required "lpToken" Json.address?
  let precision ← record.withDefault "aPrecision" Json.amount? 1
  let multipliers ←
    record.withDefault "precisionMultipliers" (Json.list? Json.amount?) []
  let rates ← record.withDefault "rates" (Json.list? rate?) []
  some ⟨shareToken, precision, multipliers, rates⟩

/-- The rate of a token: the given one, or else the one of its multiplier. -/
def Static.rate (static : Static) (index : Nat) : Priced Int :=
  match static.rates[index]? with
  | some (some rate) => .ok rate
  | _ =>
    Priced.ofOption (static.multipliers[index]?.map (· * Fixed.one)) .balancesMustMatchMultipliers

def ofSnapshot (snapshot : Snapshot) : Priced PlainPool := do
  let terms ← snapshot.decodeExtra Stable.Terms.ofJson?
  let static ← snapshot.decodeStaticExtra Static.ofJson?
  let rates ← (List.range snapshot.tokens.length).mapM static.rate
  let reserves ← snapshot.tokenReserves
  .ok {
    address := snapshot.address
    shareToken := static.shareToken
    tokens := snapshot.tokens
    rates
    holdings := {
      reserves
      supply := snapshot.supply?.getD 0
      amp := terms.amp
      precision := static.precision
      swapFee := terms.swapFee
      adminFee := terms.adminFee
      offset := true } }

def virtualPrice (pool : PlainPool) (now : Time) : Priced Int :=
  pool.holdings.virtualPrice pool.rates now

/-- What a swap between two tokens of the pool pays out, and its fee. -/
def quoteExchange (pool : PlainPool) (i j : Nat) (dx : Int) (now : Time) : Priced (Int × Int) :=
  pool.holdings.quote i j dx pool.rates now

def sharesFor (pool : PlainPool) (amounts : List Int) (deposit : Bool) (now : Time) : Priced Int :=
  pool.holdings.sharesFor amounts deposit pool.rates now

def withdrawalFor (pool : PlainPool) (shares : Int) (i : Nat) (now : Time) :
    Priced Stable.Withdrawal :=
  pool.holdings.withdrawalFor shares i pool.rates now

def deposit (pool : PlainPool) (amounts : List Int) (now : Time) : Priced (Int × PlainPool) := do
  let (minted, holdings) ← pool.holdings.deposit amounts pool.rates now
  .ok (minted, { pool with holdings })

def withdraw (pool : PlainPool) (shares : Int) (i : Nat) (now : Time) :
    Priced (Stable.Withdrawal × PlainPool) := do
  let (withdrawal, holdings) ← pool.holdings.withdraw shares i pool.rates now
  .ok (withdrawal, { pool with holdings })

def quote (pool : PlainPool) (order : Order) (now : Time) : Priced Quote := do
  let n := pool.tokens.length
  match ← route pool.tokens pool.shareToken order.tokenIn order.tokenOut with
  | .exchange i j =>
    let (out, fee) ← pool.quoteExchange i j order.amountIn now
    order.quote out fee order.tokenOut exchangeGas i j false none
  | .deposit i =>
    let out ← pool.sharesFor (singleAmount n i order.amountIn) true now
    order.quote out 0 order.tokenOut depositGas i n false none
  | .withdraw j =>
    let withdrawal ← pool.withdrawalFor order.amountIn j now
    order.quote withdrawal.amount withdrawal.fee order.tokenOut withdrawGas n j false none

def apply (pool : PlainPool) (update : Update) (now : Time) : Priced PlainPool := do
  match ← route pool.tokens pool.shareToken update.tokenIn update.tokenOut with
  | .exchange i j =>
    let holdings ← pool.holdings.credit i j update.amountIn update.amountOut update.fee
    .ok { pool with holdings }
  | .deposit i =>
    let (_, next) ← pool.deposit (singleAmount pool.tokens.length i update.amountIn) now
    .ok next
  | .withdraw j =>
    let (_, next) ← pool.withdraw update.amountIn j now
    .ok next

end PlainPool
end Amm
