import Amm.Pool.Base

/-!
Metapools: stable pools whose last coin is the share token of a base pool. Underlying indices count
the local coins before the last one, and after them the tokens of the base pool.
-/

namespace Amm

structure Metapool where
  address : Address
  shareToken : Address
  tokens : List Address
  rateMultiplier : Int
  holdings : Stable.Holdings
  base : BasePool
  deriving DecidableEq, Repr

namespace Metapool

def exchangeGas : Nat :=
  145000

def underlyingGas : Nat :=
  260000

structure Static where
  shareToken : Address
  basePool : Address
  rateMultiplier : Int
  precision : Int

def Static.ofJson? (value : Json) : Option Static := do
  let record ← value.record? ["lpToken", "basePool", "rateMultiplier", "aPrecision"]
  let shareToken ← record.required "lpToken" Json.address?
  let basePool ← record.required "basePool" Json.address?
  let rateMultiplier ← record.required "rateMultiplier" Json.amount?
  let precision ← record.required "aPrecision" Json.amount?
  some ⟨shareToken, basePool, rateMultiplier, precision⟩

def ofSnapshot (bases : BasePools) (snapshot : Snapshot) : Priced Metapool := do
  let terms ← snapshot.decodeExtra Stable.Terms.ofJson?
  let static ← snapshot.decodeStaticExtra Static.ofJson?
  let base ← Priced.ofOption (bases.find? static.basePool) (.missingBasePool static.basePool)
  Priced.require (2 ≤ snapshot.tokens.length) (.invalidSnapshot .metaTokenCount)
  let reserves ← snapshot.tokenReserves
  .ok {
    address := snapshot.address
    shareToken := static.shareToken
    tokens := snapshot.tokens
    rateMultiplier := static.rateMultiplier
    holdings := {
      reserves
      supply := snapshot.supply?.getD 0
      amp := terms.amp
      precision := static.precision
      swapFee := terms.swapFee
      adminFee := terms.adminFee
      offset := false }
    base }

/-- The index of the coin that is the share token of the base pool. -/
def baseCoin (pool : Metapool) : Nat :=
  pool.tokens.length - 1

/-- The local coins before the last one, then the tokens of the base pool. -/
def underlyingTokens (pool : Metapool) : List Address :=
  pool.tokens.take pool.baseCoin ++ pool.base.tokens

def underlyingIndex (pool : Metapool) (baseIndex : Nat) : Nat :=
  pool.baseCoin + baseIndex

/-- The rates of the coins: the multiplier for local ones, the value of a base share for the
last. -/
def rates (pool : Metapool) (now : Time) : Priced (List Int) := do
  let basePrice ← pool.base.virtualPrice now
  .ok (List.replicate pool.baseCoin pool.rateMultiplier ++ [basePrice])

/-- Where a pair of tokens is traded. -/
structure Pair where
  indexIn : Nat
  indexOut : Nat
  underlying : Bool
  deriving DecidableEq, Repr

/-- Finds a pair of tokens among the coins of the pool, or else among the underlying tokens. -/
def pair (pool : Metapool) (tokenIn tokenOut : Address) : Priced Pair := do
  let baseShare := pool.base.shareToken
  Priced.require
    (!((tokenIn = pool.shareToken && tokenOut = baseShare)
      || (tokenIn = baseShare && tokenOut = pool.shareToken)))
    .lpToBaseLpNotSupported
  match pool.tokens.idxOf? tokenIn, pool.tokens.idxOf? tokenOut with
  | some i, some j => .ok ⟨i, j, false⟩
  | _, _ =>
    match pool.underlyingTokens.idxOf? tokenIn, pool.underlyingTokens.idxOf? tokenOut with
    | some i, some j => .ok ⟨i, j, true⟩
    | _, _ => Priced.refuse .tokenNotFound

/-- An underlying token is a local coin or a token of the base pool. -/
inductive Side where
  | coin (index : Nat)
  | base (index : Nat)
  deriving DecidableEq, Repr

def side (pool : Metapool) (index : Nat) : Priced Side := do
  Priced.require (index < pool.underlyingTokens.length) .tokenIndexesOutOfRange
  if index < pool.baseCoin then .ok (.coin index) else .ok (.base (index - pool.baseCoin))

def coinOf (pool : Metapool) : Side → Nat
  | .coin index => index
  | .base _ => pool.baseCoin

def quoteExchange (pool : Metapool) (i j : Nat) (dx : Int) (now : Time) : Priced (Int × Int) := do
  let rates ← pool.rates now
  pool.holdings.quote i j dx rates now

def baseAmounts (pool : Metapool) (index : Nat) (amount : Int) : List Int :=
  singleAmount pool.base.tokens.length index amount

/-- The balance of the sold coin after the sale, on the internal scale, as a quote estimates it. A
base token is valued at the shares it would mint less half the base fee. -/
def quotedBalance (pool : Metapool) (side : Side) (dx : Int) (rates xp : List Int) (now : Time) :
    Priced Int :=
  match side with
  | .coin i => do
    let balance ← Priced.entry xp i
    let rate ← Priced.entry rates i
    .ok (balance + dx * rate.fdiv Fixed.one)
  | .base b => do
    let minted ← pool.base.sharesFor (pool.baseAmounts b dx) true now
    let rate ← Priced.entry rates pool.baseCoin
    let balance ← Priced.entry xp pool.baseCoin
    let value := (minted * rate).fdiv Fixed.one
    let fee := (value * pool.base.holdings.swapFee).fdiv (Stable.feeUnit * 2)
    .ok (value - fee + balance)

/-- What a swap between two underlying tokens pays out, and its fee. Deposits into the base pool and
withdrawals from it are estimated with its own quotes. -/
def quoteUnderlying (pool : Metapool) (i j : Nat) (dx : Int) (now : Time) :
    Priced (Int × Int) := do
  Priced.require (i ≠ j) .tokenFromEqualsTokenTo
  let sideIn ← pool.side i
  let sideOut ← pool.side j
  let rates ← pool.rates now
  let xp ← Stable.scaled pool.holdings.reserves rates
  match sideIn, sideOut with
  | .base b, .base c => pool.base.quoteExchange b c dx now
  | _, _ =>
    let x ← pool.quotedBalance sideIn dx rates xp now
    let coinOut := pool.coinOf sideOut
    let solver ← pool.holdings.solver now
    let y ← solver.balanceAfter (pool.coinOf sideIn) coinOut x xp
    let balanceOut ← Priced.entry xp coinOut
    let rateOut ← Priced.entry rates coinOut
    let dy := balanceOut - y - 1
    let fee := Stable.share dy pool.holdings.swapFee
    let out ← Priced.bareQuotient ((dy - fee) * Fixed.one) rateOut
    match sideOut with
    | .coin _ => do
      let feeOut ← Priced.bareQuotient (fee * Fixed.one) rateOut
      .ok (out, feeOut)
    | .base c => do
      let withdrawal ← pool.base.withdrawalFor out c now
      .ok (withdrawal.amount, withdrawal.fee)

def exchange (pool : Metapool) (i j : Nat) (dx : Int) (now : Time) : Priced (Int × Metapool) := do
  let rates ← pool.rates now
  let (out, holdings) ← pool.holdings.exchange i j dx rates now
  .ok (out, { pool with holdings })

/-- What the sale of an underlying token brings to the pool: the balance of the sold coin on the
internal scale, the amount of the coin, and the base pool after it. -/
structure Intake where
  balance : Int
  amount : Int
  base : BasePool

/-- Takes in a sold token. A base token is deposited into the base pool first. -/
def takeIn (pool : Metapool) (side : Side) (dx : Int) (rates xp : List Int) (now : Time) :
    Priced Intake :=
  match side with
  | .coin i => do
    let balance ← Priced.entry xp i
    let rate ← Priced.entry rates i
    .ok ⟨balance + (dx * rate).fdiv Fixed.one, dx, pool.base⟩
  | .base b => do
    let (minted, base) ← pool.base.deposit (pool.baseAmounts b dx) now
    let rate ← Priced.entry rates pool.baseCoin
    let balance ← Priced.entry xp pool.baseCoin
    .ok ⟨(minted * rate).fdiv Fixed.one + balance, minted, base⟩

/-- Swaps between two underlying tokens, at least one of them a local coin. -/
def exchangeUnderlying (pool : Metapool) (i j : Nat) (dx : Int) (now : Time) :
    Priced (Int × Metapool) := do
  Priced.require (i ≠ j) .tokenFromEqualsTokenTo
  let sideIn ← pool.side i
  let sideOut ← pool.side j
  match sideIn, sideOut with
  | .base _, .base _ => Priced.refuse .basePoolExchangeNotSupported
  | _, _ =>
    let rates ← pool.rates now
    let xp ← Stable.scaled pool.holdings.reserves rates
    let intake ← pool.takeIn sideIn dx rates xp now
    let coinIn := pool.coinOf sideIn
    let coinOut := pool.coinOf sideOut
    let solver ← pool.holdings.solver now
    let y ← solver.balanceAfter coinIn coinOut intake.balance xp
    let balanceOut ← Priced.entry xp coinOut
    let rateOut ← Priced.entry rates coinOut
    let reserveOut ← Priced.entry pool.holdings.reserves coinOut
    let dy := balanceOut - y - 1
    let fee := Stable.share dy pool.holdings.swapFee
    let out ← Priced.bareQuotient ((dy - fee) * Fixed.one) rateOut
    let admin ←
      Priced.bareQuotient (Stable.share fee pool.holdings.adminFee * Fixed.one) rateOut
    let remaining := reserveOut - out - admin
    Priced.require (0 ≤ remaining) .insufficientOutput
    let reserves := (pool.holdings.reserves.set coinOut remaining).modify coinIn (· + intake.amount)
    let holdings := { pool.holdings with reserves }
    match sideOut with
    | .coin _ => .ok (out, { pool with holdings, base := intake.base })
    | .base c => do
      let (withdrawal, base) ← intake.base.withdraw out c now
      .ok (withdrawal.amount, { pool with holdings, base })

def virtualPrice (pool : Metapool) (now : Time) : Priced Int := do
  let rates ← pool.rates now
  pool.holdings.virtualPrice rates now

def deposit (pool : Metapool) (amounts : List Int) (now : Time) : Priced (Int × Metapool) := do
  let rates ← pool.rates now
  let (minted, holdings) ← pool.holdings.deposit amounts rates now
  .ok (minted, { pool with holdings })

def withdraw (pool : Metapool) (shares : Int) (i : Nat) (now : Time) :
    Priced (Stable.Withdrawal × Metapool) := do
  let rates ← pool.rates now
  let (withdrawal, holdings) ← pool.holdings.withdraw shares i rates now
  .ok (withdrawal, { pool with holdings })

def quote (pool : Metapool) (order : Order) (now : Time) : Priced Quote := do
  let pair ← pool.pair order.tokenIn order.tokenOut
  let (out, fee) ←
    if pair.underlying then pool.quoteUnderlying pair.indexIn pair.indexOut order.amountIn now
    else pool.quoteExchange pair.indexIn pair.indexOut order.amountIn now
  order.quote out fee order.tokenOut (if pair.underlying then underlyingGas else exchangeGas)
    pair.indexIn pair.indexOut pair.underlying none

def apply (pool : Metapool) (update : Update) (now : Time) : Priced Metapool := do
  let pair ← pool.pair update.tokenIn update.tokenOut
  let (_, next) ←
    if pair.underlying then pool.exchangeUnderlying pair.indexIn pair.indexOut update.amountIn now
    else pool.exchange pair.indexIn pair.indexOut update.amountIn now
  .ok next

end Metapool
end Amm
