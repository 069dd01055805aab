import Amm.Fixed
import Amm.Address

/-!
What can go wrong while a pool is built or priced. A refusal is a cause of the domain with a text of
its own. A fault is a step that has no defined result: the caller gets no amount and no text.
-/

namespace Amm

/-- The arrays of prices that a three coin pool is described by. -/
inductive PriceList where
  | scale
  | oracle
  | last
  deriving DecidableEq, Repr

def PriceList.field : PriceList → String
  | .scale => "priceScale"
  | .oracle => "priceOracle"
  | .last => "lastPrices"

/-- Why a description of a pool does not make a pool. -/
inductive SnapshotFlaw where
  | undecodableExtra
  | undecodableStaticExtra
  | reserveCount (reserves tokens : Nat)
  | pairTokenCount (tokens : Nat)
  | tripleTokenCount (tokens : Nat)
  | priceCount (list : PriceList) (prices : Nat)
  | underlyingCount (underlying tokens : Nat)
  | metaTokenCount
  | twoTokenCount (tokens : Nat)
  | shareTokenIndex (index : Nat)
  | missingRateCache (index : Nat)
  deriving DecidableEq, Repr

def SnapshotFlaw.message : SnapshotFlaw → String
  | .undecodableExtra => "extra"
  | .undecodableStaticExtra => "staticExtra"
  | .reserveCount reserves tokens => s!"{reserves} reserves for {tokens} tokens"
  | .pairTokenCount tokens => s!"crypto pools hold 2 tokens, got {tokens}"
  | .tripleTokenCount tokens => s!"tricrypto pools hold 3 tokens, got {tokens}"
  | .priceCount list prices => s!"{list.field} needs 2 entries, got {prices}"
  | .underlyingCount underlying tokens => s!"{underlying} underlying tokens for {tokens} tokens"
  | .metaTokenCount => "meta pools hold at least two tokens"
  | .twoTokenCount tokens => s!"{tokens} tokens in a two token pool"
  | .shareTokenIndex index => s!"bpt index {index} out of range"
  | .missingRateCache index => s!"missing rate cache for token {index}"

/-- Every cause for which a pool refuses an operation. -/
inductive PoolError where
  | invalidSnapshot (flaw : SnapshotFlaw)
  | balancesMustMatchMultipliers
  | missingBasePool (address : Address)
  | dDoesNotConverge
  | yDoesNotConverge
  | stableInvariantDidNotConverge
  | stableGetBalanceDidNotConverge
  | geometricMeanDidNotConverge
  | sqrtDidNotConverge
  | halfPowDidNotConverge
  | unsafeGamma
  | unsafeA
  | unsafeX0
  | unsafeXi
  | unsafeD
  | unsafeY
  | tokenFromEqualsTokenTo
  | tokenIndexesOutOfRange
  | tokenNotFound
  | withdrawMoreThanAvailable
  | denominatorZero
  | zero
  | d1LowerThanD0
  | insufficientOutput
  | invalidAmount
  | subUnderflow
  | basePoolExchangeNotSupported
  | lpToBaseLpNotSupported
  | poolPaused
  | canNotUpdateTokenRates
  | invalidUpdate
  | loss
  deriving DecidableEq, Repr

def PoolError.message : PoolError → String
  | .invalidSnapshot flaw => s!"invalid pool snapshot: {flaw.message}"
  | .balancesMustMatchMultipliers => "balances must match multipliers"
  | .missingBasePool address => s!"base pool {address.toText} is not available"
  | .dDoesNotConverge => "D does not converge"
  | .yDoesNotConverge => "amount out does not converge"
  | .stableInvariantDidNotConverge => "stable invariant did not converge"
  | .stableGetBalanceDidNotConverge => "stable get balance did not converge"
  | .geometricMeanDidNotConverge => "geometric mean did not converge"
  | .sqrtDidNotConverge => "square root did not converge"
  | .halfPowDidNotConverge => "half power did not converge"
  | .unsafeGamma => "unsafe value for gamma"
  | .unsafeA => "unsafe value for A"
  | .unsafeX0 => "unsafe values x[0]"
  | .unsafeXi => "unsafe values x[i]"
  | .unsafeD => "unsafe value for D"
  | .unsafeY => "unsafe value for y"
  | .tokenFromEqualsTokenTo => "tokenIndexFrom == tokenIndexTo"
  | .tokenIndexesOutOfRange => "token index out of range"
  | .tokenNotFound => "token not found"
  | .withdrawMoreThanAvailable => "withdraw more than available"
  | .denominatorZero => "denominator would be zero"
  | .zero => "zero value in balance product"
  | .d1LowerThanD0 => "D1 must be greater than D0"
  | .insufficientOutput => "amount out is not positive"
  | .invalidAmount => "invalid amount"
  | .subUnderflow => "subtraction underflow"
  | .basePoolExchangeNotSupported => "exchange between two base pool tokens is not supported"
  | .lpToBaseLpNotSupported =>
    "swap between the pool LP token and the base pool LP token is not supported"
  | .poolPaused => "pool is paused"
  | .canNotUpdateTokenRates => "token rates can not be updated"
  | .invalidUpdate => "swap update does not apply to this pool"
  | .loss => "loss"

/-- A step without a defined result. -/
inductive Fault where
  | divisionByZero
  | indexOutOfRange
  | countBelowZero
  | timeOverflow
  deriving DecidableEq, Repr

/-- An operation ends in a refusal or, where nothing guards the step, in a fault. -/
inductive Failure where
  | refused (cause : PoolError)
  | aborted (fault : Fault)
  deriving DecidableEq, Repr

/-- The outcome of pricing: a value or the reason why there is none. -/
abbrev Priced (α : Type) :=
  Except Failure α

namespace Priced

/-- Ends in the given refusal. -/
def refuse {α : Type} (cause : PoolError) : Priced α :=
  .error (.refused cause)

def abort {α : Type} (fault : Fault) : Priced α :=
  .error (.aborted fault)

/-- Goes on only where the condition holds. -/
def require (condition : Bool) (cause : PoolError) : Priced Unit :=
  if condition then .ok () else refuse cause

/-- A fixed-point failure is a zero denominator of the pool. -/
def ofFixed {α : Type} : Except Fixed.Error α → Priced α
  | .ok value => .ok value
  | .error .divisionByZero => refuse .denominatorZero

/-- The quotient rounded down; a zero divisor is refused. -/
def quotient (a b : Int) : Priced Int :=
  ofFixed (Fixed.divDown a b)

/-- The quotient rounded down by a division that does not check its divisor. -/
def bareQuotient (a b : Int) : Priced Int :=
  if b = 0 then abort .divisionByZero else .ok (a.fdiv b)

/-- The entry at a position that is not checked beforehand. -/
def entry {α : Type} (values : List α) (index : Nat) : Priced α :=
  match values[index]? with
  | some value => .ok value
  | none => abort .indexOutOfRange

/-- Changes the entry at a position that is not checked beforehand. -/
def modify {α : Type} (values : List α) (index : Nat) (change : α → α) : Priced (List α) :=
  if index < values.length then .ok (values.modify index change) else abort .indexOutOfRange

/-- The value of an option whose absence is refused. -/
def ofOption {α : Type} (value : Option α) (cause : PoolError) : Priced α :=
  match value with
  | some value => .ok value
  | none => refuse cause

end Priced

end Amm
