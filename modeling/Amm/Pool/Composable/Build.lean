import Amm.Pool.Composable.Basic
import Amm.Snapshot

/-!
Composable pools from snapshots.
-/

namespace Amm
namespace ComposablePool

/-- The rates of one token as a snapshot gives them. -/
structure GivenRates where
  rate : Option Int
  oldRate : Option Int

def GivenRates.ofJson? (value : Json) : Option GivenRates := do
  let record ← value.record? ["rate", "oldRate"]
  let rate ← record.withDefault "rate" (Json.nullable? Json.amount?) none
  let oldRate ← record.withDefault "oldRate" (Json.nullable? Json.amount?) none
  some ⟨rate, oldRate⟩

def joinExit? (value : Json) : Option JoinExit := do
  let record ← value.record? ["lastJoinExitAmplification", "lastPostJoinExitInvariant"]
  let amplification ← record.required "lastJoinExitAmplification" Json.amount?
  let invariant ← record.required "lastPostJoinExitInvariant" Json.amount?
  some ⟨amplification, invariant⟩

/-- The part of a snapshot that changes with the pool. -/
structure Extra where
  ratesStuck : Bool
  paused : Bool
  recovery : Bool
  poolExempt : Bool
  scalingFactors : List Int
  totalShares : Int
  amp : Int
  swapFee : Int
  lastJoinExit : JoinExit
  rateProviders : List String
  rates : List GivenRates
  feePercentages : List (String × Int)
  exemptTokens : List Bool

def Extra.ofJson? (value : Json) : Option Extra := do
  let record ← value.record?
    ["canNotUpdateTokenRates", "paused", "inRecoveryMode", "isExemptFromYieldProtocolFee",
      "scalingFactors", "bptTotalSupply", "amp", "swapFeePercentage", "lastJoinExit",
      "rateProviders", "tokenRateCaches", "protocolFeePercentageCache",
      "isTokenExemptFromYieldProtocolFee"]
  let ratesStuck ← record.withDefault "canNotUpdateTokenRates" Json.bool? false
  let paused ← record.withDefault "paused" Json.bool? false
  let recovery ← record.withDefault "inRecoveryMode" Json.bool? false
  let poolExempt ← record.withDefault "isExemptFromYieldProtocolFee" Json.bool? false
  let scalingFactors ← record.withDefault "scalingFactors" (Json.list? Json.amount?) []
  let totalShares ← record.withDefault "bptTotalSupply" Json.amount? 0
  let amp ← record.required "amp" Json.amount?
  let swapFee ← record.required "swapFeePercentage" Json.amount?
  let lastJoinExit ← record.withDefault "lastJoinExit" joinExit? ⟨0, 0⟩
  let rateProviders ← record.withDefault "rateProviders" (Json.list? Json.string?) []
  let rates ← record.withDefault "tokenRateCaches" (Json.list? GivenRates.ofJson?) []
  let feePercentages ←
    record.withDefault "protocolFeePercentageCache" (Json.table? Json.amount?) []
  let exemptTokens ←
    record.withDefault "isTokenExemptFromYieldProtocolFee" (Json.list? Json.bool?) []
  some {
    ratesStuck
    paused
    recovery
    poolExempt
    scalingFactors
    totalShares
    amp
    swapFee
    lastJoinExit
    rateProviders
    rates
    feePercentages
    exemptTokens }

/-- The part of a snapshot that stays the same. -/
structure Static where
  poolId : String
  version : Nat
  shareIndex : Nat
  scalingFactors : List Int
  vault : Address

def Static.ofJson? (value : Json) : Option Static := do
  let record ← value.record? ["poolId", "poolTypeVer", "bptIndex", "scalingFactors", "vault"]
  let poolId ← record.withDefault "poolId" Json.string? ""
  let version ← record.withDefault "poolTypeVer" (Json.count? UInt32.size) 1
  let shareIndex ← record.required "bptIndex" (Json.count? UInt64.size)
  let scalingFactors ← record.withDefault "scalingFactors" (Json.list? Json.amount?) []
  let vault ← record.withDefault "vault" Json.address? Address.zero
  some ⟨poolId, version, shareIndex, scalingFactors, vault⟩

/-- The digits of an address text, which may be marked as hexadecimal more than once. -/
def unmarked : List Char → List Char
  | '0' :: 'x' :: rest => unmarked rest
  | digits => digits

/-- Whether a text names a rate provider. No text and the zero address both mean that there is
none. -/
def namesProvider (text : String) : Bool :=
  (unmarked text.toList).any (· ≠ '0')

/-- The rate cache of a token. A token with a rate provider has both rates. -/
def rateCache (extra : Extra) (index : Nat) : Priced (Option Composable.RateCache) :=
  if (extra.rateProviders[index]?.map namesProvider).getD false then
    match extra.rates[index]? with
    | some ⟨some rate, some oldRate⟩ => .ok (some ⟨rate, oldRate⟩)
    | _ => Priced.refuse (.invalidSnapshot (.missingRateCache index))
  else .ok none

def swapFeeName : String :=
  "0"

def yieldFeeName : String :=
  "2"

def ofSnapshot (snapshot : Snapshot) : Priced ComposablePool := do
  let extra ← snapshot.decodeExtra Extra.ofJson?
  let static ← snapshot.decodeStaticExtra Static.ofJson?
  let n := snapshot.tokens.length
  let reserves ← snapshot.tokenReserves
  Priced.require (static.shareIndex < n) (.invalidSnapshot (.shareTokenIndex static.shareIndex))
  let scalingFactors :=
    if extra.scalingFactors.isEmpty then static.scalingFactors else extra.scalingFactors
  Priced.require (scalingFactors.length = n) .balancesMustMatchMultipliers
  let rateCaches ← (List.range n).mapM (rateCache extra)
  .ok {
    address := snapshot.address
    poolId := static.poolId
    vault := static.vault
    version := static.version
    tokens := snapshot.tokens
    reserves
    shareIndex := static.shareIndex
    scalingFactors
    totalShares := extra.totalShares
    amp := extra.amp
    swapFee := extra.swapFee
    lastJoinExit := extra.lastJoinExit
    rateCaches
    protocolFees := {
      swap := (extra.feePercentages.lookup swapFeeName).getD 0
      yield := (extra.feePercentages.lookup yieldFeeName).getD 0
      exemptTokens := (List.range n).map fun index => extra.exemptTokens.getD index false
      poolExempt := extra.poolExempt
      recovery := extra.recovery }
    paused := extra.paused
    ratesStuck := extra.ratesStuck }

end ComposablePool
end Amm
