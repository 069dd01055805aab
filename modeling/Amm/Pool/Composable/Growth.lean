import Amm.Pool.Composable.Basic

/-!
What the protocol is owed since the last join or exit. The growth of the invariant at the old rates
comes from swap fees; the rest comes from the yield of tokens that are not exempt. Pools up to
version 4 exempt single tokens, later ones the pool as a whole.
-/

namespace Amm
namespace ComposablePool

/-- Short balances, at the old rates for those tokens that are to be adjusted and have a rate. -/
def adjustedBalances (pool : ComposablePool) (balances : List Int) (adjust : Nat → Bool) :
    Priced (List Int) :=
  balances.zipIdx.mapM fun (balance, k) => do
    let index := pool.registered k
    match ← Priced.entry pool.rateCaches index with
    | some cache => if adjust index then cache.adjust balance else .ok balance
    | none => .ok balance

/-- Whether a registered token is exempt from fees on yield. -/
def isExempt (pool : ComposablePool) (index : Nat) : Bool :=
  pool.protocolFees.exemptTokens.getD index false

/-- Invariants at the last amplification: of the balances at old rates, of the balances with only
exempt tokens at old rates, and of the balances as they are. -/
structure Growth where
  swapFees : Int
  nonExempt : Int
  total : Int
  deriving DecidableEq, Repr

def tokenGrowth (pool : ComposablePool) (balances : List Int) : Priced Growth := do
  let amp := pool.lastJoinExit.amplification
  let exempt := pool.protocolFees.exemptTokens
  let atOldRates ← pool.adjustedBalances balances fun index =>
    pool.isExempt index || (pool.rateCaches[index]?.join).isSome
  let swapFees ← Composable.invariant amp atOldRates
  let total ← Composable.invariant amp balances
  let nonExempt ←
    if exempt.all (! ·) then .ok total
    else if exempt.all (·) then .ok swapFees
    else do
      let exemptOnly ← pool.adjustedBalances balances pool.isExempt
      Composable.invariant amp exemptOnly
  .ok ⟨swapFees, nonExempt, total⟩

/-- The growth since the last join or exit, by what it comes from. -/
structure Deltas where
  swapFees : Int
  yield : Int
  deriving DecidableEq, Repr

def tokenDeltas (pool : ComposablePool) (growth : Growth) : Deltas :=
  ⟨max (growth.swapFees - pool.lastJoinExit.invariant) 0,
    max (growth.nonExempt - growth.swapFees) 0⟩

/-- The growth of a pool that is exempt as a whole or not at all. There is none if the invariant
did not grow. -/
def poolDeltas (pool : ComposablePool) (balances : List Int) (total : Int) :
    Priced (Option Deltas) := do
  let last := pool.lastJoinExit.invariant
  if total ≤ last then .ok none
  else
    let atOldRates ← pool.adjustedBalances balances fun _ => true
    let invariant ← Composable.invariant pool.lastJoinExit.amplification atOldRates
    let swapFees := max (min invariant total) last
    let nonExempt := if pool.protocolFees.poolExempt then swapFees else total
    .ok (some ⟨swapFees - last, nonExempt - swapFees⟩)

def ownedPart (pool : ComposablePool) (deltas : Deltas) (total : Int) : Priced Int := do
  let (swap, yield) := pool.protocolFees.percentages
  let swapPart ← Composable.ratioDown deltas.swapFees total
  let yieldPart ← Composable.ratioDown deltas.yield total
  .ok (Fixed.mulDown swapPart swap + Fixed.mulDown yieldPart yield)

/-- The part of the pool that the protocol is owed, and the invariant of the balances at the last
amplification. -/
structure Ownership where
  percentage : Int
  invariant : Int
  deriving DecidableEq, Repr

def ownership (pool : ComposablePool) (balances : List Int) : Priced Ownership := do
  if 5 ≤ pool.version then do
    let total ← Composable.invariant pool.lastJoinExit.amplification balances
    match ← pool.poolDeltas balances total with
    | some deltas =>
      let percentage ← pool.ownedPart deltas total
      .ok ⟨percentage, total⟩
    | none => .ok ⟨0, total⟩
  else do
    let growth ← pool.tokenGrowth balances
    let percentage ← pool.ownedPart (pool.tokenDeltas growth) growth.total
    .ok ⟨percentage, growth.total⟩

/-- The shares to mint so that the protocol owns the given part of the supply after them. -/
def protocolShares (pool : ComposablePool) (supply percentage : Int) : Priced Int :=
  let rest := Fixed.complement percentage
  if pool.version = 1 then Composable.ratioDown (Fixed.mulDown supply percentage) rest
  else Priced.quotient (supply * percentage) rest

end ComposablePool
end Amm
