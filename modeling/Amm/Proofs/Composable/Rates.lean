import Amm.Proofs.Composable.Solver
import Amm.Proofs.Composable.Supply

/-!
The old rates of a composable pool. The growth that a join or an exit charges for is split by the
rates at the last join or exit, which are kept beside the rates of now. A swap between two tokens of
the pool is no join or exit and leaves their amplification and invariant alone, but it renews the
old rates as they do. So the growth of the rates up to a swap is no longer counted as yield
afterwards.
-/

namespace Amm

namespace Composable
namespace RateCache

variable {cache : RateCache}

theorem renew_eq_self_iff : cache.renew = cache ↔ cache.oldRate = cache.rate := by
  obtain ⟨rate, oldRate⟩ := cache
  simp [renew, eq_comm]

/-- At renewed rates a balance is what it is. -/
theorem adjust_renewed {balance adjusted : Int} (renewed : cache.oldRate = cache.rate)
    (computed : cache.adjust balance = .ok adjusted) : adjusted = balance := by
  rw [adjust, renewed, Priced.quotient_eq_ok] at computed
  obtain ⟨nonzero, rfl⟩ := computed
  exact Int.mul_fdiv_cancel balance nonzero

end RateCache
end Composable

namespace ComposablePool

/-- No rate has moved since the old rates were taken. -/
def RatesRenewed (pool : ComposablePool) : Prop :=
  ∀ cache, some cache ∈ pool.rateCaches → cache.oldRate = cache.rate

/-- The growth that a join or an exit of short balances charges for, if there is any, and the
invariant of the balances at the last amplification. -/
def measuredGrowth (pool : ComposablePool) (balances : List Int) : Priced (Option Deltas × Int) :=
  if 5 ≤ pool.version then do
    let total ← Composable.invariant pool.lastJoinExit.amplification balances
    let deltas ← pool.poolDeltas balances total
    .ok (deltas, total)
  else do
    let growth ← pool.tokenGrowth balances
    .ok (some (pool.tokenDeltas growth), growth.total)

variable {pool next : ComposablePool}

/-- What the protocol is owed is worked out from the measured growth. -/
theorem ownership_eq (balances : List Int) :
    pool.ownership balances = (do
      match ← pool.measuredGrowth balances with
      | (some deltas, total) => do
        let percentage ← pool.ownedPart deltas total
        .ok ⟨percentage, total⟩
      | (none, total) => .ok ⟨0, total⟩) := by
  unfold ownership measuredGrowth
  split
  · cases Composable.invariant pool.lastJoinExit.amplification balances with
    | error failure => simp only [Priced.error_bind]
    | ok total =>
        simp only [Priced.ok_bind]
        cases pool.poolDeltas balances total with
        | error failure => simp only [Priced.error_bind]
        | ok deltas => cases deltas <;> simp only [Priced.ok_bind]
  · cases pool.tokenGrowth balances with
    | error failure => simp only [Priced.error_bind]
    | ok growth => simp only [Priced.ok_bind]

/-- No growth is measured only where the invariant did not grow. -/
theorem le_of_measuredGrowth_none {balances : List Int} {total : Int}
    (measured : pool.measuredGrowth balances = .ok (none, total)) :
    total ≤ pool.lastJoinExit.invariant := by
  unfold measuredGrowth at measured
  split at measured
  · simp only [Priced.bind_eq_ok, Except.ok.injEq, Prod.mk.injEq] at measured
    obtain ⟨_, -, _, found, rfl, rfl⟩ := measured
    unfold poolDeltas at found
    dsimp only at found
    split at found
    · assumption
    · simp [Priced.bind_eq_ok] at found
  · simp [Priced.bind_eq_ok] at measured

theorem exists_part_of_no_yield {growth total percentage : Int}
    (charged : pool.ownedPart ⟨growth, 0⟩ total = .ok percentage) :
    ∃ part, Composable.ratioDown growth total = .ok part ∧
      percentage = Fixed.mulDown part pool.protocolFees.percentages.1 := by
  simp only [ownedPart, Priced.bind_eq_ok, Except.ok.injEq] at charged
  obtain ⟨part, swapPart, _, yieldPart, rfl⟩ := charged
  obtain ⟨-, rfl⟩ := Composable.ratioDown_eq_ok.mp yieldPart
  exact ⟨part, swapPart, by simp [Fixed.mulDown]⟩

theorem renewedCaches_eq_iff : pool.renewedCaches = pool.rateCaches ↔ pool.RatesRenewed := by
  conv_lhs => rw [renewedCaches, ← List.map_id pool.rateCaches, List.map_map, List.map_inj_left]
  constructor
  · intro same cache member
    exact Composable.RateCache.renew_eq_self_iff.mp (Option.some.inj (same (some cache) member))
  · intro renewed cache member
    cases cache with
    | none => rfl
    | some cache =>
        exact congrArg some (Composable.RateCache.renew_eq_self_iff.mpr (renewed cache member))

theorem ratesRenewed_of_renewedCaches (taken : next.rateCaches = pool.renewedCaches) :
    next.RatesRenewed := by
  intro cache member
  rw [taken, renewedCaches, List.mem_map] at member
  obtain ⟨before, -, same⟩ := member
  obtain ⟨before, -, rfl⟩ := Option.map_eq_some_iff.mp same
  rfl

section
variable (renewed : pool.RatesRenewed)
include renewed

/-- At renewed rates the balances at old rates are the balances, whichever tokens are adjusted. -/
theorem adjustedBalances_renewed {balances adjusted : List Int} {adjust : Nat → Bool}
    (computed : pool.adjustedBalances balances adjust = .ok adjusted) : adjusted = balances := by
  have same := Priced.mapM_eq_map Prod.fst ?unadjusted computed
  case unadjusted =>
    intro (balance, k) result step
    obtain ⟨found, foundAt, step⟩ := Priced.bind_eq_ok.mp step
    cases found with
    | none => exact Except.ok.inj step
    | some cache =>
        have member := List.mem_of_getElem? (Priced.entry_eq_ok.mp foundAt)
        dsimp only at step
        split at step
        · exact (Composable.RateCache.adjust_renewed (renewed cache member) step).symm
        · exact Except.ok.inj step
  rw [← same, List.zipIdx_map_fst]

/-- At renewed rates all growth of the invariant is counted as earned by swap fees. -/
theorem tokenGrowth_renewed {balances : List Int} {growth : Growth}
    (measured : pool.tokenGrowth balances = .ok growth) :
    growth.swapFees = growth.total ∧ growth.nonExempt = growth.total := by
  simp only [tokenGrowth, Priced.bind_eq_ok] at measured
  obtain ⟨atOldRates, adjusted, swapFees, fees, total, totals, measured⟩ := measured
  obtain rfl := adjustedBalances_renewed renewed adjusted
  obtain rfl : swapFees = total := Except.ok.inj (fees.symm.trans totals)
  split at measured
  · obtain rfl := Except.ok.inj measured
    exact ⟨rfl, rfl⟩
  · split at measured
    · obtain rfl := Except.ok.inj measured
      exact ⟨rfl, rfl⟩
    · simp only [Priced.bind_eq_ok, Except.ok.injEq] at measured
      obtain ⟨exemptOnly, adjusted, nonExempt, others, rfl⟩ := measured
      obtain rfl := adjustedBalances_renewed renewed adjusted
      exact ⟨rfl, Except.ok.inj (others.symm.trans totals)⟩

theorem poolDeltas_renewed {balances : List Int} {total : Int} {deltas : Deltas}
    (totals : Composable.invariant pool.lastJoinExit.amplification balances = .ok total)
    (measured : pool.poolDeltas balances total = .ok (some deltas)) :
    pool.lastJoinExit.invariant < total ∧ deltas = ⟨total - pool.lastJoinExit.invariant, 0⟩ := by
  unfold poolDeltas at measured
  dsimp only at measured
  split at measured
  · simp at measured
  · rename_i grown
    simp only [Priced.bind_eq_ok, Except.ok.injEq, Option.some.injEq] at measured
    obtain ⟨atOldRates, adjusted, invariant, fees, rfl⟩ := measured
    obtain rfl := adjustedBalances_renewed renewed adjusted
    obtain rfl : invariant = total := Except.ok.inj (fees.symm.trans totals)
    refine ⟨not_le.mp grown, ?_⟩
    rw [min_self, max_eq_left (not_le.mp grown).le, ite_self, sub_self]

/-- At renewed rates a join or an exit finds no yield. -/
theorem measuredGrowth_renewed {balances : List Int} {deltas : Deltas} {total : Int}
    (measured : pool.measuredGrowth balances = .ok (some deltas, total)) :
    deltas = ⟨max (total - pool.lastJoinExit.invariant) 0, 0⟩ := by
  unfold measuredGrowth at measured
  split at measured
  · simp only [Priced.bind_eq_ok, Except.ok.injEq, Prod.mk.injEq] at measured
    obtain ⟨_, totals, _, found, rfl, rfl⟩ := measured
    obtain ⟨grown, rfl⟩ := poolDeltas_renewed renewed totals found
    rw [max_eq_left (by omega)]
  · simp only [Priced.bind_eq_ok, Except.ok.injEq, Prod.mk.injEq, Option.some.injEq] at measured
    obtain ⟨growth, grown, rfl, rfl⟩ := measured
    obtain ⟨fees, nonExempt⟩ := tokenGrowth_renewed renewed grown
    rw [tokenDeltas, fees, nonExempt, sub_self, max_self]

/-- At renewed rates the protocol is owed its part of the swap fees and nothing for yield. -/
theorem ownership_renewed {balances : List Int} {owned : Ownership}
    (found : pool.ownership balances = .ok owned) :
    (owned.invariant ≤ pool.lastJoinExit.invariant ∧ owned.percentage = 0) ∨
      ∃ part,
        Composable.ratioDown (max (owned.invariant - pool.lastJoinExit.invariant) 0)
          owned.invariant = .ok part ∧
        owned.percentage = Fixed.mulDown part pool.protocolFees.percentages.1 := by
  rw [ownership_eq, Priced.bind_eq_ok] at found
  obtain ⟨⟨deltas, total⟩, measured, found⟩ := found
  cases deltas with
  | none =>
      obtain rfl := Except.ok.inj found
      exact .inl ⟨le_of_measuredGrowth_none measured, rfl⟩
  | some deltas =>
      obtain ⟨percentage, charged, found⟩ := Priced.bind_eq_ok.mp found
      obtain rfl := Except.ok.inj found
      obtain rfl := measuredGrowth_renewed renewed measured
      exact .inr (exists_part_of_no_yield charged)

end

theorem Pays.joinExit_eq_none {i j : Nat} {amountIn out : Int} {joinExit : Option JoinExit}
    (pays : pool.Pays i j amountIn out joinExit) (notIn : i ≠ pool.shareIndex)
    (notOut : j ≠ pool.shareIndex) : joinExit = none := by
  cases pays with
  | join joined => exact absurd rfl notOut
  | exit different left => exact absurd rfl notIn
  | swap notIn notOut swapped => rfl

/-- A quote between two tokens other than the share token is for no join or exit. -/
theorem quote_joinExit_eq_none {order : Order} {quote : Quote} {i j : Nat}
    (between : pool.indices order.tokenIn order.tokenOut = .ok (i, j)) (notIn : i ≠ pool.shareIndex)
    (notOut : j ≠ pool.shareIndex) (quoted : pool.quote order = .ok quote) :
    quote.update.joinExit = none := by
  obtain ⟨i', j', fee, joinExit, found, -, pays, update⟩ := quote_eq_ok quoted
  obtain ⟨rfl, rfl⟩ := Prod.mk.inj (Except.ok.inj (between.symm.trans found))
  rw [update]
  exact pays.joinExit_eq_none notIn notOut

/-- A swap between two tokens other than the share token moves their reserves and keeps the
amplification and the invariant of the last join or exit, but it renews the old rates. So nothing
but the reserves changes exactly if no rate has moved since the old rates were taken, and after the
swap a join or an exit counts all growth since the last one as earned by swap fees and none as
yield: what the code makes the protocol own is its part of the swap fees. -/
theorem swap_renews_old_rates (pool next : ComposablePool) (update : Update) (i j : Nat)
    (between : pool.indices update.tokenIn update.tokenOut = .ok (i, j))
    (notIn : i ≠ pool.shareIndex) (notOut : j ≠ pool.shareIndex)
    (applied : pool.apply update = .ok next) :
    (∀ order quote, order.tokenIn = update.tokenIn → order.tokenOut = update.tokenOut →
      pool.quote order = .ok quote → quote.update.joinExit = none) ∧
    (∀ k, k ≠ i → k ≠ j → next.reserves[k]? = pool.reserves[k]?) ∧
    next = { pool with
      reserves := next.reserves
      rateCaches := pool.renewedCaches
      lastJoinExit := update.joinExit.getD pool.lastJoinExit } ∧
    (update.joinExit = none →
      (next = { pool with reserves := next.reserves } ↔ pool.RatesRenewed)) ∧
    (∀ balances deltas total, next.measuredGrowth balances = .ok (some deltas, total) →
      deltas = ⟨max (total - next.lastJoinExit.invariant) 0, 0⟩) ∧
    ∀ balances owned, next.ownership balances = .ok owned →
      (owned.invariant ≤ next.lastJoinExit.invariant ∧ owned.percentage = 0) ∨
        ∃ part,
          Composable.ratioDown (max (owned.invariant - next.lastJoinExit.invariant) 0)
            owned.invariant = .ok part ∧
          owned.percentage = Fixed.mulDown part next.protocolFees.percentages.1 := by
  obtain ⟨i', j', reserveOut, found, -, -, rfl⟩ := apply_eq_ok applied
  obtain ⟨rfl, rfl⟩ := Prod.mk.inj (Except.ok.inj (between.symm.trans found))
  refine ⟨fun order quote sold bought quoted => ?_, fun k notSold notBought => ?_, rfl,
    fun noJoin => ?_, fun balances deltas total measured => ?_, fun balances owned found => ?_⟩
  · exact quote_joinExit_eq_none (sold ▸ bought ▸ between) notIn notOut quoted
  · rw [List.getElem?_set_ne notBought.symm, List.getElem?_modify]
    simp [notSold.symm]
  · rw [← renewedCaches_eq_iff, noJoin, Option.getD_none]
    constructor
    · exact congrArg rateCaches
    · intro same
      rw [same]
  · exact measuredGrowth_renewed (ratesRenewed_of_renewedCaches rfl) measured
  · exact ownership_renewed (ratesRenewed_of_renewedCaches rfl) found

/-- The rate of one token has risen by a tenth since the last join or exit, and the protocol charges
half of the yield. -/
def sampleYielding : ComposablePool :=
  { sampleComposable with
    reserves := [1000000000000000000000, 2596148429267413814265248164610048, 1000000000000000000000]
    scalingFactors := [1100000000000000000, Fixed.one, Fixed.one]
    rateCaches := [some ⟨1100000000000000000, Fixed.one⟩, none, none]
    protocolFees := ⟨0, 500000000000000000, [false, false, false], false, false⟩ }

theorem sampleYielding_swap :
    ∃ quote next, sampleYielding.quote ⟨⟨1⟩, 1000000000000000000, ⟨2⟩⟩ = .ok quote ∧
      quote.update.tokenIn = ⟨1⟩ ∧ quote.update.tokenOut = ⟨2⟩ ∧
      sampleYielding.apply quote.update = .ok next ∧ next.owedShares = .ok 0 := by
  obtain ⟨quote, quoted, shown⟩ := Priced.map_eq_ok.mp (show
    (sampleYielding.quote ⟨⟨1⟩, 1000000000000000000, ⟨2⟩⟩).map Quote.update =
      .ok ⟨⟨1⟩, 1000000000000000000, ⟨2⟩, 1099360815546370650, 100000000000000, none⟩
    by decide +kernel)
  obtain ⟨next, applied, owed⟩ := Priced.map_eq_ok.mp (show
    (sampleYielding.apply
      ⟨⟨1⟩, 1000000000000000000, ⟨2⟩, 1099360815546370650, 100000000000000, none⟩).map owedShares =
        .ok (.ok 0)
    by decide +kernel)
  exact ⟨quote, next, quoted, by rw [shown], by rw [shown], by rw [shown]; exact applied, owed⟩

/-- Before the swap the protocol is owed more than 48 shares for the yield, and after it none. -/
theorem sampleYielding_forgets_yield :
    sampleYielding.owedShares = .ok 48774837696884514308 ∧
    ∃ quote next, sampleYielding.quote ⟨⟨1⟩, 1000000000000000000, ⟨2⟩⟩ = .ok quote ∧
      quote.update.joinExit = none ∧ sampleYielding.apply quote.update = .ok next ∧
      next.owedShares = .ok 0 ∧ next.lastJoinExit = sampleYielding.lastJoinExit ∧
      (∀ balances deltas total, next.measuredGrowth balances = .ok (some deltas, total) →
        deltas.yield = 0) ∧
      ∀ balances owned, next.ownership balances = .ok owned → owned.percentage = 0 := by
  have owed : sampleYielding.owedShares = .ok 48774837696884514308 := by decide +kernel
  obtain ⟨quote, next, quoted, sold, bought, applied, none⟩ := sampleYielding_swap
  have between : sampleYielding.indices quote.update.tokenIn quote.update.tokenOut = .ok (0, 2) := by
    rw [sold, bought]
    decide
  obtain ⟨plain, -, frame, -, measures, owns⟩ := swap_renews_old_rates sampleYielding next
    quote.update 0 2 between (by decide) (by decide) applied
  have noJoin := plain _ quote sold.symm bought.symm quoted
  refine ⟨owed, quote, next, quoted, noJoin, applied, none, ?_,
    fun balances deltas total measured => ?_, fun balances owned found => ?_⟩
  · rw [frame, noJoin]
    rfl
  · rw [measures balances deltas total measured]
  · rcases owns balances owned found with ⟨-, unowned⟩ | ⟨part, -, same⟩
    · exact unowned
    · have percent : next.protocolFees.percentages.1 = 0 := by
        rw [frame]
        rfl
      rw [same, percent, Fixed.mulDown, mul_zero, Int.zero_fdiv]

theorem swaps_renew_moved_rates :
    ¬ ∀ (pool next : ComposablePool) (order : Order) (quote : Quote) (i j : Nat),
      pool.indices order.tokenIn order.tokenOut = .ok (i, j) → i ≠ pool.shareIndex →
      j ≠ pool.shareIndex → pool.quote order = .ok quote → pool.apply quote.update = .ok next →
      next = { pool with reserves := next.reserves } := by
  intro kept
  obtain ⟨quote, next, quoted, -, -, applied, -⟩ := sampleYielding_swap
  have same := kept sampleYielding next _ quote 0 2 (by decide) (by decide) (by decide) quoted applied
  obtain ⟨_, _, _, -, -, -, moved⟩ := apply_eq_ok applied
  have renewed : next.rateCaches = sampleYielding.renewedCaches := by rw [moved]
  have unmoved : next.rateCaches = sampleYielding.rateCaches := by rw [same]
  exact absurd (renewed.symm.trans unmoved) (by decide)

end ComposablePool
end Amm
