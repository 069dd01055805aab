import Amm.Pool.Crypto.Build
import Amm.Proofs.Crypto.Lanes
import Amm.Proofs.Crypto.Operation

/-!
What a pool has on record after an operation. Invariant, scale and value of a share are written
together on each way out of a booking, so the value on record is the one that can be worked out from
the invariant, the scale and the supply on record. A step of the scale is taken only if it leaves the
shares worth more than one and more than half of the profit.
-/

namespace Amm
namespace Crypto
namespace Layout

variable {layout : Layout} {prices : List Int}

/-- Prices that fit their lanes read back as they are kept. Those of a pair always do. -/
theorem kept_of_fits (count : prices.length = layout.coins - 1)
    (fit : layout = .triple → ∀ price ∈ prices, Lanes.Fits price) : layout.kept prices = prices := by
  cases layout with
  | pair => rfl
  | triple =>
      have two : prices.length = 2 := count
      rw [kept, Lanes.unpack_pack (fit rfl) two.ge, ← two, List.take_length]

theorem kept_length (count : prices.length = layout.coins - 1) :
    (layout.kept prices).length = layout.coins - 1 := by
  cases layout with
  | pair => exact count
  | triple => exact Lanes.unpack_length _ 2

end Layout
end Crypto

namespace CryptoPool

open Crypto

/-- A pool with one price for each coin beside the first. -/
structure Shaped (pool : CryptoPool) : Prop where
  priceScale : pool.priceScale.length = pool.layout.coins - 1
  priceOracle : pool.priceOracle.length = pool.layout.coins - 1
  lastPrices : pool.lastPrices.length = pool.layout.coins - 1

theorem Operation.settle_shaped {pool : CryptoPool} {now : Time} {settlement : Settlement}
    (operation : Operation) (shaped : pool.Shaped)
    (settles : operation.settle pool now = .ok settlement) : settlement.pool.Shaped := by
  obtain ⟨_, _, _, _, frame⟩ := operation.settle_frame settles
  rw [frame]
  exact ⟨shaped.priceScale, shaped.priceOracle, shaped.lastPrices⟩

theorem ofSnapshot_shaped {layout : Layout} {snapshot : Snapshot} {pool : CryptoPool}
    (built : ofSnapshot layout snapshot = .ok pool) : pool.Shaped := by
  have counted : ∀ {list prices} {kept : List Int}, keepPrices layout list prices = .ok kept →
      kept.length = layout.coins - 1 := by
    intro list prices kept read
    simp only [keepPrices, Priced.bind_eq_ok, Priced.require_eq_ok, decide_eq_true_eq,
      Except.ok.injEq] at read
    obtain ⟨_, count, rfl⟩ := read
    exact Layout.kept_length count
  simp only [ofSnapshot, Priced.bind_eq_ok, Except.ok.injEq] at built
  obtain ⟨_, -, _, -, _, -, _, -, reserves, -, scale, scaleRead, oracle, oracleRead, last, lastRead,
    rfl⟩ := built
  exact ⟨counted scaleRead, counted oracleRead, counted lastRead⟩

section
variable {pool : CryptoPool} {now : Time} {norm : Int} {oracle scale : List Int}

theorem oracleAt_length (shaped : pool.Shaped) (averaged : pool.oracleAt now = .ok oracle) :
    oracle.length = pool.layout.coins - 1 := by
  unfold oracleAt at averaged
  split at averaged
  · simp only [Priced.bind_eq_ok, Except.ok.injEq] at averaged
    obtain ⟨elapsed, -, power, -, alpha, -, rfl⟩ := averaged
    rw [List.length_zipWith, shaped.priceOracle, shaped.lastPrices, min_self]
  · obtain rfl := Except.ok.inj averaged
    exact shaped.priceOracle

theorem movedScale_length (shaped : pool.Shaped) (count : oracle.length = pool.layout.coins - 1)
    (moved : pool.movedScale norm oracle = .ok scale) :
    scale.length = pool.layout.coins - 1 := by
  rw [Priced.mapM_length moved, List.length_zip, count, shaped.priceScale, min_self]

theorem nextPrices_length {shape : Shape} {xp prices : List Int} {d : Int}
    {trade : Option TradePrice} (shaped : pool.Shaped)
    (priced : pool.nextPrices shape xp d trade = .ok prices) :
    prices.length = pool.layout.coins - 1 := by
  have marginal : pool.marginalPrices shape xp d = .ok prices →
      prices.length = pool.layout.coins - 1 := fun computed => by
    simp only [marginalPrices, Priced.bind_eq_ok] at computed
    obtain ⟨balance, -, computed⟩ := computed
    rw [Priced.mapM_length computed, List.length_zipIdx, shaped.priceScale]
  have traded : ∀ trade, pool.tradedPrices trade = .ok prices →
      prices.length = pool.layout.coins - 1 := fun trade computed => by
    unfold tradedPrices at computed
    split at computed
    · rw [Priced.mapM_length computed, shaped.lastPrices]
    · obtain ⟨-, rfl⟩ := Priced.modify_eq_ok.mp computed
      rw [List.length_modify, shaped.lastPrices]
  unfold nextPrices at priced
  split at priced
  · split at priced
    · exact traded _ priced
    · exact marginal priced
  · exact marginal priced

end

namespace Settlement

variable {settlement : Settlement} {seen : Observation} {profit : Profit} {now : Time}
  {next : CryptoPool} {taken : Option Adjustment}

/-- A booking leaves one price for each coin beside the first. -/
theorem Exit.shaped (ends : Exit settlement seen profit now next) (waits : settlement.pool.Shaped)
    (observed : settlement.observe now = .ok seen) : next.Shaped := by
  obtain ⟨averaged, -, priced⟩ := observe_eq_ok observed
  have oracle := oracleAt_length waits averaged
  have recorded : (settlement.recorded seen profit now).Shaped := by
    refine ⟨waits.priceScale, ?_, Layout.kept_length (nextPrices_length waits priced)⟩
    simp only [Settlement.recorded]
    split
    · exact Layout.kept_length oracle
    · exact waits.priceOracle
  cases ends with
  | unwanted | near | refused => exact ⟨recorded.priceScale, recorded.priceOracle, recorded.lastPrices⟩
  | moved deviation adjustment wants measured tried =>
      obtain ⟨norm, _, -, scaleMoved, -⟩ := adjustment_eq_some tried
      exact ⟨Layout.kept_length (movedScale_length waits oracle scaleMoved), recorded.priceOracle,
        recorded.lastPrices⟩

/-- The value of a share on record is the one of the invariant, the scale and the supply on
record. -/
theorem Records.currentVirtualPrice_eq (records : Records settlement seen profit now taken next)
    (valued : shareValue seen.d settlement.pool.supply settlement.pool.priceScale =
      .ok profit.virtualPrice)
    (kept : ∀ adjustment, taken = some adjustment →
      settlement.pool.layout.kept adjustment.priceScale = adjustment.priceScale) :
    next.currentVirtualPrice = .ok next.virtualPrice := by
  cases records with
  | stays notAdjusted => exact valued
  | moves deviation adjustment wants tried =>
      obtain ⟨_, _, -, -, -, -, adjusted, -, -⟩ := adjustment_eq_some tried
      simp only [currentVirtualPrice, kept adjustment rfl]
      exact adjusted

end Settlement

/-- An operation on a pool whose shares have a price leaves the value on record that its own record
gives. If the operation has moved the scale, then to where a share is worth more than one and keeps
more than half of the profit, and the scale may move again. If it has not, then the scale is the old
one, and invariant and value are those before any step of the scale. -/
theorem record_agrees_with_holdings (pool next : CryptoPool) (operation : Operation) (now : Time)
    (shaped : pool.Shaped) (priced : 0 < pool.virtualPrice) (held : 0 < pool.d)
    (succeeds : operation.perform pool now = .ok next) :
    ∃ settlement d value taken, operation.settle pool now = .ok settlement ∧
      settlement.unadjustedD = .ok d ∧ settlement.unadjustedPrice = .ok value ∧
      settlement.repeg now = .ok taken ∧
      ((∀ adjustment, taken = some adjustment → pool.layout = .triple →
          ∀ price ∈ adjustment.priceScale, Lanes.Fits price) →
        next.currentVirtualPrice = .ok next.virtualPrice ∧
        ∀ adjustment, taken = some adjustment → next.priceScale = adjustment.priceScale) ∧
      (∀ adjustment, taken = some adjustment →
        next.priceScale = pool.layout.kept adjustment.priceScale ∧ next.d = adjustment.d ∧
        next.virtualPrice = adjustment.virtualPrice ∧ Fixed.one < next.virtualPrice ∧
        next.xcpProfit < next.virtualPrice * 2 - Fixed.one ∧ next.notAdjusted = true) ∧
      (taken = none →
        next.priceScale = pool.priceScale ∧ next.d = d ∧ next.virtualPrice = value) := by
  obtain ⟨settlement, settles, books⟩ := operation.perform_eq_ok held succeeds
  obtain ⟨reserves, supply, d', ramp, frame⟩ := operation.settle_frame settles
  obtain ⟨seen, profit, taken, observed, earned, repegged, records⟩ :=
    Settlement.records_of_book books
  obtain ⟨averaged, solved, -⟩ := Settlement.observe_eq_ok observed
  have layout : settlement.pool.layout = pool.layout := by rw [frame]
  have scale : settlement.pool.priceScale = pool.priceScale := by rw [frame]
  have waits : settlement.pool.Shaped := operation.settle_shaped shaped settles
  have stillPriced : 0 < settlement.pool.virtualPrice := by
    rw [frame]
    exact priced
  obtain ⟨valued, -, -⟩ := profit_eq_ok stillPriced earned
  refine ⟨settlement, seen.d, profit.virtualPrice, taken, settles, solved,
    Priced.bind_eq_ok.mpr ⟨seen.d, solved, valued⟩, repegged, fun fit => ?_, ?_, ?_⟩
  · have kept : ∀ adjustment, taken = some adjustment →
        settlement.pool.layout.kept adjustment.priceScale = adjustment.priceScale := by
      rintro adjustment rfl
      cases records with
      | moves deviation adjustment wants tried =>
          obtain ⟨norm, _, -, moved, -, -, -, -, -⟩ := adjustment_eq_some tried
          refine Layout.kept_of_fits ?_ (fun triple => fit adjustment rfl (layout ▸ triple))
          exact movedScale_length waits (oracleAt_length waits averaged) moved
    refine ⟨records.currentVirtualPrice_eq valued kept, ?_⟩
    rintro adjustment rfl
    cases records with
    | moves deviation adjustment wants tried => exact kept adjustment rfl
  · rintro adjustment rfl
    cases records with
    | moves deviation adjustment wants tried =>
        obtain ⟨_, _, -, -, -, -, -, worth, keeps⟩ := adjustment_eq_some tried
        exact ⟨by rw [layout], rfl, rfl, worth, keeps, wants⟩
  · rintro rfl
    cases records with
    | stays notAdjusted => exact ⟨scale, rfl, rfl⟩

/-- A swap of two coins and a withdrawal from three, both of which move the scale. -/
theorem record_agrees_in_samples :
    (∃ next, (Operation.trade (.swap 0 1 10000000000000000000000)).perform samplePair 600 =
        .ok next ∧ next.currentVirtualPrice = .ok next.virtualPrice ∧
        next.priceScale = [1500219000000000000000] ∧ Fixed.one < next.virtualPrice ∧
        next.xcpProfit < next.virtualPrice * 2 - Fixed.one ∧ next.notAdjusted = true) ∧
      ∃ next, (Operation.withdraw 100000000000000000000 2).perform sampleTriple 600 = .ok next ∧
        next.currentVirtualPrice = .ok next.virtualPrice ∧
        next.priceScale = [30013405246126074100700, 2000402157383782223021] := by
  constructor
  · let swap := Operation.trade (.swap 0 1 10000000000000000000000)
    obtain ⟨next, succeeds, -⟩ := Priced.map_eq_ok.mp (show
      (swap.perform samplePair 600).map CryptoPool.d = .ok 6000463507966997108463110
      by decide +kernel)
    obtain ⟨settlement, d, value, taken, settles, -, -, repegged, agrees, moves, -⟩ :=
      record_agrees_with_holdings samplePair next swap 600 ⟨rfl, rfl, rfl⟩ (by decide) (by decide)
        succeeds
    have step : (swap.settle samplePair 600 >>= fun settlement =>
        (settlement.repeg 600).map (Option.map Adjustment.priceScale)) =
          .ok (some [1500219000000000000000]) := by
      decide +kernel
    rw [settles, Priced.ok_bind, repegged] at step
    obtain ⟨adjustment, rfl, scale⟩ := Option.map_eq_some_iff.mp (Except.ok.inj step)
    obtain ⟨valued, moved⟩ := agrees fun _ _ triple => absurd triple (by decide)
    obtain ⟨-, -, -, worth, keeps, wants⟩ := moves adjustment rfl
    exact ⟨next, succeeds, valued, (moved adjustment rfl).trans scale, worth, keeps, wants⟩
  · let withdraw := Operation.withdraw 100000000000000000000 2
    obtain ⟨next, succeeds, -⟩ := Priced.map_eq_ok.mp (show
      (withdraw.perform sampleTriple 600).map CryptoPool.d = .ok 29886677150290525872479333
      by decide +kernel)
    obtain ⟨settlement, d, value, taken, settles, -, -, repegged, agrees, moves, -⟩ :=
      record_agrees_with_holdings sampleTriple next withdraw 600 ⟨rfl, rfl, rfl⟩ (by decide)
        (by decide) succeeds
    have step : (withdraw.settle sampleTriple 600 >>= fun settlement =>
        (settlement.repeg 600).map (Option.map Adjustment.priceScale)) =
          .ok (some [30013405246126074100700, 2000402157383782223021]) := by
      decide +kernel
    rw [settles, Priced.ok_bind, repegged] at step
    obtain ⟨adjustment, rfl, scale⟩ := Option.map_eq_some_iff.mp (Except.ok.inj step)
    obtain ⟨valued, moved⟩ := agrees (by
      intro other same triple
      obtain rfl := Option.some.inj same
      rw [scale]
      decide)
    exact ⟨next, succeeds, valued, (moved adjustment rfl).trans scale⟩

end CryptoPool
end Amm
