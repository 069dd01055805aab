import Amm.Proofs.Crypto.Repeg

/-!
Which prices a pool reads back as they were worked out. Nothing checks that a price fits its lane, so
those of a snapshot, of a trade, of the moving average and of a step of the scale are all kept as they
come. They read back exactly if all of them fit. Otherwise each price is what its own lane holds, and
the price of the last coin has what the other one spills over.
-/

namespace Amm
namespace Crypto
namespace Layout

/-- There is room for all prices where a pool of the layout keeps them. -/
def Holds (layout : Layout) (prices : List Int) : Prop :=
  layout = .triple → ∀ price ∈ prices, Lanes.Fits price

instance (layout : Layout) (prices : List Int) : Decidable (layout.Holds prices) :=
  inferInstanceAs (Decidable (layout = .triple → ∀ price ∈ prices, Lanes.Fits price))

theorem holds_append {layout : Layout} {first second : List Int} :
    layout.Holds (first ++ second) ↔ layout.Holds first ∧ layout.Holds second := by
  simp only [Holds, List.forall_mem_append, forall_and]

/-- A record of prices is what reads back of them, and that is the prices themselves exactly if there
is room for all. -/
structure Recorded (layout : Layout) (prices record : List Int) : Prop where
  reads : record = layout.kept prices
  exact_iff : record = prices ↔ layout.Holds prices

theorem recorded_kept {layout : Layout} {prices : List Int}
    (count : prices.length = layout.coins - 1) : layout.Recorded prices (layout.kept prices) := by
  refine ⟨rfl, fun same triple price member => ?_, fun room => kept_of_fits count room⟩
  subst triple
  rw [← same] at member
  exact Lanes.fits_of_mem_unpack member

end Layout
end Crypto

namespace CryptoPool

open Crypto

theorem recorded_of_keepPrices {layout : Layout} {list : PriceList} {prices kept : List Int}
    (read : keepPrices layout list prices = .ok kept) : layout.Recorded prices kept := by
  simp only [keepPrices, Priced.bind_eq_ok, Priced.require_eq_ok, decide_eq_true_eq,
    Except.ok.injEq] at read
  obtain ⟨_, count, rfl⟩ := read
  exact Layout.recorded_kept count

theorem recorded_of_ofSnapshot {layout : Layout} {snapshot : Snapshot} {pool : CryptoPool}
    (built : ofSnapshot layout snapshot = .ok pool) :
    ∃ extra, snapshot.decodeExtra (Extra.ofJson? layout) = .ok extra ∧
      layout.Recorded extra.priceScale pool.priceScale ∧
      layout.Recorded extra.priceOracle pool.priceOracle ∧
      layout.Recorded extra.lastPrices pool.lastPrices := by
  simp only [ofSnapshot, Priced.bind_eq_ok, Except.ok.injEq] at built
  obtain ⟨extra, decoded, _, -, _, -, _, -, reserves, -, scale, scaleRead, oracle, oracleRead, last,
    lastRead, rfl⟩ := built
  exact ⟨extra, decoded, recorded_of_keepPrices scaleRead, recorded_of_keepPrices oracleRead,
    recorded_of_keepPrices lastRead⟩

/-- The prices on record after a booking, against those that the booking worked out. Without a later
time the moving average does not move, and without a step of the scale neither does the scale. -/
structure BooksPrices (pool next : CryptoPool) (seen : Observation) (taken : Option Adjustment)
    (now : Time) : Prop where
  lastPrices : pool.layout.Recorded seen.last next.lastPrices
  priceOracle : pool.lastPricesTime < now → pool.layout.Recorded seen.oracle next.priceOracle
  oracle_stays : ¬pool.lastPricesTime < now →
    next.priceOracle = seen.oracle ∧ seen.oracle = pool.priceOracle
  priceScale : ∀ adjustment, taken = some adjustment →
    pool.layout.Recorded adjustment.priceScale next.priceScale
  scale_stays : taken = none → next.priceScale = pool.priceScale

theorem Settlement.booksPrices {settlement : Settlement} {next : CryptoPool} {now : Time}
    (waits : settlement.pool.Shaped) (books : settlement.book now = .ok next) :
    ∃ seen taken, settlement.observe now = .ok seen ∧ settlement.repeg now = .ok taken ∧
      settlement.pool.BooksPrices next seen taken now := by
  obtain ⟨seen, profit, taken, observed, -, repegged, records⟩ := records_of_book books
  obtain ⟨averaged, -, priced⟩ := observe_eq_ok observed
  have oracleCount := oracleAt_length waits averaged
  have last := Layout.recorded_kept (nextPrices_length waits priced)
  have stays : ¬settlement.pool.lastPricesTime < now →
      seen.oracle = settlement.pool.priceOracle := fun early => by
    rw [oracleAt, if_neg early] at averaged
    exact (Except.ok.inj averaged).symm
  have oracle : settlement.pool.lastPricesTime < now → settlement.pool.layout.Recorded seen.oracle
      (settlement.recorded seen profit now).priceOracle := fun later => by
    rw [recorded, if_pos later]
    exact Layout.recorded_kept oracleCount
  have oracleStays : ¬settlement.pool.lastPricesTime < now →
      (settlement.recorded seen profit now).priceOracle = seen.oracle ∧
        seen.oracle = settlement.pool.priceOracle := fun early => by
    rw [recorded, if_neg early, stays early]
    exact ⟨rfl, rfl⟩
  refine ⟨seen, taken, observed, repegged, ?_⟩
  cases records with
  | stays notAdjusted =>
      exact ⟨last, oracle, oracleStays, fun _ moved =>
        absurd moved.symm (Option.some_ne_none _), fun _ => rfl⟩
  | moves deviation adjustment wants tried =>
      obtain ⟨norm, _, -, moved, -⟩ := adjustment_eq_some tried
      have scaleCount := movedScale_length waits oracleCount moved
      refine ⟨last, oracle, oracleStays, fun other same => ?_, fun stayed =>
        absurd stayed (Option.some_ne_none _)⟩
      obtain rfl := Option.some.inj same
      exact Layout.recorded_kept scaleCount

/-- The deposit that opens a pool, whose prices nothing is booked to. -/
structure Operation.Opens (operation : Operation) (pool next : CryptoPool) : Prop where
  deposits : ∃ amounts, operation = .trade (.deposit amounts)
  empty : ¬0 < pool.d
  prices : next.priceScale = pool.priceScale ∧ next.priceOracle = pool.priceOracle ∧
    next.lastPrices = pool.lastPrices

variable {pool next : CryptoPool} {now : Time}

/-- Every operation that succeeds is booked, but for the deposit that opens a pool. -/
theorem Operation.books_or_opens (operation : Operation)
    (succeeds : operation.perform pool now = .ok next) :
    (∃ settlement, operation.settle pool now = .ok settlement ∧
      settlement.book now = .ok next) ∨ operation.Opens pool next := by
  by_cases held : 0 < pool.d
  · exact .inl (operation.perform_eq_ok held succeeds)
  · obtain booked | ⟨amounts, deposit, rfl, -, rfl⟩ := operation.perform_cases succeeds
    · exact .inl booked
    · exact .inr ⟨⟨amounts, rfl⟩, held, rfl, rfl, rfl⟩

/-- Prices read back as they were worked out exactly if they fit: those of a snapshot in the pool built
from it, and after every operation the last prices, the moving average and the scale that it worked
out. Of two prices that share a word, what does not fit of the first is lost to it and set on top of
the second. -/
theorem prices_read_back_iff_fit (pool : CryptoPool) :
    (∀ first second, Layout.triple.kept [first, second] =
      [first % Lanes.size, Lanes.union second (first / Lanes.size) % Lanes.size]) ∧
    (∀ layout snapshot, ofSnapshot layout snapshot = .ok pool →
      ∃ extra, snapshot.decodeExtra (Extra.ofJson? layout) = .ok extra ∧
        layout.Recorded extra.priceScale pool.priceScale ∧
        layout.Recorded extra.priceOracle pool.priceOracle ∧
        layout.Recorded extra.lastPrices pool.lastPrices) ∧
    ∀ (next : CryptoPool) (operation : Operation) (now : Time), pool.Shaped →
      operation.perform pool now = .ok next →
      (∃ settlement seen taken, operation.settle pool now = .ok settlement ∧
        settlement.observe now = .ok seen ∧ settlement.repeg now = .ok taken ∧
        pool.BooksPrices next seen taken now) ∨ operation.Opens pool next := by
  refine ⟨Lanes.unpack_pack_two, fun layout snapshot => recorded_of_ofSnapshot, ?_⟩
  intro next operation now shaped succeeds
  obtain ⟨settlement, settles, books⟩ | opens := operation.books_or_opens succeeds
  · obtain ⟨_, _, _, _, frame⟩ := operation.settle_frame settles
    obtain ⟨seen, taken, observed, repegged, booked⟩ :=
      settlement.booksPrices (operation.settle_shaped shaped settles) books
    refine .inl ⟨settlement, seen, taken, settles, observed, repegged, ?_⟩
    rw [frame] at booked
    exact ⟨booked.lastPrices, booked.priceOracle, booked.oracle_stays, booked.priceScale,
      booked.scale_stays⟩
  · exact .inr opens

/-- Three coins of which the second is so dear that its price nearly fills its lane. -/
def sampleDear : CryptoPool :=
  { sampleTriple with
    reserves := [10000000000000000000000000000000, 29498525073, 5000000000000000000000000000]
    precisions := [1, 1, 1]
    supply := 111597947658797687118053
    d := 30000000000000000000000000000000
    priceScale := [339000000000000000000000000000000000000, 2000000000000000000000]
    priceOracle := [339000000000000000000000000000000000000, 2000000000000000000000]
    lastPrices := [339000000000000000000000000000000000000, 2000000000000000000000] }

/-- Its purchase shows a price that does not fit, and the price of the third coin goes up by the bit
that is over. -/
theorem sampleDear_purchase :
    ∃ settlement seen next,
      (Operation.trade (.swap 0 1 100000000000000000000000000000)).perform sampleDear 600 =
        .ok next ∧
      (Operation.trade (.swap 0 1 100000000000000000000000000000)).settle sampleDear 600 =
        .ok settlement ∧
      settlement.observe 600 = .ok seen ∧
      seen.last = [340595105956906565249614711152751663262, 2000000000000000000000] ∧
      next.lastPrices = [312739035968101786240103720983451806, 2000000000000000000001] := by
  let purchase := Operation.trade (.swap 0 1 100000000000000000000000000000)
  obtain ⟨next, succeeds, kept⟩ := Priced.map_eq_ok.mp (show
    (purchase.perform sampleDear 600).map CryptoPool.lastPrices =
      .ok [312739035968101786240103720983451806, 2000000000000000000001]
    by decide +kernel)
  have shown : (purchase.settle sampleDear 600 >>= fun settlement =>
      (settlement.observe 600).map Observation.last) =
        .ok [340595105956906565249614711152751663262, 2000000000000000000000] := by
    decide +kernel
  obtain ⟨settlement, settles, rest⟩ := Priced.bind_eq_ok.mp shown
  obtain ⟨seen, observed, last⟩ := Priced.map_eq_ok.mp rest
  exact ⟨settlement, seen, next, succeeds, settles, observed, last, kept⟩

theorem sampleDear_misses_price :
    ∃ settlement seen next,
      (Operation.trade (.swap 0 1 100000000000000000000000000000)).perform sampleDear 600 =
        .ok next ∧
      (Operation.trade (.swap 0 1 100000000000000000000000000000)).settle sampleDear 600 =
        .ok settlement ∧
      settlement.observe 600 = .ok seen ∧ ¬Layout.triple.Holds seen.last ∧
      next.lastPrices ≠ seen.last := by
  obtain ⟨settlement, seen, next, succeeds, settles, observed, last, -⟩ := sampleDear_purchase
  have spills : ¬Layout.triple.Holds seen.last := by
    rw [last]
    decide
  refine ⟨settlement, seen, next, succeeds, settles, observed, spills, fun same => ?_⟩
  obtain ⟨_, _, _, settles', observed', -, booked⟩ | opens :=
    (prices_read_back_iff_fit sampleDear).2.2 next _ 600 ⟨rfl, rfl, rfl⟩ succeeds
  · obtain rfl := Except.ok.inj (settles.symm.trans settles')
    obtain rfl := Except.ok.inj (observed.symm.trans observed')
    exact spills (booked.lastPrices.exact_iff.mp same)
  · exact opens.empty (by decide)

theorem dear_coin_moves_other_price :
    ¬ ∀ (pool next : CryptoPool) (operation : Operation) (now : Time) (settlement : Settlement)
      (seen : Observation), pool.layout = .triple → pool.Shaped →
      (∀ price ∈ pool.priceScale ++ pool.priceOracle ++ pool.lastPrices, Lanes.Fits price) →
      operation.perform pool now = .ok next → operation.settle pool now = .ok settlement →
      settlement.observe now = .ok seen → next.lastPrices = seen.last := by
  intro reads
  obtain ⟨settlement, seen, next, succeeds, settles, observed, last, kept⟩ := sampleDear_purchase
  have same := reads sampleDear next _ 600 settlement seen rfl ⟨rfl, rfl, rfl⟩ (by decide) succeeds
    settles observed
  rw [last, kept] at same
  exact absurd same (by decide)

end CryptoPool
end Amm
