import Amm.Proofs.Aligned
import Amm.Proofs.Crypto.Aborts
import Amm.Proofs.Crypto.Repeg

/-!
Everything that can be asked of a crypto pool ends in a result or in an error of the domain. The lists
of a pool have the lengths of its layout from its snapshot on, an index that a request gives is checked
before anything is read at it, and of the divisors only those of the solvers go unchecked, none of
which is zero. What the snapshot says of precisions, prices, supply and half time does not matter. Only
a time so far from those of the pool that the seconds between them are not defined gets no answer.
-/

namespace Amm
namespace CryptoPool

open Crypto Priced

/-- All lists of a pool are as long as its layout asks for. -/
structure Fits (pool : CryptoPool) : Prop extends Aligned pool, Shaped pool where
  precisions : pool.precisions.length = pool.layout.coins

/-- The scaled balances of a settlement are as many as the coins, and a price that it shows is one of
a coin of the pool. -/
structure Settlement.Fits (settlement : Settlement) : Prop where
  pool : settlement.pool.Fits
  xp : settlement.xp.length = settlement.pool.layout.coins
  trade : ∀ trade, settlement.trade = some trade → trade.coin < settlement.pool.layout.coins

/-- The seconds since the last prices, which an average takes, are not defined. -/
def PricesOverflow (pool : CryptoPool) (now : Time) : Prop :=
  pool.lastPricesTime < now ∧ ¬ Time.Fits pool.lastPricesTime now

/-- Seconds that an answer can take are not defined. -/
def Overflows (pool : CryptoPool) (now : Time) : Prop :=
  pool.ramp.Overflows now ∨ pool.PricesOverflow now

variable {allowed : Fault → Prop} {pool next : CryptoPool} {now : Time} {shape : Shape}
  {settlement : Settlement}

theorem coins_pos (layout : Layout) : 0 < layout.coins := by
  cases layout <;> decide

theorem withUnit_length {layout : Layout} {prices : List Int}
    (count : prices.length = layout.coins - 1) : (withUnit prices).length = layout.coins := by
  have some := coins_pos layout
  rw [withUnit, List.length_cons, count]
  omega

namespace Fits

theorem scaled_length (fits : pool.Fits) {balances : List Int}
    (count : balances.length = pool.layout.coins) :
    (pool.scaled balances).length = pool.layout.coins := by
  rw [scaled, valued, List.length_zipWith, List.length_zipWith, count, fits.precisions,
    withUnit_length fits.priceScale, min_self, min_self]

/-- A pool with other reserves of the same number, and with another supply, invariant and ramp. -/
theorem moved (fits : pool.Fits) {reserves : List Int} {supply d : Int} {ramp : AGammaRamp}
    (count : reserves.length = pool.layout.coins) :
    Fits { pool with reserves := reserves, supply := supply, d := d, ramp := ramp } :=
  ⟨⟨fits.tokens, count⟩, ⟨fits.priceScale, fits.priceOracle, fits.lastPrices⟩, fits.precisions⟩

end Fits

theorem ofSnapshot_fits {layout : Layout} {snapshot : Snapshot}
    (built : ofSnapshot layout snapshot = .ok pool) : pool.Fits := by
  refine ⟨ofSnapshot_aligned built, ofSnapshot_shaped built, ?_⟩
  simp only [ofSnapshot, bind_eq_ok, require_eq_ok, decide_eq_true_eq, Except.ok.injEq] at built
  obtain ⟨_, -, _, -, _, -, _, count, reserves, -, _, -, _, -, _, -, rfl⟩ := built
  exact count

/-! What a pool works out for a request. -/

section
variable {i j : Nat} {dx : Int}

theorem fee_abortsOnly (pool : CryptoPool) (xp : List Int) : AbortsOnly allowed (pool.fee xp) :=
  .bind (reductionCoefficient_abortsOnly _ _) fun _ _ => .value _

theorem requirePair_abortsOnly (pool : CryptoPool) (i j : Nat) :
    AbortsOnly allowed (pool.requirePair i j) :=
  .bind .require fun _ _ => .require

theorem requirePair_bounds {done : Unit} (passes : pool.requirePair i j = .ok done) :
    i < pool.layout.coins ∧ j < pool.layout.coins := by
  simp only [requirePair, bind_eq_ok, require_eq_ok, Bool.and_eq_true, decide_eq_true_eq] at passes
  obtain ⟨_, -, bounds⟩ := passes
  exact bounds

theorem balancedMean_abortsOnly (d : Int) (prices : List Int) :
    AbortsOnly allowed (balancedMean d prices) :=
  .bind (.mapM fun _ _ => .quotient) fun _ _ => geometricMean_abortsOnly _

theorem shareValue_abortsOnly (d supply : Int) (prices : List Int) :
    AbortsOnly allowed (shareValue d supply prices) :=
  .bind (balancedMean_abortsOnly _ _) fun _ _ => .quotient

theorem rampedFor_abortsOnly (pool : CryptoPool) (shape : Shape) (now : Time) :
    AbortsOnly allowed (pool.rampedFor shape now) := by
  unfold rampedFor
  split
  · exact .bind (newtonD_abortsOnly _ _) fun d _ => .value _
  · exact .value _

/-- The number of coins is what the fee of a deposit divides by. -/
theorem depositFee_abortsOnly (pool : CryptoPool) (amounts xp : List Int) :
    AbortsOnly allowed (pool.depositFee amounts xp) := by
  have coins : (pool.layout.coins : Int) ≠ 0 ∧ (4 * (pool.layout.coins - 1) : Int) ≠ 0 := by
    cases pool.layout <;> decide
  refine .bind (fee_abortsOnly _ _) fun rate _ => .bind (.bareQuotient_of_ne coins.2) fun fee _ => ?_
  exact .bind (.bareQuotient_of_ne coins.1) fun average _ => .bind .quotient fun part _ => .value _

theorem depositFor_abortsOnly (time : pool.ramp.Overflows now → allowed .timeOverflow)
    (amounts : List Int) : AbortsOnly allowed (pool.depositFor amounts now) := by
  refine .bind (.bind .require fun _ _ => .require) fun _ _ => ?_
  refine .bind (AGammaRamp.shape_abortsOnly time) fun shape _ => ?_
  simp only [ite_bind]
  refine .bind ?_ fun oldD _ => .bind (newtonD_abortsOnly _ _) fun d _ => ?_
  · split
    · exact newtonD_abortsOnly _ _
    · exact .value _
  · split
    · exact .bind .quotient fun grown _ => .bind .require fun _ _ =>
        .bind (depositFee_abortsOnly _ _ _) fun fee _ => .value _
    · exact .bind (balancedMean_abortsOnly _ _) fun minted _ => .bind .require fun _ _ => .value _

theorem depositedCoin_lt {amounts : List Int} {coin : Nat}
    (deposited : pool.depositedCoin? amounts = some coin) : coin < amounts.length := by
  unfold depositedCoin? at deposited
  split at deposited
  · rename_i amount single found
    have member : (amount, single) ∈ amounts.zipIdx :=
      List.mem_of_mem_filter (found ▸ List.mem_singleton_self _)
    obtain rfl : single = coin := by
      split at deposited
      · simp at deposited
      · exact Option.some.inj deposited
    exact (List.mem_zipIdx' member).1
  · simp at deposited

theorem singleWithdrawal_bound {shares : Int} {coin : Nat} {renewD : Bool}
    {withdrawal : SingleWithdrawal}
    (computed : pool.singleWithdrawal shares coin now renewD = .ok withdrawal) :
    coin < pool.layout.coins := by
  obtain ⟨_, inside, -⟩ := bind_eq_ok.mp computed
  simpa using require_eq_ok.mp inside

variable (fits : pool.Fits)
include fits

theorem quoteExchange_abortsOnly (time : pool.ramp.Overflows now → allowed .timeOverflow)
    (i j : Nat) (dx : Int) : AbortsOnly allowed (pool.quoteExchange i j dx now) := by
  refine .bind (requirePair_abortsOnly _ _ _) fun _ pair => ?_
  obtain ⟨boundIn, boundOut⟩ := requirePair_bounds pair
  refine .bind (AGammaRamp.shape_abortsOnly time) fun shape _ => ?_
  refine .bind (.modify (fits.reserves ▸ boundIn)) fun received receives => ?_
  obtain ⟨-, rfl⟩ := modify_eq_ok.mp receives
  have kept : (pool.reserves.modify i (· + dx)).length = pool.layout.coins :=
    (List.length_modify ..).trans fits.reserves
  have count := fits.scaled_length kept
  refine .bind (newtonY_abortsOnly _ _ _ _) fun y _ => ?_
  refine .bind (.entry (count ▸ boundOut)) fun balance _ => ?_
  refine .bind (.entry (withUnit_length fits.priceScale ▸ boundOut)) fun price _ => ?_
  refine .bind (.entry (fits.precisions ▸ boundOut)) fun precision _ => ?_
  dsimp only
  split
  · exact .bind .quotient fun out _ => .bind (fee_abortsOnly _ _) fun rate _ => .value _
  · exact .bind .quotient fun priced _ => .bind .quotient fun out _ =>
      .bind (fee_abortsOnly _ _) fun rate _ => .value _

theorem exchangePrice_abortsOnly (boundIn : i < pool.layout.coins) (boundOut : j < pool.layout.coins)
    (dx dy : Int) : AbortsOnly allowed (pool.exchangePrice i j dx dy) := by
  unfold exchangePrice
  split
  · refine .bind (.entry (fits.precisions ▸ boundIn)) fun precisionIn _ => ?_
    refine .bind (.entry (fits.precisions ▸ boundOut)) fun precisionOut _ => ?_
    split
    · exact .bind .quotient fun price _ => .value _
    · exact .bind (.entry (withUnit_length fits.lastPrices ▸ boundIn)) fun last _ =>
        .bind .quotient fun price _ => .value _
  · exact .value _

theorem settleExchange_abortsOnly (time : pool.ramp.Overflows now → allowed .timeOverflow)
    (i j : Nat) (dx : Int) : AbortsOnly allowed (pool.settleExchange i j dx now) := by
  refine .bind (requirePair_abortsOnly _ _ _) fun _ pair => ?_
  obtain ⟨boundIn, boundOut⟩ := requirePair_bounds pair
  refine .bind .require fun _ _ => .bind (AGammaRamp.shape_abortsOnly time) fun shape _ => ?_
  refine .bind (.entry (fits.reserves ▸ boundOut)) fun reserveOut _ => ?_
  refine .bind (.modify (fits.reserves ▸ boundIn)) fun received receives => ?_
  obtain ⟨-, rfl⟩ := modify_eq_ok.mp receives
  have kept : (pool.reserves.modify i (· + dx)).length = pool.layout.coins :=
    (List.length_modify ..).trans fits.reserves
  have count := fits.scaled_length kept
  refine .bind (rampedFor_abortsOnly _ _ _) fun ramped computed => ?_
  obtain ⟨d, ramp, rfl⟩ := rampedFor_frame computed
  refine .bind (newtonY_abortsOnly _ _ _ _) fun y _ => ?_
  refine .bind (.entry (count ▸ boundOut)) fun balance _ => ?_
  refine .bind (.entry (withUnit_length fits.priceScale ▸ boundOut)) fun price _ => ?_
  refine .bind (.entry (fits.precisions ▸ boundOut)) fun precision _ => ?_
  refine .bind .quotient fun priced _ => .bind .quotient fun gross _ => ?_
  refine .bind (fee_abortsOnly _ _) fun rate _ => ?_
  refine .bind .require fun _ _ => .bind .require fun _ _ => ?_
  -- A price does not depend on the reserves, so the pool before the swap stands for the one after it.
  exact .bind (exchangePrice_abortsOnly fits boundIn boundOut _ _) fun trade _ => .value _

theorem singlePrice_abortsOnly {coin : Nat} (bound : coin < pool.layout.coins)
    (amount num den : Int) : AbortsOnly allowed (pool.singlePrice coin amount num den) := by
  refine .bind .quotient fun others _ => ?_
  refine .bind (.entry (fits.precisions ▸ bound)) fun precision _ => ?_
  refine .bind (.entry (fits.reserves ▸ bound)) fun reserve _ => .bind .quotient fun own _ => ?_
  dsimp only
  split
  · refine .bind .quotient fun price _ => ?_
    split
    · exact .bind .quotient fun inverse _ => .value _
    · exact .value _
  · exact .value _

theorem depositPrice_abortsOnly {amounts : List Int} (count : amounts.length = pool.layout.coins)
    (minted : Int) : AbortsOnly allowed (pool.depositPrice amounts minted) := by
  unfold depositPrice
  split
  · rename_i coin deposited
    have bound : coin < amounts.length := depositedCoin_lt deposited
    split
    · exact .bind (.entry bound) fun amount _ => singlePrice_abortsOnly fits (count ▸ bound) _ _ _
    · exact .value _
  · exact .value _

theorem singleWithdrawal_abortsOnly (time : pool.ramp.Overflows now → allowed .timeOverflow)
    (shares : Int) (coin : Nat) (renewD : Bool) :
    AbortsOnly allowed (pool.singleWithdrawal shares coin now renewD) := by
  refine .bind .require fun _ inside => ?_
  have bound : coin < pool.layout.coins := by simpa using require_eq_ok.mp inside
  refine .bind .require fun _ _ => .bind (AGammaRamp.shape_abortsOnly time) fun shape _ => ?_
  have count := fits.scaled_length fits.reserves
  refine .bind (.entry (withUnit_length fits.priceScale ▸ bound)) fun price _ => ?_
  refine .bind (.entry (fits.precisions ▸ bound)) fun precision _ => ?_
  simp only [ite_bind]
  refine .bind ?_ fun oldD _ => .bind (fee_abortsOnly _ _) fun rate _ => ?_
  · split
    · exact newtonD_abortsOnly _ _
    · exact .value _
  · refine .bind .quotient fun burnt _ => .bind (newtonY_abortsOnly _ _ _ _) fun y _ => ?_
    refine .bind (.entry (count ▸ bound)) fun balance _ => .bind .quotient fun amount _ => ?_
    refine .bind ?_ fun trade _ => .value _
    split
    · exact singlePrice_abortsOnly fits bound _ _ _
    · exact .value _

theorem settleWithdrawal_abortsOnly (time : pool.ramp.Overflows now → allowed .timeOverflow)
    (shares : Int) (coin : Nat) : AbortsOnly allowed (pool.settleWithdrawal shares coin now) := by
  refine .bind (AGammaRamp.shape_abortsOnly time) fun shape _ => ?_
  refine .bind (singleWithdrawal_abortsOnly fits time _ _ _) fun withdrawal computed => ?_
  have bound := singleWithdrawal_bound computed
  exact .bind (.entry (fits.reserves ▸ bound)) fun reserve _ => .value _

end

namespace Settlement.Fits

/-! What booking a settled operation works out. -/

variable (fits : settlement.Fits)
include fits

theorem marginalPrices_abortsOnly (d : Int) :
    AbortsOnly allowed (settlement.pool.marginalPrices settlement.shape settlement.xp d) := by
  refine .bind (.entry (fits.xp ▸ coins_pos _)) fun balance _ => .mapM fun (scale, k) member => ?_
  have listed : k < settlement.pool.priceScale.length := (List.mem_zipIdx' member).1
  have bound : k + 1 < settlement.xp.length := by
    rw [fits.pool.priceScale] at listed
    rw [fits.xp]
    omega
  exact .bind (newtonY_abortsOnly _ _ _ _) fun y _ => .bind (.entry bound) fun before _ => .quotient

theorem nextPrices_abortsOnly (d : Int) :
    AbortsOnly allowed
      (settlement.pool.nextPrices settlement.shape settlement.xp d settlement.trade) := by
  unfold nextPrices
  split
  · rename_i trade shown
    split
    · unfold tradedPrices
      split
      · exact .mapM fun _ _ => .quotient
      · rename_i later
        have bound := fits.trade trade shown
        refine .modify ?_
        rw [fits.pool.lastPrices]
        omega
    · exact fits.marginalPrices_abortsOnly d
  · exact fits.marginalPrices_abortsOnly d

omit fits in
theorem oracleAt_abortsOnly (time : pool.PricesOverflow now → allowed .timeOverflow) :
    AbortsOnly allowed (pool.oracleAt now) := by
  unfold oracleAt
  split
  · rename_i later
    refine .bind (Time.since_abortsOnly fun far => time ⟨later, far⟩) fun elapsed _ => ?_
    exact .bind .quotient fun power _ => .bind (halfpow_abortsOnly _ _) fun _ _ => .value _
  · exact .value _

theorem observe_abortsOnly (time : settlement.pool.PricesOverflow now → allowed .timeOverflow) :
    AbortsOnly allowed (settlement.observe now) := by
  refine .bind (oracleAt_abortsOnly time) fun oracle _ => .bind ?_ fun d _ => ?_
  · unfold unadjustedD
    split
    · exact .value _
    · exact newtonD_abortsOnly _ _
  · exact .bind (fits.nextPrices_abortsOnly d) fun last _ => .value _

omit fits in
theorem profit_abortsOnly (pool : CryptoPool) (d : Int) : AbortsOnly allowed (pool.profit d) := by
  unfold profit
  split
  · exact .bind (shareValue_abortsOnly _ _ _) fun value _ => .bind .quotient fun profit _ =>
      .bind .require fun _ _ => .value _
  · exact .value _

theorem adjustment_abortsOnly (oracle : List Int) (deviation profit : Int) :
    AbortsOnly allowed
      (settlement.pool.adjustment settlement.shape settlement.xp oracle deviation profit) := by
  refine .bind (sqrt_abortsOnly _) fun norm _ => .bind (.mapM fun _ _ => .quotient) fun scale _ => ?_
  refine .bind (.bind (.entry (fits.xp ▸ coins_pos _)) fun balance _ =>
    .bind (.mapM fun _ _ => .quotient) fun others _ => .value _) fun balances _ => ?_
  exact .bind (newtonD_abortsOnly _ _) fun d _ =>
    .bind (shareValue_abortsOnly _ _ _) fun value _ => .value _

theorem record_abortsOnly (seen : Observation) (profit : Profit) (now : Time) :
    AbortsOnly allowed (settlement.record seen profit now) := by
  unfold record
  dsimp only
  split
  · exact .value _
  · refine .bind (.bind (.mapM fun _ _ => .quotient) fun _ _ => .value _) fun deviation _ => ?_
    split
    · exact .value _
    · refine .bind (fits.adjustment_abortsOnly _ _ _) fun tried _ => ?_
      cases tried with
      | none => exact .value _
      | some adjustment => exact .value _

theorem book_abortsOnly (time : settlement.pool.PricesOverflow now → allowed .timeOverflow) :
    AbortsOnly allowed (settlement.book now) :=
  .bind (fits.observe_abortsOnly time) fun seen _ =>
    .bind (profit_abortsOnly _ _) fun profit _ => fits.record_abortsOnly seen profit now

theorem book (books : settlement.book now = .ok next) : next.Fits := by
  obtain ⟨_, _, observed, -, ends⟩ := Settlement.book_eq_ok books
  refine ⟨settlement.book_aligned fits.pool.toAligned books, ends.shaped fits.pool.toShaped observed,
    ?_⟩
  rw [ends.frame]
  exact fits.pool.precisions

end Settlement.Fits

section
variable {i j coin : Nat} {dx dy amount num den : Int} {trade : TradePrice}

theorem exchangePrice_coin (shown : pool.exchangePrice i j dx dy = .ok (some trade)) :
    trade.coin = i ∨ trade.coin = j := by
  unfold exchangePrice at shown
  split at shown
  · simp only [bind_eq_ok] at shown
    obtain ⟨precisionIn, -, precisionOut, -, shown⟩ := shown
    split at shown
    · simp only [bind_eq_ok, Except.ok.injEq, Option.some.injEq] at shown
      obtain ⟨price, -, rfl⟩ := shown
      exact .inl rfl
    · simp only [bind_eq_ok, Except.ok.injEq, Option.some.injEq] at shown
      obtain ⟨last, -, price, -, rfl⟩ := shown
      exact .inr rfl
  · simp at shown

theorem singlePrice_coin (bound : coin < pool.layout.coins)
    (shown : pool.singlePrice coin amount num den = .ok (some trade)) :
    trade.coin < pool.layout.coins := by
  have priced : pool.pricedCoin coin < pool.layout.coins := by
    unfold pricedCoin
    split
    · rename_i pair
      rw [pair]
      decide
    · exact bound
  simp only [singlePrice, bind_eq_ok] at shown
  obtain ⟨others, -, precision, -, reserve, -, own, -, shown⟩ := shown
  split at shown
  · obtain ⟨price, -, shown⟩ := bind_eq_ok.mp shown
    split at shown
    · simp only [bind_eq_ok, Except.ok.injEq, Option.some.injEq] at shown
      obtain ⟨inverse, -, rfl⟩ := shown
      exact priced
    · obtain rfl := Option.some.inj (Except.ok.inj shown)
      exact priced
  · simp at shown

end

theorem settleExchange_coin {i j : Nat} {dx dy : Int} {trade : TradePrice}
    (settles : pool.settleExchange i j dx now = .ok (dy, settlement))
    (shown : settlement.trade = some trade) : trade.coin < pool.layout.coins := by
  simp only [settleExchange, bind_eq_ok, Except.ok.injEq, Prod.mk.injEq] at settles
  obtain ⟨_, pair, _, -, _, -, reserveOut, -, _, -, ramped, -, _, -, _, -, _, -, _, -, _, -, _, -, _,
    -, _, -, _, -, price, priced, -, rfl⟩ := settles
  obtain rfl : price = some trade := shown
  obtain ⟨boundIn, boundOut⟩ := requirePair_bounds pair
  rcases exchangePrice_coin priced with same | same <;> rwa [same]

theorem depositPrice_coin {amounts : List Int} {minted : Int} {trade : TradePrice}
    (count : amounts.length = pool.layout.coins)
    (shown : pool.depositPrice amounts minted = .ok (some trade)) :
    trade.coin < pool.layout.coins := by
  unfold depositPrice at shown
  split at shown
  · rename_i coin deposited
    have bound : coin < pool.layout.coins := count ▸ depositedCoin_lt deposited
    split at shown
    · obtain ⟨amount, -, priced⟩ := bind_eq_ok.mp shown
      exact singlePrice_coin bound priced
    · simp at shown
  · simp at shown

/-- The balances that a withdrawal leaves, and the coin of the price that it shows. -/
theorem singleWithdrawal_fits (fits : pool.Fits) {shares : Int} {coin : Nat} {renewD : Bool}
    {withdrawal : SingleWithdrawal}
    (computed : pool.singleWithdrawal shares coin now renewD = .ok withdrawal) :
    withdrawal.xp.length = pool.layout.coins ∧
      ∀ trade, withdrawal.price = some trade → trade.coin < pool.layout.coins := by
  have bound := singleWithdrawal_bound computed
  simp only [singleWithdrawal, ite_bind, bind_eq_ok, Except.ok.injEq] at computed
  obtain ⟨_, -, _, -, _, -, _, -, _, -, _, -, _, -, burnt, -, y, -, _, -, amount, -, price, priced,
    rfl⟩ := computed
  refine ⟨(List.length_set ..).trans (fits.scaled_length fits.reserves), fun trade shown => ?_⟩
  obtain rfl : price = some trade := shown
  split at priced
  · exact singlePrice_coin bound priced
  · simp at priced

/-- Until it is booked an operation leaves a settlement that fits, whatever it was asked for. -/
theorem Operation.settle_fits (fits : pool.Fits) (operation : Operation)
    (settles : operation.settle pool now = .ok settlement) : settlement.Fits := by
  have aligned := operation.settle_aligned fits.toAligned settles
  obtain ⟨reserves, supply, d, ramp, frame⟩ := operation.settle_frame settles
  have layout : settlement.pool.layout = pool.layout := by rw [frame]
  have moved : settlement.pool.Fits := by
    rw [frame] at aligned ⊢
    exact fits.moved aligned.reserves
  match operation with
  | .trade (.swap i j dx) =>
      obtain ⟨_, exchanged, same⟩ := bind_eq_ok.mp settles
      obtain rfl := Except.ok.inj same
      obtain ⟨_, _, _, -, -, -, -, after, xp, -⟩ := settleExchange_moves exchanged
      refine ⟨moved, ?_, fun trade shown => layout ▸ settleExchange_coin exchanged shown⟩
      rw [xp, layout]
      exact fits.scaled_length (layout ▸ moved.reserves)
  | .trade (.deposit amounts) =>
      simp only [settle, Trade.settle, settleDeposit, bind_eq_ok, Except.ok.injEq] at settles
      obtain ⟨_, -, deposit, computed, price, priced, rfl⟩ := settles
      obtain ⟨count, -, xp⟩ := depositFor_balances computed
      refine ⟨moved, ?_, fun trade shown => ?_⟩
      · exact xp ▸ fits.scaled_length moved.reserves
      · obtain rfl : price = some trade := shown
        exact depositPrice_coin count priced
  | .withdraw shares coin =>
      simp only [settle, settleWithdrawal, bind_eq_ok, Except.ok.injEq] at settles
      obtain ⟨_, ⟨_, -, withdrawal, computed, _, -, rfl⟩, rfl⟩ := settles
      obtain ⟨xp, coins⟩ := singleWithdrawal_fits fits computed
      exact ⟨moved, xp, coins⟩

theorem Operation.perform_fits (fits : pool.Fits) (operation : Operation)
    (succeeds : operation.perform pool now = .ok next) : next.Fits := by
  obtain ⟨settlement, settles, books⟩ | ⟨amounts, deposit, -, computed, rfl⟩ :=
    operation.perform_cases succeeds
  · exact (operation.settle_fits fits settles).book books
  · have received := fits.toAligned.received computed
    exact ⟨⟨received.tokens, received.reserves⟩, ⟨fits.priceScale, fits.priceOracle, fits.lastPrices⟩,
      fits.precisions⟩

section
variable (fits : pool.Fits) (time : pool.Overflows now → allowed .timeOverflow)
include fits time

/-- A settled operation takes the seconds since the last prices that the pool had before. -/
theorem Operation.book_abortsOnly (operation : Operation)
    (settles : operation.settle pool now = .ok settlement) :
    AbortsOnly allowed (settlement.book now) := by
  refine (operation.settle_fits fits settles).book_abortsOnly fun far => time (.inr ?_)
  obtain ⟨reserves, supply, d, ramp, frame⟩ := operation.settle_frame settles
  rw [frame] at far
  exact far

theorem exchange_abortsOnly (i j : Nat) (dx : Int) :
    AbortsOnly allowed (pool.exchange i j dx now) := by
  refine .bind (settleExchange_abortsOnly fits (time ∘ .inl) i j dx) fun _ settles => ?_
  have settled : (Operation.trade (.swap i j dx)).settle pool now = .ok _ :=
    bind_eq_ok.mpr ⟨_, settles, rfl⟩
  exact .bind (Operation.book_abortsOnly fits time _ settled) fun _ _ => .value _

theorem deposit_abortsOnly (amounts : List Int) :
    AbortsOnly allowed (pool.deposit amounts now) := by
  refine .bind (AGammaRamp.shape_abortsOnly (time ∘ .inl)) fun shape shaped => ?_
  refine .bind (depositFor_abortsOnly (time ∘ .inl) _) fun deposit computed => ?_
  split
  · have received := fits.toAligned.received computed
    have count := (depositFor_balances computed).1
    refine .bind (.bind (depositPrice_abortsOnly (fits.moved received.reserves) count _)
      fun _ _ => .value _) fun settlement settles => ?_
    have settled : (Operation.trade (.deposit amounts)).settle pool now = .ok settlement :=
      bind_eq_ok.mpr ⟨shape, shaped, bind_eq_ok.mpr ⟨deposit, computed, settles⟩⟩
    exact .bind (Operation.book_abortsOnly fits time _ settled) fun _ _ => .value _
  · exact .value _

theorem withdraw_abortsOnly (shares : Int) (coin : Nat) :
    AbortsOnly allowed (pool.withdraw shares coin now) := by
  refine .bind (settleWithdrawal_abortsOnly fits (time ∘ .inl) shares coin) fun _ settles => ?_
  have settled : (Operation.withdraw shares coin).settle pool now = .ok _ :=
    bind_eq_ok.mpr ⟨_, settles, rfl⟩
  exact .bind (Operation.book_abortsOnly fits time _ settled) fun _ _ => .value _

theorem Operation.perform_abortsOnly (operation : Operation) :
    AbortsOnly allowed (operation.perform pool now) :=
  match operation with
  | .trade (.swap i j dx) => .bind (exchange_abortsOnly fits time i j dx) fun _ _ => .value _
  | .trade (.deposit amounts) => .bind (deposit_abortsOnly fits time amounts) fun _ _ => .value _
  | .withdraw shares coin => .bind (withdraw_abortsOnly fits time shares coin) fun _ _ => .value _

theorem apply_abortsOnly (update : Update) : AbortsOnly allowed (pool.apply update now) :=
  .bind .ofOption fun i _ => .bind .ofOption fun j _ =>
    .bind (exchange_abortsOnly fits time i j _) fun _ _ => .value _

theorem quote_abortsOnly (order : Order) : AbortsOnly allowed (pool.quote order now) :=
  .bind .ofOption fun i _ => .bind .ofOption fun j _ =>
    .bind (quoteExchange_abortsOnly fits (time ∘ .inl) i j _) fun _ _ =>
      order.quote_abortsOnly _ _ _ _ _ _ _ _

end

/-- An update that is applied is a swap between the coins of its tokens. -/
theorem apply_swaps {update : Update} (applied : pool.apply update now = .ok next) :
    ∃ i j, (Operation.trade (.swap i j update.amountIn)).perform pool now = .ok next := by
  simp only [apply, bind_eq_ok, Except.ok.injEq] at applied
  obtain ⟨i, -, j, -, ⟨dy, _⟩, exchanged, rfl⟩ := applied
  exact ⟨i, j, bind_eq_ok.mpr ⟨_, exchanged, rfl⟩⟩

/-- What can be asked of a crypto pool: an operation, a swap that was quoted before, or an amount. -/
inductive Request where
  | operate (operation : Operation)
  | apply (update : Update)
  | quote (order : Order)
  | quoteExchange (i j : Nat) (dx : Int)
  | sharesFor (amounts : List Int)
  | withdrawalFor (shares : Int) (coin : Nat)
  | fee (xp : List Int)
  | virtualPrice

namespace Request

/-- The pool after a request. One for an amount leaves it as it is. -/
def perform (request : Request) (pool : CryptoPool) (now : Time) : Priced CryptoPool :=
  match request with
  | .operate operation => operation.perform pool now
  | .apply update => pool.apply update now
  | .quote order => (fun _ => pool) <$> pool.quote order now
  | .quoteExchange i j dx => (fun _ => pool) <$> pool.quoteExchange i j dx now
  | .sharesFor amounts => (fun _ => pool) <$> pool.sharesFor amounts now
  | .withdrawalFor shares coin => (fun _ => pool) <$> pool.withdrawalFor shares coin now
  | .fee xp => (fun _ => pool) <$> pool.fee xp
  | .virtualPrice => (fun _ => pool) <$> pool.currentVirtualPrice

/-- A pool after a request. One that fails leaves it as it was. -/
def after (request : Request) (pool : CryptoPool) (now : Time) : CryptoPool :=
  match request.perform pool now with
  | .ok next => next
  | .error _ => pool

theorem perform_fits (fits : pool.Fits) (request : Request)
    (succeeds : request.perform pool now = .ok next) : next.Fits := by
  have asked : ∀ {α : Type} {answer : Priced α}, (fun _ => pool) <$> answer = .ok next →
      next.Fits := fun done => by
    obtain ⟨_, -, rfl⟩ := map_eq_ok.mp done
    exact fits
  cases request with
  | operate operation => exact operation.perform_fits fits succeeds
  | apply update =>
      obtain ⟨_, _, swapped⟩ := apply_swaps succeeds
      exact Operation.perform_fits fits _ swapped
  | quote | quoteExchange | sharesFor | withdrawalFor | fee | virtualPrice => exact asked succeeds

theorem perform_abortsOnly (fits : pool.Fits) (time : pool.Overflows now → allowed .timeOverflow)
    (request : Request) : AbortsOnly allowed (request.perform pool now) :=
  match request with
  | .operate operation => operation.perform_abortsOnly fits time
  | .apply update => apply_abortsOnly fits time update
  | .quote order => .map _ (quote_abortsOnly fits time order)
  | .quoteExchange i j dx => .map _ (quoteExchange_abortsOnly fits (time ∘ .inl) i j dx)
  | .sharesFor amounts =>
      .map _ (.bind (depositFor_abortsOnly (time ∘ .inl) amounts) fun _ _ => .value _)
  | .withdrawalFor shares coin =>
      .map _ (.bind (singleWithdrawal_abortsOnly fits (time ∘ .inl) shares coin _) fun _ _ =>
        .value _)
  | .fee xp => .map _ (fee_abortsOnly pool xp)
  | .virtualPrice => .map _ (shareValue_abortsOnly _ _ _)

theorem after_fits (fits : pool.Fits) (request : Request) (now : Time) :
    (request.after pool now).Fits := by
  unfold after
  split
  · rename_i done
    exact request.perform_fits fits done
  · exact fits

end Request

/-- A pool after requests at their times, one after another. -/
def requestAll (pool : CryptoPool) (requests : List (Request × Time)) : CryptoPool :=
  requests.foldl (fun current (request, now) => request.after current now) pool

theorem requestAll_fits (fits : pool.Fits) (requests : List (Request × Time)) :
    (requestAll pool requests).Fits := by
  induction requests generalizing pool with
  | nil => exact fits
  | cons dated requests ih =>
      obtain ⟨request, now⟩ := dated
      exact ih (request.after_fits fits now)

/-- A crypto pool that a snapshot is built into gives a result or an error of the domain to every
request, whatever was asked before, with any amounts and indices and at any time from which the
seconds to those of the pool are defined. Its lists keep the lengths of its layout, and what an
operation settles fits them, so nothing is read or written beside them. -/
theorem requests_never_abort (layout : Layout) (snapshot : Snapshot) (pool : CryptoPool)
    (accepted : ofSnapshot layout snapshot = .ok pool) (earlier : List (Request × Time))
    (request : Request) (now : Time) :
    (requestAll pool earlier).Fits ∧
    (∀ (operation : Operation) (settlement : Settlement),
      operation.settle (requestAll pool earlier) now = .ok settlement → settlement.Fits) ∧
    ((∃ next, request.perform (requestAll pool earlier) now = .ok next) ∨
      (∃ cause, request.perform (requestAll pool earlier) now = refuse cause) ∨
      request.perform (requestAll pool earlier) now = abort .timeOverflow ∧
        (requestAll pool earlier).Overflows now) := by
  have fits := requestAll_fits (ofSnapshot_fits accepted) earlier
  have faults : AbortsOnly
      (fun fault => fault = .timeOverflow ∧ (requestAll pool earlier).Overflows now)
      (request.perform (requestAll pool earlier) now) :=
    request.perform_abortsOnly fits fun far => ⟨rfl, far⟩
  refine ⟨fits, fun operation _ settles => operation.settle_fits fits settles, ?_⟩
  rcases faults.answers with done | refused | ⟨_, aborts, rfl, far⟩
  · exact .inl done
  · exact .inr (.inl refused)
  · exact .inr (.inr ⟨aborts, far⟩)

/-- The part of a snapshot that changes, with the given half time, invariant and prices. -/
def extraAt (halfTime d : Int) (prices : Json) : Json :=
  .object [("initialAGamma", .integer 136112946768375385385349842972852284582400000),
    ("futureAGamma", .integer 136112946768375385385349842972852284582400000),
    ("priceScale", prices), ("priceOracle", prices), ("lastPrices", prices),
    ("lastPricesTimestamp", .integer 0), ("feeGamma", .integer 230000000000000),
    ("midFee", .integer 26000000), ("outFee", .integer 45000000), ("maHalfTime", .integer halfTime),
    ("xcpProfit", .integer 1030000000000000000), ("virtualPrice", .integer 1020000000000000000),
    ("D", .integer d), ("allowedExtraProfit", .integer 2000000000000),
    ("adjustmentStep", .integer 146000000000000)]

/-- Two balanced coins and a moving average without a half time. -/
def timelessPair : Snapshot where
  address := ⟨300⟩
  kind := .pair
  tokens := [⟨1⟩, ⟨2⟩]
  reserves := [3000000000000000000000000, 2000000000000000000000, 75940849925635625177963]
  extra := extraAt 0 6000000000000000000000000 (.integer 1500000000000000000000)
  staticExtra := .object [("precisionMultipliers", .array [.integer 1, .integer 1])]

/-- Three coins with the precision zero, one of them owed, no shares, and prices below zero. -/
def worthlessTriple : Snapshot where
  address := ⟨400⟩
  kind := .triple
  tokens := [⟨1⟩, ⟨2⟩, ⟨3⟩]
  reserves := [0, -5, 7]
  extra := extraAt 600 0 (.array [.integer (-1), .integer (-1)])
  staticExtra := .object [("precisionMultipliers", .array [.integer 0, .integer 0, .integer 0])]

/-- A swap, one between coins that the pool does not have, and a fee of nothing. -/
def timelessRun : List (Request × Time) :=
  [(.operate (.trade (.swap 0 1 10000000000000000000000)), 0),
    (.operate (.trade (.swap 7 1 10000000000000000000000)), 0), (.fee [], -5)]

/-- Both are accepted. The pair swaps until time passes, and the triple gives its shares no value. -/
theorem degenerate_pools_answer :
    (∃ pool, ofSnapshot .pair timelessPair = .ok pool ∧ (requestAll pool timelessRun).Fits ∧
      (requestAll pool timelessRun).reserves = [3010000000000000000000000, 1993352455273019368596] ∧
      (Request.operate (.withdraw 100000000000000000000 1)).perform (requestAll pool timelessRun)
        600 = refuse .denominatorZero) ∧
    ∃ pool cause, ofSnapshot .triple worthlessTriple = .ok pool ∧ pool.Fits ∧
      Request.virtualPrice.perform pool 600 = refuse cause := by
  constructor
  · let withdrawal := Request.operate (.withdraw 100000000000000000000 1)
    obtain ⟨pool, accepted, swapped⟩ := bind_eq_ok.mp (show
      (ofSnapshot .pair timelessPair >>= fun pool =>
        Except.ok (requestAll pool timelessRun).reserves) =
          .ok [3010000000000000000000000, 1993352455273019368596] by decide +kernel)
    have refused : (ofSnapshot .pair timelessPair >>= fun pool =>
        withdrawal.perform (requestAll pool timelessRun) 600) = refuse .denominatorZero := by
      decide +kernel
    rw [accepted, ok_bind] at refused
    have answers := requests_never_abort .pair timelessPair pool accepted timelessRun withdrawal 600
    exact ⟨pool, accepted, answers.1, Except.ok.inj swapped, refused⟩
  · obtain ⟨pool, accepted, -⟩ := map_eq_ok.mp (show
      (ofSnapshot .triple worthlessTriple).map CryptoPool.supply = .ok 0 by decide +kernel)
    obtain ⟨fits, -, answers⟩ :=
      requests_never_abort .triple worthlessTriple pool accepted [] .virtualPrice 600
    have unvalued : (ofSnapshot .triple worthlessTriple >>= fun pool =>
        Request.virtualPrice.perform pool 600).toOption = none := by
      decide +kernel
    have defined : (ofSnapshot .triple worthlessTriple >>= fun pool =>
        Request.virtualPrice.perform pool 600) ≠ abort .timeOverflow := by
      decide +kernel
    rw [accepted, ok_bind] at unvalued defined
    rcases answers with ⟨next, priced⟩ | ⟨cause, refused⟩ | ⟨aborts, -⟩
    · have valued : (Request.virtualPrice.perform pool 600).toOption = some next := by
        rw [show Request.virtualPrice.perform pool 600 = .ok next from priced]
        rfl
      exact absurd (valued.symm.trans unvalued) (Option.some_ne_none _)
    · exact ⟨pool, cause, accepted, fits, refused⟩
    · exact absurd aborts defined

end CryptoPool
end Amm
