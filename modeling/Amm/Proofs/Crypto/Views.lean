import Amm.Pool.Crypto.Exchange
import Amm.Pool.Crypto.Liquidity
import Amm.Proofs.Priced

/-!
What a crypto pool says that an operation would give, against what the operation gives. Outside a
ramp the two are the same amounts, although a quote divides once by price and precision together and
a swap divides by one after the other.
-/

namespace Amm
namespace CryptoPool

open Crypto

/-- A withdrawal succeeds if it can be settled and booked. -/
theorem withdraw_eq_ok {pool next : CryptoPool} {shares : Int} {coin : Nat} {now : Time}
    {paid : Stable.Withdrawal} :
    pool.withdraw shares coin now = .ok (paid, next) ↔
      ∃ settlement, pool.settleWithdrawal shares coin now = .ok (paid, settlement) ∧
        settlement.book now = .ok next := by
  simp only [withdraw, Priced.bind_eq_ok, Except.ok.injEq, Prod.mk.injEq]
  constructor
  · rintro ⟨⟨_, settlement⟩, settles, _, books, rfl, rfl⟩
    exact ⟨settlement, settles, books⟩
  · rintro ⟨settlement, settles, books⟩
    exact ⟨(paid, settlement), settles, next, books, rfl, rfl⟩

/-- The pool with another invariant and all else as it is. -/
def withInvariant (pool : CryptoPool) (d : Int) : CryptoPool :=
  { pool with d }

section
variable (pool : CryptoPool) (d : Int)

@[simp] theorem withInvariant_d : (pool.withInvariant d).d = d := rfl

@[simp] theorem withInvariant_layout : (pool.withInvariant d).layout = pool.layout := rfl

@[simp] theorem withInvariant_ramp : (pool.withInvariant d).ramp = pool.ramp := rfl

@[simp] theorem withInvariant_reserves : (pool.withInvariant d).reserves = pool.reserves := rfl

@[simp] theorem withInvariant_precisions : (pool.withInvariant d).precisions = pool.precisions := rfl

@[simp] theorem withInvariant_priceScale : (pool.withInvariant d).priceScale = pool.priceScale := rfl

@[simp] theorem withInvariant_requirePair (i j : Nat) :
    (pool.withInvariant d).requirePair i j = pool.requirePair i j := rfl

@[simp] theorem withInvariant_scaled (balances : List Int) :
    (pool.withInvariant d).scaled balances = pool.scaled balances := rfl

@[simp] theorem withInvariant_fee (xp : List Int) : (pool.withInvariant d).fee xp = pool.fee xp := rfl

end

/-- Before a swap is solved nothing but the invariant and the ramp of the pool can change. -/
theorem rampedFor_frame {pool ramped : CryptoPool} {shape : Shape} {now : Time}
    (computed : pool.rampedFor shape now = .ok ramped) :
    ∃ d ramp, ramped = { pool with d := d, ramp := ramp } := by
  unfold rampedFor at computed
  split at computed
  · obtain ⟨d, -, same⟩ := Priced.bind_eq_ok.mp computed
    exact ⟨d, _, (Except.ok.inj same).symm⟩
  · exact ⟨pool.d, pool.ramp, (Except.ok.inj computed).symm⟩

/-- A swap is of a positive amount and is paid out of a reserve that covers it. Its invariant is found
when it is booked. -/
theorem settleExchange_moves {pool : CryptoPool} {i j : Nat} {dx dy : Int} {now : Time}
    {settlement : Settlement} (settles : pool.settleExchange i j dx now = .ok (dy, settlement)) :
    ∃ reserveOut d ramp, i ≠ j ∧ 0 < dx ∧ dy ≤ reserveOut ∧ pool.reserves[j]? = some reserveOut ∧
      settlement.pool = { pool with
        reserves := (pool.reserves.modify i (· + dx)).set j (reserveOut - dy)
        d := d
        ramp := ramp } ∧
      settlement.xp = pool.scaled settlement.pool.reserves ∧ settlement.knownD = none := by
  simp only [settleExchange, requirePair, Priced.bind_eq_ok, Priced.require_eq_ok,
    Priced.entry_eq_ok, Priced.modify_eq_ok, decide_eq_true_eq, Except.ok.injEq,
    Prod.mk.injEq] at settles
  obtain ⟨_, ⟨_, different, -⟩, _, paid, _, -, reserveOut, reserveAt, _, ⟨-, rfl⟩, ramped, computed, _,
    -, _, -, _, -, _, -, _, -, _, -, _, -, _, -, _, covered, _, -, rfl, rfl⟩ := settles
  obtain ⟨d, ramp, rfl⟩ := rampedFor_frame computed
  exact ⟨reserveOut, d, ramp, different, paid, by omega, reserveAt, rfl, rfl, rfl⟩

/-- The divisors of a quote are positive where it takes them together: a pair divides once by price
and precision, while a swap divides by one after the other. -/
def DividesOnce (pool : CryptoPool) : Prop :=
  pool.layout = .pair →
    (∀ precision ∈ pool.precisions, 0 < precision) ∧ ∀ price ∈ pool.priceScale, 0 < price

/-- A swap pays what the pool would quote at the invariant that the swap uses: both take the same
balance from the solver, and the quotients by price and precision can be taken in either way. -/
theorem settleExchange_ramped {pool : CryptoPool} (divides : pool.DividesOnce) {i j : Nat}
    {dx dy : Int} {now : Time} {settlement : Settlement}
    (settles : pool.settleExchange i j dx now = .ok (dy, settlement)) :
    ∃ shape ramped fee, pool.ramp.shape now = .ok shape ∧ pool.rampedFor shape now = .ok ramped ∧
      (pool.withInvariant ramped.d).quoteExchange i j dx now = .ok (dy, fee) := by
  simp only [settleExchange, Priced.bind_eq_ok, Except.ok.injEq, Prod.mk.injEq] at settles
  obtain ⟨_, pair, _, -, shape, shaped, _, -, received, receives, ramped, computed, settles⟩ := settles
  refine ⟨shape, ramped, ?_⟩
  obtain ⟨d, ramp, rfl⟩ := rampedFor_frame computed
  obtain ⟨y, solved, balance, balanceAt, price, priceAt, precision, precisionAt, priced, pricedOut,
    gross, grossOut, rate, rated, _, -, _, -, _, -, rfl, -⟩ := settles
  refine ⟨Stable.share gross rate, shaped, computed, ?_⟩
  have fees : pool.fee ((pool.scaled received).set j y) = .ok rate := rated
  simp only [quoteExchange, withInvariant_requirePair, withInvariant_ramp, withInvariant_reserves,
    withInvariant_scaled, withInvariant_d, withInvariant_priceScale, withInvariant_precisions,
    withInvariant_layout, withInvariant_fee, pair, shaped, receives, solved, balanceAt, priceAt,
    precisionAt, Priced.ok_bind]
  cases layout : pool.layout with
  | pair =>
      obtain ⟨precisions, scale⟩ := divides layout
      have pricePositive : 0 < price := by
        have member := List.mem_of_getElem? (Priced.entry_eq_ok.mp priceAt)
        rcases List.mem_cons.mp member with rfl | kept
        · decide
        · exact scale price kept
      have precisionPositive : 0 < precision :=
        precisions precision (List.mem_of_getElem? (Priced.entry_eq_ok.mp precisionAt))
      have merged := Priced.quotient_mul pricePositive precisionPositive pricedOut grossOut
      simp only [merged, fees, Priced.ok_bind]
  | triple => simp only [pricedOut, grossOut, fees, Priced.ok_bind]

section
variable {pool : CryptoPool} (settled : pool.ramp.futureTime = 0)
include settled

theorem isRamping_of_settled : pool.ramp.isRamping = false := by
  simp [AGammaRamp.isRamping, settled]

theorem rampedFor_of_settled (shape : Shape) (now : Time) :
    pool.rampedFor shape now = .ok pool := by
  simp [rampedFor, isRamping_of_settled settled]

/-- Without a ramp the invariant that a swap uses is the one of the pool. -/
theorem settleExchange_quoted (precisions : ∀ precision ∈ pool.precisions, 0 < precision)
    (scale : ∀ price ∈ pool.priceScale, 0 < price) {i j : Nat} {dx dy : Int} {now : Time}
    {settlement : Settlement} (settles : pool.settleExchange i j dx now = .ok (dy, settlement)) :
    ∃ fee, pool.quoteExchange i j dx now = .ok (dy, fee) := by
  obtain ⟨shape, ramped, fee, -, computed, quoted⟩ :=
    settleExchange_ramped (fun _ => ⟨precisions, scale⟩) settles
  obtain rfl : pool = ramped := Except.ok.inj ((rampedFor_of_settled settled shape now).symm.trans
    computed)
  exact ⟨fee, quoted⟩

theorem settleWithdrawal_quoted {shares : Int} {coin : Nat} {now : Time}
    {paid : Stable.Withdrawal} {settlement : Settlement}
    (settles : pool.settleWithdrawal shares coin now = .ok (paid, settlement)) :
    pool.withdrawalFor shares coin now = .ok paid := by
  simp only [settleWithdrawal, isRamping_of_settled settled, Priced.bind_eq_ok, Except.ok.injEq,
    Prod.mk.injEq] at settles
  obtain ⟨shape, -, withdrawal, computed, reserve, -, rfl, -⟩ := settles
  simp only [withdrawalFor, computed, Priced.ok_bind]

end

theorem deposit_minted {pool next : CryptoPool} {amounts : List Int} {minted : Int} {now : Time}
    (succeeds : pool.deposit amounts now = .ok (minted, next)) :
    pool.sharesFor amounts now = .ok minted := by
  simp only [deposit, Priced.bind_eq_ok] at succeeds
  obtain ⟨shape, -, deposit, computed, rest⟩ := succeeds
  have same : deposit.minted = minted := by
    split at rest
    · simp only [Priced.bind_eq_ok, Except.ok.injEq, Prod.mk.injEq] at rest
      obtain ⟨settlement, -, booked, -, same, -⟩ := rest
      exact same
    · simp only [Except.ok.injEq, Prod.mk.injEq] at rest
      exact rest.1
  simp only [sharesFor, computed, Priced.ok_bind, same]

/-- Outside a ramp each view agrees with its operation: a swap pays the quoted amount, a deposit
mints the amount worked out for it, and a withdrawal pays and charges what was worked out for it. -/
theorem views_agree_outside_ramp (pool : CryptoPool) (settled : pool.ramp.futureTime = 0)
    (precisions : ∀ precision ∈ pool.precisions, 0 < precision)
    (scale : ∀ price ∈ pool.priceScale, 0 < price) (now : Time) :
    (∀ i j dx dy next, pool.exchange i j dx now = .ok (dy, next) →
      ∃ fee, pool.quoteExchange i j dx now = .ok (dy, fee)) ∧
    (∀ amounts minted next, pool.deposit amounts now = .ok (minted, next) →
      pool.sharesFor amounts now = .ok minted) ∧
    (∀ shares coin paid next, pool.withdraw shares coin now = .ok (paid, next) →
      pool.withdrawalFor shares coin now = .ok paid) := by
  refine ⟨fun i j dx dy next succeeds => ?_, fun amounts minted next succeeds => ?_,
    fun shares coin paid next succeeds => ?_⟩
  · obtain ⟨⟨out, settlement⟩, settles, booked⟩ := Priced.bind_eq_ok.mp succeeds
    obtain ⟨next', -, same⟩ := Priced.bind_eq_ok.mp booked
    obtain ⟨rfl, -⟩ : out = dy ∧ next' = next := by simpa using same
    exact settleExchange_quoted settled precisions scale settles
  · exact deposit_minted succeeds
  · obtain ⟨⟨withdrawal, settlement⟩, settles, booked⟩ := Priced.bind_eq_ok.mp succeeds
    obtain ⟨next', -, same⟩ := Priced.bind_eq_ok.mp booked
    obtain ⟨rfl, -⟩ : withdrawal = paid ∧ next' = next := by simpa using same
    exact settleWithdrawal_quoted settled settles

/-- Two coins at a price of 1500, balanced, with some profit. -/
def samplePair : CryptoPool where
  address := ⟨300⟩
  layout := .pair
  shareToken := ⟨301⟩
  tokens := [⟨1⟩, ⟨2⟩]
  reserves := [3000000000000000000000000, 2000000000000000000000]
  precisions := [1, 1]
  supply := 75940849925635625177963
  ramp := ⟨400000 * Lanes.size + 145000000000000, 400000 * Lanes.size + 145000000000000, 0, 0⟩
  d := 6000000000000000000000000
  priceScale := [1500000000000000000000]
  priceOracle := [1520000000000000000000]
  lastPrices := [1510000000000000000000]
  lastPricesTime := 0
  maHalfTime := 600
  feeGamma := 230000000000000
  midFee := 26000000
  outFee := 45000000
  xcpProfit := 1030000000000000000
  virtualPrice := 1020000000000000000
  allowedExtraProfit := 2000000000000
  adjustmentStep := 146000000000000
  notAdjusted := false

/-- Three coins at prices of 30000 and 2000, with six, eight and eighteen decimals. -/
def sampleTriple : CryptoPool where
  address := ⟨400⟩
  layout := .triple
  shareToken := ⟨401⟩
  tokens := [⟨1⟩, ⟨2⟩, ⟨3⟩]
  reserves := [10000000000000, 33333333333, 5000000000000000000000]
  precisions := [1000000000000, 10000000000, 1]
  supply := 25042791908202573260454
  ramp := ⟨1707629 * Lanes.size + 11809167828997, 1707629 * Lanes.size + 11809167828997, 0, 0⟩
  d := 29999999999899999999654702
  priceScale := [30000000000000000000000, 2000000000000000000000]
  priceOracle := [30300000000000000000000, 2010000000000000000000]
  lastPrices := [30200000000000000000000, 2005000000000000000000]
  lastPricesTime := 0
  maHalfTime := 600
  feeGamma := 500000000000000
  midFee := 3000000
  outFee := 30000000
  xcpProfit := 1030000000000000000
  virtualPrice := 1020000000000000000
  allowedExtraProfit := 2000000000000
  adjustmentStep := 490000000000000
  notAdjusted := false

theorem views_agree_in_samples :
    (∃ fee, samplePair.quoteExchange 0 1 10000000000000000000000 600 =
      .ok (6647544726980631404, fee)) ∧
    samplePair.sharesFor [10000000000000000000000, 0] 600 = .ok 126395666918482652224 ∧
    (∃ fee, sampleTriple.quoteExchange 2 1 10000000000000000000 600 = .ok (66641229, fee)) ∧
    sampleTriple.withdrawalFor 100000000000000000000 2 600 =
      .ok ⟨59832887237739521746, 17969242472965083905⟩ := by
  have pair := views_agree_outside_ramp samplePair rfl (by decide) (by decide) 600
  have triple := views_agree_outside_ramp sampleTriple rfl (by decide) (by decide) 600
  obtain ⟨⟨_, swapped⟩, swap, rfl⟩ := Priced.map_eq_ok.mp (show
    (samplePair.exchange 0 1 10000000000000000000000 600).map Prod.fst = .ok 6647544726980631404
    by decide +kernel)
  obtain ⟨⟨_, joined⟩, join, rfl⟩ := Priced.map_eq_ok.mp (show
    (samplePair.deposit [10000000000000000000000, 0] 600).map Prod.fst = .ok 126395666918482652224
    by decide +kernel)
  obtain ⟨⟨_, swapped'⟩, swap', rfl⟩ := Priced.map_eq_ok.mp (show
    (sampleTriple.exchange 2 1 10000000000000000000 600).map Prod.fst = .ok 66641229
    by decide +kernel)
  obtain ⟨⟨_, left⟩, exit, rfl⟩ := Priced.map_eq_ok.mp (show
    (sampleTriple.withdraw 100000000000000000000 2 600).map Prod.fst =
      .ok ⟨59832887237739521746, 17969242472965083905⟩
    by decide +kernel)
  exact ⟨pair.1 0 1 _ _ swapped swap, pair.2.1 _ _ joined join, triple.1 2 1 _ _ swapped' swap',
    triple.2.2 _ 2 _ left exit⟩

end CryptoPool
end Amm
