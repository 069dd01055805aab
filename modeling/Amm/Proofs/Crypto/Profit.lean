import Amm.Proofs.Crypto.Booking
import Amm.Proofs.Crypto.Views
import Amm.Proofs.Rounding

/-!
The profit of a crypto pool outside a ramp. Swaps and deposits are checked before they are booked, so
they never lower it, along any run. A withdrawal switches the check off unless it is dated before the
start of 1970: it marks a ramp as ended although there was none.
-/

namespace Amm
namespace CryptoPool

open Crypto

/-- A pool outside a ramp that holds something, whose shares have a price and whose profit is not
negative. -/
structure Earning (pool : CryptoPool) : Prop where
  settled : pool.ramp.futureTime = 0
  priced : 0 < pool.virtualPrice
  profit : 0 ≤ pool.xcpProfit
  held : 0 < pool.d

namespace Settlement

/-- The value of a share at the invariant before the scale moves. -/
def unadjustedPrice (settlement : Settlement) : Priced Int := do
  let d ← settlement.unadjustedD
  shareValue d settlement.pool.supply settlement.pool.priceScale

variable {settlement : Settlement} {now : Time} {next : CryptoPool} {value : Int}

theorem unadjustedPrice_of_observe {seen : Observation}
    (valued : settlement.unadjustedPrice = .ok value)
    (observed : settlement.observe now = .ok seen) :
    shareValue seen.d settlement.pool.supply settlement.pool.priceScale = .ok value := by
  obtain ⟨-, solved, -⟩ := observe_eq_ok observed
  obtain ⟨d, solved', same⟩ := Priced.bind_eq_ok.mp valued
  obtain rfl : d = seen.d := Except.ok.inj (solved'.symm.trans solved)
  exact same

/-- What a booking does to the profit: it is scaled by the growth of the unadjusted price, which has
passed the check unless a ramp is marked. -/
theorem book_profit (priced : 0 < settlement.pool.virtualPrice)
    (books : settlement.book now = .ok next) :
    ∃ value, settlement.unadjustedPrice = .ok value ∧
      next.xcpProfit = (settlement.pool.xcpProfit * value).fdiv settlement.pool.virtualPrice ∧
      (settlement.pool.virtualPrice ≤ value ∨ settlement.pool.ramp.futureTime ≠ 0) := by
  obtain ⟨seen, profit, observed, earned, ends⟩ := book_eq_ok books
  obtain ⟨-, solved, -⟩ := observe_eq_ok observed
  obtain ⟨valued, scaled, passed⟩ := profit_eq_ok priced earned
  refine ⟨profit.virtualPrice, ?_, ?_, passed⟩
  · exact Priced.bind_eq_ok.mpr ⟨seen.d, solved, valued⟩
  · rw [ends.xcpProfit_eq, scaled]

/-- Below the stored price nothing is booked, and the cause is the loss unless reading the prices has
failed before. -/
theorem book_of_loss (priced : 0 < settlement.pool.virtualPrice)
    (settled : settlement.pool.ramp.futureTime = 0)
    (valued : settlement.unadjustedPrice = .ok value)
    (below : value < settlement.pool.virtualPrice) :
    settlement.book now = settlement.observe now >>= fun _ => Priced.refuse .loss := by
  cases observed : settlement.observe now with
  | error failure => simp only [book, observed, Priced.error_bind]
  | ok seen =>
      have lost := profit_of_loss priced (unadjustedPrice_of_observe valued observed) below settled
      simp only [book, observed, lost, Priced.ok_bind, Priced.refuse_bind]

/-- With a marked ramp every price is booked. -/
theorem book_of_marked (priced : 0 < settlement.pool.virtualPrice)
    (marked : settlement.pool.ramp.futureTime ≠ 0)
    (valued : settlement.unadjustedPrice = .ok value) :
    settlement.book now = settlement.observe now >>= fun seen =>
      settlement.record seen
        ⟨(settlement.pool.xcpProfit * value).fdiv settlement.pool.virtualPrice, value⟩ now := by
  cases observed : settlement.observe now with
  | error failure => simp only [book, observed, Priced.error_bind]
  | ok seen =>
      have earned := profit_of_value priced (unadjustedPrice_of_observe valued observed)
        (.inr marked)
      simp only [book, observed, earned, Priced.ok_bind]

/-- A booked trade of an earning pool leaves it earning, with no less profit. -/
theorem book_earning (earning : settlement.pool.Earning)
    (known : ∀ d, settlement.knownD = some d → 0 < d) (books : settlement.book now = .ok next) :
    next.Earning ∧ settlement.pool.xcpProfit ≤ next.xcpProfit := by
  have ⟨settled, priced, profitable, held⟩ := earning
  obtain ⟨value, valued, grown, passed⟩ := book_profit priced books
  have above : settlement.pool.virtualPrice ≤ value := passed.resolve_right (by simp [settled])
  have gain : settlement.pool.xcpProfit ≤ next.xcpProfit := by
    rw [grown, le_fdiv_iff priced]
    exact mul_le_mul_of_nonneg_left above profitable
  obtain ⟨seen, profit, observed, earned, ends⟩ := book_eq_ok books
  obtain ⟨-, -, passed⟩ := profit_eq_ok priced earned
  have solvedPos : 0 < seen.d := observe_d_pos known observed
  refine ⟨⟨?_, ?_, profitable.trans gain, ends.d_pos solvedPos⟩, gain⟩
  · simp [ends.ramp_eq, recorded, priced, AGammaRamp.clearMark, settled]
  · exact ends.virtualPrice_pos (priced.trans_le (passed.resolve_right (by simp [settled])))

end Settlement

/-- What is done to a pool other than to withdraw from it. -/
inductive Trade where
  | swap (i j : Nat) (dx : Int)
  | deposit (amounts : List Int)

namespace Trade

def perform (trade : Trade) (pool : CryptoPool) (now : Time) : Priced CryptoPool :=
  match trade with
  | .swap i j dx => do
    let (_, next) ← pool.exchange i j dx now
    .ok next
  | .deposit amounts => do
    let (_, next) ← pool.deposit amounts now
    .ok next

/-- A trade as it is to be booked by a pool that holds something. -/
def settle (trade : Trade) (pool : CryptoPool) (now : Time) : Priced Settlement :=
  match trade with
  | .swap i j dx => do
    let (_, settlement) ← pool.settleExchange i j dx now
    .ok settlement
  | .deposit amounts => do
    let shape ← pool.ramp.shape now
    let deposit ← pool.depositFor amounts now
    pool.settleDeposit shape amounts deposit now

variable {pool next : CryptoPool} {now : Time} {settlement : Settlement}

/-- The invariant after a deposit is positive, and the one before it if the pool held something. -/
theorem depositFor_pos {amounts : List Int} {deposit : Deposit}
    (computed : pool.depositFor amounts now = .ok deposit) :
    0 < deposit.d ∧ (0 < pool.d → 0 < deposit.oldD) := by
  simp only [depositFor, Priced.ite_bind, Priced.bind_eq_ok] at computed
  obtain ⟨_, -, shape, -, oldD, found, d, solved, rest⟩ := computed
  have positive : 0 < d := newtonD_pos solved
  have before : 0 < pool.d → 0 < oldD := fun held => by
    split at found
    · exact newtonD_pos found
    · obtain rfl := Except.ok.inj found
      exact held
  split at rest
  · simp only [Priced.bind_eq_ok, Except.ok.injEq] at rest
    obtain ⟨grown, -, _, -, fee, -, rfl⟩ := rest
    exact ⟨positive, before⟩
  · simp only [Priced.bind_eq_ok, Except.ok.injEq] at rest
    obtain ⟨mean, -, _, -, rfl⟩ := rest
    exact ⟨positive, before⟩

/-- Until it is booked a trade moves nothing but the reserves and the supply. -/
theorem settle_frame (settled : pool.ramp.futureTime = 0) (trade : Trade)
    (settles : trade.settle pool now = .ok settlement) :
    (∃ reserves supply, settlement.pool = { pool with reserves := reserves, supply := supply }) ∧
      ∀ d, settlement.knownD = some d → 0 < d := by
  cases trade with
  | swap i j dx =>
      simp only [settle, settleExchange, rampedFor_of_settled settled, Priced.ok_bind,
        Priced.bind_eq_ok, Except.ok.injEq] at settles
      obtain ⟨_, ⟨_, -, _, -, _, -, _, -, _, -, _, -, _, -, _, -, _, -, _, -, _, -, _, -, _, -, _, -,
        _, -, rfl⟩, rfl⟩ := settles
      exact ⟨⟨_, _, rfl⟩, fun d given => by simp at given⟩
  | deposit amounts =>
      simp only [settle, settleDeposit, Priced.bind_eq_ok, Except.ok.injEq] at settles
      obtain ⟨shape, -, deposit, computed, price, -, rfl⟩ := settles
      have positive := (depositFor_pos computed).1
      refine ⟨⟨deposit.balances, pool.supply + deposit.minted, ?_⟩, fun d given => ?_⟩
      · simp [received, isRamping_of_settled settled]
      · exact Option.some.inj given ▸ positive

/-- A pool that holds something performs a trade by booking what it settles. -/
theorem perform_eq_book (held : 0 < pool.d) (trade : Trade) :
    trade.perform pool now = trade.settle pool now >>= fun settlement => settlement.book now := by
  cases trade with
  | swap i j dx =>
      cases settles : pool.settleExchange i j dx now with
      | error failure => simp only [perform, settle, exchange, settles, Priced.error_bind]
      | ok result =>
          simp only [perform, settle, exchange, settles, Priced.ok_bind]
          cases result.2.book now <;> simp only [Priced.ok_bind, Priced.error_bind]
  | deposit amounts =>
      simp only [perform, settle, CryptoPool.deposit]
      cases pool.ramp.shape now with
      | error failure => simp only [Priced.error_bind]
      | ok shape =>
          cases computed : pool.depositFor amounts now with
          | error failure => simp only [Priced.ok_bind, Priced.error_bind]
          | ok deposit =>
              have holds : 0 < deposit.oldD := (depositFor_pos computed).2 held
              simp only [Priced.ok_bind, if_pos holds]
              cases pool.settleDeposit shape amounts deposit now with
              | error failure => simp only [Priced.error_bind]
              | ok settlement =>
                  simp only [Priced.ok_bind]
                  cases settlement.book now <;> simp only [Priced.ok_bind, Priced.error_bind]

theorem settle_earning (earning : pool.Earning) (trade : Trade)
    (settles : trade.settle pool now = .ok settlement) :
    settlement.pool.Earning ∧ settlement.pool.virtualPrice = pool.virtualPrice ∧
      settlement.pool.xcpProfit = pool.xcpProfit := by
  obtain ⟨⟨reserves, supply, same⟩, -⟩ := settle_frame earning.settled trade settles
  rw [same]
  exact ⟨⟨earning.settled, earning.priced, earning.profit, earning.held⟩, rfl, rfl⟩

theorem perform_earning (earning : pool.Earning) (trade : Trade)
    (succeeds : trade.perform pool now = .ok next) :
    next.Earning ∧ pool.xcpProfit ≤ next.xcpProfit := by
  rw [perform_eq_book earning.held] at succeeds
  obtain ⟨settlement, settles, books⟩ := Priced.bind_eq_ok.mp succeeds
  obtain ⟨waiting, -, profit⟩ := settle_earning earning trade settles
  have known := (settle_frame earning.settled trade settles).2
  rw [← profit]
  exact Settlement.book_earning waiting known books

theorem perform_of_loss (earning : pool.Earning) (trade : Trade)
    (settles : trade.settle pool now = .ok settlement) {value : Int}
    (valued : settlement.unadjustedPrice = .ok value) (below : value < pool.virtualPrice) :
    trade.perform pool now = settlement.observe now >>= fun _ => Priced.refuse .loss := by
  obtain ⟨waiting, price, -⟩ := settle_earning earning trade settles
  rw [← price] at below
  rw [perform_eq_book earning.held, settles, Priced.ok_bind]
  exact Settlement.book_of_loss waiting.priced waiting.settled valued below

/-- A pool after a trade. One that fails leaves it as it was. -/
def after (trade : Trade) (pool : CryptoPool) (now : Time) : CryptoPool :=
  match trade.perform pool now with
  | .ok next => next
  | .error _ => pool

theorem after_earning (earning : pool.Earning) (trade : Trade) (now : Time) :
    (trade.after pool now).Earning ∧ pool.xcpProfit ≤ (trade.after pool now).xcpProfit := by
  cases result : trade.perform pool now with
  | error failure =>
      simp only [after, result]
      exact ⟨earning, le_rfl⟩
  | ok next =>
      simp only [after, result]
      exact perform_earning earning trade result

end Trade

/-- A pool after trades at their times, one after another. -/
def replay (pool : CryptoPool) (trades : List (Trade × Time)) : CryptoPool :=
  trades.foldl (fun current (trade, now) => trade.after current now) pool

theorem replay_earning {pool : CryptoPool} (earning : pool.Earning) (trades : List (Trade × Time)) :
    (replay pool trades).Earning ∧ pool.xcpProfit ≤ (replay pool trades).xcpProfit := by
  induction trades generalizing pool with
  | nil => exact ⟨earning, le_rfl⟩
  | cons dated trades ih =>
      obtain ⟨next, gain⟩ := Trade.after_earning earning dated.1 dated.2
      obtain ⟨last, rest⟩ := ih next
      exact ⟨last, gain.trans rest⟩

/-- The profit of an earning pool never falls. A trade that succeeds keeps it and leaves the pool
earning, a trade that would leave a share below its stored price fails with the loss or before it
with what reading the prices fails with, and no point of a run has less profit than an earlier one. -/
theorem profit_never_regresses (pool : CryptoPool) (earning : pool.Earning) :
    (∀ (trade : Trade) now next, trade.perform pool now = .ok next →
      next.Earning ∧ pool.xcpProfit ≤ next.xcpProfit) ∧
    (∀ (trade : Trade) now settlement value, trade.settle pool now = .ok settlement →
      settlement.unadjustedPrice = .ok value → value < pool.virtualPrice →
      (∀ seen, settlement.observe now = .ok seen →
        trade.perform pool now = Priced.refuse .loss) ∧
      ∀ failure, settlement.observe now = .error failure →
        trade.perform pool now = .error failure) ∧
    ∀ earlier later,
      (replay pool earlier).xcpProfit ≤ (replay pool (earlier ++ later)).xcpProfit := by
  refine ⟨fun trade now next succeeds => trade.perform_earning earning succeeds, ?_, ?_⟩
  · intro trade now settlement value settles valued below
    rw [trade.perform_of_loss earning settles valued below]
    refine ⟨fun seen observed => ?_, fun failure observed => ?_⟩
    · rw [observed, Priced.ok_bind]
    · rw [observed, Priced.error_bind]
  · intro earlier later
    have middle := (replay_earning earning earlier).1
    have gain := (replay_earning middle later).2
    simpa only [replay, List.foldl_append] using gain

theorem samplePair_earning : samplePair.Earning :=
  ⟨rfl, by decide, by decide, by decide⟩

/-- The pair with more on record for a share than the pool holds. -/
def overpricedPair : CryptoPool :=
  { samplePair with virtualPrice := 2000000000000000000 }

theorem overpricedPair_earning : overpricedPair.Earning :=
  ⟨rfl, by decide, by decide, by decide⟩

theorem overpricedPair_refuses :
    samplePair.xcpProfit ≤
        (replay samplePair [(.swap 0 1 10000000000000000000000, 600)]).xcpProfit ∧
      (Trade.swap 0 1 10000000000000000000000).perform overpricedPair 600 =
        Priced.refuse .loss := by
  have gains := (profit_never_regresses samplePair samplePair_earning).2.2
  obtain ⟨-, refuses, -⟩ := profit_never_regresses overpricedPair overpricedPair_earning
  obtain ⟨settlement, settles, valued⟩ := Priced.bind_eq_ok.mp (show
    ((Trade.swap 0 1 10000000000000000000000).settle overpricedPair 600 >>=
      Settlement.unadjustedPrice) = .ok 1020004568927832241
    by decide +kernel)
  obtain ⟨settlement', settles', observed⟩ := Priced.bind_eq_ok.mp (show
    ((Trade.swap 0 1 10000000000000000000000).settle overpricedPair 600 >>= fun settlement =>
      (settlement.observe 600).map Observation.last) = .ok [1504314812567207938676]
    by decide +kernel)
  obtain rfl : settlement' = settlement := Except.ok.inj (settles'.symm.trans settles)
  obtain ⟨seen, observed, -⟩ := Priced.map_eq_ok.mp observed
  exact ⟨gains [] _, (refuses _ 600 _ _ settles valued (by decide)).1 seen observed⟩

/-- With a half time of zero the moving average is not defined, and this is the failure of a trade
that would also lose value. -/
theorem loss_behind_undefined_average :
    ¬ ∀ (pool : CryptoPool) (trade : Trade) (now : Time) (settlement : Settlement) (value : Int),
      pool.Earning → trade.settle pool now = .ok settlement →
      settlement.unadjustedPrice = .ok value → value < pool.virtualPrice →
      trade.perform pool now = Priced.refuse .loss := by
  intro refuses
  let pool := { overpricedPair with maHalfTime := 0 }
  have earning : pool.Earning := ⟨rfl, by decide, by decide, by decide⟩
  obtain ⟨settlement, settles, valued⟩ := Priced.bind_eq_ok.mp (show
    ((Trade.swap 0 1 10000000000000000000000).settle pool 600 >>=
      Settlement.unadjustedPrice) = .ok 1020004568927832241
    by decide +kernel)
  have refused := refuses pool _ 600 settlement _ earning settles valued (by decide)
  have undefined : (Trade.swap 0 1 10000000000000000000000).perform pool 600 =
      Priced.refuse .denominatorZero := by decide +kernel
  rw [undefined] at refused
  simp [Priced.refuse] at refused

end CryptoPool
end Amm
