import Amm.Proofs.Crypto.Profit

/-!
The check of the profit when shares are burnt for one coin. A withdrawal marks a ramp as ended at and
after its future time, and zero is such a future time too. So a pool without a ramp is checked only at
times before zero, and at all others a withdrawal may lower the profit.
-/

namespace Amm
namespace CryptoPool

open Crypto Priced

variable {pool next : CryptoPool} {shape : Shape} {shares : Int} {coin : Nat} {now : Time}
  {paid : Stable.Withdrawal} {settlement : Settlement} {value : Int}

theorem singlePrice_avoids_loss {amount num den : Int} :
    Avoids .loss (pool.singlePrice coin amount num den) := by
  refine .bind (.quotient (by decide)) fun others => .bind .entry fun precision => ?_
  refine .bind .entry fun reserve => .bind (.quotient (by decide)) fun own => ?_
  dsimp only
  split
  · refine .bind (.quotient (by decide)) fun price => ?_
    split
    · exact .bind (.quotient (by decide)) fun inverse => .value _
    · exact .value _
  · exact .value _

theorem shape_avoids_loss {ramp : AGammaRamp} : Avoids .loss (ramp.shape now) := by
  unfold AGammaRamp.shape
  dsimp only
  split
  · refine .bind Time.since_avoids fun window => .bind Time.since_avoids fun elapsed => ?_
    refine .bind (.quotient (by decide)) fun ann => .bind (.quotient (by decide)) fun gamma => ?_
    exact .value _
  · exact .value _

theorem fee_avoids_loss {xp : List Int} : Avoids .loss (pool.fee xp) := by
  refine .bind (.bind reduceBy_avoids_loss fun k => ?_) fun f => .value _
  split
  · exact .quotient (by decide)
  · exact .value k

theorem settleWithdrawal_avoids_loss (settled : pool.ramp.futureTime = 0) :
    Avoids .loss (pool.settleWithdrawal shares coin now) := by
  have worked : Avoids .loss (pool.singleWithdrawal shares coin now false) := by
    refine .bind (.require (by decide)) fun _ => .bind (.require (by decide)) fun _ => ?_
    refine .bind shape_avoids_loss fun shape => .bind .entry fun price => .bind .entry fun _ => ?_
    refine .bind (.value _) fun oldD => .bind fee_avoids_loss fun rate => ?_
    refine .bind (.quotient (by decide)) fun burnt => .bind newtonY_avoids_loss fun y => ?_
    refine .bind .entry fun balance => .bind (.quotient (by decide)) fun amount => ?_
    dsimp only
    split
    · exact .bind singlePrice_avoids_loss fun trade => .value _
    · exact .bind (.value _) fun trade => .value _
  rw [settleWithdrawal, isRamping_of_settled settled]
  exact .bind shape_avoids_loss fun shape => .bind worked fun withdrawal =>
    .bind .entry fun reserve => .value _

/-- Until it is booked a withdrawal moves the reserves, the supply and the mark of the ramp, and it
sets the mark at all times but those before zero. -/
theorem settleWithdrawal_frame (settled : pool.ramp.futureTime = 0)
    (settles : pool.settleWithdrawal shares coin now = .ok (paid, settlement)) :
    settlement.pool.virtualPrice = pool.virtualPrice ∧
      settlement.pool.xcpProfit = pool.xcpProfit ∧
      (settlement.pool.ramp.futureTime = 0 ↔ now < 0) := by
  simp only [settleWithdrawal, bind_eq_ok, Except.ok.injEq, Prod.mk.injEq] at settles
  obtain ⟨_, -, withdrawal, -, reserve, -, -, rfl⟩ := settles
  refine ⟨rfl, rfl, ?_⟩
  rw [settled]
  rcases lt_or_ge now 0 with before | notBefore
  · rw [if_neg before.not_ge, settled]
    exact iff_of_true rfl before
  · rw [if_pos notBefore]
    exact iff_of_false (show (1 : Time) ≠ 0 by decide) notBefore.not_gt

/-- A withdrawal fails with the loss only at a time before zero. -/
theorem withdraw_eq_loss (earning : pool.Earning) :
    pool.withdraw shares coin now = refuse .loss ↔
      now < 0 ∧ ∃ paid settlement seen value,
        pool.settleWithdrawal shares coin now = .ok (paid, settlement) ∧
        settlement.observe now = .ok seen ∧ settlement.unadjustedPrice = .ok value ∧
        value < pool.virtualPrice := by
  rw [withdraw, Avoids.bind_eq_refuse (settleWithdrawal_avoids_loss earning.settled)]
  constructor
  · rintro ⟨⟨paid, settlement⟩, settles, lost⟩
    obtain ⟨price, -, unmarked_iff⟩ := settleWithdrawal_frame earning.settled settles
    have priced : 0 < settlement.pool.virtualPrice := by
      rw [price]
      exact earning.priced
    have books : settlement.book now = refuse .loss :=
      (Avoids.bind_eq_refuse_first fun next => .value (paid, next)).mp lost
    obtain ⟨seen, value, observed, valued, below, unmarked⟩ :=
      (Settlement.book_eq_loss priced).mp books
    obtain ⟨-, solved, -⟩ := Settlement.observe_eq_ok observed
    refine ⟨unmarked_iff.mp unmarked, paid, settlement, seen, value, settles, observed, ?_, ?_⟩
    · exact bind_eq_ok.mpr ⟨seen.d, solved, valued⟩
    · rwa [price] at below
  · rintro ⟨before, paid, settlement, seen, value, settles, observed, valued, below⟩
    obtain ⟨price, -, unmarked_iff⟩ := settleWithdrawal_frame earning.settled settles
    refine ⟨(paid, settlement), settles, ?_⟩
    have lost : settlement.book now = settlement.observe now >>= fun _ => refuse .loss := by
      rw [← price] at below
      exact Settlement.book_of_loss (price ▸ earning.priced) (unmarked_iff.mpr before) valued below
    simp only [lost, observed, ok_bind, refuse_bind]

/-- At other times a withdrawal is booked whatever the value of a share. -/
theorem withdraw_of_marked (earning : pool.Earning) (dated : 0 ≤ now)
    (settles : pool.settleWithdrawal shares coin now = .ok (paid, settlement))
    (valued : settlement.unadjustedPrice = .ok value) :
    pool.withdraw shares coin now =
      settlement.observe now >>= fun seen =>
        settlement.record seen ⟨(pool.xcpProfit * value).fdiv pool.virtualPrice, value⟩ now >>=
          fun next => .ok (paid, next) := by
  obtain ⟨price, profit, unmarked_iff⟩ := settleWithdrawal_frame earning.settled settles
  have marked : settlement.pool.ramp.futureTime ≠ 0 := fun unmarked =>
    dated.not_gt (unmarked_iff.mp unmarked)
  have books : settlement.book now = settlement.observe now >>= fun seen =>
      settlement.record seen ⟨(pool.xcpProfit * value).fdiv pool.virtualPrice, value⟩ now := by
    rw [← price, ← profit]
    exact Settlement.book_of_marked (price ▸ earning.priced) marked valued
  simp only [withdraw, settles, ok_bind, books]
  cases settlement.observe now with
  | error failure => simp only [error_bind]
  | ok seen => simp only [ok_bind]

/-- The profit after a withdrawal is the old one scaled by what has become of the value of a share. -/
theorem withdraw_profit (earning : pool.Earning)
    (succeeds : pool.withdraw shares coin now = .ok (paid, next)) :
    ∃ settlement value, pool.settleWithdrawal shares coin now = .ok (paid, settlement) ∧
      settlement.unadjustedPrice = .ok value ∧
      next.xcpProfit = (pool.xcpProfit * value).fdiv pool.virtualPrice ∧
      (value < pool.virtualPrice → 0 ≤ now) := by
  obtain ⟨settlement, settles, books⟩ := withdraw_eq_ok.mp succeeds
  obtain ⟨price, profit, unmarked_iff⟩ := settleWithdrawal_frame earning.settled settles
  obtain ⟨value, valued, scaled, passed⟩ := Settlement.book_profit (price ▸ earning.priced) books
  rw [price, profit] at scaled
  rw [price, ne_eq, unmarked_iff, not_lt] at passed
  exact ⟨settlement, value, settles, valued, scaled, fun below => passed.resolve_left below.not_ge⟩

/-- Outside a ramp a withdrawal is checked for the loss at times before zero and at no others. One
that succeeds lowers a positive profit exactly when it leaves a share below its stored price. -/
theorem withdrawal_checked_before_zero_only (pool : CryptoPool) (earning : pool.Earning)
    (shares : Int) (coin : Nat) (now : Time) :
    (pool.withdraw shares coin now = refuse .loss ↔
      now < 0 ∧ ∃ paid settlement seen value,
        pool.settleWithdrawal shares coin now = .ok (paid, settlement) ∧
        settlement.observe now = .ok seen ∧ settlement.unadjustedPrice = .ok value ∧
        value < pool.virtualPrice) ∧
    (0 ≤ now → ∀ paid settlement value,
      pool.settleWithdrawal shares coin now = .ok (paid, settlement) →
      settlement.unadjustedPrice = .ok value →
      pool.withdraw shares coin now =
        settlement.observe now >>= fun seen =>
          settlement.record seen ⟨(pool.xcpProfit * value).fdiv pool.virtualPrice, value⟩ now >>=
            fun next => .ok (paid, next)) ∧
    ∀ paid next, pool.withdraw shares coin now = .ok (paid, next) →
      ∃ settlement value, pool.settleWithdrawal shares coin now = .ok (paid, settlement) ∧
        settlement.unadjustedPrice = .ok value ∧ (value < pool.virtualPrice → 0 ≤ now) ∧
        (next.xcpProfit < pool.xcpProfit ↔ 0 < pool.xcpProfit ∧ value < pool.virtualPrice) := by
  refine ⟨withdraw_eq_loss earning, fun dated paid settlement value settles valued =>
    withdraw_of_marked earning dated settles valued, fun paid next succeeds => ?_⟩
  obtain ⟨settlement, value, settles, valued, scaled, unchecked⟩ := withdraw_profit earning succeeds
  refine ⟨settlement, value, settles, valued, unchecked, ?_⟩
  rw [scaled, fdiv_lt_iff earning.priced]
  constructor
  · intro shrinks
    have profitable : 0 < pool.xcpProfit := by
      refine lt_of_le_of_ne earning.profit fun zero => ?_
      simp [← zero] at shrinks
    exact ⟨profitable, lt_of_mul_lt_mul_left shrinks earning.profit⟩
  · intro ⟨profitable, below⟩
    exact mul_lt_mul_of_pos_left below profitable

theorem overpricedPair_loses :
    overpricedPair.Earning ∧ ∃ paid next,
      overpricedPair.withdraw 100000000000000000000 1 600 = .ok (paid, next) ∧
      next.xcpProfit < overpricedPair.xcpProfit := by
  obtain ⟨-, -, lowered⟩ := withdrawal_checked_before_zero_only overpricedPair
    overpricedPair_earning 100000000000000000000 1 600
  obtain ⟨⟨paid, next⟩, succeeds, -⟩ := map_eq_ok.mp (show
    (overpricedPair.withdraw 100000000000000000000 1 600).map (fun result => result.1.amount) =
      .ok 5260241405804253408
    by decide +kernel)
  obtain ⟨settlement, value, settles, valued, -, lowers⟩ := lowered paid next succeeds
  have evaluated : (overpricedPair.settleWithdrawal 100000000000000000000 1 600 >>=
      fun result => result.2.unadjustedPrice) = .ok 1020001748398127526 := by
    decide +kernel
  rw [settles, ok_bind, valued] at evaluated
  obtain rfl := Except.ok.inj evaluated
  exact ⟨overpricedPair_earning, paid, next, succeeds, lowers.mpr (by decide)⟩

theorem withdrawal_lowers_profit :
    ¬ ∀ (pool next : CryptoPool) (shares : Int) (coin : Nat) (now : Time) (paid : Stable.Withdrawal),
      pool.Earning → 0 ≤ shares → pool.withdraw shares coin now = .ok (paid, next) →
      pool.xcpProfit ≤ next.xcpProfit := by
  intro keeps
  obtain ⟨⟨paid, next⟩, succeeds, profit⟩ := map_eq_ok.mp (show
    (overpricedPair.withdraw 100000000000000000000 1 600).map (fun result => result.2.xcpProfit) =
      .ok 525300900425035675
    by decide +kernel)
  have kept := keeps _ _ _ _ _ _ overpricedPair_earning (by decide) succeeds
  rw [show next.xcpProfit = 525300900425035675 from profit] at kept
  exact absurd kept (by decide)

end CryptoPool
end Amm
