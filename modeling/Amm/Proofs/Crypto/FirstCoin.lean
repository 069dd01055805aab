import Amm.Proofs.Crypto.Repeg
import Mathlib.Tactic.Ring

/-!
What a withdrawal of the first coin of three does to the prices of the others. The burnt share of the
other coins is given for the amount of the first coin that is paid out beyond the burnt share of it,
and the last prices are multiplied with the ratio of the two. So a first coin that is dear makes the
others dearer, not cheaper.
-/

namespace Amm
namespace CryptoPool

open Crypto

/-- The new price is the old one multiplied with `given / gained`, up to what three quotients that
are rounded down can lose. -/
structure Multiplied (given gained old new : Int) : Prop where
  below : old * (given * Fixed.one - gained) < (new + 1) * (Fixed.one * gained)
  above : new * (Fixed.one * gained - given) ≤ old * (Fixed.one * given)
  rises : gained ≤ given → old ≤ new
  falls : given ≤ gained → new ≤ old

section
variable {given gained old new p q : Int} (positive : 0 < gained)
include positive

/-- From below each quotient is taken at its divisor. -/
theorem multiplied_below (unsigned : 0 ≤ new) (unsigned' : 0 ≤ old) (ratioPositive : 0 < p)
    (ratio : given * Fixed.one < (p + 1) * gained) (inverse : q * p ≤ Fixed.one * Fixed.one)
    (divided : old * Fixed.one < (new + 1) * q) :
    old * (given * Fixed.one - gained) < (new + 1) * (Fixed.one * gained) := by
  have scaledByRatio : old * p < (new + 1) * Fixed.one := by
    refine lt_of_mul_lt_mul_right ?_ Fixed.one_pos.le
    calc old * p * Fixed.one = old * Fixed.one * p := by ring
      _ < (new + 1) * q * p := mul_lt_mul_of_pos_right divided ratioPositive
      _ = (new + 1) * (q * p) := by ring
      _ ≤ (new + 1) * (Fixed.one * Fixed.one) := mul_le_mul_of_nonneg_left inverse (by omega)
      _ = (new + 1) * Fixed.one * Fixed.one := by ring
  calc old * (given * Fixed.one - gained) ≤ old * (p * gained) :=
        mul_le_mul_of_nonneg_left (by linarith) unsigned'
    _ = old * p * gained := by ring
    _ < (new + 1) * Fixed.one * gained := mul_lt_mul_of_pos_right scaledByRatio positive
    _ = (new + 1) * (Fixed.one * gained) := by ring

/-- From above the inverse is taken at one less than its divisor. -/
theorem multiplied_above (unsigned : 0 ≤ new) (unsigned' : 0 ≤ old) (ratioPositive : 0 < p)
    (ratio : p * gained ≤ given * Fixed.one) (inverse : Fixed.one * Fixed.one < (q + 1) * p)
    (divided : new * q ≤ old * Fixed.one) :
    new * (Fixed.one * gained - given) ≤ old * (Fixed.one * given) := by
  have scaledByRatio : new * (Fixed.one * Fixed.one - p) ≤ old * Fixed.one * p := by
    calc new * (Fixed.one * Fixed.one - p) ≤ new * (q * p) :=
          mul_le_mul_of_nonneg_left (by linarith) unsigned
      _ = new * q * p := by ring
      _ ≤ old * Fixed.one * p := mul_le_mul_of_nonneg_right divided ratioPositive.le
  refine le_of_mul_le_mul_right ?_ Fixed.one_pos
  calc new * (Fixed.one * gained - given) * Fixed.one =
        new * (Fixed.one * Fixed.one * gained - given * Fixed.one) := by ring
    _ ≤ new * (Fixed.one * Fixed.one * gained - p * gained) :=
        mul_le_mul_of_nonneg_left (by linarith) unsigned
    _ = new * (Fixed.one * Fixed.one - p) * gained := by ring
    _ ≤ old * Fixed.one * p * gained := mul_le_mul_of_nonneg_right scaledByRatio positive.le
    _ = old * Fixed.one * (p * gained) := by ring
    _ ≤ old * Fixed.one * (given * Fixed.one) :=
        mul_le_mul_of_nonneg_left ratio (mul_nonneg unsigned' Fixed.one_pos.le)
    _ = old * (Fixed.one * given) * Fixed.one := by ring

/-- The inverse of a ratio of at least one is at most one. -/
theorem inverse_le_one (ratioPositive : 0 < p) (dear : gained ≤ given)
    (ratio : (given * Fixed.one).fdiv gained = p) :
    (Fixed.one * Fixed.one).fdiv p ≤ Fixed.one := by
  have ratioHigh : Fixed.one ≤ p := by
    rw [← ratio, le_fdiv_iff positive, mul_comm]
    exact mul_le_mul_of_nonneg_right dear Fixed.one_pos.le
  rw [fdiv_le_iff ratioPositive]
  have product := mul_le_mul_of_nonneg_left ratioHigh Fixed.one_pos.le
  linarith

theorem one_le_inverse (ratioPositive : 0 < p) (cheap : given ≤ gained)
    (ratio : (given * Fixed.one).fdiv gained = p) :
    Fixed.one ≤ (Fixed.one * Fixed.one).fdiv p := by
  have ratioLow : p ≤ Fixed.one := by
    rw [← ratio, fdiv_le_iff positive]
    have product := mul_le_mul_of_nonneg_right cheap Fixed.one_pos.le
    linarith
  rw [le_fdiv_iff ratioPositive]
  exact mul_le_mul_of_nonneg_left ratioLow Fixed.one_pos.le

/-- To divide a price by the inverse of a ratio multiplies it with the ratio. -/
theorem multiplied_of_inverse (unsigned : 0 ≤ old)
    (shows : 0 < (Fixed.one * Fixed.one).fdiv ((given * Fixed.one).fdiv gained)) :
    Multiplied given gained old
      ((old * Fixed.one).fdiv ((Fixed.one * Fixed.one).fdiv ((given * Fixed.one).fdiv gained))) := by
  have square : 0 < Fixed.one * Fixed.one := mul_pos Fixed.one_pos Fixed.one_pos
  generalize ratio : (given * Fixed.one).fdiv gained = p at shows ⊢
  have ratioPositive : 0 < p := by
    by_contra nonpos
    have none := Int.fdiv_nonpos_of_nonneg_of_nonpos square.le (not_lt.mp nonpos)
    omega
  have dear := fun given => inverse_le_one positive ratioPositive given ratio
  have cheap := fun given => one_le_inverse positive ratioPositive given ratio
  generalize inverse : (Fixed.one * Fixed.one).fdiv p = q at shows dear cheap ⊢
  have newNonneg := Int.fdiv_nonneg (mul_nonneg unsigned Fixed.one_pos.le) shows.le
  constructor
  case below =>
    exact multiplied_below positive newNonneg unsigned ratioPositive
      ((fdiv_le_iff positive).mp ratio.le) ((le_fdiv_iff ratioPositive).mp inverse.ge)
      ((fdiv_le_iff shows).mp le_rfl)
  case above =>
    exact multiplied_above positive newNonneg unsigned ratioPositive
      ((le_fdiv_iff positive).mp ratio.ge) ((fdiv_le_iff ratioPositive).mp inverse.le)
      ((le_fdiv_iff shows).mp le_rfl)
  case rises =>
    intro more
    rw [le_fdiv_iff shows]
    exact mul_le_mul_of_nonneg_left (dear more) unsigned
  case falls =>
    intro less
    rw [fdiv_le_iff shows]
    have product := mul_le_mul_of_nonneg_left (cheap less) unsigned
    linarith

end

/-- A withdrawal of the first coin as a trade with the pool: what the burnt share holds of the other
coins, at the last prices, is given for the amount of the coin beyond the burnt share of it. -/
structure Bargain where
  given : Int
  gained : Int
  deriving DecidableEq, Repr

def bargain (pool : CryptoPool) (shares amount : Int) (now : Time) : Priced Bargain := do
  let shape ← pool.ramp.shape now
  let d ← if pool.ramp.isRamping then newtonD shape (pool.scaled pool.reserves) else .ok pool.d
  let burnt ← Priced.quotient (shares * d) pool.supply
  let given ← Priced.quotient (pool.othersValue 0 * burnt) d
  let precision ← Priced.entry pool.precisions 0
  let reserve ← Priced.entry pool.reserves 0
  let own ← Priced.quotient (burnt * reserve * precision) d
  .ok ⟨given, amount * precision - own⟩

/-- The price that a bargain shows: the inverse of what is given for one of the first coin. -/
def Bargain.price (bargain : Bargain) : Int :=
  (Fixed.one * Fixed.one).fdiv ((bargain.given * Fixed.one).fdiv bargain.gained)

section
variable {pool next : CryptoPool} {shares : Int} {now : Time} {paid : Stable.Withdrawal}
  {settlement : Settlement} {trade : TradePrice} (triple : pool.layout = .triple)
include triple

/-- A withdrawal of the first coin of three that shows a price shows the one of its bargain. -/
theorem settleWithdrawal_trade (settles : pool.settleWithdrawal shares 0 now = .ok (paid, settlement))
    (shows : settlement.trade = some trade) :
    ∃ bargain, pool.bargain shares paid.amount now = .ok bargain ∧ 0 < bargain.gained ∧
      trade = ⟨0, bargain.price⟩ := by
  simp only [settleWithdrawal, Priced.bind_eq_ok, Except.ok.injEq, Prod.mk.injEq] at settles
  obtain ⟨_, -, withdrawal, computed, _, -, rfl, rfl⟩ := settles
  simp only [singleWithdrawal, Priced.ite_bind, Priced.bind_eq_ok, Except.ok.injEq] at computed
  obtain ⟨_, -, _, -, shape, shaped, _, -, _, -, d, found, _, -, burnt, burns, y, -, _, -, amount, -,
    price, priced, rfl⟩ := computed
  obtain rfl : price = some trade := shows
  split at priced
  · simp only [singlePrice, Priced.bind_eq_ok] at priced
    obtain ⟨given, gives, precision, precisionAt, reserve, reserveAt, own, owns, priced⟩ := priced
    split at priced
    · rename_i gains
      simp only [if_true, Priced.bind_eq_ok, Priced.quotient_eq_ok, pricedCoin, triple,
        Except.ok.injEq, Option.some.injEq] at priced
      obtain ⟨_, ⟨-, rfl⟩, _, ⟨-, rfl⟩, rfl⟩ := priced
      refine ⟨⟨given, amount * precision - own⟩, ?_, gains, rfl⟩
      simp only [bargain, Priced.ite_bind]
      simp only [shaped, found, burns, gives, precisionAt, reserveAt, owns, Priced.ok_bind]
    · simp at priced
  · simp at priced

omit triple in
/-- The prices of a trade with the first coin are the last ones, each multiplied with the ratio of
the bargain. -/
theorem tradedPrices_multiplied {bargain : Bargain} {prices : List Int}
    (gains : 0 < bargain.gained) (shows : 0 < bargain.price)
    (unsigned : ∀ price ∈ pool.lastPrices, 0 ≤ price)
    (traded : pool.tradedPrices ⟨0, bargain.price⟩ = .ok prices) :
    List.Forall₂ (Multiplied bargain.given bargain.gained) pool.lastPrices prices := by
  have divided := (List.forall₂_and_left _ _).mpr ⟨unsigned, Priced.mapM_forall₂ traded⟩
  refine divided.imp fun old new ⟨nonneg, quotient⟩ => ?_
  obtain ⟨-, rfl⟩ := Priced.quotient_eq_ok.mp quotient
  exact multiplied_of_inverse gains nonneg shows

end

/-- A withdrawal of the first coin of three that shows a price of the coin. The last prices of the
others are multiplied with what is given for one of the coin, so no price falls if more is given than
gained and none rises if less is. A price that is not positive is not recorded. -/
theorem first_coin_withdrawal_multiplies_prices (pool next : CryptoPool) (shares : Int) (now : Time)
    (paid : Stable.Withdrawal) (triple : pool.layout = .triple) (shaped : pool.Shaped)
    (unsigned : ∀ price ∈ pool.lastPrices, 0 ≤ price)
    (succeeds : pool.withdraw shares 0 now = .ok (paid, next)) :
    ∃ settlement, pool.settleWithdrawal shares 0 now = .ok (paid, settlement) ∧
      ∀ trade, settlement.trade = some trade →
        ∃ bargain prices, pool.bargain shares paid.amount now = .ok bargain ∧
          0 < bargain.gained ∧ next.lastPrices = pool.layout.kept prices ∧
          ((∀ price ∈ prices, Lanes.Fits price) → next.lastPrices = prices) ∧
          (0 < trade.price →
            List.Forall₂ (Multiplied bargain.given bargain.gained) pool.lastPrices prices) ∧
          (trade.price ≤ 0 → ∃ d, settlement.unadjustedD = .ok d ∧
            settlement.pool.marginalPrices settlement.shape settlement.xp d = .ok prices) := by
  obtain ⟨settlement, settles, books⟩ := withdraw_eq_ok.mp succeeds
  refine ⟨settlement, settles, fun trade shows => ?_⟩
  obtain ⟨bargain, strikes, gains, rfl⟩ := settleWithdrawal_trade triple settles shows
  have settled : (Operation.withdraw shares 0).settle pool now = .ok settlement :=
    Priced.bind_eq_ok.mpr ⟨(paid, settlement), settles, rfl⟩
  obtain ⟨reserves, supply, d, ramp, frame⟩ := Operation.settle_frame _ settled
  have waits : settlement.pool.Shaped := Operation.settle_shaped _ shaped settled
  have layout : settlement.pool.layout = pool.layout := by rw [frame]
  have last : settlement.pool.lastPrices = pool.lastPrices := by rw [frame]
  obtain ⟨seen, profit, observed, -, ends⟩ := Settlement.book_eq_ok books
  obtain ⟨-, solved, priced⟩ := Settlement.observe_eq_ok observed
  have kept : next.lastPrices = pool.layout.kept seen.last := by
    rw [ends.lastPrices_eq, layout]
  have count : seen.last.length = pool.layout.coins - 1 := by
    rw [nextPrices_length waits priced, layout]
  refine ⟨bargain, seen.last, strikes, gains, kept, fun fit => ?_, fun positive => ?_,
    fun nonpos => ⟨seen.d, solved, ?_⟩⟩
  · rw [kept, Layout.kept_of_fits count fun _ => fit]
  · rw [shows, nextPrices, if_pos positive] at priced
    rw [← last] at unsigned ⊢
    exact tradedPrices_multiplied gains positive unsigned priced
  · rwa [shows, nextPrices, if_neg nonpos.not_gt] at priced

theorem sampleTriple_withdrawal :
    ∃ paid next settlement, sampleTriple.withdraw 100000000000000000000 0 600 = .ok (paid, next) ∧
      sampleTriple.settleWithdrawal 100000000000000000000 0 600 = .ok (paid, settlement) ∧
      settlement.trade = some ⟨0, 993827501644792318⟩ ∧
      sampleTriple.bargain 100000000000000000000 paid.amount 600 =
        .ok ⟨80229340004159558622455, 79734124534944485824048⟩ ∧
      next.lastPrices = [30387567208613932390241, 2017452723618242862332] := by
  obtain ⟨⟨paid, next⟩, succeeds, prices⟩ := Priced.map_eq_ok.mp (show
    (sampleTriple.withdraw 100000000000000000000 0 600).map (fun result => result.2.lastPrices) =
      .ok [30387567208613932390241, 2017452723618242862332]
    by decide +kernel)
  obtain ⟨settlement, settles, -⟩ := withdraw_eq_ok.mp succeeds
  have shown : (sampleTriple.settleWithdrawal 100000000000000000000 0 600).map
      (fun result => (result.1.amount, result.2.trade)) =
        .ok (119665774475, some ⟨0, 993827501644792318⟩) := by
    decide +kernel
  rw [settles] at shown
  obtain ⟨amount, trade⟩ := Prod.mk.inj (Except.ok.inj shown)
  have struck : sampleTriple.bargain 100000000000000000000 119665774475 600 =
      .ok ⟨80229340004159558622455, 79734124534944485824048⟩ := by
    decide +kernel
  rw [← amount] at struck
  exact ⟨paid, next, settlement, succeeds, settles, trade, struck, prices⟩

/-- More is given for the first coin than is gained of it, and both last prices rise. -/
theorem dear_first_coin_raises_prices :
    ∃ bargain paid next, sampleTriple.withdraw 100000000000000000000 0 600 = .ok (paid, next) ∧
      sampleTriple.bargain 100000000000000000000 paid.amount 600 = .ok bargain ∧
      bargain.gained < bargain.given ∧
      List.Forall₂ (· ≤ ·) sampleTriple.lastPrices next.lastPrices := by
  obtain ⟨paid, next, settlement, succeeds, settles, trade, struck, -⟩ := sampleTriple_withdrawal
  obtain ⟨_, settles', records⟩ := first_coin_withdrawal_multiplies_prices sampleTriple next
    100000000000000000000 600 paid rfl ⟨rfl, rfl, rfl⟩ (by decide) succeeds
  obtain ⟨-, rfl⟩ := Prod.mk.inj (Except.ok.inj (settles.symm.trans settles'))
  obtain ⟨_, prices, struck', -, -, fitting, multiplied, -⟩ := records _ trade
  obtain rfl := Except.ok.inj (struck.symm.trans struck')
  have bounded := multiplied (by decide)
  have fits : ∀ price ∈ prices, Lanes.Fits price := by
    obtain ⟨first, _, one, tail, rfl⟩ := List.forall₂_cons_left_iff.mp bounded
    obtain ⟨second, _, two, none, rfl⟩ := List.forall₂_cons_left_iff.mp tail
    obtain rfl := List.forall₂_nil_left_iff.mp none
    have firstAbove := one.above
    have firstBelow := one.rises (by decide)
    have secondAbove := two.above
    have secondBelow := two.rises (by decide)
    simp only [Fixed.one] at firstAbove secondAbove
    refine List.forall_mem_cons.mpr ⟨?_, List.forall_mem_singleton.mpr ?_⟩
    · rw [Lanes.Fits, Lanes.size_eq]
      omega
    · rw [Lanes.Fits, Lanes.size_eq]
      omega
  refine ⟨_, paid, next, succeeds, struck, by decide, ?_⟩
  rw [fitting fits]
  exact bounded.imp fun old new moved => moved.rises (by decide)

theorem dear_first_coin_cheapens_none :
    ¬ ∀ (pool next : CryptoPool) (shares : Int) (now : Time) (paid : Stable.Withdrawal)
      (settlement : Settlement) (trade : TradePrice) (bargain : Bargain),
      pool.layout = .triple → pool.Shaped →
      (∀ price ∈ pool.priceScale ++ pool.priceOracle ++ pool.lastPrices, 0 < price) →
      pool.withdraw shares 0 now = .ok (paid, next) →
      pool.settleWithdrawal shares 0 now = .ok (paid, settlement) →
      settlement.trade = some trade → 0 < trade.price →
      pool.bargain shares paid.amount now = .ok bargain → bargain.gained ≤ bargain.given →
      List.Forall₂ (fun old new => new ≤ old) pool.lastPrices next.lastPrices := by
  intro falls
  obtain ⟨paid, next, settlement, succeeds, settles, trade, struck, prices⟩ :=
    sampleTriple_withdrawal
  have fallen := falls sampleTriple next 100000000000000000000 600 paid settlement _ _ rfl
    ⟨rfl, rfl, rfl⟩ (by decide) succeeds settles trade (by decide) struck (by decide)
  rw [prices] at fallen
  obtain ⟨_, _, first, -, same⟩ := List.forall₂_cons_left_iff.mp fallen
  obtain ⟨rfl, -⟩ := List.cons.inj same
  exact absurd first (by decide)

end CryptoPool
end Amm
