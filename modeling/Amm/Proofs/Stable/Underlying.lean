import Amm.Pool.Metapool
import Amm.Proofs.Priced
import Amm.Proofs.Rounding

/-!
A local coin of a metapool sold for a token of its base pool: what a quote says against what the swap
pays. The quote rounds the rate of the coin down before it multiplies the amount sold, and the swap
rounds the product. Everything after that is one computation, so the two can differ by what the part
of the rate below one is worth, and by nothing else.
-/

namespace Amm

namespace Stable
namespace Holdings

theorem withdraw_paid {holdings next : Holdings} {shares : Int} {i : Nat} {rates : List Int}
    {now : Time} {paid : Withdrawal}
    (succeeds : holdings.withdraw shares i rates now = .ok (paid, next)) :
    holdings.withdrawalFor shares i rates now = .ok paid := by
  simp only [withdraw, Priced.bind_eq_ok, Except.ok.injEq, Prod.mk.injEq] at succeeds
  obtain ⟨_, computed, reserve, -, _, -, rfl, -⟩ := succeeds
  exact computed

end Holdings
end Stable

namespace BasePool

/-- A withdrawal pays what was worked out for it. -/
theorem withdraw_paid {base next : BasePool} {shares : Int} {k : Nat} {now : Time}
    {paid : Stable.Withdrawal} (succeeds : base.withdraw shares k now = .ok (paid, next)) :
    base.withdrawalFor shares k now = .ok paid := by
  cases base with
  | plain pool =>
      simp only [withdraw, PlainPool.withdraw, Priced.bind_eq_ok, Except.ok.injEq,
        Prod.mk.injEq] at succeeds
      obtain ⟨_, ⟨⟨_, holdings⟩, withdrawn, rfl⟩, rfl, -⟩ := succeeds
      exact Stable.Holdings.withdraw_paid withdrawn
  | lending pool =>
      simp only [withdraw, LendingPool.withdraw, Priced.bind_eq_ok, Except.ok.injEq,
        Prod.mk.injEq] at succeeds
      obtain ⟨_, ⟨⟨_, holdings⟩, withdrawn, rfl⟩, rfl, -⟩ := succeeds
      exact Stable.Holdings.withdraw_paid withdrawn

end BasePool

namespace Metapool

/-- The balance of a coin on the internal scale. -/
def scaledBalance (pool : Metapool) (i : Nat) (now : Time) : Priced Int := do
  let rates ← pool.rates now
  let xp ← Stable.scaled pool.holdings.reserves rates
  Priced.entry xp i

/-- What the pool pays in token `k` of its base pool once a sale has brought the scaled balance of
coin `i` to `x`. -/
def paidInBase (pool : Metapool) (i k : Nat) (x : Int) (now : Time) :
    Priced Stable.Withdrawal := do
  let rates ← pool.rates now
  let xp ← Stable.scaled pool.holdings.reserves rates
  let solver ← pool.holdings.solver now
  let y ← solver.balanceAfter i pool.baseCoin x xp
  let balance ← Priced.entry xp pool.baseCoin
  let rate ← Priced.entry rates pool.baseCoin
  let dy := balance - y - 1
  let shares ← Priced.bareQuotient ((dy - Stable.share dy pool.holdings.swapFee) * Fixed.one) rate
  pool.base.withdrawalFor shares k now

/-- What a quote leaves out of the sale of a local coin: the worth of the part of the rate below
one. -/
def uncounted (pool : Metapool) (dx : Int) : Int :=
  (dx * (pool.rateMultiplier % Fixed.one)).fdiv Fixed.one

section
variable {pool : Metapool} {dx : Int}

theorem scaledSale_eq : (dx * pool.rateMultiplier).fdiv Fixed.one =
    dx * pool.rateMultiplier.fdiv Fixed.one + pool.uncounted dx := by
  have unit := Fixed.one_pos
  have split : dx * pool.rateMultiplier = dx * (pool.rateMultiplier % Fixed.one) +
      Fixed.one * (dx * pool.rateMultiplier.fdiv Fixed.one) := by
    rw [Int.fdiv_eq_ediv_of_nonneg _ unit.le, mul_left_comm, ← mul_add, Int.emod_add_mul_ediv]
  rw [split, Int.add_mul_fdiv_left _ _ unit.ne', add_comm, uncounted]

theorem uncounted_eq_zero_iff : pool.uncounted dx = 0 ↔
    0 ≤ dx * (pool.rateMultiplier % Fixed.one) ∧
      dx * (pool.rateMultiplier % Fixed.one) < Fixed.one := by
  rw [uncounted, le_antisymm_iff, fdiv_le_iff Fixed.one_pos, le_fdiv_iff Fixed.one_pos, zero_add,
    one_mul, zero_mul, and_comm]

end

section
variable {pool next : Metapool} {i k : Nat} {dx out fee paid : Int} {now : Time}
  {rates : List Int} {found : Side} (isLocal : i < pool.baseCoin)
include isLocal

theorem side_local (looked : pool.side i = .ok found) : found = .coin i := by
  simp only [side, isLocal, if_true, Priced.bind_eq_ok, Except.ok.injEq] at looked
  obtain ⟨_, -, rfl⟩ := looked
  rfl

theorem rates_local (computed : pool.rates now = .ok rates) :
    rates[i]? = some pool.rateMultiplier := by
  obtain ⟨basePrice, -, same⟩ := Priced.bind_eq_ok.mp computed
  obtain rfl := Except.ok.inj same
  rw [List.getElem?_append_left (by simpa using isLocal), List.getElem?_replicate_of_lt isLocal]

omit isLocal in
theorem side_base (looked : pool.side (pool.underlyingIndex k) = .ok found) : found = .base k := by
  have beyond : ¬ pool.underlyingIndex k < pool.baseCoin := Nat.not_lt.mpr (Nat.le_add_right _ k)
  simp only [side, beyond, if_false, Priced.bind_eq_ok, Except.ok.injEq] at looked
  obtain ⟨_, -, rfl⟩ := looked
  rw [underlyingIndex, Nat.add_sub_cancel_left]

/-- A quote is what the pool pays for a sale at the rate without its part below one. -/
theorem quoteUnderlying_eq_ok
    (quoted : pool.quoteUnderlying i (pool.underlyingIndex k) dx now = .ok (out, fee)) :
    ∃ balance, pool.scaledBalance i now = .ok balance ∧
      pool.paidInBase i k (balance + dx * pool.rateMultiplier.fdiv Fixed.one) now =
        .ok ⟨out, fee⟩ := by
  simp only [quoteUnderlying, Priced.bind_eq_ok] at quoted
  obtain ⟨_, -, sideIn, lookedIn, sideOut, lookedOut, rates, rated, xp, scale, quoted⟩ := quoted
  obtain rfl := side_local isLocal lookedIn
  obtain rfl := side_base lookedOut
  have rateAt := Priced.entry_eq_ok.mpr (rates_local isLocal rated)
  simp only [quotedBalance, rateAt, Priced.ok_bind, Priced.bind_eq_ok, Except.ok.injEq,
    Prod.mk.injEq] at quoted
  obtain ⟨x, ⟨balance, balanceAt, rfl⟩, solver, priced, y, solved, balanceOut, balanceOutAt,
    rateOut, rateOutAt, shares, minted, withdrawal, withdrawn, rfl, rfl⟩ := quoted
  refine ⟨balance, ?_, ?_⟩
  · simp only [scaledBalance, rated, scale, balanceAt, Priced.ok_bind]
  · simp only [coinOf] at solved balanceOutAt rateOutAt
    simp only [paidInBase, rated, scale, priced, solved, balanceOutAt, rateOutAt, minted, withdrawn,
      Priced.ok_bind]

/-- A swap pays what the pool pays for a sale at the whole rate. -/
theorem exchangeUnderlying_eq_ok
    (executed : pool.exchangeUnderlying i (pool.underlyingIndex k) dx now = .ok (paid, next)) :
    ∃ balance fee, pool.scaledBalance i now = .ok balance ∧
      pool.paidInBase i k (balance + (dx * pool.rateMultiplier).fdiv Fixed.one) now =
        .ok ⟨paid, fee⟩ := by
  simp only [exchangeUnderlying, Priced.bind_eq_ok] at executed
  obtain ⟨_, -, sideIn, lookedIn, sideOut, lookedOut, executed⟩ := executed
  obtain rfl := side_local isLocal lookedIn
  obtain rfl := side_base lookedOut
  simp only [Priced.bind_eq_ok] at executed
  obtain ⟨rates, rated, xp, scale, executed⟩ := executed
  have rateAt := Priced.entry_eq_ok.mpr (rates_local isLocal rated)
  simp only [takeIn, rateAt, Priced.ok_bind, Priced.bind_eq_ok, Except.ok.injEq,
    Prod.mk.injEq] at executed
  obtain ⟨intake, ⟨balance, balanceAt, rfl⟩, solver, priced, y, solved, balanceOut, balanceOutAt,
    rateOut, rateOutAt, reserveOut, -, shares, minted, admin, -, _, -, ⟨withdrawal, base⟩,
    withdrawn, rfl, -⟩ := executed
  have worth := BasePool.withdraw_paid withdrawn
  refine ⟨balance, withdrawal.fee, ?_, ?_⟩
  · simp only [scaledBalance, rated, scale, balanceAt, Priced.ok_bind]
  · simp only [coinOf] at solved balanceOutAt rateOutAt
    simp only [paidInBase, rated, scale, priced, solved, balanceOutAt, rateOutAt, minted, worth,
      Priced.ok_bind]

end

/-- A swap of a local coin for a token of the base pool, and its quote. Both pay what the pool pays
for a sale, and the sale that the swap counts is greater by what the quote leaves out. Where that is
nothing, as for every amount at a rate that is a multiple of one, the swap pays what was quoted. -/
theorem underlying_swap_against_quote (pool next : Metapool) (i k : Nat) (dx out fee paid : Int)
    (now : Time) (isLocal : i < pool.baseCoin)
    (quoted : pool.quoteUnderlying i (pool.underlyingIndex k) dx now = .ok (out, fee))
    (executed : pool.exchangeUnderlying i (pool.underlyingIndex k) dx now = .ok (paid, next)) :
    ∃ balance x paidFee, pool.scaledBalance i now = .ok balance ∧
      x = balance + dx * pool.rateMultiplier.fdiv Fixed.one ∧
      pool.paidInBase i k x now = .ok ⟨out, fee⟩ ∧
      pool.paidInBase i k (x + pool.uncounted dx) now = .ok ⟨paid, paidFee⟩ ∧
      (pool.uncounted dx = 0 → paid = out ∧ paidFee = fee) ∧
      (pool.uncounted dx = 0 ↔ 0 ≤ dx * (pool.rateMultiplier % Fixed.one) ∧
        dx * (pool.rateMultiplier % Fixed.one) < Fixed.one) := by
  obtain ⟨balance, balanceAt, estimate⟩ := quoteUnderlying_eq_ok isLocal quoted
  obtain ⟨_, paidFee, balanceAt', payment⟩ := exchangeUnderlying_eq_ok isLocal executed
  obtain rfl := Except.ok.inj (balanceAt.symm.trans balanceAt')
  rw [scaledSale_eq, ← add_assoc] at payment
  refine ⟨balance, _, paidFee, balanceAt, rfl, estimate, payment, fun none => ?_,
    uncounted_eq_zero_iff⟩
  rw [none, add_zero, estimate] at payment
  obtain ⟨same, sameFee⟩ := Stable.Withdrawal.mk.inj (Except.ok.inj payment)
  exact ⟨same.symm, sameFee.symm⟩

/-- A base pool of three tokens with eighteen, six and six decimals. -/
def sampleBase : BasePool :=
  .plain {
    address := ⟨100⟩
    shareToken := ⟨101⟩
    tokens := [⟨1⟩, ⟨2⟩, ⟨3⟩]
    rates := [Fixed.one, 1000000000000 * Fixed.one, 1000000000000 * Fixed.one]
    holdings := {
      reserves := [93649867132724477811796755, 92440712316473, 175421309630243]
      supply := 352290453972395231054279357
      amp := .constant 2000
      precision := 1
      swapFee := 1000000
      adminFee := 5000000000
      offset := true } }

/-- A local coin with the given rate beside the share token of the sample base pool. -/
def sampleMetapool (rateMultiplier : Int) : Metapool where
  address := ⟨200⟩
  shareToken := ⟨60⟩
  tokens := [⟨50⟩, ⟨101⟩]
  rateMultiplier := rateMultiplier
  holdings := {
    reserves := [5000000000000000000000000, 4000000000000000000000000]
    supply := 9000000000000000000000000
    amp := .constant 25000
    precision := 100
    swapFee := 4000000
    adminFee := 5000000000
    offset := false }
  base := sampleBase

/-- At a rate of one the swap of a thousand tokens pays what was quoted. -/
theorem whole_rate_swap_pays_quote :
    ∃ paid next, (sampleMetapool Fixed.one).exchangeUnderlying 0 2 1000000000000000000000 600 =
      .ok (paid, next) ∧ paid = 998595843 := by
  obtain ⟨⟨paid, next⟩, executed, -⟩ := Priced.map_eq_ok.mp (show
    ((sampleMetapool Fixed.one).exchangeUnderlying 0 2 1000000000000000000000 600).map
      (fun result => result.2.holdings.supply) = .ok 9000000000000000000000000
    by decide +kernel)
  obtain ⟨_, _, _, -, -, -, -, agree, nothing⟩ := underlying_swap_against_quote
    (sampleMetapool Fixed.one) next 0 1 1000000000000000000000 998595843 55744 paid 600 (by decide)
    (by decide +kernel) executed
  exact ⟨paid, next, executed, (agree (nothing.mpr (by decide))).1⟩

/-- At a rate of one and a half the same swap pays half more than was quoted. -/
theorem broken_rate_swap_misses_quote :
    ¬ ∀ (pool next : Metapool) (i k : Nat) (dx out fee paid : Int) (now : Time),
      0 < pool.rateMultiplier → i < pool.baseCoin →
      pool.quoteUnderlying i (pool.underlyingIndex k) dx now = .ok (out, fee) →
      pool.exchangeUnderlying i (pool.underlyingIndex k) dx now = .ok (paid, next) →
      paid = out := by
  intro agree
  obtain ⟨⟨paid, next⟩, executed, pays⟩ := Priced.map_eq_ok.mp (show
    ((sampleMetapool 1500000000000000000).exchangeUnderlying 0 2 1000000000000000000000 600).map
      Prod.fst = .ok 1494921121
    by decide +kernel)
  have quoted : (sampleMetapool 1500000000000000000).quoteUnderlying 0 2 1000000000000000000000
      600 = .ok (996614642, 55633) := by
    decide +kernel
  obtain rfl : paid = 1494921121 := pays
  exact absurd (agree _ next 0 1 _ _ _ _ 600 (by decide) (by decide) quoted executed) (by decide)

end Metapool
end Amm
