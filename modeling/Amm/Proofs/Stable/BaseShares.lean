import Amm.Proofs.Stable.Swap
import Amm.Proofs.Stable.Underlying

/-!
The shares of a base pool that a metapool holds, along swaps of underlying tokens. Such a swap is a
swap between coins of the metapool with a deposit into the base pool before it or a withdrawal from
the base pool after it. So the shares that are minted come in and the shares that are burnt go out,
and no others leave but the admin part of the fee.
-/

namespace Amm

theorem Stable.Holdings.withdraw_supply {holdings next : Holdings} {rates : List Int} {now : Time}
    {shares : Int} {k : Nat} {paid : Withdrawal}
    (succeeds : holdings.withdraw shares k rates now = .ok (paid, next)) :
    next.supply = holdings.supply - shares := by
  obtain ⟨_, -, -, -, rfl⟩ := withdraw_eq_ok succeeds
  rfl

/-- A deposit into a lending pool stays in it as a whole. -/
theorem LendingPool.deposit_frame {pool next : LendingPool} {amounts : List Int} {minted : Int}
    {now : Time} (deposited : pool.deposit amounts now = .ok (minted, next)) :
    amounts.length = pool.tokens.length ∧
      next = { pool with holdings := { pool.holdings with
        reserves := pool.holdings.reserves.zipWith (· + ·) amounts
        supply := pool.holdings.supply + minted } } := by
  simp only [deposit, Priced.bind_eq_ok, Priced.require_eq_ok, Bool.and_eq_true,
    decide_eq_true_eq] at deposited
  obtain ⟨_, ⟨count, -⟩, d0, -, d1, -, _, -, rest⟩ := deposited
  split at rest
  · simp only [Priced.bind_eq_ok, Except.ok.injEq, Prod.mk.injEq] at rest
    obtain ⟨_, -, _, -, _, -, _, -, rfl, rfl⟩ := rest
    exact ⟨count, rfl⟩
  · simp only [Priced.ok_bind, Except.ok.injEq, Prod.mk.injEq] at rest
    obtain ⟨rfl, rfl⟩ := rest
    exact ⟨count, rfl⟩

namespace BasePool

variable {base next : BasePool} {now : Time}

theorem deposit_supply {amounts : List Int} {minted : Int}
    (succeeds : base.deposit amounts now = .ok (minted, next)) :
    next.holdings.supply = base.holdings.supply + minted := by
  cases base with
  | plain pool =>
      simp only [deposit, PlainPool.deposit, Priced.bind_eq_ok, Except.ok.injEq,
        Prod.mk.injEq] at succeeds
      obtain ⟨_, ⟨⟨minted, holdings⟩, deposited, rfl⟩, rfl, rfl⟩ := succeeds
      obtain ⟨_, -, ⟨-, -, _, -, -, rfl⟩ | ⟨-, -, rfl⟩⟩ := Stable.Holdings.deposit_eq_ok deposited
      · rfl
      · rfl
  | lending pool =>
      obtain ⟨⟨_, after⟩, deposited, same⟩ := Priced.bind_eq_ok.mp succeeds
      obtain ⟨rfl, rfl⟩ := Prod.mk.inj (Except.ok.inj same)
      obtain ⟨-, rfl⟩ := LendingPool.deposit_frame deposited
      rfl

theorem withdraw_supply {shares : Int} {k : Nat} {paid : Stable.Withdrawal}
    (succeeds : base.withdraw shares k now = .ok (paid, next)) :
    next.holdings.supply = base.holdings.supply - shares := by
  cases base with
  | plain pool =>
      simp only [withdraw, PlainPool.withdraw, Priced.bind_eq_ok, Except.ok.injEq,
        Prod.mk.injEq] at succeeds
      obtain ⟨_, ⟨⟨_, holdings⟩, withdrawn, rfl⟩, -, rfl⟩ := succeeds
      exact Stable.Holdings.withdraw_supply withdrawn
  | lending pool =>
      simp only [withdraw, LendingPool.withdraw, Priced.bind_eq_ok, Except.ok.injEq,
        Prod.mk.injEq] at succeeds
      obtain ⟨_, ⟨⟨_, holdings⟩, withdrawn, rfl⟩, -, rfl⟩ := succeeds
      exact Stable.Holdings.withdraw_supply withdrawn

end BasePool

namespace Stable
namespace Holdings

/-- A swap is carried out once each of its parts is known. -/
theorem exchange_of_parts {holdings : Holdings} {i j : Nat} {rates xp : List Int} {now : Time}
    {dx balanceIn rateIn y balanceOut rateOut reserveOut out admin : Int} {solver : Curve}
    (different : i ≠ j)
    (scale : scaled holdings.reserves rates = .ok xp)
    (balanceInAt : Priced.entry xp i = .ok balanceIn) (rateInAt : Priced.entry rates i = .ok rateIn)
    (priced : holdings.solver now = .ok solver)
    (solved : solver.balanceAfter i j (balanceIn + (dx * rateIn).fdiv Fixed.one) xp = .ok y)
    (balanceOutAt : Priced.entry xp j = .ok balanceOut)
    (rateOutAt : Priced.entry rates j = .ok rateOut)
    (reserveOutAt : Priced.entry holdings.reserves j = .ok reserveOut)
    (pays : Priced.bareQuotient (((balanceOut - y - 1) -
      share (balanceOut - y - 1) holdings.swapFee) * Fixed.one) rateOut = .ok out)
    (takes : Priced.bareQuotient (share (share (balanceOut - y - 1) holdings.swapFee)
      holdings.adminFee * Fixed.one) rateOut = .ok admin)
    (covered : 0 ≤ reserveOut - out - admin) :
    holdings.exchange i j dx rates now = .ok (out, { holdings with
      reserves := (holdings.reserves.modify i (· + dx)).set j (reserveOut - out - admin) }) := by
  have count : xp.length = holdings.reserves.length := scaled_length scale
  have boundIn : i < holdings.reserves.length :=
    count ▸ (List.getElem?_eq_some_iff.mp (Priced.entry_eq_ok.mp balanceInAt)).1
  have boundOut : j < holdings.reserves.length :=
    (List.getElem?_eq_some_iff.mp (Priced.entry_eq_ok.mp reserveOutAt)).1
  have charges : Priced.bareQuotient (share (balanceOut - y - 1) holdings.swapFee * Fixed.one)
      rateOut = .ok ((share (balanceOut - y - 1) holdings.swapFee * Fixed.one).fdiv rateOut) :=
    Priced.bareQuotient_eq_ok.mpr ⟨(Priced.bareQuotient_eq_ok.mp pays).1, rfl⟩
  simp only [exchange, swapAmounts, requirePair, Priced.require, different, boundIn, boundOut, scale,
    balanceInAt, rateInAt, priced, solved, balanceOutAt, rateOutAt, reserveOutAt, pays, charges,
    takes, covered, ne_eq, not_false_eq_true, decide_true, Bool.and_self, if_true, Priced.ok_bind]

end Holdings
end Stable

namespace Metapool

variable {pool next : Metapool} {i j : Nat} {dx paid : Int} {now : Time}

theorem side_eq_ok {side : Side} (looked : pool.side i = .ok side) :
    i < pool.baseCoin ∧ side = .coin i ∨ pool.baseCoin ≤ i ∧ side = .base (i - pool.baseCoin) := by
  simp only [Metapool.side, Priced.bind_eq_ok] at looked
  obtain ⟨_, -, found⟩ := looked
  split at found
  · rename_i isLocal
    exact .inl ⟨isLocal, (Except.ok.inj found).symm⟩
  · rename_i beyond
    exact .inr ⟨not_lt.mp beyond, (Except.ok.inj found).symm⟩

/-- What a sold token brings is counted at the rate of the coin that it comes in as. -/
theorem takeIn_eq_ok {side : Side} {rates xp : List Int} {intake : Intake}
    (taken : pool.takeIn side dx rates xp now = .ok intake) :
    ∃ balance rate, Priced.entry xp (pool.coinOf side) = .ok balance ∧
      Priced.entry rates (pool.coinOf side) = .ok rate ∧
      intake.balance = balance + (intake.amount * rate).fdiv Fixed.one := by
  cases side with
  | coin index =>
      simp only [takeIn, Priced.bind_eq_ok, Except.ok.injEq] at taken
      obtain ⟨balance, balanceAt, rate, rateAt, rfl⟩ := taken
      exact ⟨balance, rate, balanceAt, rateAt, rfl⟩
  | base index =>
      simp only [takeIn, Priced.bind_eq_ok, Except.ok.injEq] at taken
      obtain ⟨⟨minted, base⟩, -, rate, rateAt, balance, balanceAt, rfl⟩ := taken
      exact ⟨balance, rate, balanceAt, rateAt, add_comm _ _⟩

/-- A swap of underlying tokens as a swap of two coins. What the sold token brings is swapped at the
rates from before, and the bought coin is paid out or withdrawn from the base pool. -/
theorem exchangeUnderlying_parts
    (executed : pool.exchangeUnderlying i j dx now = .ok (paid, next)) :
    ∃ sideIn sideOut rates xp intake out holdings, pool.side i = .ok sideIn ∧
      pool.side j = .ok sideOut ∧ pool.coinOf sideIn ≠ pool.coinOf sideOut ∧
      pool.rates now = .ok rates ∧ pool.takeIn sideIn dx rates xp now = .ok intake ∧
      pool.holdings.exchange (pool.coinOf sideIn) (pool.coinOf sideOut) intake.amount rates now =
        .ok (out, holdings) ∧
      match sideOut with
      | .coin _ => paid = out ∧ next = { pool with holdings, base := intake.base }
      | .base c => ∃ withdrawal, intake.base.withdraw out c now = .ok (withdrawal, next.base) ∧
          paid = withdrawal.amount ∧ next = { pool with holdings, base := next.base } := by
  simp only [exchangeUnderlying, Priced.bind_eq_ok, Priced.require_eq_ok,
    decide_eq_true_eq] at executed
  obtain ⟨_, different, sideIn, lookedIn, sideOut, lookedOut, executed⟩ := executed
  split at executed
  · exact absurd executed (Priced.refuse_ne_ok _ _)
  rename_i notBoth
  simp only [Priced.bind_eq_ok] at executed
  obtain ⟨rates, rated, xp, scale, intake, taken, executed⟩ := executed
  have apart : pool.coinOf sideIn ≠ pool.coinOf sideOut := by
    rcases side_eq_ok lookedIn with ⟨isLocal, rfl⟩ | ⟨-, rfl⟩ <;>
      rcases side_eq_ok lookedOut with ⟨isLocal', rfl⟩ | ⟨-, rfl⟩
    · exact different
    · exact isLocal.ne
    · exact isLocal'.ne'
    · exact (notBoth _ _ rfl rfl).elim
  obtain ⟨solver, priced, y, solved, balanceOut, balanceOutAt, rateOut, rateOutAt, reserveOut,
    reserveOutAt, out, pays, admin, takes, _, covered, executed⟩ := executed
  obtain ⟨balanceIn, rateIn, balanceInAt, rateInAt, counted⟩ := takeIn_eq_ok taken
  rw [counted] at solved
  have swapped := Stable.Holdings.exchange_of_parts apart scale balanceInAt rateInAt priced
    solved balanceOutAt rateOutAt reserveOutAt pays takes (by simpa [Priced.require_eq_ok] using covered)
  rw [modify_set_comm apart] at executed
  refine ⟨sideIn, sideOut, rates, xp, intake, out, _, lookedIn, lookedOut, apart, rated, taken,
    swapped, ?_⟩
  cases sideOut with
  | coin index =>
      obtain ⟨rfl, rfl⟩ := Prod.mk.inj (Except.ok.inj executed)
      exact ⟨rfl, rfl⟩
  | base index =>
      simp only [Priced.bind_eq_ok, Except.ok.injEq, Prod.mk.injEq] at executed
      obtain ⟨⟨withdrawal, base⟩, withdrawn, rfl, rfl⟩ := executed
      exact ⟨withdrawal, withdrawn, rfl, rfl⟩

/-- The admin part of the fee on a swap of coin `i` for coin `j`, in units of coin `j`. -/
def adminPart (pool : Metapool) (i j : Nat) (dx : Int) (now : Time) : Priced Int := do
  let rates ← pool.rates now
  let amounts ← pool.holdings.swapAmounts i j dx rates now
  let rate ← Priced.entry rates j
  .ok (amounts.adminPart pool.holdings.adminFee rate)

/-- The coins that an underlying swap moves are swapped as coins, with the admin part of the fee on
them. -/
theorem adminPart_of_exchange {rates : List Int} {holdings : Stable.Holdings} {out : Int}
    (rated : pool.rates now = .ok rates)
    (swapped : pool.holdings.exchange i j dx rates now = .ok (out, holdings)) :
    ∃ admin, pool.adminPart i j dx now = .ok admin ∧
      Trades pool.holdings.reserves holdings.reserves i j dx (out + admin) := by
  obtain ⟨amounts, rate, computed, rateAt, rfl, -, trades⟩ :=
    Stable.Holdings.exchange_trades swapped
  refine ⟨_, ?_, trades⟩
  simp only [adminPart, rated, computed, Priced.entry_eq_ok.mpr rateAt, Priced.ok_bind]

/-- A metapool after a swap: other reserves and another base pool on the same terms and with the
same supply. -/
def Continues (pool next : Metapool) : Prop :=
  next = { pool with
    holdings := { pool.holdings with reserves := next.holdings.reserves }
    base := next.base }

theorem Continues.baseCoin_eq (continues : pool.Continues next) : next.baseCoin = pool.baseCoin := by
  rw [continues]
  rfl

theorem exchangeUnderlying_continues
    (executed : pool.exchangeUnderlying i j dx now = .ok (paid, next)) : pool.Continues next := by
  obtain ⟨sideIn, sideOut, rates, xp, intake, out, holdings, -, -, -, -, -, swapped, ends⟩ :=
    exchangeUnderlying_parts executed
  obtain ⟨_, _, -, -, -, frame, -⟩ := Stable.Holdings.exchange_trades swapped
  cases sideOut with
  | coin index =>
      obtain ⟨-, rfl⟩ := ends
      rw [Continues, ← frame]
  | base index =>
      obtain ⟨_, -, -, same⟩ := ends
      have held : next.holdings = holdings := by rw [same]
      rw [Continues, held, ← frame]
      exact same

/-- The shares of the base pool that the pool holds. -/
def baseShares (pool : Metapool) : Int :=
  pool.holdings.reserves.getD pool.baseCoin 0

theorem Continues.baseShares_eq (continues : pool.Continues next) :
    next.baseShares = next.holdings.reserves.getD pool.baseCoin 0 := by
  rw [baseShares, continues.baseCoin_eq]

/-- A sold base token is deposited, and the shares minted for it are swapped for coin `j`. -/
theorem exchangeUnderlying_sale (sold : pool.baseCoin ≤ i)
    (executed : pool.exchangeUnderlying i j dx now = .ok (paid, next)) :
    ∃ minted admin, pool.base.deposit (pool.baseAmounts (i - pool.baseCoin) dx) now =
        .ok (minted, next.base) ∧
      pool.adminPart pool.baseCoin j minted now = .ok admin ∧
      next.base.holdings.supply = pool.base.holdings.supply + minted ∧
      next.baseShares = pool.baseShares + minted ∧
      Trades pool.holdings.reserves next.holdings.reserves pool.baseCoin j minted (paid + admin) := by
  have continues := exchangeUnderlying_continues executed
  obtain ⟨sideIn, sideOut, rates, xp, intake, out, holdings, lookedIn, lookedOut, apart, rated, taken,
    swapped, ends⟩ := exchangeUnderlying_parts executed
  obtain ⟨isLocal, -⟩ | ⟨-, rfl⟩ := side_eq_ok lookedIn
  · omega
  obtain ⟨-, rfl⟩ | ⟨-, rfl⟩ := side_eq_ok lookedOut
  · obtain ⟨rfl, rfl⟩ := ends
    simp only [takeIn, Priced.bind_eq_ok, Except.ok.injEq] at taken
    obtain ⟨⟨minted, base⟩, deposited, _, -, _, -, rfl⟩ := taken
    obtain ⟨admin, charged, trades⟩ := adminPart_of_exchange rated swapped
    have held := continues.baseShares_eq.trans trades.getD_input
    exact ⟨minted, admin, deposited, charged, BasePool.deposit_supply deposited, held, trades⟩
  · exact absurd rfl apart

/-- For a bought base token the pool swaps coin `i` for base shares and burns them. -/
theorem exchangeUnderlying_purchase (bought : pool.baseCoin ≤ j)
    (executed : pool.exchangeUnderlying i j dx now = .ok (paid, next)) :
    ∃ shares fee admin, pool.base.withdraw shares (j - pool.baseCoin) now =
        .ok (⟨paid, fee⟩, next.base) ∧
      pool.adminPart i pool.baseCoin dx now = .ok admin ∧
      next.base.holdings.supply = pool.base.holdings.supply - shares ∧
      next.baseShares = pool.baseShares - (shares + admin) ∧
      Trades pool.holdings.reserves next.holdings.reserves i pool.baseCoin dx (shares + admin) := by
  have continues := exchangeUnderlying_continues executed
  obtain ⟨sideIn, sideOut, rates, xp, intake, out, holdings, lookedIn, lookedOut, apart, rated, taken,
    swapped, ends⟩ := exchangeUnderlying_parts executed
  obtain ⟨isLocal, -⟩ | ⟨-, rfl⟩ := side_eq_ok lookedOut
  · omega
  obtain ⟨-, rfl⟩ | ⟨-, rfl⟩ := side_eq_ok lookedIn
  · obtain ⟨⟨amount, fee⟩, withdrawn, rfl, same⟩ := ends
    simp only [takeIn, Priced.bind_eq_ok, Except.ok.injEq] at taken
    obtain ⟨_, -, _, -, rfl⟩ := taken
    obtain ⟨admin, charged, trades⟩ := adminPart_of_exchange rated swapped
    have moved : next.holdings = holdings := by rw [same]
    rw [← moved] at trades
    have held := continues.baseShares_eq.trans trades.getD_output
    exact ⟨out, fee, admin, withdrawn, charged, BasePool.withdraw_supply withdrawn, held, trades⟩
  · exact absurd rfl apart

/-- A swap of two local coins leaves the base pool as it is. -/
theorem exchangeUnderlying_local (isLocalIn : i < pool.baseCoin) (isLocalOut : j < pool.baseCoin)
    (executed : pool.exchangeUnderlying i j dx now = .ok (paid, next)) :
    next.base = pool.base ∧
      ∃ admin, Trades pool.holdings.reserves next.holdings.reserves i j dx (paid + admin) := by
  obtain ⟨sideIn, sideOut, rates, xp, intake, out, holdings, lookedIn, lookedOut, -, rated, taken,
    swapped, ends⟩ := exchangeUnderlying_parts executed
  obtain rfl := side_local isLocalIn lookedIn
  obtain rfl := side_local isLocalOut lookedOut
  obtain ⟨rfl, rfl⟩ := ends
  simp only [takeIn, Priced.bind_eq_ok, Except.ok.injEq] at taken
  obtain ⟨_, -, _, -, rfl⟩ := taken
  obtain ⟨admin, -, trades⟩ := adminPart_of_exchange rated swapped
  exact ⟨rfl, admin, trades⟩

/-- The pool after a swap of underlying tokens. One that fails leaves it as it was. -/
def afterUnderlying (pool : Metapool) (i j : Nat) (dx : Int) (now : Time) : Metapool :=
  match pool.exchangeUnderlying i j dx now with
  | .ok (_, next) => next
  | .error _ => pool

section
variable (pool : Metapool) (i j : Nat) (dx : Int) (now : Time)

/-- In a swap of underlying tokens the supply of the base pool and the shares of it that the
metapool holds move together. For a base token sold both grow by the shares minted. For one bought
both fall by the shares burnt, and the admin part of the fee leaves the metapool as well. Beside
these shares the swap moves the reserve of one local coin, and a swap that fails moves nothing. -/
theorem base_shares_move_together :
    (∀ paid next, pool.exchangeUnderlying i j dx now = .ok (paid, next) →
      (pool.baseCoin ≤ i → ∃ minted admin,
        pool.base.deposit (pool.baseAmounts (i - pool.baseCoin) dx) now = .ok (minted, next.base) ∧
        pool.adminPart pool.baseCoin j minted now = .ok admin ∧
        next.base.holdings.supply = pool.base.holdings.supply + minted ∧
        next.baseShares = pool.baseShares + minted ∧
        Trades pool.holdings.reserves next.holdings.reserves pool.baseCoin j minted
          (paid + admin)) ∧
      (pool.baseCoin ≤ j → ∃ shares fee admin,
        pool.base.withdraw shares (j - pool.baseCoin) now = .ok (⟨paid, fee⟩, next.base) ∧
        pool.adminPart i pool.baseCoin dx now = .ok admin ∧
        next.base.holdings.supply = pool.base.holdings.supply - shares ∧
        next.base.holdings.supply - pool.base.holdings.supply =
          next.baseShares - pool.baseShares + admin ∧
        Trades pool.holdings.reserves next.holdings.reserves i pool.baseCoin dx (shares + admin)) ∧
      pool.Continues next) ∧
    ∀ failure, pool.exchangeUnderlying i j dx now = .error failure →
      pool.afterUnderlying i j dx now = pool := by
  refine ⟨fun paid next executed => ⟨fun sold => exchangeUnderlying_sale sold executed,
    fun bought => ?_, exchangeUnderlying_continues executed⟩, fun failure failed => ?_⟩
  · obtain ⟨shares, fee, admin, withdrawn, charged, burnt, held, trades⟩ :=
      exchangeUnderlying_purchase bought executed
    exact ⟨shares, fee, admin, withdrawn, charged, burnt, by omega, trades⟩
  · simp only [afterUnderlying, failed]

end

/-- The sample metapool without its local coin. -/
def oneSidedMetapool : Metapool :=
  let pool := sampleMetapool Fixed.one
  { pool with holdings := { pool.holdings with reserves := [0, 4000000000000000000000000] } }

/-- A base token sold for the local coin, the local coin sold for another base token, and a sale for
a local coin that is missing. The last one fails after the deposit into the base pool would have
gone through. -/
theorem base_shares_move_in_samples :
    (∃ next, (sampleMetapool Fixed.one).exchangeUnderlying 1 0 1000000000000000000000 600 =
        .ok (1000482162200229422441, next) ∧
      next.base.holdings.supply = 352290453972395231054279357 + 974598749382175058711 ∧
      next.baseShares = 4000000000000000000000000 + 974598749382175058711) ∧
    (∃ next, (sampleMetapool Fixed.one).exchangeUnderlying 0 2 1000000000000000000000 600 =
        .ok (998595843, next) ∧
      next.base.holdings.supply - 352290453972395231054279357 =
        next.baseShares - 4000000000000000000000000 + 194747520907611630) ∧
    (∃ deposited, oneSidedMetapool.base.deposit (oneSidedMetapool.baseAmounts 0
        1000000000000000000000) 600 = .ok deposited) ∧
    oneSidedMetapool.afterUnderlying 1 0 1000000000000000000000 600 = oneSidedMetapool := by
  obtain ⟨⟨_, sold⟩, sale, rfl⟩ := Priced.map_eq_ok.mp (show
    ((sampleMetapool Fixed.one).exchangeUnderlying 1 0 1000000000000000000000 600).map Prod.fst =
      .ok 1000482162200229422441
    by decide +kernel)
  obtain ⟨⟨_, bought⟩, purchase, rfl⟩ := Priced.map_eq_ok.mp (show
    ((sampleMetapool Fixed.one).exchangeUnderlying 0 2 1000000000000000000000 600).map Prod.fst =
      .ok 998595843
    by decide +kernel)
  obtain ⟨deposited, deposits, minted⟩ := Priced.map_eq_ok.mp (show
    ((sampleMetapool Fixed.one).base.deposit ((sampleMetapool Fixed.one).baseAmounts 0
      1000000000000000000000) 600).map Prod.fst = .ok 974598749382175058711
    by decide +kernel)
  refine ⟨⟨sold, sale, ?_⟩, ⟨bought, purchase, ?_⟩, ⟨deposited, deposits⟩, ?_⟩
  · obtain ⟨minted', _, deposits', -, issued, held, -⟩ := ((base_shares_move_together
      (sampleMetapool Fixed.one) 1 0 1000000000000000000000 600).1 _ sold sale).1 (by decide)
    obtain rfl : deposited = (minted', sold.base) := Except.ok.inj (deposits.symm.trans deposits')
    obtain rfl : minted' = 974598749382175058711 := minted
    exact ⟨issued, held⟩
  · obtain ⟨_, _, admin, -, charged, -, moved, -⟩ := ((base_shares_move_together
      (sampleMetapool Fixed.one) 0 2 1000000000000000000000 600).1 _ bought purchase).2.1
      (by decide)
    have part : (sampleMetapool Fixed.one).adminPart 0 1 1000000000000000000000 600 =
        .ok 194747520907611630 := by decide +kernel
    obtain rfl : admin = 194747520907611630 := Except.ok.inj (charged.symm.trans part)
    exact moved
  · have failed : oneSidedMetapool.exchangeUnderlying 1 0 1000000000000000000000 600 =
        Priced.refuse .zero := by decide +kernel
    exact (base_shares_move_together oneSidedMetapool 1 0 1000000000000000000000 600).2 _ failed

section
variable (pool : Metapool) (i j : Nat) (dx : Int) (now : Time)

/-- The shares of the base pool in other hands. -/
def outsideShares : Int :=
  pool.base.holdings.supply - pool.baseShares

/-- The base shares that a swap of underlying tokens pays to the admin. -/
def adminTaken : Int :=
  if pool.baseCoin ≤ j then
    match pool.exchangeUnderlying i j dx now, pool.adminPart i pool.baseCoin dx now with
    | .ok _, .ok admin => admin
    | _, _ => 0
  else 0

theorem afterUnderlying_outsideShares :
    (pool.afterUnderlying i j dx now).outsideShares =
      pool.outsideShares + pool.adminTaken i j dx now := by
  cases executed : pool.exchangeUnderlying i j dx now with
  | error failure => simp only [afterUnderlying, adminTaken, executed, ite_self, add_zero]
  | ok result =>
      obtain ⟨paid, next⟩ := result
      simp only [afterUnderlying, adminTaken, executed, outsideShares]
      rcases le_or_gt pool.baseCoin j with bought | isLocalOut
      · obtain ⟨shares, _, admin, -, charged, burnt, held, -⟩ :=
          exchangeUnderlying_purchase bought executed
        simp only [charged, if_pos bought]
        omega
      · rw [if_neg (not_le.mpr isLocalOut)]
        rcases le_or_gt pool.baseCoin i with sold | isLocalIn
        · obtain ⟨minted, _, -, -, issued, held, -⟩ := exchangeUnderlying_sale sold executed
          omega
        · obtain ⟨same, admin, trades⟩ := exchangeUnderlying_local isLocalIn isLocalOut executed
          have continues := exchangeUnderlying_continues executed
          have held : next.baseShares = pool.baseShares :=
            continues.baseShares_eq.trans (trades.getD_others isLocalIn.ne' isLocalOut.ne')
          rw [same]
          omega

end

/-- A pool after swaps of underlying tokens at their times, one after another. -/
def replayUnderlying (pool : Metapool) (swaps : List (Nat × Nat × Int × Time)) : Metapool :=
  swaps.foldl (fun current (i, j, dx, now) => current.afterUnderlying i j dx now) pool

/-- The base shares that a run of swaps pays to the admin. -/
def adminTotal (pool : Metapool) : List (Nat × Nat × Int × Time) → Int
  | [] => 0
  | (i, j, dx, now) :: later =>
    pool.adminTaken i j dx now + (pool.afterUnderlying i j dx now).adminTotal later

/-- Along a run of swaps the base shares in other hands grow by what the admin was paid in them. -/
theorem replayUnderlying_outsideShares (pool : Metapool) (swaps : List (Nat × Nat × Int × Time)) :
    (replayUnderlying pool swaps).outsideShares = pool.outsideShares + pool.adminTotal swaps := by
  induction swaps generalizing pool with
  | nil => exact (add_zero _).symm
  | cons swap later ih =>
      obtain ⟨i, j, dx, now⟩ := swap
      have step := pool.afterUnderlying_outsideShares i j dx now
      have run := ih (pool.afterUnderlying i j dx now)
      simp only [replayUnderlying, List.foldl_cons, adminTotal] at run ⊢
      omega

end Metapool
end Amm
