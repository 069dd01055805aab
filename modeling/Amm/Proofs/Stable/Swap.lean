import Amm.Proofs.Reserves
import Amm.Proofs.Stable.Solvency
import Amm.Proofs.Stable.Solver

/-!
What a swap can take out of a stable pool. The balance that a swap leaves is not negative, one unit
is held back, and every rounding on the way to raw amounts is down. So the amount paid out and the
admin share of the fee together stay below a positive reserve, for a sale of any size, and a swap
whose amounts are known is always booked.
-/

namespace Amm
namespace Stable

section
variable {amount fee : Int}

theorem share_nonpos (rate : IsFee fee) (nonpos : amount ≤ 0) : share amount fee ≤ 0 := by
  rw [share, fdiv_le_iff feeUnit_pos]
  have part : fee * amount ≤ 0 := mul_nonpos_of_nonneg_of_nonpos rate.1 nonpos
  have unit := feeUnit_pos
  linarith

theorem le_share (rate : IsFee fee) (nonpos : amount ≤ 0) : amount ≤ share amount fee := by
  rw [share, le_fdiv_iff feeUnit_pos]
  have part := mul_le_mul_of_nonpos_right rate.2 nonpos
  linarith

end

/-- Of the difference between two balances a swap pays out what is not the fee, and the admin takes
a part of the fee. Together this is not more than the difference, and nothing of a negative one. -/
theorem taken_le {dy swapFee adminFee : Int} (swap : IsFee swapFee) (admin : IsFee adminFee) :
    dy - share dy swapFee + share (share dy swapFee) adminFee ≤ max dy 0 := by
  rcases le_total 0 dy with gain | loss
  · have part := share_le admin (share_nonneg swap gain)
    rw [max_eq_left gain]
    omega
  · have charged := le_share swap loss
    have part := share_nonpos admin (share_nonpos swap loss)
    rw [max_eq_right loss]
    omega

theorem scaled_getElem {balances rates xp : List Int} {j : Nat} {x rate : Int}
    (computed : scaled balances rates = .ok xp) (scaledAt : xp[j]? = some x)
    (rateAt : rates[j]? = some rate) :
    ∃ balance, balances[j]? = some balance ∧ x = (balance * rate).fdiv Fixed.one := by
  obtain ⟨-, rfl⟩ := scaled_eq_ok computed
  obtain ⟨balance, rate', balanceAt, rateAt', rfl⟩ := List.getElem?_zipWith_eq_some.mp scaledAt
  obtain rfl : rate' = rate := Option.some.inj (rateAt'.symm.trans rateAt)
  exact ⟨balance, balanceAt, rfl⟩

namespace SwapAmounts

/-- The part of the fee that leaves the pool, in units of the bought token. -/
def adminPart (amounts : SwapAmounts) (adminFee rate : Int) : Int :=
  (share amounts.scaledFee adminFee * Fixed.one).fdiv rate

/-- The amounts of a swap whose scaled balance falls by `dy + 1`, bought at a rate. -/
def ofDifference (dy swapFee rate : Int) : SwapAmounts :=
  ⟨((dy - share dy swapFee) * Fixed.one).fdiv rate, (share dy swapFee * Fixed.one).fdiv rate,
    share dy swapFee⟩

variable {dy swapFee adminFee rate reserve y : Int}

theorem ofDifference_taken_le (positive : 0 < rate) (swap : IsFee swapFee)
    (admin : IsFee adminFee) :
    (ofDifference dy swapFee rate).out + (ofDifference dy swapFee rate).adminPart adminFee rate ≤
      (max dy 0 * Fixed.one).fdiv rate := by
  refine (fdiv_add_fdiv_le positive).trans ?_
  refine fdiv_le_fdiv positive ?_
  rw [← add_mul]
  exact mul_le_mul_of_nonneg_right (taken_le swap admin) Fixed.one_pos.le

/-- What is taken out of a positive reserve is less than the reserve. -/
theorem ofDifference_lt_reserve (positive : 0 < rate) (swap : IsFee swapFee)
    (admin : IsFee adminFee) (held : 0 < reserve) (left : 0 ≤ y)
    (difference : dy = (reserve * rate).fdiv Fixed.one - y - 1) :
    (ofDifference dy swapFee rate).out + (ofDifference dy swapFee rate).adminPart adminFee rate <
      reserve := by
  refine (ofDifference_taken_le positive swap admin).trans_lt ?_
  rw [fdiv_lt_iff positive]
  rcases le_total 0 dy with gain | loss
  · rw [max_eq_left gain]
    have scaledReserve : (dy + 1) * Fixed.one ≤ reserve * rate :=
      (le_fdiv_iff Fixed.one_pos).mp (by omega)
    have unit := Fixed.one_pos
    linarith
  · rw [max_eq_right loss, zero_mul]
    exact mul_pos held positive

/-- Nothing is taken where the scaled balance does not fall. -/
theorem ofDifference_nonpos (positive : 0 < rate) (swap : IsFee swapFee) (admin : IsFee adminFee)
    (loss : dy ≤ 0) :
    (ofDifference dy swapFee rate).out ≤ 0 ∧
      (ofDifference dy swapFee rate).adminPart adminFee rate ≤ 0 := by
  have charged := le_share swap loss
  have part := share_nonpos admin (share_nonpos swap loss)
  constructor
  · rw [ofDifference, fdiv_le_iff positive]
    have paid : (dy - share dy swapFee) * Fixed.one ≤ 0 :=
      mul_nonpos_of_nonpos_of_nonneg (by omega) Fixed.one_pos.le
    linarith
  · rw [adminPart, ofDifference, fdiv_le_iff positive]
    have paid : share (share dy swapFee) adminFee * Fixed.one ≤ 0 :=
      mul_nonpos_of_nonpos_of_nonneg part Fixed.one_pos.le
    linarith

end SwapAmounts

namespace Holdings

variable {holdings : Holdings} {i j : Nat} {dx : Int} {rates : List Int} {now : Time}
  {amounts : SwapAmounts}

/-- The amounts of a swap are those of the difference between the reserve of the bought token and
the balance that keeps the invariant, both on the internal scale. -/
theorem swapAmounts_eq_ok (computed : holdings.swapAmounts i j dx rates now = .ok amounts) :
    ∃ xp balanceIn rateIn y reserve rate, scaled holdings.reserves rates = .ok xp ∧
      xp[i]? = some balanceIn ∧ rates[i]? = some rateIn ∧
      (holdings.curve now).balanceAfter i j (balanceIn + (dx * rateIn).fdiv Fixed.one) xp = .ok y ∧
      holdings.reserves[j]? = some reserve ∧ rates[j]? = some rate ∧ rate ≠ 0 ∧
      xp[j]? = some ((reserve * rate).fdiv Fixed.one) ∧
      amounts = .ofDifference ((reserve * rate).fdiv Fixed.one - y - 1) holdings.swapFee rate := by
  simp only [swapAmounts, Priced.bind_eq_ok, Priced.entry_eq_ok, Priced.bareQuotient_eq_ok,
    Except.ok.injEq] at computed
  obtain ⟨_, -, xp, scale, balanceIn, balanceInAt, rateIn, rateInAt, solver, priced, y, solved,
    balanceOut, balanceOutAt, rate, rateAt, _, ⟨nonzero, rfl⟩, _, ⟨-, rfl⟩, rfl⟩ := computed
  obtain ⟨-, rfl⟩ := solver_eq_ok.mp priced
  obtain ⟨reserve, reserveAt, rfl⟩ := scaled_getElem scale balanceOutAt rateAt
  exact ⟨xp, balanceIn, rateIn, y, reserve, rate, scale, balanceInAt, rateInAt, solved, reserveAt,
    rateAt, nonzero, balanceOutAt, rfl⟩

theorem swapAmounts_pair (computed : holdings.swapAmounts i j dx rates now = .ok amounts) :
    i ≠ j ∧ i < holdings.reserves.length ∧ j < holdings.reserves.length := by
  obtain ⟨_, pair, -⟩ := Priced.bind_eq_ok.mp computed
  simpa only [requirePair, Priced.bind_eq_ok, Priced.require_eq_ok, Bool.and_eq_true,
    decide_eq_true_eq, exists_and_left, exists_const] using pair

/-- A swap that is carried out moves two reserves by its amounts, and the admin share of the fee goes
out with the amount paid. -/
theorem exchange_trades {next : Holdings} {out : Int}
    (succeeds : holdings.exchange i j dx rates now = .ok (out, next)) :
    ∃ amounts rate, holdings.swapAmounts i j dx rates now = .ok amounts ∧ rates[j]? = some rate ∧
      out = amounts.out ∧ next = { holdings with reserves := next.reserves } ∧
      Trades holdings.reserves next.reserves i j dx
        (out + amounts.adminPart holdings.adminFee rate) := by
  simp only [exchange, Priced.bind_eq_ok, Priced.entry_eq_ok, Priced.bareQuotient_eq_ok,
    Except.ok.injEq, Prod.mk.injEq] at succeeds
  obtain ⟨amounts, computed, rate, rateAt, admin, ⟨-, part⟩, reserve, reserveAt, _, -, rfl, rfl⟩ :=
    succeeds
  obtain ⟨different, bound, -⟩ := swapAmounts_pair computed
  refine ⟨amounts, rate, computed, rateAt, rfl, rfl, ?_⟩
  rw [SwapAmounts.adminPart, part, sub_sub]
  exact trades_of_set different bound reserveAt

/-- The holdings with an amount more of token `i`, and `left` of token `j`. -/
def traded (holdings : Holdings) (i j : Nat) (amountIn left : Int) : Holdings :=
  { holdings with reserves := (holdings.reserves.modify i (· + amountIn)).set j left }

/-- A swap whose amounts are known is carried out unless it would overdraw the token bought. -/
theorem exchange_eq {reserve rate : Int}
    (computed : holdings.swapAmounts i j dx rates now = .ok amounts)
    (rateAt : rates[j]? = some rate) (nonzero : rate ≠ 0)
    (reserveAt : holdings.reserves[j]? = some reserve) :
    holdings.exchange i j dx rates now =
      if 0 ≤ reserve - amounts.out - amounts.adminPart holdings.adminFee rate then
        .ok (amounts.out, holdings.traded i j dx
          (reserve - amounts.out - amounts.adminPart holdings.adminFee rate))
      else Priced.refuse .insufficientOutput := by
  have admin : Priced.bareQuotient (share amounts.scaledFee holdings.adminFee * Fixed.one) rate =
      .ok (amounts.adminPart holdings.adminFee rate) :=
    Priced.bareQuotient_eq_ok.mpr ⟨nonzero, rfl⟩
  simp only [exchange, computed, Priced.entry_eq_ok.mpr rateAt, admin,
    Priced.entry_eq_ok.mpr reserveAt, Priced.ok_bind, Priced.require_bind, traded]

theorem swapAmounts_avoids_insufficientOutput :
    Priced.Avoids .insufficientOutput (holdings.swapAmounts i j dx rates now) := by
  have pair : Priced.Avoids .insufficientOutput (holdings.requirePair i j) :=
    .bind (.require (by decide)) fun _ => .require (by decide)
  have scale : Priced.Avoids .insufficientOutput (scaled holdings.reserves rates) := by
    unfold scaled
    split
    · exact .value _
    · exact .refuse (by decide)
  refine .bind pair fun _ => .bind scale fun xp => .bind .entry fun _ => .bind .entry fun _ => ?_
  refine .bind solver_avoids fun solver => ?_
  refine .bind Curve.balanceAfter_avoids_insufficientOutput fun y => ?_
  exact .bind .entry fun _ => .bind .entry fun _ => .bind .bareQuotient fun _ =>
    .bind .bareQuotient fun _ => .value _

/-- What a swap with the given amounts leaves of the reserve of the bought token. -/
structure Remainder (holdings : Holdings) (i j : Nat) (dx : Int) (rates : List Int) (now : Time)
    (amounts : SwapAmounts) (reserve rate : Int) : Prop where
  reserveAt : holdings.reserves[j]? = some reserve
  rateAt : rates[j]? = some rate
  /-- A positive reserve is not drained. -/
  undrained : 0 < reserve → amounts.out + amounts.adminPart holdings.adminFee rate < reserve
  /-- Without a reserve nothing is paid out. This happens only where empty balances pass the solver:
  with the offset, or in a pool of two tokens that are both missing. -/
  vacant : reserve = 0 → amounts.out ≤ 0 ∧ amounts.adminPart holdings.adminFee rate ≤ 0 ∧
    (holdings.offset = true ∨ scaled holdings.reserves rates = .ok [0, 0])
  booked : holdings.exchange i j dx rates now = .ok (amounts.out,
    { holdings with
      reserves := (holdings.reserves.modify i (· + dx)).set j
        (reserve - amounts.out - amounts.adminPart holdings.adminFee rate) })

theorem remainder_of_swapAmounts (unsigned : ∀ reserve ∈ holdings.reserves, 0 ≤ reserve)
    (admissible : holdings.Admissible rates now) (paid : 0 ≤ dx)
    (computed : holdings.swapAmounts i j dx rates now = .ok amounts) :
    ∃ reserve rate, holdings.Remainder i j dx rates now amounts reserve rate := by
  obtain ⟨xp, balanceIn, rateIn, y, reserve, rate, scale, balanceInAt, rateInAt, solved, reserveAt,
    rateAt, nonzero, balanceAt, same⟩ := swapAmounts_eq_ok computed
  have positive : 0 < rate := admissible.rates rate (List.mem_of_getElem? rateAt)
  have held : 0 ≤ reserve := unsigned reserve (List.mem_of_getElem? reserveAt)
  have balances : ∀ x ∈ xp, 0 ≤ x := scaled_nonneg unsigned admissible.rates scale
  have count : xp.length = holdings.reserves.length := scaled_length scale
  have curve : (holdings.curve now).Admissible xp.length := count ▸ admissible.curve
  have sold : 0 ≤ balanceIn + (dx * rateIn).fdiv Fixed.one := by
    have rateInPositive := admissible.rates rateIn (List.mem_of_getElem? rateInAt)
    exact add_nonneg (balances balanceIn (List.mem_of_getElem? balanceInAt))
      (Int.fdiv_nonneg (mul_nonneg paid rateInPositive.le) Fixed.one_pos.le)
  have left : 0 ≤ y := Curve.balanceAfter_nonneg curve balances sold solved
  have undrained : 0 < reserve →
      amounts.out + amounts.adminPart holdings.adminFee rate < reserve := fun present => by
    rw [same]
    exact SwapAmounts.ofDifference_lt_reserve positive admissible.swapFee admissible.adminFee
      present left rfl
  have vacant : reserve = 0 → amounts.out ≤ 0 ∧ amounts.adminPart holdings.adminFee rate ≤ 0 ∧
      (holdings.offset = true ∨ scaled holdings.reserves rates = .ok [0, 0]) := by
    rintro rfl
    rw [zero_mul, Int.zero_fdiv] at balanceAt same
    have loss : 0 - y - 1 ≤ 0 := by omega
    obtain ⟨unpaid, untaken⟩ := SwapAmounts.ofDifference_nonpos positive admissible.swapFee
      admissible.adminFee loss
    rw [← same] at unpaid untaken
    have passed := Curve.balanceAfter_vacant curve balances sold solved balanceAt
    refine ⟨unpaid, untaken, passed.imp_right fun empty => ?_⟩
    rw [scale, empty]
  have covered : 0 ≤ reserve - amounts.out - amounts.adminPart holdings.adminFee rate := by
    rcases held.eq_or_lt with missing | present
    · have none := vacant missing.symm
      omega
    · have some := undrained present
      omega
  refine ⟨reserve, rate, reserveAt, rateAt, undrained, vacant, ?_⟩
  rw [exchange_eq computed rateAt nonzero reserveAt, if_pos covered, traded]

/-- A swap never drains a pool. Whenever the amounts of a sale of any size can be worked out, less
than a positive reserve is taken and the swap is booked, and a swap is refused for none but the
causes of its amounts; that the output would exceed the reserve is never one of them. -/
theorem swaps_never_drain (holdings : Holdings) (rates : List Int) (now : Time)
    (unsigned : ∀ reserve ∈ holdings.reserves, 0 ≤ reserve)
    (admissible : holdings.Admissible rates now) (i j : Nat) (dx : Int) (paid : 0 ≤ dx) :
    (∀ amounts, holdings.swapAmounts i j dx rates now = .ok amounts →
      ∃ reserve rate, holdings.Remainder i j dx rates now amounts reserve rate) ∧
    (∀ failure, holdings.swapAmounts i j dx rates now = .error failure →
      holdings.exchange i j dx rates now = .error failure) ∧
    holdings.exchange i j dx rates now ≠ Priced.refuse .insufficientOutput := by
  have booked := fun amounts (computed : holdings.swapAmounts i j dx rates now = .ok amounts) =>
    remainder_of_swapAmounts unsigned admissible paid computed
  have failed : ∀ failure, holdings.swapAmounts i j dx rates now = .error failure →
      holdings.exchange i j dx rates now = .error failure := fun failure failing => by
    simp only [exchange, failing, Priced.error_bind]
  refine ⟨booked, failed, fun refused => ?_⟩
  cases computed : holdings.swapAmounts i j dx rates now with
  | error failure =>
      rw [failed failure computed] at refused
      obtain rfl : failure = .refused .insufficientOutput := Except.error.inj refused
      exact swapAmounts_avoids_insufficientOutput computed
  | ok amounts =>
      obtain ⟨reserve, rate, remainder⟩ := booked amounts computed
      rw [remainder.booked] at refused
      exact absurd refused (by simp [Priced.refuse])

end Holdings

/-- A sale of a million times the pool leaves something of the bought token. -/
theorem oversized_sale_leaves_reserve :
    ∃ amounts reserve rate,
      sampleHoldings.swapAmounts 0 1 1000000000000000000000000000000 [Fixed.one, Fixed.one] 600 =
        .ok amounts ∧
      sampleHoldings.Remainder 0 1 1000000000000000000000000000000 [Fixed.one, Fixed.one] 600
        amounts reserve rate := by
  obtain ⟨amounts, computed, -⟩ := Priced.map_eq_ok.mp (show
    (sampleHoldings.swapAmounts 0 1 1000000000000000000000000000000 [Fixed.one, Fixed.one] 600).map
      SwapAmounts.out = .ok 999599999999999500200000
    by decide +kernel)
  obtain ⟨reserve, rate, remainder⟩ := (Holdings.swaps_never_drain sampleHoldings
    [Fixed.one, Fixed.one] 600 sampleHoldings_sound.reserves (sampleHoldings_admissible 600) 0 1
    1000000000000000000000000000000 (by decide)).1 amounts computed
  exact ⟨amounts, reserve, rate, computed, remainder⟩

end Stable
end Amm
