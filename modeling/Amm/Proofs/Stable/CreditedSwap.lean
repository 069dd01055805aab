import Amm.Proofs.Booked
import Mathlib.Tactic.Ring

/-!
A swap that is credited as it was quoted, against the same swap carried out. Both move the same amount
in and the same amount out, but the admin part of the fee is taken from the fee in whole units of the
token where the swap is credited, and from the fee on the internal scale where it is carried out. At
rates of whole multipliers the second way takes the same or one unit more, so each way leaves what the
other leaves up to this unit, and only where nothing else is left it decides between them.
-/

namespace Amm
namespace Stable

section
variable {amount multiplier fee : Int}

/-- A share of what is left of an amount in larger units is not above the share in larger units. -/
theorem share_fdiv_le (positive : 0 < multiplier) (rate : IsFee fee) :
    share (amount.fdiv multiplier) fee ≤ (share amount fee).fdiv multiplier := by
  rw [le_fdiv_iff positive, share, share, le_fdiv_iff feeUnit_pos]
  have units : amount.fdiv multiplier * multiplier ≤ amount := (le_fdiv_iff positive).mp le_rfl
  have part : (fee * amount.fdiv multiplier).fdiv feeUnit * feeUnit ≤ fee * amount.fdiv multiplier :=
    (le_fdiv_iff feeUnit_pos).mp le_rfl
  calc (fee * amount.fdiv multiplier).fdiv feeUnit * multiplier * feeUnit
      = (fee * amount.fdiv multiplier).fdiv feeUnit * feeUnit * multiplier := by ring
    _ ≤ fee * amount.fdiv multiplier * multiplier := mul_le_mul_of_nonneg_right part positive.le
    _ = fee * (amount.fdiv multiplier * multiplier) := mul_assoc _ _ _
    _ ≤ fee * amount := mul_le_mul_of_nonneg_left units rate.1

/-- Each of the two roundings of the smaller share loses less than one unit, the first one only a part
of it, so together they lose at most one more than the rounding of the greater share. -/
theorem fdiv_share_le (positive : 0 < multiplier) (rate : IsFee fee) :
    (share amount fee).fdiv multiplier ≤ share (amount.fdiv multiplier) fee + 1 := by
  rw [fdiv_le_iff positive, share, share, fdiv_lt_iff feeUnit_pos]
  have units : amount ≤ (amount.fdiv multiplier + 1) * multiplier :=
    ((fdiv_lt_iff positive).mp (lt_add_one _)).le
  have part : fee * amount.fdiv multiplier <
      ((fee * amount.fdiv multiplier).fdiv feeUnit + 1) * feeUnit :=
    (fdiv_lt_iff feeUnit_pos).mp (lt_add_one _)
  calc fee * amount
      ≤ fee * ((amount.fdiv multiplier + 1) * multiplier) := mul_le_mul_of_nonneg_left units rate.1
    _ = (fee * amount.fdiv multiplier + fee) * multiplier := by ring
    _ < (((fee * amount.fdiv multiplier).fdiv feeUnit + 1) * feeUnit + feeUnit) * multiplier :=
        mul_lt_mul_of_pos_right (add_lt_add_of_lt_of_le part rate.2) positive
    _ = ((fee * amount.fdiv multiplier).fdiv feeUnit + 1 + 1) * multiplier * feeUnit := by ring

end

/-- At the rate of a whole multiplier the admin part of the fee on the internal scale is that of the
fee in token units, or one unit more. -/
theorem SwapAmounts.adminPart_cases {dy swapFee adminFee multiplier : Int}
    (positive : 0 < multiplier) (admin : IsFee adminFee) :
    ∃ extra : Int, (extra = 0 ∨ extra = 1) ∧
      (ofDifference dy swapFee (multiplier * Fixed.one)).adminPart adminFee
          (multiplier * Fixed.one) =
        share (ofDifference dy swapFee (multiplier * Fixed.one)).fee adminFee + extra := by
  simp only [adminPart, ofDifference, Int.mul_fdiv_mul_of_pos_left _ _ Fixed.one_pos]
  have least : share ((share dy swapFee).fdiv multiplier) adminFee ≤ _ := share_fdiv_le positive admin
  have most : _ ≤ share ((share dy swapFee).fdiv multiplier) adminFee + 1 :=
    fdiv_share_le positive admin
  exact ⟨_, by omega, (add_sub_cancel _ _).symm⟩

namespace Holdings

variable {holdings : Holdings} {i j : Nat} {amountIn amountOut fee reserve : Int}

/-- A swap between two tokens of a pool is credited unless it would overdraw the token bought. -/
theorem credit_eq (different : i ≠ j) (bound : i < holdings.reserves.length)
    (reserveAt : holdings.reserves[j]? = some reserve) :
    holdings.credit i j amountIn amountOut fee =
      if 0 ≤ reserve - amountOut - share fee holdings.adminFee then
        .ok (holdings.traded i j amountIn (reserve - amountOut - share fee holdings.adminFee))
      else Priced.refuse .invalidUpdate := by
  have boundOut : j < holdings.reserves.length := (List.getElem?_eq_some_iff.mp reserveAt).1
  have pair : holdings.requirePair i j = .ok () := by
    simp [requirePair, Priced.require, different, bound, boundOut]
  simp only [credit, pair, Priced.entry_eq_ok.mpr reserveAt, Priced.ok_bind, Priced.require_bind,
    traded]

end Holdings

theorem whole_of_ratesOf {multipliers : List Int}
    (positive : ∀ multiplier ∈ multipliers, 0 < multiplier) {rate : Int}
    (member : rate ∈ ratesOf multipliers) :
    ∃ multiplier, 0 < multiplier ∧ rate = multiplier * Fixed.one := by
  obtain ⟨multiplier, listed, rfl⟩ := List.mem_map.mp member
  exact ⟨multiplier, positive multiplier listed, rfl⟩

end Stable

namespace PlainPool

/-- In a pool without negative reserves a sale that is paid for leaves something of the token bought,
however it is booked. -/
theorem left_pos {pool : PlainPool} {i j : Nat} {dx reserve rate : Int} {now : Time}
    {amounts : Stable.SwapAmounts} (fees : pool.holdings.FeesBounded)
    (rates : ∀ rate ∈ pool.rates, 0 < rate) (unsigned : ∀ reserve ∈ pool.holdings.reserves, 0 ≤ reserve)
    (curve : (pool.holdings.curve now).Admissible pool.holdings.reserves.length) (sale : 0 ≤ dx)
    (computed : pool.holdings.swapAmounts i j dx pool.rates now = .ok amounts)
    (paid : 0 < amounts.out) (reserveAt : pool.holdings.reserves[j]? = some reserve)
    (rateAt : pool.rates[j]? = some rate) :
    0 < reserve - amounts.out - amounts.adminPart pool.holdings.adminFee rate := by
  have admissible : pool.holdings.Admissible pool.rates now :=
    ⟨curve, rates, fees.swapFee, fees.adminFee⟩
  obtain ⟨reserve', rate', remainder⟩ :=
    Stable.Holdings.remainder_of_swapAmounts unsigned admissible sale computed
  obtain rfl : reserve = reserve' := Option.some.inj (reserveAt.symm.trans remainder.reserveAt)
  obtain rfl : rate = rate' := Option.some.inj (rateAt.symm.trans remainder.rateAt)
  have held : 0 ≤ reserve := unsigned reserve (List.mem_of_getElem? reserveAt)
  rcases held.eq_or_lt with missing | present
  · have unpaid := (remainder.vacant missing.symm).1
    omega
  · have undrained := remainder.undrained present
    omega

/-- A swap that a plain pool with whole multipliers quotes, carried out and credited. Both pay the
quoted amount, add the same amount to the reserve of the token sold, leave every other reserve alone
and differ by at most one unit in the reserve of the token bought, of which the swap that is carried
out leaves less. Each is refused exactly if it would overdraw this reserve, so the swap that is
carried out is credited as well, and one that is credited alone leaves nothing. In a pool without
negative reserves and with an admissible curve a sale of an amount that is not negative is done both
ways. -/
theorem exchange_beside_credit (pool : PlainPool) (multipliers : List Int)
    (whole : pool.rates = Stable.ratesOf multipliers)
    (positive : ∀ multiplier ∈ multipliers, 0 < multiplier) (fees : pool.holdings.FeesBounded)
    (order : Order) (quote : Quote) (i j : Nat) (now later : Time)
    (sold : pool.tokens.idxOf? order.tokenIn = some i)
    (bought : pool.tokens.idxOf? order.tokenOut = some j)
    (quoted : pool.quote order now = .ok quote) :
    0 < quote.amountOut ∧ ∃ reserve left extra : Int,
      pool.holdings.reserves[j]? = some reserve ∧ (extra = 0 ∨ extra = 1) ∧
      reserve = left + extra + quote.amountOut +
        Stable.share quote.update.fee pool.holdings.adminFee ∧
      pool.holdings.exchange i j order.amountIn pool.rates now =
        (if 0 ≤ left then
          .ok (quote.amountOut, pool.holdings.traded i j order.amountIn left)
        else Priced.refuse .insufficientOutput) ∧
      pool.apply quote.update later =
        (if 0 ≤ left + extra then
          .ok { pool with holdings := pool.holdings.traded i j order.amountIn (left + extra) }
        else Priced.refuse .invalidUpdate) ∧
      ((∀ reserve ∈ pool.holdings.reserves, 0 ≤ reserve) →
        (pool.holdings.curve now).Admissible pool.holdings.reserves.length →
        0 ≤ order.amountIn → 0 < left) := by
  obtain ⟨amounts, computed, paid, same, update⟩ := quote_eq_ok sold bought quoted
  obtain ⟨different, bound, -⟩ := Stable.Holdings.swapAmounts_pair computed
  obtain ⟨_, _, _, _, reserve, rate, -, -, -, -, reserveAt, rateAt, nonzero, -, worked⟩ :=
    Stable.Holdings.swapAmounts_eq_ok computed
  have exchanged := Stable.Holdings.exchange_eq computed rateAt nonzero reserveAt
  have wholes : ∀ rate ∈ pool.rates, ∃ multiplier, 0 < multiplier ∧ rate = multiplier * Fixed.one :=
    fun rate member => Stable.whole_of_ratesOf positive (whole ▸ member)
  have rates : ∀ rate ∈ pool.rates, 0 < rate := fun rate member => by
    obtain ⟨multiplier, unsigned, rfl⟩ := wholes rate member
    exact mul_pos unsigned Fixed.one_pos
  have kept := fun unsigned curve sale =>
    left_pos fees rates unsigned curve sale computed paid reserveAt rateAt
  obtain ⟨multiplier, unsigned, rfl⟩ := wholes rate (List.mem_of_getElem? rateAt)
  obtain ⟨extra, unit, admin⟩ : ∃ extra : Int, (extra = 0 ∨ extra = 1) ∧
      amounts.adminPart pool.holdings.adminFee (multiplier * Fixed.one) =
        Stable.share amounts.fee pool.holdings.adminFee + extra := by
    rw [worked]
    exact Stable.SwapAmounts.adminPart_cases unsigned fees.adminFee
  refine ⟨same ▸ paid, reserve, _, extra, reserveAt, unit, ?_, same ▸ exchanged, ?_, kept⟩
  · have charged : quote.update.fee = amounts.fee := by rw [update]
    rw [charged, same]
    omega
  · have left : reserve - amounts.out -
        amounts.adminPart pool.holdings.adminFee (multiplier * Fixed.one) + extra =
          reserve - amounts.out - Stable.share amounts.fee pool.holdings.adminFee := by
      omega
    rw [update, apply_eq sold bought, Stable.Holdings.credit_eq different bound reserveAt, left]
    split <;> rfl

/-- Three tokens with 18, 6 and 6 decimals and an admin fee of three fifths. The fee on the swap is
700248 units, of which 420148 are taken if it is credited and 420149 if it is carried out. -/
theorem admin_part_rounded_apart :
    let pool : PlainPool := ⟨⟨100⟩, ⟨100⟩, [⟨1⟩, ⟨2⟩, ⟨3⟩], Stable.ratesOf [1, 10 ^ 12, 10 ^ 12],
      ⟨[93649867132724477811796755, 92440712316473, 175421309630243], 0, .constant 2000, 1, 1000000,
        6000000000, true⟩⟩
    let swapped (left : Int) : List Int := [93649867132724477811796755, 92447712316473, left]
    (∃ exchanged, pool.holdings.exchange 1 2 7000000000 pool.rates 600 =
      .ok (7001785077, exchanged) ∧ exchanged.reserves = swapped 175414307425017) ∧
    ∃ quote credited, pool.quote ⟨⟨2⟩, 7000000000, ⟨3⟩⟩ 600 = .ok quote ∧
      pool.apply quote.update 600 = .ok credited ∧
      credited.holdings.reserves = swapped 175414307425018 := by
  intro pool swapped
  obtain ⟨quote, quoted, shown⟩ := Priced.map_eq_ok.mp (show
    (pool.quote ⟨⟨2⟩, 7000000000, ⟨3⟩⟩ 600).map
      (fun quote => (quote.amountOut, Stable.share quote.update.fee pool.holdings.adminFee,
        (pool.holdings.exchange 1 2 7000000000 pool.rates 600).map
          (fun traded => traded.2.reserves))) =
        .ok (7001785077, 420148, .ok (swapped 175414307425017))
    by decide +kernel)
  obtain ⟨out, rest⟩ := Prod.mk.inj shown
  obtain ⟨charged, carried⟩ := Prod.mk.inj rest
  obtain ⟨-, reserve, left, extra, reserveAt, unit, parts, exchanged, credited, -⟩ :=
    exchange_beside_credit pool [1, 10 ^ 12, 10 ^ 12] rfl (by decide)
      ⟨⟨by decide, by decide⟩, ⟨by decide, by decide⟩⟩ ⟨⟨2⟩, 7000000000, ⟨3⟩⟩ quote 1 2 600 600
      (by decide) (by decide) quoted
  obtain rfl : 175421309630243 = reserve := Option.some.inj reserveAt
  have kept : 0 ≤ left := by omega
  rw [if_pos kept, out] at exchanged
  rw [if_pos (by omega)] at credited
  have reserves : (pool.holdings.traded 1 2 7000000000 left).reserves = swapped left := rfl
  have leaves : left = 175414307425017 := by
    have same := Except.ok.inj ((congrArg (Except.map fun traded => traded.2.reserves)
      exchanged).symm.trans carried)
    simpa [swapped] using reserves.symm.trans same
  obtain rfl := leaves
  obtain rfl : extra = 1 := by omega
  exact ⟨⟨_, exchanged, rfl⟩, quote, _, quoted, credited, rfl⟩

/-- With an amplification of a tenth and an empty reserve a sale of 3 units pays out 2 units, the
whole reserve of the token bought. The admin takes nothing of the fee if the swap is credited, and
one unit if it is carried out, which the reserve no longer has. -/
theorem credited_swap_not_exchanged :
    ¬ ∀ (pool : PlainPool) (multipliers : List Int) (order : Order) (quote : Quote) (i j : Nat)
      (now : Time) (credited : PlainPool), pool.rates = Stable.ratesOf multipliers →
      (∀ multiplier ∈ multipliers, 0 < multiplier) → pool.holdings.FeesBounded →
      pool.tokens.idxOf? order.tokenIn = some i → pool.tokens.idxOf? order.tokenOut = some j →
      pool.quote order now = .ok quote → pool.apply quote.update now = .ok credited →
      ∃ exchanged, pool.holdings.exchange i j order.amountIn pool.rates now =
        .ok (quote.amountOut, exchanged) := by
  intro agree
  let pool : PlainPool := ⟨⟨100⟩, ⟨100⟩, [⟨1⟩, ⟨2⟩, ⟨3⟩], Stable.ratesOf [2, 2, 2],
    ⟨[4, 2, 0], 6, .constant 10, 100, 5000000000, 7000000000, true⟩⟩
  let order : Order := ⟨⟨3⟩, 3, ⟨2⟩⟩
  obtain ⟨quote, quoted, rest⟩ := Priced.bind_eq_ok.mp (show
    (pool.quote order 600 >>= fun quote => (pool.apply quote.update 600).map fun credited =>
      credited.holdings.reserves) = .ok [4, 0, 3]
    by decide +kernel)
  obtain ⟨credited, applied, -⟩ := Priced.map_eq_ok.mp rest
  obtain ⟨exchanged, carried⟩ := agree pool [2, 2, 2] order quote 2 1 600 credited rfl (by decide)
    ⟨⟨by decide, by decide⟩, ⟨by decide, by decide⟩⟩ (by decide) (by decide) quoted applied
  have refused : pool.holdings.exchange 2 1 3 pool.rates 600 = Priced.refuse .insufficientOutput := by
    decide +kernel
  cases carried.symm.trans refused

end PlainPool
end Amm
