import Amm.Proofs.Stable.SumBound

/-!
What pools of two tokens with a fixed amplification pay out. The balance solved for the token bought is
not negative, and one unit is taken off before what is left is paid, so that a swap pays less than the
reserve, of an empty reserve less than nothing. Two checks of the pool can therefore never fail: that a
quote stays below the reserve, and that a burn of no more than all shares leaves no negative reserve.
-/

namespace Amm

namespace SyncSwap

variable {a x x0 x1 d next y : Int}

theorem invariantStep_nonneg (amplified : 0 < a) (unsigned0 : 0 ≤ x0) (unsigned1 : 0 ≤ x1)
    (start : 0 ≤ d) (step : invariantStep a x0 x1 (x0 + x1) d = .ok next) : 0 ≤ next := by
  simp only [invariantStep, Priced.bind_eq_ok, Priced.quotient_eq_ok] at step
  obtain ⟨_, ⟨-, rfl⟩, _, ⟨-, rfl⟩, -, rfl⟩ := step
  have factor : 0 ≤ a * 2 - 1 := by omega
  have product := pairTerm_nonneg unsigned0 unsigned1 start
  exact Int.fdiv_nonneg (by positivity) (by positivity)

theorem invariant_nonneg (amplified : 0 < a) (unsigned0 : 0 ≤ x0) (unsigned1 : 0 ≤ x1)
    (found : SyncSwap.invariant a x0 x1 = .ok d) : 0 ≤ d := by
  unfold SyncSwap.invariant at found
  dsimp only at found
  split at found
  · exact (Except.ok.inj found).le
  · exact Newton.settle_preserves (0 ≤ ·)
      (fun _ _ holds step => invariantStep_nonneg amplified unsigned0 unsigned1 holds step)
      (add_nonneg unsigned0 unsigned1) found

/-- The solver is the one of a stable curve, which stays right of the point where its quadratic turns. -/
theorem balanceFor_nonneg (amplified : 0 < a) (unsigned : 0 ≤ x) (start : 0 ≤ d)
    (solved : balanceFor a x d = .ok y) : 0 ≤ y := by
  obtain ⟨_, -, completed⟩ := Priced.bind_eq_ok.mp ((balanceFor_agrees a x d 0 y).mp solved)
  have admissible : (curve a).Admissible 2 := ⟨le_rfl, show 1 ≤ a * 2 by omega⟩
  exact Stable.Curve.solve_nonneg admissible (by decide) start (by simpa using unsigned) completed

section
open Priced

/-! The solvers have causes of their own for what they refuse. Shares that are missing are none of
them. -/

theorem invariant_avoids_withdrawMoreThanAvailable :
    Avoids .withdrawMoreThanAvailable (SyncSwap.invariant a x0 x1) := by
  unfold SyncSwap.invariant
  dsimp only
  split
  · exact .value 0
  · refine Newton.settle_avoids (fun _ => ?_) (by decide) _ _
    exact .bind (.quotient (by decide)) fun _ => .bind (.quotient (by decide)) fun _ =>
      .quotient (by decide)

theorem balanceFor_avoids_withdrawMoreThanAvailable :
    Avoids .withdrawMoreThanAvailable (balanceFor a x d) := by
  have coefficients : Avoids .withdrawMoreThanAvailable (coefficients a x d) :=
    .bind (.quotient (by decide)) fun _ => .bind (.quotient (by decide)) fun _ =>
      .bind (.quotient (by decide)) fun _ => .value _
  exact .bind coefficients fun (b, c) =>
    Newton.settle_avoids (fun _ => .quotient (by decide)) (by decide) _ _

end

end SyncSwap

namespace SyncSwapPool

variable {pool : SyncSwapPool}

/-- A quote of which nothing is asked but that it pays something. -/
def uncheckedQuote (pool : SyncSwapPool) (order : Order) : Priced Quote := do
  let (i, j) ← pool.indices order.tokenIn order.tokenOut
  let (out, fee) ← pool.amountOut order.amountIn (i = 0)
  order.quote out fee order.tokenIn exchangeGas i j false none

/-- The burn of shares for one of the two tokens, with nothing asked of the reserves that it leaves. -/
def uncheckedBurn (pool : SyncSwapPool) (shares : Int) (index : Nat) : Priced Burn := do
  let amount0 ← Priced.quotient (shares * pool.reserve0) pool.supply
  let amount1 ← Priced.quotient (shares * pool.reserve1) pool.supply
  let rest0 := pool.reserve0 - amount0
  let rest1 := pool.reserve1 - amount1
  if index = 1 then do
    let (out, fee) ← pool.amountOutOf rest0 rest1 amount0 true
    .ok ⟨⟨amount1 + out, fee⟩, rest0 + amount0, rest1 - out⟩
  else do
    let (out, fee) ← pool.amountOutOf rest0 rest1 amount1 false
    .ok ⟨⟨amount0 + out, fee⟩, rest0 - out, rest1 + amount1⟩

/-- A burn is checked for the token asked for, for the shares burned and for the reserves left. -/
theorem burnFor_eq (pool : SyncSwapPool) (shares : Int) (index : Nat) :
    pool.burnFor shares index = (do
      Priced.require (index ≤ 1) .tokenIndexesOutOfRange
      Priced.require (shares ≤ pool.supply) .withdrawMoreThanAvailable
      let burn ← pool.uncheckedBurn shares index
      Priced.require (0 ≤ burn.reserve0 && 0 ≤ burn.reserve1) .withdrawMoreThanAvailable
      .ok burn) := by
  simp only [burnFor, uncheckedBurn, ← Priced.ite_bind, bind_assoc]

theorem amountOutOf_avoids_withdrawMoreThanAvailable {reserve0 reserve1 amount : Int}
    {zeroForOne : Bool} : Priced.Avoids .withdrawMoreThanAvailable
      (pool.amountOutOf reserve0 reserve1 amount zeroForOne) :=
  .bind SyncSwap.invariant_avoids_withdrawMoreThanAvailable fun _ =>
    .bind SyncSwap.balanceFor_avoids_withdrawMoreThanAvailable fun _ =>
      .bind (.quotient (by decide)) fun _ => .value _

theorem uncheckedBurn_avoids_withdrawMoreThanAvailable {shares : Int} {index : Nat} :
    Priced.Avoids .withdrawMoreThanAvailable (pool.uncheckedBurn shares index) := by
  refine .bind (.quotient (by decide)) fun _ => .bind (.quotient (by decide)) fun _ => ?_
  dsimp only
  split <;> exact .bind amountOutOf_avoids_withdrawMoreThanAvailable fun _ => .value _

/-- The reserve that a swap is paid from. -/
def paidFrom (zeroForOne : Bool) (reserve0 reserve1 : Int) : Int :=
  if zeroForOne then reserve1 else reserve0

/-- A pool whose numbers are those that the contract can hold. Every snapshot of a pool gives two tokens
and one and the same positive amplification. -/
structure Tradable (pool : SyncSwapPool) : Prop where
  tokens : pool.tokens.length = 2
  reserve0 : 0 ≤ pool.reserve0
  reserve1 : 0 ≤ pool.reserve1
  amp : 0 < pool.amp
  multiplier0 : 0 < pool.multiplier0
  multiplier1 : 0 < pool.multiplier1
  fee0 : pool.fee0 ≤ feeUnit
  fee1 : pool.fee1 ≤ feeUnit

section
variable {amount fee multiplier reserve y out : Int}

theorem sold_nonneg (unsigned : 0 ≤ amount) (part : fee ≤ feeUnit) :
    0 ≤ amount - (amount * fee).fdiv feeUnit := by
  have whole := mul_le_mul_of_nonneg_left part unsigned
  have unit : 0 < feeUnit := by decide
  rw [sub_nonneg, fdiv_le_iff unit]
  linarith

theorem paid_lt_reserve (positive : 0 < multiplier) (completes : 0 ≤ y)
    (paid : Priced.quotient (reserve * multiplier - y - 1) multiplier = .ok out) : out < reserve := by
  obtain ⟨-, rfl⟩ := Priced.quotient_eq_ok.mp paid
  rw [fdiv_lt_iff positive]
  omega

theorem part_bounds {shares supply part : Int} (positive : 0 < supply) (unsigned : 0 ≤ shares)
    (covered : shares ≤ supply) (held : 0 ≤ reserve)
    (taken : Priced.quotient (shares * reserve) supply = .ok part) : 0 ≤ part ∧ part ≤ reserve := by
  obtain ⟨-, rfl⟩ := Priced.quotient_eq_ok.mp taken
  have whole := mul_le_mul_of_nonneg_right covered held
  refine ⟨Int.fdiv_nonneg (mul_nonneg unsigned held) positive.le, ?_⟩
  rw [fdiv_le_iff positive]
  linarith

end

theorem indices_eq_ok {tokenIn tokenOut : Address} {i j : Nat} (two : pool.tokens.length = 2)
    (found : pool.indices tokenIn tokenOut = .ok (i, j)) : i = 0 ∧ j = 1 ∨ i = 1 ∧ j = 0 := by
  simp only [indices, Priced.bind_eq_ok, Priced.ofOption_eq_ok, Priced.require_eq_ok,
    decide_eq_true_eq, Except.ok.injEq, Prod.mk.injEq] at found
  obtain ⟨_, sold, _, bought, _, different, rfl, rfl⟩ := found
  have boundIn := (List.idxOf?_eq_some_iff.mp sold).1
  have boundOut := (List.idxOf?_eq_some_iff.mp bought).1
  omega

namespace Tradable

section
variable {reserve0 reserve1 amount out fee : Int} {zeroForOne : Bool}

theorem amountOutOf_lt (tradable : pool.Tradable) (unsigned0 : 0 ≤ reserve0)
    (unsigned1 : 0 ≤ reserve1) (unsigned : 0 ≤ amount)
    (computed : pool.amountOutOf reserve0 reserve1 amount zeroForOne = .ok (out, fee)) :
    out < paidFrom zeroForOne reserve0 reserve1 := by
  simp only [amountOutOf, Priced.bind_eq_ok, Except.ok.injEq, Prod.mk.injEq] at computed
  obtain ⟨d, found, y, solved, _, paid, rfl, -⟩ := computed
  have adjusted0 := mul_nonneg unsigned0 tradable.multiplier0.le
  have adjusted1 := mul_nonneg unsigned1 tradable.multiplier1.le
  have start : 0 ≤ d := SyncSwap.invariant_nonneg tradable.amp adjusted0 adjusted1 found
  cases zeroForOne with
  | false =>
      have sold := mul_nonneg (sold_nonneg unsigned tradable.fee1) tradable.multiplier1.le
      have completes := SyncSwap.balanceFor_nonneg tradable.amp (add_nonneg adjusted1 sold) start solved
      exact paid_lt_reserve tradable.multiplier0 completes paid
  | true =>
      have sold := mul_nonneg (sold_nonneg unsigned tradable.fee0) tradable.multiplier0.le
      have completes := SyncSwap.balanceFor_nonneg tradable.amp (add_nonneg adjusted0 sold) start solved
      exact paid_lt_reserve tradable.multiplier1 completes paid

theorem quote_eq (tradable : pool.Tradable) {order : Order} (unsigned : 0 ≤ order.amountIn) :
    pool.quote order = pool.uncheckedQuote order := by
  unfold quote uncheckedQuote
  cases found : pool.indices order.tokenIn order.tokenOut with
  | error failure => rfl
  | ok pair =>
      obtain ⟨i, j⟩ := pair
      simp only [Priced.ok_bind]
      cases computed : pool.amountOut order.amountIn (i = 0) with
      | error failure => rfl
      | ok paid =>
          have below : paid.1 < pool.reserve j := by
            have kept := tradable.amountOutOf_lt tradable.reserve0 tradable.reserve1 unsigned computed
            obtain ⟨rfl, rfl⟩ | ⟨rfl, rfl⟩ := indices_eq_ok tradable.tokens found <;> exact kept
          simp only [Priced.ok_bind, Priced.require_bind, if_pos below]

end

section
variable {shares : Int} {index : Nat} (tradable : pool.Tradable) (outstanding : 0 < pool.supply)
  (unsigned : 0 ≤ shares) (available : shares ≤ pool.supply)
include tradable outstanding unsigned available

/-- What is swapped in the burn is less than the rest of the reserve it is taken from. -/
theorem uncheckedBurn_nonneg {burn : Burn} (burns : pool.uncheckedBurn shares index = .ok burn) :
    0 ≤ burn.reserve0 ∧ 0 ≤ burn.reserve1 := by
  simp only [uncheckedBurn, Priced.bind_eq_ok] at burns
  obtain ⟨amount0, taken0, amount1, taken1, burns⟩ := burns
  have part0 := part_bounds outstanding unsigned available tradable.reserve0 taken0
  have part1 := part_bounds outstanding unsigned available tradable.reserve1 taken1
  have rest0 : 0 ≤ pool.reserve0 - amount0 := sub_nonneg.mpr part0.2
  have rest1 : 0 ≤ pool.reserve1 - amount1 := sub_nonneg.mpr part1.2
  split at burns <;> obtain ⟨⟨out, fee⟩, swapped, same⟩ := Priced.bind_eq_ok.mp burns <;>
    obtain rfl := Except.ok.inj same
  · have kept : out < pool.reserve1 - amount1 :=
      tradable.amountOutOf_lt rest0 rest1 part0.1 swapped
    exact ⟨add_nonneg rest0 part0.1, (sub_pos.mpr kept).le⟩
  · have kept : out < pool.reserve0 - amount0 :=
      tradable.amountOutOf_lt rest0 rest1 part1.1 swapped
    exact ⟨(sub_pos.mpr kept).le, add_nonneg rest1 part1.1⟩

theorem burnFor_eq_unchecked (known : index ≤ 1) :
    pool.burnFor shares index = pool.uncheckedBurn shares index := by
  rw [burnFor_eq, Priced.require_bind, if_pos known, Priced.require_bind, if_pos available]
  cases burns : pool.uncheckedBurn shares index with
  | error failure => rfl
  | ok burn =>
      have signs := tradable.uncheckedBurn_nonneg outstanding unsigned available burns
      simp [Priced.require, signs]

theorem burnFor_ne_withdrawMoreThanAvailable :
    pool.burnFor shares index ≠ Priced.refuse .withdrawMoreThanAvailable := by
  by_cases known : index ≤ 1
  · rw [tradable.burnFor_eq_unchecked outstanding unsigned available known]
    exact uncheckedBurn_avoids_withdrawMoreThanAvailable
  · rw [burnFor_eq, Priced.require_bind, if_neg known]
    simp [Priced.refuse]

end

end Tradable

/-- A swap pays less than the reserve it is paid from: part of one that is held, and of an empty one less
than nothing. So the check that a quote stays below the reserve never fails, and neither does the last
check of a burn of no more than all shares: without it the reserves left are not negative either. -/
theorem payouts_below_reserves (pool : SyncSwapPool) (tradable : pool.Tradable) :
    (∀ (reserve0 reserve1 amount out fee : Int) (zeroForOne : Bool), 0 ≤ reserve0 → 0 ≤ reserve1 →
      0 ≤ amount → pool.amountOutOf reserve0 reserve1 amount zeroForOne = .ok (out, fee) →
      (0 < paidFrom zeroForOne reserve0 reserve1 → out < paidFrom zeroForOne reserve0 reserve1) ∧
        (paidFrom zeroForOne reserve0 reserve1 = 0 → out < 0)) ∧
    (∀ order : Order, 0 ≤ order.amountIn → pool.quote order = pool.uncheckedQuote order) ∧
    ∀ (shares : Int) (index : Nat), 0 < pool.supply → 0 ≤ shares → shares ≤ pool.supply →
      (∀ burn, pool.uncheckedBurn shares index = .ok burn → 0 ≤ burn.reserve0 ∧ 0 ≤ burn.reserve1) ∧
        (index ≤ 1 → pool.burnFor shares index = pool.uncheckedBurn shares index) ∧
        pool.burnFor shares index ≠ Priced.refuse .withdrawMoreThanAvailable := by
  refine ⟨?_, fun order unsigned => tradable.quote_eq unsigned, ?_⟩
  · intro reserve0 reserve1 amount out fee zeroForOne unsigned0 unsigned1 unsigned computed
    have below := tradable.amountOutOf_lt unsigned0 unsigned1 unsigned computed
    exact ⟨fun _ => below, fun empty => empty ▸ below⟩
  · intro shares index outstanding unsigned available
    exact ⟨fun _ burns => tradable.uncheckedBurn_nonneg outstanding unsigned available burns,
      fun known => tradable.burnFor_eq_unchecked outstanding unsigned available known,
      tradable.burnFor_ne_withdrawMoreThanAvailable outstanding unsigned available⟩

/-- A token of eighteen decimals and one of six. All of a sale of the second one is fee. -/
def sampleTaxed : SyncSwapPool where
  address := ⟨600⟩
  vault := none
  tokens := [⟨1⟩, ⟨2⟩]
  reserve0 := 1000000000000000000000000
  reserve1 := 500000000000
  supply := 1499000000000000000000000
  amp := amplification
  multiplier0 := 1
  multiplier1 := 1000000000000
  fee0 := 100
  fee1 := feeUnit

/-- A sale far beyond the reserves buys all but one unit. Once all shares are burned the swap is made in
an empty pool and takes one unit back. -/
theorem sampleTaxed_keeps_a_unit :
    (sampleTaxed.amountOut (10 ^ 40) true = .ok (499999999999, 10 ^ 37) ∧
      (499999999999 : Int) < sampleTaxed.reserve1) ∧
    (sampleTaxed.amountOutOf 0 0 (10 ^ 24) true = .ok (-1, 10 ^ 21) ∧ (-1 : Int) < 0) ∧
    (∃ quote, sampleTaxed.uncheckedQuote ⟨⟨1⟩, 10 ^ 40, ⟨2⟩⟩ = .ok quote ∧
      quote.amountOut = 499999999999 ∧ sampleTaxed.quote ⟨⟨1⟩, 10 ^ 40, ⟨2⟩⟩ = .ok quote) ∧
    ∃ burn, sampleTaxed.burnFor sampleTaxed.supply 1 = .ok burn ∧ burn.reserve1 = 1 ∧
      0 ≤ burn.reserve0 := by
  have tradable : sampleTaxed.Tradable := by constructor <;> decide
  obtain ⟨paid, quotes, burns⟩ := payouts_below_reserves sampleTaxed tradable
  have large : sampleTaxed.amountOut (10 ^ 40) true = .ok (499999999999, 10 ^ 37) := by decide +kernel
  have empty : sampleTaxed.amountOutOf 0 0 (10 ^ 24) true = .ok (-1, 10 ^ 21) := by decide +kernel
  refine ⟨⟨large, (paid _ _ _ _ _ true (by decide) (by decide) (by decide) large).1 (by decide)⟩,
    ⟨empty, (paid 0 0 _ _ _ true le_rfl le_rfl (by decide) empty).2 rfl⟩, ?_, ?_⟩
  · obtain ⟨quote, quoted, out⟩ := Priced.map_eq_ok.mp (show
      (sampleTaxed.uncheckedQuote ⟨⟨1⟩, 10 ^ 40, ⟨2⟩⟩).map Quote.amountOut = .ok 499999999999
      by decide +kernel)
    exact ⟨quote, quoted, out, (quotes _ (by decide)).trans quoted⟩
  · obtain ⟨burn, burned, left⟩ := Priced.map_eq_ok.mp (show
      (sampleTaxed.uncheckedBurn sampleTaxed.supply 1).map Burn.reserve1 = .ok 1 by decide +kernel)
    obtain ⟨signs, unchecked, -⟩ := burns sampleTaxed.supply 1 (by decide) (by decide) le_rfl
    exact ⟨burn, (unchecked le_rfl).trans burned, left, (signs burn burned).1⟩

end SyncSwapPool
end Amm
