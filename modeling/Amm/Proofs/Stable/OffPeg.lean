import Amm.Pool.Lending
import Amm.Proofs.Stable.Aborts

/-!
The dynamic fee of lending pools. It divides by the fee unit and a product of the two balances that it
compares, which lies below zero where they have opposite signs. For some of these balances the two
cancel and the fee is not defined.
-/

namespace Amm
namespace LendingPool

/-- Balances for which the dynamic fee divides by zero. -/
structure FeeUndefined (multiplier first second : Int) : Prop where
  rises : Stable.feeUnit < multiplier
  opposite : first * second < 0
  cancels : ((multiplier - Stable.feeUnit) * 4 * first * second).fdiv
    ((first + second) * (first + second)) + Stable.feeUnit = 0

variable {allowed : Fault → Prop} {pool : LendingPool} {now : Time}

theorem dynamicFee_abortsOnly {first second multiplier : Int}
    (undefined : FeeUndefined multiplier first second → allowed .divisionByZero) (fee : Int) :
    Priced.AbortsOnly allowed (dynamicFee first second fee multiplier) := by
  unfold dynamicFee
  extract_lets sum
  split
  · exact .value _
  · rename_i rising
    have rises : Stable.feeUnit < multiplier := by
      by_contra flat
      exact rising (by simp [not_lt.mp flat])
    refine .bareQuotient fun cancels => undefined ⟨rises, ?_, cancels⟩
    by_contra same
    have excess : 0 ≤ (multiplier - Stable.feeUnit) * 4 := by omega
    have product : 0 ≤ (multiplier - Stable.feeUnit) * 4 * first * second := by
      rw [mul_assoc]
      exact mul_nonneg excess (not_lt.mp same)
    have part : 0 ≤ ((multiplier - Stable.feeUnit) * 4 * first * second).fdiv (sum * sum) :=
      Int.fdiv_nonneg product (mul_self_nonneg sum)
    have unit := Stable.feeUnit_pos
    omega

/-- The balances that the fee of a swap compares: means over the swap, of the token sold and of the
token bought. -/
def comparedInSwap (pool : LendingPool) (i j : Nat) (dx : Int) (now : Time) :
    Priced (Int × Int) := do
  let xp ← Stable.scaled pool.holdings.reserves pool.rates
  let balanceIn ← Priced.entry xp i
  let multiplierIn ← Priced.entry pool.multipliers i
  let x := balanceIn + dx * multiplierIn
  let solver ← pool.holdings.solver now
  let y ← solver.balanceAfter i j x xp
  let balanceOut ← Priced.entry xp j
  .ok ((balanceIn + x).fdiv 2, (balanceOut + y).fdiv 2)

/-- The balances that the fees of a deposit compare: the sum of each balance before and after it, with
the mean invariant of a token. -/
def comparedInDeposit (pool : LendingPool) (amounts : List Int) (now : Time) :
    Priced (List (Int × Int)) := do
  let balances := pool.holdings.reserves.zipWith (· + ·) amounts
  let d0 ← pool.holdings.invariant pool.holdings.reserves pool.rates now
  let d1 ← pool.holdings.invariant balances pool.rates now
  .ok ((pool.holdings.reserves.zip balances).map fun (old, new) =>
    (old + new, (d0 + d1).fdiv pool.tokens.length))

theorem quoteExchange_abortsOnly {i j : Nat} {dx : Int}
    (reserves : pool.holdings.reserves.length = pool.tokens.length)
    (multipliers : pool.multipliers.length = pool.tokens.length)
    (time : pool.holdings.amp.Overflows now → allowed .timeOverflow)
    (precision : pool.holdings.precision = 0 → allowed .divisionByZero)
    (multiplier : pool.multipliers[j]? = some 0 → allowed .divisionByZero)
    (fee : ∀ first second, pool.comparedInSwap i j dx now = .ok (first, second) →
      FeeUndefined pool.offPegMultiplier first second → allowed .divisionByZero) :
    Priced.AbortsOnly allowed (pool.quoteExchange i j dx now) := by
  refine .bind .require fun _ inside => ?_
  have inside : i < pool.tokens.length ∧ j < pool.tokens.length := by
    simpa only [Bool.and_eq_true, decide_eq_true_eq] using Priced.require_eq_ok.mp inside
  refine .bind (Stable.scaled_abortsOnly pool.holdings.reserves pool.rates) fun xp scale => ?_
  have balances : xp.length = pool.tokens.length := (Stable.scaled_length scale).trans reserves
  refine .bind (.entry (balances ▸ inside.1)) fun balanceIn balanceInAt => ?_
  refine .bind (.entry (multipliers ▸ inside.1)) fun multiplierIn multiplierInAt => ?_
  refine .bind (Stable.Holdings.solver_abortsOnly time) fun solver priced => ?_
  refine .bind (Stable.Curve.balanceAfter_abortsOnly
    (Stable.Holdings.solver_precision priced ▸ precision) _ _ _ _) fun y solved => ?_
  refine .bind (.entry (balances ▸ inside.2)) fun balanceOut balanceOutAt => ?_
  refine .bind (.entry (multipliers ▸ inside.2)) fun multiplierOut multiplierOutAt => ?_
  have divides := Priced.AbortsOnly.divides_of_entry multiplier multiplierOutAt
  refine .bind (.bareQuotient divides) fun dy _ => ?_
  refine .bind (dynamicFee_abortsOnly (fee _ _ ?_) _) fun rate _ => .value _
  simp only [comparedInSwap, scale, balanceInAt, multiplierInAt, priced, solved, balanceOutAt,
    Priced.ok_bind]

/-- Two equal reserves. -/
def evenLending : LendingPool where
  address := ⟨110⟩
  shareToken := ⟨10⟩
  tokens := [⟨1⟩, ⟨2⟩]
  multipliers := [1, 1]
  rates := [Fixed.one, Fixed.one]
  holdings := ⟨[10 ^ 24, 10 ^ 24], 2 * 10 ^ 24, ⟨200000, 200000, 0, 0⟩, precision, 4000000, 5000000000,
    true⟩
  offPegMultiplier := 20000000000

/-- The fee can be undefined where no divisor of the snapshot is zero: an amount below zero gives the
balances opposite signs. -/
example : evenLending.quoteExchange 0 1 (-7828475468419492244720460) 600 =
    Priced.abort .divisionByZero := by
  decide +kernel

theorem deposit_abortsOnly {amounts : List Int}
    (time : pool.holdings.amp.Overflows now → allowed .timeOverflow)
    (precision : pool.holdings.precision = 0 → allowed .divisionByZero)
    (fee : ∀ pairs first second, pool.comparedInDeposit amounts now = .ok pairs →
      (first, second) ∈ pairs → FeeUndefined pool.offPegMultiplier first second →
      allowed .divisionByZero) :
    Priced.AbortsOnly allowed (pool.deposit amounts now) := by
  refine .bind .require fun _ _ => ?_
  refine .bind (Stable.Holdings.invariant_abortsOnly time precision _ _) fun d0 before => ?_
  refine .bind (Stable.Holdings.invariant_abortsOnly time precision _ _) fun d1 after => ?_
  refine .bind .require fun _ _ => ?_
  have compared : pool.comparedInDeposit amounts now =
      .ok ((pool.holdings.reserves.zip (pool.holdings.reserves.zipWith (· + ·) amounts)).map
        fun (old, new) => (old + new, (d0 + d1).fdiv pool.tokens.length)) := by
    simp only [comparedInDeposit, before, after, Priced.ok_bind]
  extract_lets
  split
  · refine .bind .require fun _ _ => .bind (.mapM ?_) fun charged _ => ?_
    · rintro ⟨old, new⟩ member
      refine .bind (dynamicFee_abortsOnly (fee _ _ _ compared ?_) _) fun rate _ => .value _
      exact List.mem_map.mpr ⟨(old, new), member, rfl⟩
    · exact .bind (Stable.Holdings.invariant_abortsOnly time precision _ _) fun d2 _ =>
        .bind (.value _) fun minted _ => .value _
  · exact .bind (.value d1) fun minted _ => .value _

end LendingPool
end Amm
