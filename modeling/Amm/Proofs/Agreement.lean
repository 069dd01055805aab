import Amm.Pool.SyncSwap
import Amm.Proofs.Composable.Surplus
import Amm.Proofs.Newton

/-!
The solvers that composable pools and two token pools have of their own, against the solvers of a
stable curve. Their steps refuse a zero divisor for another cause and one of them may stop earlier,
but where both sides give a value it is the same value, whatever the signs and the number of the
balances.
-/

namespace Amm

namespace Composable

theorem invariantStep_agrees (amp : Int) (balances : List Int) (sum invariant : Int) :
    Priced.Agrees (invariantStep amp balances sum invariant)
      ((curve amp).invariantStep balances sum invariant) := by
  apply Priced.Agrees.bind
  · apply Priced.Agrees.foldlM
    intro product balance value
    by_cases zero : balance * balances.length = 0 <;>
      simp [curve, Stable.Curve.divisor, Priced.quotient_eq_ok, zero]
  · intro product value
    simp only [curve, ampUnit, Priced.bareQuotient, OfNat.ofNat_ne_zero, if_false, Priced.ok_bind,
      mul_comm product]

theorem settle_agrees (amp : Int) (balances : List Int) (cause : PoolError) (steps : Nat) :
    Priced.Agrees
      (Newton.settle (invariantStep amp balances (total balances)) cause steps (total balances))
      (Newton.settle ((curve amp).invariantStep balances (total balances)) .dDoesNotConverge steps
        (total balances)) :=
  Newton.settle_agrees (invariantStep_agrees amp balances (total balances)) steps (total balances)

/-- One step less than a stable curve makes is enough, or too few. -/
theorem steps_le : steps ≤ Stable.Curve.steps := by
  decide

theorem curve_invariant_of_invariant {amp invariant : Int} {balances : List Int}
    (found : Composable.invariant amp balances = .ok invariant) :
    (curve amp).invariant balances = .ok invariant := by
  unfold Composable.invariant at found
  unfold Stable.Curve.invariant
  by_cases empty : total balances = 0
  · simpa [empty] using found
  · rw [if_neg empty] at found ⊢
    apply Newton.run_mono steps_le
    exact (settle_agrees amp balances .stableInvariantDidNotConverge steps invariant).mp found

theorem invariant_of_curve_invariant {amp invariant : Int} {balances : List Int}
    (found : (curve amp).invariant balances = .ok invariant) :
    Composable.invariant amp balances = .ok invariant ∨
      Composable.invariant amp balances = Priced.refuse .stableInvariantDidNotConverge := by
  unfold Stable.Curve.invariant at found
  unfold Composable.invariant
  by_cases empty : total balances = 0
  · left
    simpa [empty] using found
  · rw [if_neg empty] at found ⊢
    have agreed := (settle_agrees amp balances .stableInvariantDidNotConverge
      Stable.Curve.steps invariant).mpr found
    exact Newton.run_sooner steps_le agreed

end Composable

namespace SyncSwap

/-- The curve that the balances of a two token pool lie on. -/
def curve (a : Int) : Stable.Curve :=
  ⟨a, 1, false⟩

theorem coefficients_agrees (a x d : Int) :
    Priced.Agrees (coefficients a x d) ((curve a).coefficients 2 d [x]) := by
  rintro ⟨b, c⟩
  by_cases amp : a = 0
  · simp [coefficients, curve, Stable.Curve.coefficients, Priced.bind_eq_ok, Priced.quotient_eq_ok,
      Priced.require_eq_ok, amp]
  · by_cases balance : x = 0
    · simp [coefficients, curve, Stable.Curve.coefficients, Stable.Curve.remainingTerm,
        Priced.bind_eq_ok, Priced.quotient_eq_ok, Priced.require_eq_ok, balance]
    · simp [coefficients, curve, Stable.Curve.coefficients, Stable.Curve.remainingTerm, total,
        Priced.bind_eq_ok, Priced.quotient_eq_ok, Priced.require_eq_ok, amp, balance]

theorem balanceFor_agrees (a x d other : Int) :
    Priced.Agrees (balanceFor a x d) ((curve a).balanceFor 0 [other, x] d) := by
  apply Priced.Agrees.bind (coefficients_agrees a x d)
  rintro ⟨b, c⟩
  exact .refl _

end SyncSwap

/-- The invariant of a composable pool is the invariant of its curve, unless the one step less is
missing, and the balance that completes a two token pool is the balance that completes its curve. -/
theorem repeated_solvers_agree :
    (∀ (amp invariant : Int) (balances : List Int),
      Composable.invariant amp balances = .ok invariant →
        (Composable.curve amp).invariant balances = .ok invariant) ∧
    (∀ (amp invariant : Int) (balances : List Int),
      (Composable.curve amp).invariant balances = .ok invariant →
        Composable.invariant amp balances = .ok invariant ∨
          Composable.invariant amp balances = Priced.refuse .stableInvariantDidNotConverge) ∧
    ∀ a x d other y : Int,
      SyncSwap.balanceFor a x d = .ok y ↔
        (SyncSwap.curve a).balanceFor 0 [other, x] d = .ok y := by
  refine ⟨?_, ?_, ?_⟩
  · intro amp invariant balances found
    exact Composable.curve_invariant_of_invariant found
  · intro amp invariant balances found
    exact Composable.invariant_of_curve_invariant found
  · intro a x d other y
    exact SyncSwap.balanceFor_agrees a x d other y

/-- The solvers on two balances of one sign, on two of different signs, and on a balance below zero. -/
theorem uneven_pair_solved_alike :
    Composable.invariant 200000 [1000000000000, 3000000000000] = .ok 3996691453407 ∧
    (Composable.curve 200000).invariant [1000000000000, 3000000000000] = .ok 3996691453407 ∧
    (Composable.curve 200000).invariant [1000000000000, -3000000000000] = .ok (-2006700223966) ∧
    (Composable.invariant 200000 [1000000000000, -3000000000000] = .ok (-2006700223966) ∨
      Composable.invariant 200000 [1000000000000, -3000000000000] =
        Priced.refuse .stableInvariantDidNotConverge) ∧
    SyncSwap.balanceFor 1000 (-1000000000000) 4000000000000 = .ok 4996398846800 ∧
    (SyncSwap.curve 1000).balanceFor 0 [7, -1000000000000] 4000000000000 = .ok 4996398846800 := by
  have positive : Composable.invariant 200000 [1000000000000, 3000000000000] =
      .ok 3996691453407 := by decide +kernel
  have mixed : (Composable.curve 200000).invariant [1000000000000, -3000000000000] =
      .ok (-2006700223966) := by decide +kernel
  have completed : SyncSwap.balanceFor 1000 (-1000000000000) 4000000000000 =
      .ok 4996398846800 := by decide +kernel
  exact ⟨positive, repeated_solvers_agree.1 _ _ _ positive, mixed,
    repeated_solvers_agree.2.1 _ _ _ mixed, completed,
    (repeated_solvers_agree.2.2 _ _ _ _ _).mp completed⟩

end Amm
