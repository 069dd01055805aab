import Amm.Proofs.Newton
import Amm.Proofs.Stable.Solver
import Amm.Proofs.Tangent

/-!
The iteration for a missing balance ends. Its steps follow tangents of a quadratic whose constant is not
negative, so from the first step on no value is below the root, and every divisor is positive. The
distance to the root halves with every step. The test at the end of a step looks at the size of the step
instead, but a value next to the root passes it.
-/

namespace Amm
namespace Stable
namespace Curve

variable {curve : Curve} {n b c d y root : Int} {others : List Int}

theorem balanceStep_eq (positive : 0 < y * 2 + b - d) :
    balanceStep b c d y = .ok (tangentStep (b - d) c y) := by
  rw [tangentStep, ← add_sub_assoc]
  exact Priced.quotient_eq_ok.mpr ⟨positive.ne', rfl⟩

/-- An iteration makes its first step and ends there or goes on. -/
theorem settle_succ {steps : Nat} {cause : PoolError} (positive : 0 < y * 2 + b - d) :
    Newton.settle (balanceStep b c d) cause (steps + 1) y =
      if withinOne (tangentStep (b - d) c y) y then .ok (tangentStep (b - d) c y)
      else Newton.settle (balanceStep b c d) cause steps (tangentStep (b - d) c y) := by
  rw [Newton.settle, Newton.run, balanceStep_eq positive]
  rfl

/-- A step that does not end the iteration leads to a positive divisor. -/
theorem divisor_pos_of_step (floor : FloorRoot (b - d) c root) (square : 0 ≤ c)
    (positive : 0 < y * 2 + b - d) (apart : ¬withinOne (tangentStep (b - d) c y) y) :
    0 < tangentStep (b - d) c y * 2 + b - d := by
  rcases floor.tangentStep_turned square (y := y) (by omega) with rising | ⟨vanished, one⟩
  · omega
  · rw [withinOne_iff, vanished, one] at apart
    omega

theorem divisor_pos_of_visits (square : 0 ≤ c) (first : 0 < d + b)
    (visited : Newton.Visits (balanceStep b c d) d y) : 0 < y * 2 + b - d := by
  obtain ⟨root, floor⟩ := exists_floorRoot (b - d) square
  induction visited with
  | start => omega
  | step _ computed apart ih =>
      obtain rfl := Except.ok.inj ((balanceStep_eq ih).symm.trans computed)
      exact divisor_pos_of_step floor square ih (by simp [apart])

/-- From a value that is not below the root the iteration ends within one step more than the distance has
binary places. -/
theorem exists_settle_of_near {steps : Nat} {cause : PoolError} (floor : FloorRoot (b - d) c root)
    (square : 0 ≤ c) (positive : 0 < y * 2 + b - d) (above : root ≤ y)
    (near : y - root < 2 ^ steps) :
    ∃ result, Newton.settle (balanceStep b c d) cause (steps + 1) y = .ok result := by
  -- Every value but the last keeps its divisor positive and stays above the root.
  induction steps generalizing y with
  | zero =>
      obtain rfl : root = y := by omega
      have low := floor.le_tangentStep (y := root) (by omega)
      have high := floor.tangentStep_root_le (by omega)
      rw [settle_succ positive, if_pos (withinOne_iff.mpr (by omega))]
      exact ⟨_, rfl⟩
  | succ steps ih =>
      have low := floor.le_tangentStep (y := y) (by omega)
      rw [settle_succ positive]
      split
      · exact ⟨_, rfl⟩
      · rename_i apart
        rcases above.eq_or_lt with rfl | beyond
        · have high := floor.tangentStep_root_le (by omega)
          exact absurd (withinOne_iff.mpr (by omega)) apart
        · have half := floor.halves beyond
          rw [pow_succ] at near
          exact ih (divisor_pos_of_step floor square positive apart) low (by omega)

/-- The iteration for a balance ends if its first divisor is positive and its first step leads below a
bound that leaves enough steps to halve. -/
theorem exists_settle_of_first {steps more : Nat} {cause : PoolError} (square : 0 ≤ c)
    (first : 0 < d + b) (small : tangentStep (b - d) c d < 2 ^ steps) (enough : steps + 2 ≤ more) :
    ∃ result, Newton.settle (balanceStep b c d) cause more d = .ok result := by
  obtain ⟨root, floor⟩ := exists_floorRoot (b - d) square
  have positive : 0 < d * 2 + b - d := by omega
  suffices ends : ∃ result, Newton.settle (balanceStep b c d) cause (steps + 2) d = .ok result by
    obtain ⟨result, settles⟩ := ends
    exact ⟨result, Newton.run_mono enough settles⟩
  rw [settle_succ positive]
  split
  · exact ⟨_, rfl⟩
  · rename_i apart
    have nonneg := floor.nonneg
    exact exists_settle_of_near floor square (divisor_pos_of_step floor square positive apart)
      (floor.le_tangentStep (by omega)) (by omega)

theorem exists_coefficients (amplified : 0 < curve.amp * n) (present : ∀ x ∈ others, x ≠ 0) :
    ∃ b c, curve.coefficients n d others = .ok (b, c) := by
  obtain ⟨term, multiplied⟩ : ∃ term, remainingTerm n d others = .ok term :=
    Priced.exists_foldlM (fun x member term => ⟨_, if_neg (present x member)⟩) d
  have weighty : Priced.require (curve.amp * n ≠ 0) .zero = .ok () :=
    Priced.require_eq_ok.mpr (decide_eq_true amplified.ne')
  exact ⟨_, _, by rw [coefficients, weighty, multiplied]; rfl⟩

/-- The first divisor is positive where there are others or an invariant. -/
theorem first_divisor_pos (amplified : 0 < curve.amp * n) (precision : 0 ≤ curve.precision)
    (start : 0 ≤ d) (positive : ∀ x ∈ others, 0 < x) (some : others ≠ [] ∨ 0 < d)
    (computed : curve.coefficients n d others = .ok (b, c)) : 0 < d + b := by
  simp only [coefficients, Priced.bind_eq_ok, Except.ok.injEq, Prod.mk.injEq] at computed
  obtain ⟨_, -, term, -, rfl, -⟩ := computed
  have unsigned := total_nonneg fun x member => (positive x member).le
  have share : 0 ≤ (d * curve.precision).fdiv (curve.amp * n) :=
    Int.fdiv_nonneg (mul_nonneg start precision) amplified.le
  rcases some with present | invariant
  · have held := total_pos present positive
    omega
  · omega

/-- The balance that completes the others to a pool is found whenever the others are positive, however
far they are from one another and from the invariant, if the first step of the iteration leads below
`2 ^ 250`. All divisors on the way are positive. Only a pool of one token without invariant has no first
step. -/
theorem completing_balance_found (curve : Curve) (xp : List Int) (i : Nat) (d : Int)
    (bound : i < xp.length) (amplified : 0 < curve.amp * xp.length) (precision : 0 < curve.precision)
    (start : 0 ≤ d) (positive : ∀ x ∈ xp.eraseIdx i, 0 < x) :
    ∃ b c, curve.coefficients xp.length d (xp.eraseIdx i) = .ok (b, c) ∧
      (1 < xp.length ∨ 0 < d → ∃ first, balanceStep b c d d = .ok first) ∧
      ∀ first, balanceStep b c d d = .ok first → first < 2 ^ 250 →
        (∃ y, curve.balanceFor i xp d = .ok y) ∧
        ∀ y, Newton.Visits (balanceStep b c d) d y → 0 < y * 2 + b - d := by
  obtain ⟨b, c, computed⟩ := exists_coefficients (d := d) amplified
    fun x member => (positive x member).ne'
  obtain ⟨linear, square, -⟩ := coefficients_unsigned amplified precision.le (Int.natCast_nonneg _)
    start (fun x member => (positive x member).le) computed
  refine ⟨b, c, computed, fun some => ?_, fun first stepped near => ?_⟩
  · have others : xp.eraseIdx i ≠ [] ∨ 0 < d := by
      refine some.imp_left fun several => List.ne_nil_of_length_pos ?_
      rw [List.length_eraseIdx_of_lt bound]
      omega
    have divisor := first_divisor_pos amplified precision.le start positive others computed
    exact ⟨_, balanceStep_eq (by omega)⟩
  · obtain ⟨nonzero, -⟩ := Priced.quotient_eq_ok.mp stepped
    have divisor : 0 < d * 2 + b - d := by omega
    have small : tangentStep (b - d) c d < 2 ^ 250 := by
      obtain rfl := Except.ok.inj ((balanceStep_eq divisor).symm.trans stepped)
      exact near
    refine ⟨?_, fun y => divisor_pos_of_visits square (by omega)⟩
    have inside : Priced.require (decide (i < xp.length)) .tokenNotFound = .ok () :=
      Priced.require_eq_ok.mpr (decide_eq_true bound)
    obtain ⟨y, settles⟩ :
        ∃ y, Newton.settle (balanceStep b c d) .yDoesNotConverge steps d = .ok y :=
      exists_settle_of_first square (by omega) small (by decide)
    exact ⟨y, Priced.bind_eq_ok.mpr ⟨(), inside, Priced.bind_eq_ok.mpr ⟨(b, c), computed, settles⟩⟩⟩

/-- Beside a single unit the balance for an invariant of `10 ^ 38` is found, after a first step beyond
`10 ^ 73`. -/
theorem balance_beside_unit_found :
    0 < (100 : Int) * 2 ∧ (∀ x ∈ [1, (0 : Int)].eraseIdx 1, 0 < x) ∧
      ∃ b c first, (Curve.mk 100 1 false).coefficients 2 (10 ^ 38) [1] = .ok (b, c) ∧
        balanceStep b c (10 ^ 38) (10 ^ 38) = .ok first ∧ 10 ^ 73 < first ∧ first < 2 ^ 250 ∧
        (∃ y, (Curve.mk 100 1 false).balanceFor 1 [1, 0] (10 ^ 38) = .ok y) ∧
        ∀ y, Newton.Visits (balanceStep b c (10 ^ 38)) (10 ^ 38) y → 0 < y * 2 + b - 10 ^ 38 := by
  have positive : ∀ x ∈ [1, (0 : Int)].eraseIdx 1, 0 < x := by decide
  obtain ⟨b, c, computed, stepped, found⟩ := completing_balance_found (.mk 100 1 false) [1, 0] 1
    (10 ^ 38) (by decide) (by decide) (by decide) (by decide) positive
  have near : (Curve.mk 100 1 false).coefficients 2 (10 ^ 38) [1] =
      .ok (1 + 10 ^ 38 / 200, 10 ^ 114 / 800) := by decide +kernel
  obtain ⟨rfl, rfl⟩ := Prod.mk.inj (Except.ok.inj (near.symm.trans computed))
  obtain ⟨first, leads⟩ := stepped (.inl (by decide))
  have far : 10 ^ 73 < first ∧ first < 2 ^ 250 := by
    obtain ⟨-, rfl⟩ := Priced.quotient_eq_ok.mp leads
    decide +kernel
  exact ⟨by decide, positive, _, _, first, computed, leads, far.1, far.2, found first leads far.2⟩

end Curve
end Stable
end Amm
