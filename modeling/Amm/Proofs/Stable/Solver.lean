import Amm.Proofs.Stable.Curve

/-!
The solver for one missing balance. Its iteration starts at the invariant and keeps to the right of
the point where the quadratic turns, so every divisor is positive and the balance it settles on is
not negative, whatever the other balances are.
-/

namespace Amm
namespace Stable
namespace Curve

variable {curve : Curve} {n d : Int} {others xp : List Int}

theorem remainingTerm_eq_ok {term : Int} (count : 0 ≤ n) (start : 0 ≤ d)
    (nonneg : ∀ x ∈ others, 0 ≤ x) (computed : remainingTerm n d others = .ok term) :
    0 ≤ term ∧ ∀ x ∈ others, x ≠ 0 := by
  constructor
  · refine Priced.foldlM_preserves (0 ≤ ·) start
      (fun current x next member holds step => ?_) computed
    by_cases zero : x = 0
    · simp [zero] at step
    · obtain rfl : (current * d).fdiv (x * n) = next := by simpa [zero] using step
      exact Int.fdiv_nonneg (mul_nonneg holds start) (mul_nonneg (nonneg x member) count)
  · intro x member zero
    obtain ⟨current, next, step⟩ := Priced.foldlM_visits computed member
    simp [zero] at step

/-- The quadratic for a missing balance has no negative coefficient, but for `d` itself. -/
theorem coefficients_unsigned {b c : Int} (amplified : 0 < curve.amp * n)
    (precision : 0 ≤ curve.precision) (count : 0 ≤ n) (start : 0 ≤ d)
    (nonneg : ∀ x ∈ others, 0 ≤ x) (computed : curve.coefficients n d others = .ok (b, c)) :
    0 ≤ b ∧ 0 ≤ c ∧ ∀ x ∈ others, x ≠ 0 := by
  simp only [coefficients, Priced.bind_eq_ok, Priced.require_eq_ok, Except.ok.injEq,
    Prod.mk.injEq] at computed
  obtain ⟨_, -, term, termComputed, rfl, rfl⟩ := computed
  obtain ⟨termNonneg, present⟩ := remainingTerm_eq_ok count start nonneg termComputed
  have scaledTerm : 0 ≤ term * d * curve.precision :=
    mul_nonneg (mul_nonneg termNonneg start) precision
  refine ⟨add_nonneg (total_nonneg nonneg) ?_, ?_, present⟩
  · exact Int.fdiv_nonneg (mul_nonneg start precision) amplified.le
  · exact Int.fdiv_nonneg scaledTerm (mul_nonneg amplified.le count)

theorem coefficients_nonneg {b c : Int} (admissible : curve.Admissible n) (count : 0 ≤ n)
    (start : 0 ≤ d) (nonneg : ∀ x ∈ others, 0 ≤ x)
    (computed : curve.coefficients n d others = .ok (b, c)) :
    0 ≤ b ∧ 0 ≤ c ∧ ∀ x ∈ others, x ≠ 0 := by
  have precision : 0 < curve.precision := admissible.precision
  exact coefficients_unsigned admissible.ampTotal_pos precision.le count start nonneg computed

/-- At or above both zero and `d - b` the divisor of a step is positive, and the step stays there:
its excess over `d - b` is a square and `c`. -/
theorem balanceStep_above {b c y next : Int} (nonneg : 0 ≤ y) (above : d - b ≤ y) (square : 0 ≤ c)
    (step : balanceStep b c d y = .ok next) :
    0 < y * 2 + b - d ∧ 0 ≤ next ∧ d - b ≤ next := by
  obtain ⟨nonzero, rfl⟩ := Priced.quotient_eq_ok.mp step
  have positive : 0 < y * 2 + b - d := by omega
  refine ⟨positive, Int.fdiv_nonneg (add_nonneg (mul_self_nonneg y) square) positive.le, ?_⟩
  rw [le_fdiv_iff positive]
  have excess : 0 ≤ (y - (d - b)) * (y - (d - b)) := mul_self_nonneg _
  linarith

/-- The iteration starts at the invariant and ends where its divisors are positive. -/
theorem settle_above {b c y : Int} (linear : 0 ≤ b) (square : 0 ≤ c) (start : 0 ≤ d)
    (settles : Newton.settle (balanceStep b c d) .yDoesNotConverge steps d = .ok y) :
    0 ≤ y ∧ d - b ≤ y :=
  Newton.settle_preserves (fun y => 0 ≤ y ∧ d - b ≤ y)
    (fun _ _ holds step => (balanceStep_above holds.1 holds.2 square step).2) ⟨start, by omega⟩
    settles

theorem solve_nonneg {y : Int} (admissible : curve.Admissible n) (count : 0 ≤ n) (start : 0 ≤ d)
    (nonneg : ∀ x ∈ others, 0 ≤ x) (solved : curve.solve n d others = .ok y) : 0 ≤ y := by
  obtain ⟨⟨b, c⟩, computed, settles⟩ := Priced.bind_eq_ok.mp solved
  obtain ⟨linear, square, -⟩ := coefficients_nonneg admissible count start nonneg computed
  exact (settle_above linear square start settles).1

theorem solve_present {y : Int} (admissible : curve.Admissible n) (count : 0 ≤ n) (start : 0 ≤ d)
    (nonneg : ∀ x ∈ others, 0 ≤ x) (solved : curve.solve n d others = .ok y) :
    ∀ x ∈ others, x ≠ 0 := by
  obtain ⟨⟨b, c⟩, computed, -⟩ := Priced.bind_eq_ok.mp solved
  exact (coefficients_nonneg admissible count start nonneg computed).2.2

/-- Without the offset an invariant is found only for balances that are all there, or all not. -/
theorem invariant_present (plain : curve.offset = false) (nonneg : ∀ x ∈ xp, 0 ≤ x)
    (computed : curve.invariant xp = .ok d) : (∀ x ∈ xp, x = 0) ∨ ∀ x ∈ xp, x ≠ 0 := by
  unfold invariant at computed
  by_cases empty : total xp = 0
  · left
    rw [total_eq_sum] at empty
    exact fun x member => List.all_zero_of_le_zero_le_of_sum_eq_zero nonneg empty member
  · right
    rw [if_neg empty] at computed
    obtain ⟨value, step⟩ := Newton.settle_starts computed
    obtain ⟨product, multiplied, -⟩ := Priced.bind_eq_ok.mp step
    intro x member zero
    obtain ⟨current, next, divided⟩ := Priced.foldlM_visits multiplied member
    simp [divisor, plain, zero] at divided

section
variable {i j : Nat} {x y : Int}

theorem balanceAfter_eq_ok (computed : curve.balanceAfter i j x xp = .ok y) :
    i ≠ j ∧ i < xp.length ∧ j < xp.length ∧ ∃ d, curve.invariant xp = .ok d ∧
      curve.solve xp.length d ((xp.set i x).eraseIdx j) = .ok y := by
  simp only [balanceAfter, Priced.bind_eq_ok, Priced.require_eq_ok, decide_eq_true_eq,
    Bool.and_eq_true] at computed
  obtain ⟨_, different, _, ⟨boundIn, boundOut⟩, d, found, solved⟩ := computed
  exact ⟨different, boundIn, boundOut, d, found, solved⟩

theorem remaining_nonneg (nonneg : ∀ x ∈ xp, 0 ≤ x) (sold : 0 ≤ x) :
    ∀ other ∈ (xp.set i x).eraseIdx j, 0 ≤ other := fun other member =>
  forall_set nonneg sold other (List.mem_of_mem_eraseIdx member)

theorem balanceAfter_nonneg (admissible : curve.Admissible xp.length) (nonneg : ∀ x ∈ xp, 0 ≤ x)
    (sold : 0 ≤ x) (computed : curve.balanceAfter i j x xp = .ok y) : 0 ≤ y := by
  obtain ⟨-, -, -, d, found, solved⟩ := balanceAfter_eq_ok computed
  exact solve_nonneg admissible (Int.natCast_nonneg _) (invariant_nonneg admissible nonneg found)
    (remaining_nonneg nonneg sold) solved

/-- A balance of zero is completed only where the offset lets it pass, or between two balances that
are both zero. -/
theorem balanceAfter_vacant (admissible : curve.Admissible xp.length) (nonneg : ∀ x ∈ xp, 0 ≤ x)
    (sold : 0 ≤ x) (computed : curve.balanceAfter i j x xp = .ok y) (vacant : xp[j]? = some 0) :
    curve.offset = true ∨ xp = [0, 0] := by
  obtain ⟨different, boundIn, boundOut, d, found, solved⟩ := balanceAfter_eq_ok computed
  by_contra neither
  obtain ⟨plain, notTwo⟩ := not_or.mp neither
  rw [Bool.not_eq_true] at plain
  have empty : ∀ x ∈ xp, x = 0 := by
    refine (invariant_present plain nonneg found).resolve_right fun present => ?_
    exact present 0 (List.mem_of_getElem? vacant) rfl
  have present := solve_present admissible (Int.natCast_nonneg _)
    (invariant_nonneg admissible nonneg found) (remaining_nonneg nonneg sold) solved
  have large : 3 ≤ xp.length := by
    by_contra small
    have two : xp.length = 2 := by omega
    obtain ⟨first, second, rfl⟩ := List.length_eq_two.mp two
    simp_all
  -- A third balance is zero as well, and the solver refuses it.
  obtain ⟨k, bound, notIn, notOut⟩ : ∃ k, k < xp.length ∧ k ≠ i ∧ k ≠ j := by
    by_contra taken
    have zeroth := not_exists.mp taken 0
    have first := not_exists.mp taken 1
    have second := not_exists.mp taken 2
    omega
  have member : xp[k] ∈ (xp.set i x).eraseIdx j := by
    refine List.mem_eraseIdx_iff_getElem.mpr ⟨k, by simpa using bound, notOut, ?_⟩
    exact List.getElem_set_ne notIn.symm _
  exact present _ member (empty _ (List.getElem_mem bound))

end

section
open Priced

/-! The solver has causes of its own for what it refuses. A missing output is none of them. -/

theorem invariantStep_avoids_insufficientOutput {sum : Int} :
    Avoids .insufficientOutput (curve.invariantStep xp sum d) := by
  refine .bind (.foldlM (fun term x => ?_) _ _) fun product => ?_
  · split
    · exact .refuse (by decide)
    · exact .value _
  · exact .bind .bareQuotient fun weighted => .bind .bareQuotient fun damping =>
      .quotient (by decide)

theorem invariant_avoids_insufficientOutput :
    Avoids .insufficientOutput (curve.invariant xp) := by
  unfold invariant
  dsimp only
  split
  · exact .value 0
  · exact Newton.settle_avoids (fun _ => invariantStep_avoids_insufficientOutput) (by decide) _ _

theorem solve_avoids_insufficientOutput : Avoids .insufficientOutput (curve.solve n d others) := by
  have coefficients : Avoids .insufficientOutput (curve.coefficients n d others) := by
    refine .bind (.require (by decide)) fun _ => .bind (.foldlM (fun term x => ?_) _ _) fun _ =>
      .value _
    split
    · exact .refuse (by decide)
    · exact .value _
  exact .bind coefficients fun (b, c) =>
    Newton.settle_avoids (fun _ => .quotient (by decide)) (by decide) _ _

theorem balanceAfter_avoids_insufficientOutput {i j : Nat} {x : Int} :
    Avoids .insufficientOutput (curve.balanceAfter i j x xp) :=
  .bind (.require (by decide)) fun _ => .bind (.require (by decide)) fun _ =>
    .bind invariant_avoids_insufficientOutput fun _ => solve_avoids_insufficientOutput

end

end Curve
end Stable
end Amm
