import Amm.Proofs.SplitMean
import Amm.Proofs.Stable.Accuracy

/-!
The product term of a pool at a value not below the sum of its balances. The exact term is not below
the value, because the balances have the mean that the divisors assume; the term rounded down after
each division falls below it by no more than one unit per balance.
-/

namespace Amm
namespace Stable
namespace Curve

section
variable {divisor : Int → Int} {d loss bound : ℚ} {balances : List Int}

theorem drift_cons (divisor : Int → Int) (d loss : ℚ) (x : Int) (balances : List Int) :
    drift divisor d loss (x :: balances) =
      drift divisor d (loss * (d / divisor x) + 1) balances :=
  rfl

/-- A loss at the start is multiplied by all ratios. -/
theorem drift_eq_add (divisor : Int → Int) (d loss : ℚ) (balances : List Int) :
    drift divisor d loss balances =
      loss * (balances.map fun x => d / divisor x).prod + drift divisor d 0 balances := by
  induction balances generalizing loss with
  | nil => simp [drift]
  | cons x balances ih =>
      rw [drift_cons, drift_cons, zero_mul, zero_add, ih, ih 1, List.map_cons, List.prod_cons]
      ring

theorem prod_ratios_eq (divisor : Int → Int) (d : ℚ) (balances : List Int) :
    (balances.map fun x => d / divisor x).prod =
      d ^ balances.length / ((balances.map divisor).prod : Int) := by
  induction balances with
  | nil => simp
  | cons x balances ih =>
      rw [List.map_cons, List.prod_cons, ih, List.map_cons, List.prod_cons, List.length_cons,
        pow_succ', Int.cast_mul, mul_div_mul_comm]

/-- The loss after each division is carried through the ones behind it. -/
theorem drift_le (each : ∀ front x back, balances = front ++ x :: back →
    (back.map fun x => d / divisor x).prod ≤ bound) :
    drift divisor d 0 balances ≤ balances.length * bound := by
  induction balances with
  | nil => simp [drift]
  | cons x balances ih =>
      have rest := ih fun front y back same => each (x :: front) y back (by rw [same]; rfl)
      have whole := each [] x balances rfl
      rw [drift_cons, zero_mul, zero_add, drift_eq_add, one_mul, List.length_cons]
      push_cast
      linarith

end

/-- A balance as a multiple of the mean. -/
def relative (xp : List Int) (x : Int) : ℚ :=
  x * xp.length / total xp

theorem sum_relative {xp : List Int} (present : total xp ≠ 0) :
    (xp.map (relative xp)).sum = xp.length := by
  have sum : (xp.map fun x : Int => (x : ℚ)).sum = total xp := by
    rw [total_eq_sum, Int.cast_list_sum]
  have nonzero : (total xp : ℚ) ≠ 0 := by exact_mod_cast present
  have each : relative xp = fun x : Int => (x : ℚ) * (xp.length / total xp) := by
    funext x
    exact mul_div_assoc _ _ _
  rw [each, List.sum_map_mul_right, sum, mul_div_cancel₀ _ nonzero]

section
variable {xp : List Int} {p product : Int}

theorem relative_pos (positive : ∀ x ∈ xp, 0 < x) {x : Int} (member : x ∈ xp) :
    0 < relative xp x := by
  have count : (0 : ℚ) < xp.length := by exact_mod_cast List.length_pos_of_mem member
  have sum : (0 : ℚ) < total xp := by
    exact_mod_cast total_pos (List.ne_nil_of_mem member) positive
  have balance : (0 : ℚ) < x := by exact_mod_cast positive x member
  exact div_pos (mul_pos balance count) sum

/-- The factors of the exact term, through the balances as multiples of the mean. -/
theorem factor_eq (present : total xp ≠ 0) (x : Int) :
    (p : ℚ) / (x * (xp.length : Int) : Int) = (p : ℚ) / total xp / relative xp x := by
  have nonzero : (total xp : ℚ) ≠ 0 := by exact_mod_cast present
  rw [relative, div_div_div_cancel_right₀ nonzero]
  push_cast
  rfl

theorem prod_factors_eq (present : total xp ≠ 0) (balances : List Int) :
    (balances.map fun x : Int => (p : ℚ) / (x * (xp.length : Int) : Int)).prod =
      ((p : ℚ) / total xp) ^ balances.length / (balances.map (relative xp)).prod := by
  induction balances with
  | nil => simp
  | cons x balances ih =>
      rw [List.map_cons, List.prod_cons, ih, factor_eq present, List.map_cons, List.prod_cons,
        List.length_cons, pow_succ', mul_div_mul_comm]

theorem prod_relative_pos (positive : ∀ x ∈ xp, 0 < x) {balances : List Int}
    (among : balances ⊆ xp) : 0 < (balances.map (relative xp)).prod :=
  List.prod_pos fun _ held => by
    obtain ⟨x, member, rfl⟩ := List.mem_map.mp held
    exact relative_pos positive (among member)

/-- A unit that is lost at a balance is multiplied by the ratios behind it, which the product of the
balances up to it makes up for. -/
theorem drift_mul_prod_le (positive : ∀ x ∈ xp, 0 < x) (present : total xp ≠ 0)
    (grown : 1 ≤ (p : ℚ) / total xp) {balances : List Int} (among : balances ⊆ xp) :
    drift (· * (xp.length : Int)) p 0 balances * (balances.map (relative xp)).prod ≤
      ((p : ℚ) / total xp) ^ balances.length * fronts (balances.map (relative xp)) := by
  induction balances with
  | nil => simp [drift, fronts]
  | cons x balances ih =>
      obtain ⟨member, others⟩ := List.cons_subset.mp among
      have first := relative_pos positive member
      have behind := prod_relative_pos positive others
      have kept := mul_le_mul_of_nonneg_left (ih others) first.le
      rw [drift_cons, zero_mul, zero_add, drift_eq_add, one_mul, prod_factors_eq present,
        List.map_cons, List.prod_cons, fronts, List.length_cons]
      generalize (balances.map (relative xp)).prod = product at behind kept ⊢
      calc
        _ = relative xp x * ((p : ℚ) / total xp) ^ balances.length +
            relative xp x * (drift (· * (xp.length : Int)) p 0 balances * product) := by
          field_simp
        _ ≤ ((p : ℚ) / total xp) ^ balances.length *
            (relative xp x * (1 + fronts (balances.map (relative xp)))) := by linarith
        _ ≤ ((p : ℚ) / total xp) ^ (balances.length + 1) *
            (relative xp x * (1 + fronts (balances.map (relative xp)))) := by
          have unsigned : 0 ≤ fronts (balances.map (relative xp)) :=
            fronts_nonneg fun u held => by
              obtain ⟨y, inside, rfl⟩ := List.mem_map.mp held
              exact (relative_pos positive (others inside)).le
          exact mul_le_mul_of_nonneg_right (pow_le_pow_right₀ grown (Nat.le_succ _)) (by positivity)

/-- The product term of balances without the offset, rounded down after each division. -/
def roundedTerm (xp : List Int) (p : Int) : Int :=
  xp.foldl (fun term x => (term * p).fdiv (x * xp.length)) p

theorem dividedTerm_eq_foldl {divisor : Int → Int} {start : Int} {balances : List Int}
    (divisible : ∀ x ∈ balances, divisor x ≠ 0) :
    dividedTerm divisor p start balances =
      .ok (balances.foldl (fun term x => (term * p).fdiv (divisor x)) start) := by
  induction balances generalizing start with
  | nil => rfl
  | cons x balances ih =>
      obtain ⟨first, others⟩ := List.forall_mem_cons.mp divisible
      rw [dividedTerm, List.foldlM_cons, if_neg first, Priced.ok_bind, List.foldl_cons]
      exact ih others

theorem mul_length_pos (positive : ∀ x ∈ xp, 0 < x) {x : Int} (member : x ∈ xp) :
    0 < x * (xp.length : Int) :=
  mul_pos (positive x member) (by exact_mod_cast List.length_pos_of_mem member)

theorem dividedTerm_eq_rounded (positive : ∀ x ∈ xp, 0 < x) :
    dividedTerm (· * (xp.length : Int)) p p xp = .ok (roundedTerm xp p) :=
  dividedTerm_eq_foldl fun _ member => (mul_length_pos positive member).ne'

theorem productTerm_eq_rounded {curve : Curve} (plain : curve.offset = false)
    (positive : ∀ x ∈ xp, 0 < x) :
    curve.productTerm xp.length p xp = .ok (roundedTerm xp p) := by
  have divisors : curve.divisor xp.length = (· * (xp.length : Int)) := by
    funext x
    simp [divisor, plain]
  rw [productTerm_eq, divisors, dividedTerm_eq_rounded positive]

/-- What the term lacks of the exact one, in the measure of the value against the sum. -/
theorem pow_mul_le_roundedTerm_mul (positive : ∀ x ∈ xp, 0 < x) (present : xp ≠ [])
    (above : total xp ≤ p) :
    ((p : ℚ) / total xp) ^ xp.length * (p - fronts (xp.map (relative xp))) ≤
      roundedTerm xp p * (xp.map (relative xp)).prod := by
  have sum : 0 < total xp := total_pos present positive
  have whole := prod_relative_pos positive (List.Subset.refl xp)
  have grown : 1 ≤ (p : ℚ) / total xp := by
    rw [one_le_div (by exact_mod_cast sum)]
    exact_mod_cast above
  have lost := drift_mul_prod_le positive sum.ne' grown (List.Subset.refl xp)
  have rounded : (p : ℚ) * (p ^ xp.length / ((xp.map (· * (xp.length : Int))).prod : Int)) ≤
      roundedTerm xp p + drift (· * (xp.length : Int)) p 0 xp :=
    le_dividedTerm_add_drift (sum.le.trans above)
      (fun _ member => mul_length_pos positive member) (by simp) (dividedTerm_eq_rounded positive)
  rw [← prod_ratios_eq, prod_factors_eq sum.ne'] at rounded
  have scaled := mul_le_mul_of_nonneg_right rounded whole.le
  rw [← mul_div_assoc, div_mul_cancel₀ _ whole.ne', add_mul] at scaled
  linarith

theorem relative_nonneg (positive : ∀ x ∈ xp, 0 < x) : ∀ u ∈ xp.map (relative xp), 0 ≤ u := by
  intro u held
  obtain ⟨x, member, rfl⟩ := List.mem_map.mp held
  exact (relative_pos positive member).le

theorem sum_map_relative (positive : ∀ x ∈ xp, 0 < x) (present : xp ≠ []) :
    (xp.map (relative xp)).sum = (xp.map (relative xp)).length := by
  rw [sum_relative (total_pos present positive).ne', List.length_map]

/-- Where there is room, the term falls below the exact one by no more than one unit per balance and a
half. -/
theorem pow_mul_le_roundedTerm (positive : ∀ x ∈ xp, 0 < x) (several : 2 ≤ xp.length)
    (enough : roundingRoom xp.length ≤ total xp) (above : total xp ≤ p) :
    ((p : ℚ) / total xp) ^ xp.length * (p - xp.length - 1 / 2) ≤ roundedTerm xp p := by
  have present : xp ≠ [] := List.ne_nil_of_length_pos (by omega)
  have whole := prod_relative_pos positive (List.Subset.refl xp)
  have paid := fronts_add_le (q := p) (relative_nonneg positive) (sum_map_relative positive present)
    (by rwa [List.length_map])
    (by rw [List.length_map]; exact enough.trans (by exact_mod_cast above))
  rw [List.length_map] at paid
  have unsigned : 0 ≤ ((p : ℚ) / total xp) ^ xp.length := by
    have sum : (0 : ℚ) < total xp := by exact_mod_cast total_pos present positive
    have : (0 : ℚ) < p := sum.trans_le (by exact_mod_cast above)
    positivity
  have bound := pow_mul_le_roundedTerm_mul positive present above
  have lacked := mul_le_mul_of_nonneg_left
    (show (p - xp.length - 1 / 2) * (xp.map (relative xp)).prod ≤
      p - fronts (xp.map (relative xp)) by linarith) unsigned
  rw [← mul_assoc] at lacked
  exact le_of_mul_le_mul_right (lacked.trans bound) whole

/-- Far enough above the sum the term grows by the number of balances with each unit of the value. -/
theorem le_roundedTerm_of_excess (positive : ∀ x ∈ xp, 0 < x) (present : xp ≠ [])
    (far : total xp + roundingExcess xp.length ≤ p) :
    total xp + (p - total xp) * xp.length ≤ roundedTerm xp p := by
  have unsigned := relative_nonneg positive
  have mean := sum_map_relative positive present
  have whole := prod_relative_pos positive (List.Subset.refl xp)
  have fewer := fronts_le_roundingExcess unsigned mean
  rw [List.length_map] at fewer
  have sum : (0 : ℚ) < total xp := by exact_mod_cast total_pos present positive
  have above : (total xp : ℚ) ≤ p := by linarith [fronts_nonneg unsigned]
  have bound := pow_mul_le_roundedTerm_mul positive present (by exact_mod_cast above)
  have powers := one_add_mul_le_pow
    (show (-2 : ℚ) ≤ (p - total xp) / total xp by
      linarith [div_nonneg (sub_nonneg.mpr above) sum.le]) xp.length
  rw [sub_div, div_self sum.ne', add_sub_cancel] at powers
  have grown : (total xp + (p - total xp) * xp.length : ℚ) ≤
      roundedTerm xp p * (xp.map (relative xp)).prod := by
    calc
      (total xp + (p - total xp) * xp.length : ℚ) =
          (1 + xp.length * ((p : ℚ) / total xp - 1)) * total xp := by field_simp
      _ ≤ ((p : ℚ) / total xp) ^ xp.length * total xp := mul_le_mul_of_nonneg_right powers sum.le
      _ ≤ ((p : ℚ) / total xp) ^ xp.length * (p - fronts (xp.map (relative xp))) :=
        mul_le_mul_of_nonneg_left (by linarith)
          (pow_nonneg (div_nonneg (sum.le.trans above) sum.le) _)
      _ ≤ _ := bound
  have gained : (0 : ℚ) ≤ total xp + (p - total xp) * xp.length :=
    add_nonneg sum.le (mul_nonneg (sub_nonneg.mpr above) (Nat.cast_nonneg _))
  have reached : (total xp + (p - total xp) * xp.length : ℚ) ≤ roundedTerm xp p :=
    le_of_mul_le_mul_right
      ((mul_le_of_le_one_right gained (prod_le_one_of_mean unsigned mean)).trans grown) whole
  exact_mod_cast reached

end

/-- Between two neighbours there is no integer. -/
theorem neighbours_mul_nonneg (t p : Int) : 0 ≤ (t - p) * (t - p + 1) := by
  rcases lt_or_ge t p with below | above
  · exact mul_nonneg_of_nonpos_of_nonpos (by omega) (by omega)
  · exact mul_nonneg (by omega) (by omega)

/-- The quotient after the first of two divisions stays outside the values that would let the second one
fall short. -/
theorem pair_quotient_nonneg {p k t : Int} (positive : 2 ≤ p) (nonneg : 0 ≤ k) (below : k ≤ p) :
    2 * (p - k) * t * (p + 2 * k - 1) ≤ p * p * (p + 2 * k - 1) + (t - 1) * p * t := by
  rcases nonneg.eq_or_lt with rfl | apart
  · have := mul_nonneg (show 0 ≤ p by omega) (neighbours_mul_nonneg t p)
    linarith
  · obtain ⟨b, same⟩ : ∃ b, b = p + 2 * (p - k) * (p + 2 * k - 1) := ⟨_, rfl⟩
    have discriminant : 4 * p * (p * p * (p + 2 * k - 1)) - b ^ 2 =
        p ^ 2 * (12 * k ^ 2 - 4 * k - 1) + 4 * k * (2 * k - 1) ^ 2 * (p - k) := by
      rw [same]
      ring
    have square : 0 ≤ 12 * k ^ 2 - 4 * k - 1 := by nlinarith
    have rest : 0 ≤ 4 * k * (2 * k - 1) ^ 2 * (p - k) :=
      mul_nonneg (mul_nonneg (by omega) (sq_nonneg _)) (by omega)
    have scaled : 0 ≤ 4 * p *
        (p * p * (p + 2 * k - 1) + (t - 1) * p * t - 2 * (p - k) * t * (p + 2 * k - 1)) := by
      have completed : 4 * p * (p * p * (p + 2 * k - 1) + (t - 1) * p * t -
          2 * (p - k) * t * (p + 2 * k - 1)) =
          (2 * p * t - b) ^ 2 + (4 * p * (p * p * (p + 2 * k - 1)) - b ^ 2) := by
        rw [same]
        ring
      rw [completed, discriminant]
      positivity
    have := nonneg_of_mul_nonneg_right scaled (by omega)
    linarith

/-- The term of two balances is one unit above the general bound, whatever their sum. -/
theorem le_pairTerm {x0 x1 p first product : Int} (positive0 : 0 < x0) (positive1 : 0 < x1)
    (above : x0 + x1 ≤ p) (divided : p * p < (first + 1) * (x0 * 2))
    (again : first * p < (product + 1) * (x1 * 2)) :
    p + (p - (x0 + x1) - 1) * 2 + 1 ≤ product := by
  by_contra short
  obtain ⟨k, rfl⟩ : ∃ k, p = x0 + x1 + k := ⟨p - (x0 + x1), by omega⟩
  generalize whole : x0 + x1 + k = p at *
  have nonneg : 0 ≤ k := by omega
  have target : product + 1 ≤ p + 2 * k - 1 := by omega
  have quotient : 0 < first + 1 :=
    pos_of_mul_pos_left (lt_of_le_of_lt (mul_self_nonneg p) divided) (by omega)
  have second : first * p < (p + 2 * k - 1) * (x1 * 2) :=
    again.trans_le (mul_le_mul_of_nonneg_right target (by omega))
  have sum := add_lt_add (mul_lt_mul_of_pos_right divided (show 0 < p + 2 * k - 1 by omega))
    (mul_lt_mul_of_pos_right second quotient)
  have bound := pair_quotient_nonneg (t := first + 1) (show 2 ≤ p by omega) nonneg (by omega)
  rw [show p - k = x0 + x1 by omega] at bound
  linarith

end Curve
end Stable
end Amm
