import Amm.Proofs.Stable.Comparison
import Amm.Proofs.Stable.ProductTerm

/-!
One more step from the invariant. The iteration ends as soon as two values are neighbours, and rounding
moves the second of them from where the first stood. A further step starts with other roundings, so it
can lead away again, by as much as a unit lost in the product term weighs against the slope of the
equation.
-/

namespace Amm
namespace Stable
namespace Curve

variable {curve : Curve} {xp : List Int} {d product : Int}

/-- The divisor of a step. -/
def stepDivisor (curve : Curve) (xp : List Int) (d product : Int) : Int :=
  ((curve.amp * xp.length - curve.precision) * d).fdiv curve.precision + product * (xp.length + 1)

/-- The left side of the equation less the right side, both as a step takes them, rounded down. -/
def excess (curve : Curve) (xp : List Int) (d product : Int) : Int :=
  product + ((curve.amp * xp.length - curve.precision) * d).fdiv curve.precision - curve.weighted xp

theorem invariantStep_iff (precision : curve.precision ≠ 0) {next : Int} :
    curve.invariantStep xp (total xp) d = .ok next ↔
      ∃ product, curve.productTerm xp.length d xp = .ok product ∧
        curve.stepDivisor xp d product ≠ 0 ∧
        (d * curve.stepDivisor xp d product - d * curve.excess xp d product).fdiv
          (curve.stepDivisor xp d product) = next := by
  have numerator (product : Int) : (curve.weighted xp + product * xp.length) * d =
      d * curve.stepDivisor xp d product - d * curve.excess xp d product := by
    unfold stepDivisor excess
    ring
  simp only [invariantStep, Priced.bind_eq_ok, Priced.bareQuotient_eq_ok, Priced.quotient_eq_ok,
    ← numerator]
  constructor
  · rintro ⟨product, computed, _, ⟨-, rfl⟩, _, ⟨-, rfl⟩, divisible, value⟩
    exact ⟨product, computed, divisible, value⟩
  · rintro ⟨product, computed, divisible, value⟩
    exact ⟨product, computed, _, ⟨precision, rfl⟩, _, ⟨precision, rfl⟩, divisible, value⟩

/-- A step moves by no more than `k` exactly if the excess is not more than `k` of its divisors in the
measure of the value, and not as little as minus one more of them. -/
theorem absDiff_step_le_iff {divisor excess k : Int} (positive : 0 < divisor) :
    absDiff ((d * divisor - d * excess).fdiv divisor) d ≤ k ↔
      -((k + 1) * divisor) < d * excess ∧ d * excess ≤ k * divisor := by
  rw [absDiff_le_iff, fdiv_le_iff positive, ← sub_le_iff_le_add, le_fdiv_iff positive]
  constructor
  · rintro ⟨above, below⟩
    constructor <;> linarith
  · rintro ⟨above, below⟩
    constructor <;> linarith

theorem stepDivisor_nonneg (admissible : curve.Admissible xp.length) (unsigned : ∀ x ∈ xp, 0 ≤ x)
    (start : 0 ≤ d) (computed : curve.productTerm xp.length d xp = .ok product) :
    0 ≤ curve.stepDivisor xp d product := by
  have precision : (0 : Int) < curve.precision := admissible.precision
  have amp := admissible.amp
  have multiplied := curve.productTerm_nonneg (Int.natCast_nonneg _) unsigned start computed
  have damped := Int.fdiv_nonneg
    (mul_nonneg (show 0 ≤ curve.amp * xp.length - curve.precision by omega) start) precision.le
  unfold stepDivisor
  positivity

/-- The divisor and the excess of a step against the equation: what the product term and the damping
have lost to rounding is missing in both. -/
theorem exists_roundings (admissible : curve.Admissible xp.length) (nonneg : 0 ≤ d)
    (divisors : ∀ x ∈ xp, 0 < curve.divisor xp.length x)
    (computed : curve.productTerm xp.length d xp = .ok product) :
    ∃ lost rest : ℚ, 0 ≤ lost ∧ lost ≤ drift (curve.divisor xp.length) d 0 xp ∧ 0 ≤ rest ∧
      rest < 1 ∧
      curve.stepDivisor xp d product =
        d * (curve.equation xp).slope d - rest - (xp.length + 1) * lost ∧
      curve.excess xp d product =
        (curve.equation xp).level d - curve.weighted xp - lost - rest := by
  have sound := sound_of_divisors admissible divisors
  obtain ⟨below, above⟩ := productTerm_bounds sound nonneg divisors computed
  obtain ⟨low, high⟩ := damping_bounds curve xp d admissible.precision
  refine ⟨(d : ℚ) ^ (xp.length + 1) / (curve.equation xp).divisor - product,
    ((curve.equation xp).leverage - 1) * d -
      ((curve.amp * xp.length - curve.precision) * d).fdiv curve.precision,
    by linarith, by linarith, by linarith, by linarith, ?_, ?_⟩
  · unfold stepDivisor Equation.slope
    rw [equation_count, pow_succ', mul_div_assoc]
    push_cast
    ring
  · unfold excess Equation.level
    rw [equation_count]
    push_cast
    ring

theorem drift_mono {divisor : Int → Int} {d e loss loss' : ℚ} {balances : List Int} (nonneg : 0 ≤ d)
    (below : d ≤ e) (unsigned : 0 ≤ loss) (less : loss ≤ loss')
    (positive : ∀ x ∈ balances, 0 < divisor x) :
    drift divisor d loss balances ≤ drift divisor e loss' balances := by
  induction balances generalizing loss loss' with
  | nil => exact less
  | cons x balances ih =>
      have first : (0 : ℚ) < divisor x := by exact_mod_cast positive x (by simp)
      have unsigned' : 0 ≤ loss' := unsigned.trans less
      have next : loss * (d / divisor x) + 1 ≤ loss' * (e / divisor x) + 1 := by gcongr
      exact ih (by positivity) next fun y member => positive y (by simp [member])

theorem drift_nonneg {divisor : Int → Int} {d loss : ℚ} {balances : List Int} (nonneg : 0 ≤ d)
    (unsigned : 0 ≤ loss) (positive : ∀ x ∈ balances, 0 < divisor x) :
    0 ≤ drift divisor d loss balances := by
  induction balances generalizing loss with
  | nil => exact unsigned
  | cons x balances ih =>
      have first : (0 : ℚ) < divisor x := by exact_mod_cast positive x (by simp)
      have next : 0 ≤ loss * (d / divisor x) + 1 := by positivity
      exact ih next fun y member => positive y (by simp [member])

/-- The most that the terms of a step from a neighbour of `d` lose to rounding. -/
def noise (curve : Curve) (xp : List Int) (d : Int) : ℚ :=
  1 + drift (curve.divisor xp.length) (d + 1) 0 xp

/-- By how much the slope turns between the neighbours of `d`. -/
def turn (curve : Curve) (xp : List Int) (d : Int) : ℚ :=
  (curve.equation xp).slope (d + 1) - (curve.equation xp).slope (d - 1)

/-- The rounding of a step near `d` weighs no more than `k` units against the slope of the equation. -/
def Quiet (curve : Curve) (xp : List Int) (d k : Int) : Prop :=
  curve.noise xp d * (1 + (k + 1) * (xp.length + 1) / (d - 1)) + curve.turn xp d ≤
    k * (curve.equation xp).slope d

instance (curve : Curve) (xp : List Int) (d k : Int) : Decidable (curve.Quiet xp d k) :=
  inferInstanceAs (Decidable (_ ≤ _))

namespace Settled

variable {previous damping : Int}

/-- One unit above the result, the tangent in the value before the last step is above the right side. -/
theorem lt_tangent (settled : curve.Settled xp d previous product damping) (nonneg : 0 ≤ d) :
    (curve.weighted xp : ℚ) < (curve.equation xp).level previous +
      (curve.equation xp).slope previous * (d + 1 - previous) := by
  have passed : (curve.weighted xp + product * xp.length) * previous <
      (d + 1) * (damping + product * (xp.length + 1)) := by
    have bound := lt_add_one d
    rwa [settled.value, fdiv_lt_iff settled.positive, ← settled.value] at bound
  have cast : (curve.weighted xp + product * xp.length : ℚ) * previous <
      (d + 1) * (damping + product * (xp.length + 1)) := by exact_mod_cast passed
  have positive : (0 : ℚ) < previous := by exact_mod_cast settled.previous_pos
  have near : (previous : ℚ) ≤ d + 1 := by exact_mod_cast settled.near.2
  have start : (0 : ℚ) ≤ d := by exact_mod_cast nonneg
  have turned : 0 ≤ (xp.length + 1 : ℚ) * (d + 1) - xp.length * previous := by
    linarith [mul_le_mul_of_nonneg_left near (show (0 : ℚ) ≤ xp.length from Nat.cast_nonneg _)]
  have multiplied := mul_le_mul_of_nonneg_right settled.product_le turned
  have damped := mul_le_mul_of_nonneg_left settled.damping_le (show (0 : ℚ) ≤ d + 1 by linarith)
  rw [pow_succ', mul_div_assoc] at multiplied
  apply lt_of_mul_lt_mul_right _ positive.le
  unfold Equation.level Equation.slope
  rw [equation_count, pow_succ', mul_div_assoc]
  linarith

end Settled

theorem slope_mul_le_turn (sound : (curve.equation xp).Sound) {e : Int} (large : 2 ≤ d)
    (near : d ≤ e + 1 ∧ e ≤ d + 1) :
    ((curve.equation xp).slope d - (curve.equation xp).slope e) * (d - e) ≤ curve.turn xp d := by
  have start : (2 : ℚ) ≤ d := by exact_mod_cast large
  have lower := Equation.slope_mono sound (show (0 : ℚ) ≤ d - 1 by linarith)
    (show (d : ℚ) - 1 ≤ d by linarith)
  have upper := Equation.slope_mono sound (show (0 : ℚ) ≤ d by linarith)
    (show (d : ℚ) ≤ d + 1 by linarith)
  unfold turn
  obtain rfl | rfl | rfl : e = d ∨ e = d - 1 ∨ e = d + 1 := by omega
  · linarith
  · push_cast
    linarith
  · push_cast
    linarith

theorem noise_pos (divisors : ∀ x ∈ xp, 0 < curve.divisor xp.length x) (nonneg : 0 ≤ d) :
    1 ≤ curve.noise xp d := by
  have start : (0 : ℚ) ≤ d := by exact_mod_cast nonneg
  unfold noise
  linarith [drift_nonneg (show (0 : ℚ) ≤ d + 1 by linarith) (le_refl 0) divisors]

/-- A neighbour of `d` loses no more than the noise at `d` allows for. -/
theorem drift_le_noise {e : Int} (divisors : ∀ x ∈ xp, 0 < curve.divisor xp.length x)
    (nonneg : 0 ≤ e) (near : e ≤ d + 1) :
    1 + drift (curve.divisor xp.length) e 0 xp ≤ curve.noise xp d :=
  add_le_add_right (drift_mono (by exact_mod_cast nonneg) (by exact_mod_cast near) (le_refl 0)
    (le_refl 0) divisors) 1

/-- The left side at the result does not pass the right side by more than the last step has rounded. -/
theorem level_sub_weighted_le {previous damping : Int}
    (settled : curve.Settled xp d previous product damping) (large : 2 ≤ d) :
    (curve.equation xp).level d - curve.weighted xp ≤
      curve.noise xp d * (1 + (xp.length + 1) / (d - 1)) + curve.turn xp d := by
  have positive : (0 : ℚ) < previous := by exact_mod_cast settled.previous_pos
  have risen : (d : ℚ) ≤ previous + 1 := by exact_mod_cast settled.near.1
  have start : (2 : ℚ) ≤ d := by exact_mod_cast large
  have count : (0 : ℚ) ≤ xp.length := Nat.cast_nonneg _
  obtain ⟨lost, same⟩ : ∃ lost, lost =
    (previous : ℚ) ^ (xp.length + 1) / (curve.equation xp).divisor - product := ⟨_, rfl⟩
  have unsigned : 0 ≤ lost := by linarith [settled.product_le]
  have within : 1 + lost ≤ curve.noise xp d := by
    linarith [settled.le_product, drift_le_noise settled.divisors settled.nonneg settled.near.2]
  have missing : (previous : ℚ) ^ (xp.length + 1) / (curve.equation xp).divisor = product + lost := by
    linarith
  have tangent := settled.tangent_le (by omega) missing
  have below := Equation.tangent_le_level settled.sound (show (0 : ℚ) ≤ d by linarith) positive.le
  have turned := slope_mul_le_turn settled.sound large settled.near
  have units := mul_le_mul_of_nonneg_left risen (show (0 : ℚ) ≤ xp.length + 1 by linarith)
  have rounded : (previous : ℚ) * ((curve.equation xp).level previous +
      (curve.equation xp).slope previous * (d - previous) - curve.weighted xp) ≤
      curve.noise xp d * (previous + (xp.length + 1)) := by
    calc
      _ ≤ d + lost * ((xp.length + 1) * d - xp.length * previous) := tangent
      _ ≤ (previous + (xp.length + 1)) + lost * (previous + (xp.length + 1)) :=
        add_le_add (by linarith) (mul_le_mul_of_nonneg_left (by linarith) unsigned)
      _ = (1 + lost) * (previous + (xp.length + 1)) := by ring
      _ ≤ curve.noise xp d * (previous + (xp.length + 1)) :=
        mul_le_mul_of_nonneg_right within (by positivity)
  have divided : (curve.equation xp).level previous +
      (curve.equation xp).slope previous * (d - previous) - curve.weighted xp ≤
      curve.noise xp d * (1 + (xp.length + 1) / (d - 1)) := by
    calc
      _ ≤ curve.noise xp d * (previous + (xp.length + 1)) / previous := by
        rw [le_div_iff₀' positive]
        exact rounded
      _ = curve.noise xp d * (1 + (xp.length + 1) / previous) := by
        rw [mul_div_assoc, add_div, div_self positive.ne']
      _ ≤ curve.noise xp d * (1 + (xp.length + 1) / (d - 1)) := by
        have := noise_pos settled.divisors (show 0 ≤ d by omega)
        have : (0 : ℚ) < d - 1 := by linarith
        gcongr
        linarith
  linarith

theorem weighted_sub_level_lt {previous damping : Int}
    (settled : curve.Settled xp d previous product damping) (large : 2 ≤ d) :
    curve.weighted xp - (curve.equation xp).level d <
      (curve.equation xp).slope d + curve.turn xp d := by
  have start : (2 : ℚ) ≤ d := by exact_mod_cast large
  have origin : (0 : ℚ) ≤ previous := by exact_mod_cast settled.nonneg
  have near : (previous : ℚ) ≤ d + 1 := by exact_mod_cast settled.near.2
  have passed := settled.lt_tangent (show 0 ≤ d by omega)
  have below := Equation.tangent_le_level settled.sound origin (show (0 : ℚ) ≤ d by linarith)
  have upper := Equation.slope_mono settled.sound origin near
  have lower := Equation.slope_mono settled.sound (show (0 : ℚ) ≤ d - 1 by linarith)
    (show (d : ℚ) - 1 ≤ d by linarith)
  unfold turn
  linarith

/-- The divisor of a step is positive and its excess small, each up to what the terms can lose. -/
theorem step_bounds {previous damping taken : Int} (admissible : curve.Admissible xp.length)
    (settled : curve.Settled xp d previous taken damping) (large : 2 ≤ d)
    (computed : curve.productTerm xp.length d xp = .ok product) :
    d * (curve.equation xp).slope d - curve.noise xp d * (xp.length + 1) ≤
        curve.stepDivisor xp d product ∧
      curve.excess xp d product ≤
        curve.noise xp d * (1 + (xp.length + 1) / (d - 1)) + curve.turn xp d ∧
      -((curve.equation xp).slope d + curve.turn xp d + curve.noise xp d) <
        curve.excess xp d product := by
  obtain ⟨lost, rest, lostNonneg, lostLe, restNonneg, restLt, divisor, excess⟩ :=
    exists_roundings admissible (show 0 ≤ d by omega) settled.divisors computed
  have within : 1 + lost ≤ curve.noise xp d := by
    linarith [drift_le_noise (d := d) settled.divisors (show 0 ≤ d by omega) (by omega)]
  have share := mul_le_mul_of_nonneg_left within (show (0 : ℚ) ≤ xp.length + 1 by positivity)
  rw [divisor, excess]
  refine ⟨?_, ?_, ?_⟩
  · linarith [show (0 : ℚ) ≤ xp.length from Nat.cast_nonneg _]
  · linarith [level_sub_weighted_le settled large]
  · linarith [weighted_sub_level_lt settled large]

/-- A step from the result moves by no more than `k` where the rounding near it is quiet enough. -/
theorem step_near_of_quiet {k : Int} (admissible : curve.Admissible xp.length)
    (unsigned : ∀ x ∈ xp, 0 ≤ x) (present : total xp ≠ 0) (computed : curve.invariant xp = .ok d)
    (small : 1 ≤ k) (large : 2 ≤ d) (quiet : curve.Quiet xp d k) :
    ∃ next, curve.invariantStep xp (total xp) d = .ok next ∧ absDiff next d ≤ k := by
  obtain ⟨previous, _, damping, settled⟩ :=
    settled_of_invariant admissible unsigned present computed
  obtain ⟨product, multiplied⟩ : ∃ product, curve.productTerm xp.length d xp = .ok product :=
    Priced.exists_foldlM (fun x member term => ⟨_, if_neg (settled.divisors x member).ne'⟩) d
  obtain ⟨wide, low, high⟩ := step_bounds admissible settled large multiplied
  have precision : (0 : Int) < curve.precision := admissible.precision
  have start : (2 : ℚ) ≤ d := by exact_mod_cast large
  have factor : (1 : ℚ) ≤ k := by exact_mod_cast small
  have loud := noise_pos settled.divisors (show 0 ≤ d by omega)
  have turned : 0 ≤ curve.turn xp d := by
    have := slope_mul_le_turn settled.sound large (e := d) (by omega)
    rwa [sub_self, zero_mul] at this
  obtain ⟨u, ratio⟩ : ∃ u : ℚ, u = (xp.length + 1) / (d - 1) := ⟨_, rfl⟩
  have unit : (xp.length + 1 : ℚ) ≤ d * u := by
    rw [ratio, mul_div_assoc', le_div_iff₀ (by linarith), mul_comm (d : ℚ)]
    exact mul_le_mul_of_nonneg_left (by linarith) (by positivity)
  have noisy := mul_le_mul_of_nonneg_left unit (show 0 ≤ curve.noise xp d by linarith)
  have repeated := mul_le_mul_of_nonneg_left noisy (show (0 : ℚ) ≤ k by linarith)
  have scaled := mul_le_mul_of_nonneg_left quiet (show (0 : ℚ) ≤ d by linarith)
  have bounded := mul_le_mul_of_nonneg_left wide (show (0 : ℚ) ≤ k by linarith)
  rw [mul_div_assoc, ← ratio] at scaled
  rw [← ratio] at low
  have above := mul_le_mul_of_nonneg_left low (show (0 : ℚ) ≤ d by linarith)
  have below := mul_lt_mul_of_pos_left high (show (0 : ℚ) < d by linarith)
  have twist := mul_nonneg (show (0 : ℚ) ≤ d by linarith) turned
  have positive : 0 < curve.stepDivisor xp d product := by
    have : (0 : ℚ) < k * curve.stepDivisor xp d product := by
      have kept : 0 < d * curve.noise xp d := mul_pos (by linarith) (by linarith)
      have counted : 0 ≤ curve.noise xp d * (xp.length + 1) :=
        mul_nonneg (by linarith) (by positivity)
      linarith
    exact_mod_cast pos_of_mul_pos_right this (show (0 : ℚ) ≤ k by linarith)
  refine ⟨_, (invariantStep_iff precision.ne').mpr ⟨product, multiplied, positive.ne', rfl⟩, ?_⟩
  rw [absDiff_step_le_iff positive]
  constructor
  · have : (-((k + 1) * curve.stepDivisor xp d product) : ℚ) < d * curve.excess xp d product := by
      linarith
    exact_mod_cast this
  · have : (d * curve.excess xp d product : ℚ) ≤ k * curve.stepDivisor xp d product := by
      linarith
    exact_mod_cast this

section
variable {divisor : Int → Int} {e : ℚ} {balances : List Int}

theorem prod_ratios_pos (start : 0 < e) (positive : ∀ x ∈ balances, 0 < divisor x) :
    0 < (balances.map fun x => e / divisor x).prod :=
  List.prod_pos fun ratio member => by
    obtain ⟨x, held, rfl⟩ := List.mem_map.mp member
    exact div_pos start (by exact_mod_cast positive x held)

/-- If the first of ascending balances lowers a product of ratios, so do all that follow it. -/
theorem prod_tail_le {first : Int} (mono : ∀ x y, x ≤ y → divisor x ≤ divisor y) (start : 0 < e)
    (positive : ∀ x ∈ first :: balances, 0 < divisor x)
    (ascending : (first :: balances).Pairwise (· ≤ ·)) :
    (balances.map fun x => e / divisor x).prod ≤
      max 1 ((first :: balances).map fun x => e / divisor x).prod := by
  obtain ⟨least, -⟩ := List.pairwise_cons.mp ascending
  obtain ⟨head, others⟩ := List.forall_mem_cons.mp positive
  have lowest : (0 : ℚ) < divisor first := by exact_mod_cast head
  rcases le_or_gt 1 (e / divisor first) with raises | lowers
  · refine le_max_of_le_right ?_
    rw [List.map_cons, List.prod_cons]
    exact le_mul_of_one_le_left (prod_ratios_pos start others).le raises
  · refine le_max_of_le_left ?_
    have each := List.prod_map_le_prod_map₀ (s := balances) (fun x => e / (divisor x : ℚ)) (fun _ => 1)
      (fun x held => (div_pos start (by exact_mod_cast others x held)).le) fun x held => by
        have order : (divisor first : ℚ) ≤ divisor x := by exact_mod_cast mono first x (least x held)
        exact (div_le_div_of_nonneg_left start.le lowest order).trans lowers.le
    simpa using each

theorem prod_back_le_of_ascending {front back : List Int} {x : Int}
    (mono : ∀ x y, x ≤ y → divisor x ≤ divisor y) (start : 0 < e)
    (positive : ∀ y ∈ front ++ x :: back, 0 < divisor y)
    (ascending : (front ++ x :: back).Pairwise (· ≤ ·)) :
    (back.map fun y => e / divisor y).prod ≤
      max 1 ((front ++ x :: back).map fun y => e / divisor y).prod := by
  induction front with
  | nil => exact prod_tail_le mono start positive ascending
  | cons first front ih =>
      have others : ∀ y ∈ front ++ x :: back, 0 < divisor y :=
        fun y member => positive y (List.mem_cons_of_mem first member)
      have rest := ih others (List.pairwise_cons.mp ascending).2
      exact rest.trans (max_le (le_max_left _ _) (prod_tail_le mono start positive ascending))

/-- A loss on the way through ascending balances is not carried further than the term itself. -/
theorem drift_le_of_ascending (mono : ∀ x y, x ≤ y → divisor x ≤ divisor y) (start : 0 < e)
    (positive : ∀ x ∈ balances, 0 < divisor x) (ascending : balances.Pairwise (· ≤ ·)) :
    drift divisor e 0 balances ≤
      balances.length * max 1 (e ^ balances.length / ((balances.map divisor).prod : Int)) := by
  rw [← prod_ratios_eq]
  apply drift_le
  rintro front x back rfl
  exact prod_back_le_of_ascending mono start positive ascending

end

/-- The ratio of the exact term to the value, and how the slope depends on it. -/
theorem slope_eq (e : ℚ) : (curve.equation xp).slope e =
    (curve.equation xp).leverage - 1 + (xp.length + 1) * (e ^ xp.length / (curve.equation xp).divisor) :=
  rfl

/-- Around a great value the ratio grows and the slope turns by a small part of the ratio. -/
theorem ratio_bounds {a b : ℚ} (sound : (curve.equation xp).Sound) (some : 1 ≤ xp.length)
    (large : 8 * ((xp.length : ℚ) + 1) ^ 2 ≤ d)
    (ratio : a = (d : ℚ) ^ xp.length / (curve.equation xp).divisor)
    (next : b = (d + 1 : ℚ) ^ xp.length / (curve.equation xp).divisor) :
    0 ≤ a ∧ a ≤ b ∧ 15 * b ≤ 16 * a ∧ xp.length * b ≤ xp.length * a + b / 8 ∧
      curve.turn xp d ≤ (a + b) / 8 := by
  have count : (1 : ℚ) ≤ xp.length := by exact_mod_cast some
  have square : (xp.length + 1 : ℚ) ^ 2 = xp.length * xp.length + 2 * xp.length + 1 := by ring
  have quadratic := mul_le_mul_of_nonneg_left count (show (0 : ℚ) ≤ xp.length by linarith)
  have start : (0 : ℚ) < d := by linarith
  have positive := sound.divisor
  have nonneg : 0 ≤ a := by rw [ratio]; positivity
  have order : a ≤ b := by
    rw [ratio, next]
    gcongr
    linarith
  have rise := Equation.slope_sub_slope_le sound (show (1 : ℚ) ≤ d + 1 by linarith)
  have fall := Equation.slope_sub_slope_le sound (show (1 : ℚ) ≤ d by linarith)
  rw [add_sub_cancel_right] at rise
  have turned : curve.turn xp d = ((curve.equation xp).slope (d + 1) - (curve.equation xp).slope d) +
      ((curve.equation xp).slope d - (curve.equation xp).slope (d - 1)) := by
    unfold turn
    ring
  rw [equation_count, ← next] at rise
  rw [equation_count, ← ratio] at fall
  have first : (curve.equation xp).slope (d + 1) - (curve.equation xp).slope d =
      (xp.length + 1) * (b - a) := by
    rw [slope_eq, slope_eq, ← next, ← ratio]
    ring
  have wide : (xp.length + 1) * xp.length ≤ (d : ℚ) / 8 := by linarith
  have grown : (xp.length + 1) * (b - a) ≤ b / 8 := by
    rw [first] at rise
    apply le_of_mul_le_mul_left _ (show (0 : ℚ) < d + 1 by linarith)
    linarith [mul_le_mul_of_nonneg_right wide (nonneg.trans order)]
  have fallen : (curve.equation xp).slope d - (curve.equation xp).slope (d - 1) ≤ a / 8 := by
    apply le_of_mul_le_mul_left _ start
    linarith [mul_le_mul_of_nonneg_right wide nonneg]
  have several := mul_le_mul_of_nonneg_right count (sub_nonneg.mpr order)
  refine ⟨nonneg, order, by linarith, by linarith, ?_⟩
  rw [turned, first]
  linarith

/-- Ascending balances with some amplification make the step quiet around a value that is not small. -/
theorem quiet_of_ascending (admissible : curve.Admissible xp.length) (some : 1 ≤ xp.length)
    (divisors : ∀ x ∈ xp, 0 < curve.divisor xp.length x) (ascending : xp.Pairwise (· ≤ ·))
    (amplified : (xp.length + 3) * curve.precision ≤ curve.amp * xp.length)
    (large : 8 * ((xp.length : Int) + 1) ^ 2 ≤ d) : curve.Quiet xp d 1 := by
  have sound := sound_of_divisors admissible divisors
  have great : 8 * ((xp.length : ℚ) + 1) ^ 2 ≤ d := by exact_mod_cast large
  have count : (1 : ℚ) ≤ xp.length := by exact_mod_cast some
  have precision : (0 : ℚ) < curve.precision := by
    exact_mod_cast (show (0 : Int) < curve.precision from admissible.precision)
  have leverage : (xp.length + 3 : ℚ) ≤ (curve.equation xp).leverage := by
    rw [equation_leverage, le_div_iff₀ precision]
    exact_mod_cast amplified
  obtain ⟨a, ratio⟩ : ∃ a : ℚ, a = (d : ℚ) ^ xp.length / (curve.equation xp).divisor := ⟨_, rfl⟩
  obtain ⟨b, next⟩ : ∃ b : ℚ, b = (d + 1 : ℚ) ^ xp.length / (curve.equation xp).divisor := ⟨_, rfl⟩
  obtain ⟨nonneg, order, close, grown, turned⟩ := ratio_bounds sound some great ratio next
  have square : (1 : ℚ) ≤ ((xp.length : ℚ) + 1) ^ 2 := one_le_pow₀ (by linarith)
  have start : (0 : ℚ) < d - 1 := by linarith
  have lost : curve.noise xp d ≤ 1 + xp.length * max 1 b := by
    have bound := drift_le_of_ascending (e := (d + 1 : ℚ))
      (fun x y => curve.divisor_mono (Int.natCast_nonneg xp.length)) (by linarith) divisors ascending
    rw [← equation_divisor, ← next] at bound
    exact add_le_add_right bound 1
  have unit : 1 ≤ max 1 b := le_max_left 1 b
  have whole : curve.noise xp d ≤ (xp.length + 1) * max 1 b := by linarith
  have part : (xp.length + 1) * (2 * (xp.length + 1) / (d - 1)) ≤ (2 / 7 : ℚ) := by
    rw [← mul_div_assoc, div_le_iff₀ start]
    linarith
  have extra : curve.noise xp d * (2 * (xp.length + 1) / (d - 1)) ≤ 2 / 7 * max 1 b := by
    calc
      _ ≤ (xp.length + 1) * max 1 b * (2 * (xp.length + 1) / (d - 1)) :=
        mul_le_mul_of_nonneg_right whole (by positivity)
      _ = (xp.length + 1) * (2 * (xp.length + 1) / (d - 1)) * max 1 b := by ring
      _ ≤ 2 / 7 * max 1 b := mul_le_mul_of_nonneg_right part (by linarith)
  unfold Quiet
  rw [slope_eq, ← ratio, Int.cast_one, one_mul, one_add_one_eq_two, mul_add, mul_one]
  have slope : 0 ≤ (xp.length : ℚ) * a := mul_nonneg (by linarith) nonneg
  rcases le_total b 1 with low | high
  · rw [max_eq_left low] at lost extra
    linarith
  · rw [max_eq_right high] at lost extra
    linarith

/-- The invariant is where a step from a neighbour leads. A step from the invariant itself moves by no
more than `k` exactly if the excess there is small against the divisor, which it is where the rounding
is quiet enough; ascending balances are quiet enough for one unit, if the amplification and the
invariant are not too small. -/
theorem next_step_near (curve : Curve) (xp : List Int) (d : Int)
    (admissible : curve.Admissible xp.length) (unsigned : ∀ x ∈ xp, 0 ≤ x) (present : total xp ≠ 0)
    (computed : curve.invariant xp = .ok d) :
    (∃ previous, curve.invariantStep xp (total xp) previous = .ok d ∧
      withinOne d previous = true) ∧
    (∀ k, (∃ next, curve.invariantStep xp (total xp) d = .ok next ∧ absDiff next d ≤ k) ↔
      ∃ product, curve.productTerm xp.length d xp = .ok product ∧
        0 < curve.stepDivisor xp d product ∧
        -((k + 1) * curve.stepDivisor xp d product) < d * curve.excess xp d product ∧
        d * curve.excess xp d product ≤ k * curve.stepDivisor xp d product) ∧
    (∀ k, 1 ≤ k → 2 ≤ d → curve.Quiet xp d k →
      ∃ next, curve.invariantStep xp (total xp) d = .ok next ∧ absDiff next d ≤ k) ∧
    (xp.Pairwise (· ≤ ·) → (xp.length + 3) * curve.precision ≤ curve.amp * xp.length →
      8 * ((xp.length : Int) + 1) ^ 2 ≤ d →
      ∃ next, curve.invariantStep xp (total xp) d = .ok next ∧ withinOne next d = true) := by
  have precision : (0 : Int) < curve.precision := admissible.precision
  have nonneg := invariant_nonneg admissible unsigned computed
  refine ⟨?_, ?_, ?_, ?_⟩
  · rw [invariant, if_neg present] at computed
    obtain ⟨previous, -, step, near⟩ := Newton.settle_visits computed
    exact ⟨previous, step, near⟩
  · intro k
    simp only [invariantStep_iff precision.ne']
    constructor
    · rintro ⟨_, ⟨product, multiplied, divisible, rfl⟩, near⟩
      have positive := (stepDivisor_nonneg admissible unsigned nonneg multiplied).lt_of_ne'
        divisible
      exact ⟨product, multiplied, positive, (absDiff_step_le_iff positive).mp near⟩
    · rintro ⟨product, multiplied, positive, small⟩
      exact ⟨_, ⟨product, multiplied, positive.ne', rfl⟩, (absDiff_step_le_iff positive).mpr small⟩
  · intro k small large quiet
    exact step_near_of_quiet admissible unsigned present computed small large quiet
  · intro ascending amplified large
    obtain ⟨_, _, _, settled⟩ := settled_of_invariant admissible unsigned present computed
    have square : (1 : Int) ≤ ((xp.length : Int) + 1) ^ 2 := one_le_pow₀ (by omega)
    obtain ⟨next, step, near⟩ := step_near_of_quiet admissible unsigned present computed (le_refl 1)
      (by omega) (quiet_of_ascending admissible settled.count settled.divisors ascending amplified
        large)
    exact ⟨next, step, decide_eq_true near⟩

/-- A pool that leans by far to its first coin, and the same balances in the other order. -/
theorem leaningPair_next_steps :
    (⟨100, 1, false⟩ : Curve).Admissible 2 ∧
      (⟨100, 1, false⟩ : Curve).invariant [10 ^ 24, 7 * 10 ^ 18] = .ok 167134953026929192461880 ∧
      (⟨100, 1, false⟩ : Curve).Quiet [10 ^ 24, 7 * 10 ^ 18] 167134953026929192461880 4 ∧
      (∃ next, (⟨100, 1, false⟩ : Curve).invariantStep [10 ^ 24, 7 * 10 ^ 18]
          (total [10 ^ 24, 7 * 10 ^ 18]) 167134953026929192461880 = .ok next ∧
        absDiff next 167134953026929192461880 ≤ 4) ∧
      (⟨100, 1, false⟩ : Curve).invariant [7 * 10 ^ 18, 10 ^ 24] = .ok 167134953026929192461879 ∧
      ∃ next, (⟨100, 1, false⟩ : Curve).invariantStep [7 * 10 ^ 18, 10 ^ 24]
          (total [7 * 10 ^ 18, 10 ^ 24]) 167134953026929192461879 = .ok next ∧
        withinOne next 167134953026929192461879 = true := by
  have admissible : (⟨100, 1, false⟩ : Curve).Admissible 2 := ⟨by decide, by decide⟩
  have leaning : (⟨100, 1, false⟩ : Curve).invariant [10 ^ 24, 7 * 10 ^ 18] =
      .ok 167134953026929192461880 := by decide +kernel
  have ascending : (⟨100, 1, false⟩ : Curve).invariant [7 * 10 ^ 18, 10 ^ 24] =
      .ok 167134953026929192461879 := by decide +kernel
  have quiet : (⟨100, 1, false⟩ : Curve).Quiet [10 ^ 24, 7 * 10 ^ 18]
      167134953026929192461880 4 := by decide +kernel
  exact ⟨admissible, leaning, quiet,
    (next_step_near _ _ _ admissible (by decide) (by decide) leaning).2.2.1 4 (by decide) (by decide)
      quiet,
    ascending, (next_step_near _ _ _ admissible (by decide) (by decide) ascending).2.2.2 (by decide)
      (by decide) (by decide)⟩

/-- The next step for a million units of the first coin and seven of the second moves by three. -/
theorem next_step_moves_three :
    ¬ ∀ (curve : Curve) (xp : List Int) (d : Int), curve.Admissible xp.length → 2 ≤ xp.length →
      (∀ x ∈ xp, 0 < x) → curve.invariant xp = .ok d →
      ∃ next, curve.invariantStep xp (total xp) d = .ok next ∧ withinOne next d = true := by
  intro settles
  have computed : (⟨100, 1, false⟩ : Curve).invariant [10 ^ 24, 7 * 10 ^ 18] =
      .ok 167134953026929192461880 := by decide +kernel
  have moved : (⟨100, 1, false⟩ : Curve).invariantStep [10 ^ 24, 7 * 10 ^ 18]
      (total [10 ^ 24, 7 * 10 ^ 18]) 167134953026929192461880 = .ok 167134953026929192461883 := by
    decide +kernel
  obtain ⟨next, step, near⟩ := settles ⟨100, 1, false⟩ [10 ^ 24, 7 * 10 ^ 18] _
    ⟨by decide, by decide⟩ (by decide) (by decide) computed
  rw [moved] at step
  obtain rfl := Except.ok.inj step
  exact absurd near (by decide)

end Curve
end Stable
end Amm
