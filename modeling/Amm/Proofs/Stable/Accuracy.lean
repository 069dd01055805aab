import Amm.Proofs.Equation
import Amm.Proofs.Stable.Solver
import Mathlib.Algebra.Order.BigOperators.GroupWithZero.List
import Mathlib.Tactic.LinearCombination

/-!
How far the invariant of a stable pool is from the solution of its equation. The product term is
rounded down after every division. The iteration therefore never ends below an integer that the
equation allows, and it ends above one that the equation does not allow by what the product term has
lost.
-/

namespace Amm
namespace Stable
namespace Curve

variable {curve : Curve} {n d : Int} {others xp : List Int}

/-- The equation of the balances with the divisors that the curve uses. -/
def equation (curve : Curve) (xp : List Int) : Equation where
  count := xp.length
  divisor := ((xp.map (curve.divisor xp.length)).prod : Int)
  leverage := curve.amp * xp.length / curve.precision

@[simp] theorem equation_count (curve : Curve) (xp : List Int) :
    (curve.equation xp).count = xp.length :=
  rfl

@[simp] theorem equation_divisor (curve : Curve) (xp : List Int) :
    (curve.equation xp).divisor = ((xp.map (curve.divisor xp.length)).prod : Int) :=
  rfl

@[simp] theorem equation_leverage (curve : Curve) (xp : List Int) :
    (curve.equation xp).leverage = curve.amp * xp.length / curve.precision :=
  rfl

/-- The right side of the equation as the iteration takes it, rounded down. -/
def weighted (curve : Curve) (xp : List Int) : Int :=
  (curve.amp * xp.length * total xp).fdiv curve.precision

/-- A term that is multiplied by the invariant and divided by each balance in turn. -/
def dividedTerm (divisor : Int → Int) (d start : Int) (balances : List Int) : Priced Int :=
  balances.foldlM
    (fun term x =>
      if divisor x = 0 then Priced.refuse .zero else .ok ((term * d).fdiv (divisor x))) start

theorem productTerm_eq (curve : Curve) (n d : Int) (xp : List Int) :
    curve.productTerm n d xp = dividedTerm (curve.divisor n) d d xp :=
  rfl

theorem remainingTerm_eq (count : n ≠ 0) :
    remainingTerm n d others = dividedTerm (· * n) d d others := by
  simp only [remainingTerm, dividedTerm, mul_eq_zero, count, or_false]

/-- What a term can lose by rounding down after each division, on top of a loss at the start. -/
def drift (divisor : Int → Int) (d loss : ℚ) (balances : List Int) : ℚ :=
  balances.foldl (fun loss x => loss * (d / divisor x) + 1) loss

/-- A bound on the drift of a product term that outlasts it by the ratio of the term to the
invariant. -/
def spread (divisor : Int → Int) (d : ℚ) (balances : List Int) : ℚ :=
  (balances.map fun x => 1 + d / divisor x).prod

section
variable {divisor : Int → Int} {start term : Int} {x : Int} {balances : List Int}

theorem dividedTerm_cons (computed : dividedTerm divisor d start (x :: balances) = .ok term) :
    divisor x ≠ 0 ∧
      dividedTerm divisor d ((start * d).fdiv (divisor x)) balances = .ok term := by
  rw [dividedTerm, List.foldlM_cons, Priced.bind_eq_ok] at computed
  obtain ⟨next, step, rest⟩ := computed
  by_cases zero : divisor x = 0
  · simp [zero] at step
  · obtain rfl : (start * d).fdiv (divisor x) = next := by simpa [zero] using step
    exact ⟨zero, rest⟩

theorem dividedTerm_pos (unsigned : ∀ x ∈ balances, 0 ≤ divisor x)
    (computed : dividedTerm divisor d start balances = .ok term) :
    ∀ x ∈ balances, 0 < divisor x := by
  intro x member
  obtain ⟨current, next, step⟩ := Priced.foldlM_visits computed member
  refine (unsigned x member).lt_of_ne fun zero => ?_
  simp [← zero] at step

theorem dividedTerm_mul_le (nonneg : 0 ≤ d) (positive : ∀ x ∈ balances, 0 < divisor x)
    (computed : dividedTerm divisor d start balances = .ok term) :
    term * (balances.map divisor).prod ≤ start * d ^ balances.length := by
  induction balances generalizing start with
  | nil =>
      obtain rfl : start = term := by simpa [dividedTerm, pure, Except.pure] using computed
      simp
  | cons x balances ih =>
      obtain ⟨-, rest⟩ := dividedTerm_cons computed
      have first : 0 < divisor x := positive x (by simp)
      have kept := ih (fun y member => positive y (by simp [member])) rest
      have rounded := (le_fdiv_iff first).mp (le_refl ((start * d).fdiv (divisor x)))
      rw [List.map_cons, List.prod_cons, List.length_cons, pow_succ']
      calc
        term * (divisor x * (balances.map divisor).prod) =
            term * (balances.map divisor).prod * divisor x := by ring
        _ ≤ (start * d).fdiv (divisor x) * d ^ balances.length * divisor x :=
          mul_le_mul_of_nonneg_right kept first.le
        _ = (start * d).fdiv (divisor x) * divisor x * d ^ balances.length := by ring
        _ ≤ start * d * d ^ balances.length :=
          mul_le_mul_of_nonneg_right rounded (pow_nonneg nonneg _)
        _ = start * (d * d ^ balances.length) := mul_assoc _ _ _

theorem le_dividedTerm_add_drift {exact loss : ℚ} (nonneg : 0 ≤ d)
    (positive : ∀ x ∈ balances, 0 < divisor x) (close : exact ≤ start + loss)
    (computed : dividedTerm divisor d start balances = .ok term) :
    exact * (d ^ balances.length / ((balances.map divisor).prod : Int)) ≤
      term + drift divisor d loss balances := by
  induction balances generalizing start exact loss with
  | nil =>
      obtain rfl : start = term := by simpa [dividedTerm, pure, Except.pure] using computed
      simpa [drift] using close
  | cons x balances ih =>
      obtain ⟨-, rest⟩ := dividedTerm_cons computed
      have first : 0 < divisor x := positive x (by simp)
      have ratio : (0 : ℚ) ≤ d / divisor x :=
        div_nonneg (by exact_mod_cast nonneg) (by exact_mod_cast first.le)
      have rounded := div_lt_cast_fdiv_add_one (a := start * d) first
      have next : exact * (d / divisor x) ≤
          (start * d).fdiv (divisor x) + (loss * (d / divisor x) + 1) := by
        have scaled := mul_le_mul_of_nonneg_right close ratio
        rw [add_mul] at scaled
        rw [Int.cast_mul, mul_div_assoc] at rounded
        linarith
      calc
        _ = exact * (d / divisor x) *
              (d ^ balances.length / ((balances.map divisor).prod : Int)) := by
          rw [List.map_cons, List.prod_cons, List.length_cons, pow_succ', Int.cast_mul,
            mul_div_mul_comm, mul_assoc]
        _ ≤ _ := ih (fun y member => positive y (by simp [member])) next rest

theorem drift_add_le {d loss ratio bound : ℚ} (nonneg : 0 ≤ d)
    (positive : ∀ x ∈ balances, 0 < divisor x) (unit : 1 ≤ bound) (close : loss + ratio ≤ bound) :
    drift divisor d loss balances +
        ratio * (d ^ balances.length / ((balances.map divisor).prod : Int)) ≤
      bound * spread divisor d balances := by
  induction balances generalizing loss ratio bound with
  | nil => simpa [drift, spread] using close
  | cons x balances ih =>
      have first : (0 : ℚ) < divisor x := by exact_mod_cast positive x (by simp)
      have quotient : 0 ≤ d / divisor x := div_nonneg nonneg first.le
      have grown : 1 ≤ bound * (1 + d / divisor x) :=
        one_le_mul_of_one_le_of_one_le unit (by linarith)
      have scaled := mul_le_mul_of_nonneg_right close quotient
      calc
        _ = drift divisor d (loss * (d / divisor x) + 1) balances +
              ratio * (d / divisor x) *
                (d ^ balances.length / ((balances.map divisor).prod : Int)) := by
          rw [List.map_cons, List.prod_cons, List.length_cons, pow_succ', Int.cast_mul,
            mul_div_mul_comm, ← mul_assoc]
          rfl
        _ ≤ bound * (1 + d / divisor x) * spread divisor d balances :=
          ih (fun y member => positive y (by simp [member])) grown (by linarith)
        _ = _ := by rw [spread, spread, List.map_cons, List.prod_cons, mul_assoc]

theorem spread_mono {d e : ℚ} (nonneg : 0 ≤ d) (below : d ≤ e)
    (positive : ∀ x ∈ balances, 0 < divisor x) :
    spread divisor d balances ≤ spread divisor e balances := by
  refine List.prod_map_le_prod_map₀ _ _ (fun x member => ?_) fun x member => ?_
  · have : (0 : ℚ) < divisor x := by exact_mod_cast positive x member
    positivity
  · have : (0 : ℚ) < divisor x := by exact_mod_cast positive x member
    gcongr

theorem one_le_spread {d : ℚ} (nonneg : 0 ≤ d) (positive : ∀ x ∈ balances, 0 < divisor x) :
    1 ≤ spread divisor d balances := by
  refine List.one_le_prod fun factor member => ?_
  obtain ⟨x, held, rfl⟩ := List.mem_map.mp member
  have : (0 : ℚ) < divisor x := by exact_mod_cast positive x held
  have : 0 ≤ d / divisor x := by positivity
  linarith

end

section
variable {product e previous : Int}

theorem sound_of_divisors (admissible : curve.Admissible xp.length)
    (positive : ∀ x ∈ xp, 0 < curve.divisor xp.length x) : (curve.equation xp).Sound where
  divisor := by
    have product : 0 < (xp.map (curve.divisor xp.length)).prod :=
      List.prod_pos fun divisor member => by
        obtain ⟨x, held, rfl⟩ := List.mem_map.mp member
        exact positive x held
    rw [equation_divisor]
    exact_mod_cast product
  leverage := by
    have precision : (0 : ℚ) < curve.precision := by exact_mod_cast admissible.precision
    rw [equation_leverage, one_le_div precision]
    exact_mod_cast admissible.amp

theorem equation_sound (admissible : curve.Admissible xp.length) (unsigned : ∀ x ∈ xp, 0 ≤ x)
    (computed : curve.productTerm xp.length d xp = .ok product) : (curve.equation xp).Sound := by
  rw [productTerm_eq] at computed
  exact sound_of_divisors admissible (dividedTerm_pos
    (fun x member => curve.divisor_nonneg (Int.natCast_nonneg _) (unsigned x member)) computed)

/-- The damping of a step, rounded down, against the equation. -/
theorem damping_bounds (curve : Curve) (xp : List Int) (d : Int) (precision : 0 < curve.precision) :
    ((((curve.amp * xp.length - curve.precision) * d).fdiv curve.precision : Int) : ℚ) ≤
        ((curve.equation xp).leverage - 1) * d ∧
      ((curve.equation xp).leverage - 1) * d <
        (((curve.amp * xp.length - curve.precision) * d).fdiv curve.precision : Int) + 1 := by
  have cast : (curve.precision : ℚ) ≠ 0 := by exact_mod_cast precision.ne'
  have whole : (((curve.amp * xp.length - curve.precision) * d : Int) : ℚ) / curve.precision =
      ((curve.equation xp).leverage - 1) * d := by
    rw [equation_leverage]
    push_cast
    field_simp
  rw [← whole]
  exact ⟨cast_fdiv_le precision, div_lt_cast_fdiv_add_one precision⟩

/-- The product term of a step against the equation. -/
theorem productTerm_bounds (sound : (curve.equation xp).Sound) (nonneg : 0 ≤ d)
    (divisors : ∀ x ∈ xp, 0 < curve.divisor xp.length x)
    (computed : curve.productTerm xp.length d xp = .ok product) :
    (product : ℚ) ≤ (d : ℚ) ^ (xp.length + 1) / (curve.equation xp).divisor ∧
      (d : ℚ) ^ (xp.length + 1) / (curve.equation xp).divisor ≤
        product + drift (curve.divisor xp.length) d 0 xp := by
  constructor
  · rw [le_div_iff₀ sound.divisor, pow_succ', equation_divisor]
    exact_mod_cast dividedTerm_mul_le nonneg divisors computed
  · rw [pow_succ', mul_div_assoc]
    exact le_dividedTerm_add_drift nonneg divisors (by simp) computed

theorem invariantStep_eq_ok {sum next : Int} (step : curve.invariantStep xp sum d = .ok next) :
    ∃ product damping, curve.productTerm xp.length d xp = .ok product ∧
      damping = ((curve.amp * xp.length - curve.precision) * d).fdiv curve.precision ∧
      damping + product * (xp.length + 1) ≠ 0 ∧
      next = (((curve.amp * xp.length * sum).fdiv curve.precision + product * xp.length) * d).fdiv
        (damping + product * (xp.length + 1)) := by
  simp only [invariantStep, Priced.bind_eq_ok, Priced.bareQuotient_eq_ok,
    Priced.quotient_eq_ok] at step
  obtain ⟨product, computed, _, ⟨-, rfl⟩, damping, ⟨-, rfl⟩, divisible, rfl⟩ := step
  exact ⟨product, _, computed, rfl, divisible, rfl⟩

/-- The last step of the iteration, with the bounds on what it rounds. -/
structure Settled (curve : Curve) (xp : List Int) (d previous product damping : Int) : Prop where
  sound : (curve.equation xp).Sound
  count : 1 ≤ xp.length
  divisors : ∀ x ∈ xp, 0 < curve.divisor xp.length x
  nonneg : 0 ≤ previous
  near : d ≤ previous + 1 ∧ previous ≤ d + 1
  product_nonneg : 0 ≤ product
  product_le : (product : ℚ) ≤
    (previous : ℚ) ^ (xp.length + 1) / (curve.equation xp).divisor
  le_product : (previous : ℚ) ^ (xp.length + 1) / (curve.equation xp).divisor ≤
    product + drift (curve.divisor xp.length) previous 0 xp
  damping_le : (damping : ℚ) ≤ ((curve.equation xp).leverage - 1) * previous
  le_damping : ((curve.equation xp).leverage - 1) * previous < damping + 1
  positive : 0 < damping + product * (xp.length + 1)
  value : d = ((curve.weighted xp + product * xp.length) * previous).fdiv
    (damping + product * (xp.length + 1))

theorem settled_of_invariant (admissible : curve.Admissible xp.length)
    (unsigned : ∀ x ∈ xp, 0 ≤ x) (present : total xp ≠ 0) (computed : curve.invariant xp = .ok d) :
    ∃ previous product damping, curve.Settled xp d previous product damping := by
  have sum : 0 ≤ total xp := total_nonneg unsigned
  have count : (0 : Int) ≤ xp.length := Int.natCast_nonneg _
  rw [invariant, if_neg present] at computed
  obtain ⟨previous, nonneg, step, near⟩ := Newton.settle_ends (0 ≤ ·)
    (fun _ _ start step => invariantStep_nonneg admissible unsigned sum start step) sum computed
  obtain ⟨product, damping, multiplied, damped, divisible, value⟩ := invariantStep_eq_ok step
  have sound := equation_sound admissible unsigned multiplied
  have precision : (0 : Int) < curve.precision := admissible.precision
  have divisors := dividedTerm_pos (fun x member => curve.divisor_nonneg count (unsigned x member))
    multiplied
  have product_nonneg := curve.productTerm_nonneg count unsigned nonneg multiplied
  have damping_nonneg : 0 ≤ damping := by
    rw [damped]
    exact Int.fdiv_nonneg (mul_nonneg (by have := admissible.amp; omega) nonneg) precision.le
  obtain ⟨product_le, le_product⟩ := productTerm_bounds sound nonneg divisors multiplied
  obtain ⟨damping_le, le_damping⟩ := damping_bounds curve xp previous precision
  rw [← damped] at damping_le le_damping
  refine ⟨previous, product, damping, sound, ?_, divisors, nonneg, ?_, product_nonneg, product_le,
    le_product, damping_le, le_damping, ?_, value⟩
  · exact List.length_pos_iff.mpr fun none => present (by rw [none]; rfl)
  · exact near_of_withinOne near
  · have term : 0 ≤ product * (xp.length + 1) := mul_nonneg product_nonneg (by omega)
    omega

/-- The invariant is not below a value that the equation allows. -/
theorem le_invariant (admissible : curve.Admissible xp.length) (unsigned : ∀ x ∈ xp, 0 ≤ x)
    (present : total xp ≠ 0) (start : 0 ≤ e)
    (within : (curve.equation xp).level e ≤ curve.weighted xp)
    (computed : curve.invariant xp = .ok d) : e ≤ d := by
  obtain ⟨previous, product, damping, settled⟩ :=
    settled_of_invariant admissible unsigned present computed
  rw [settled.value, le_fdiv_iff settled.positive]
  have step := Equation.le_step settled.sound (by exact_mod_cast start)
    (by exact_mod_cast settled.nonneg) within (by exact_mod_cast settled.product_nonneg)
    settled.product_le
  have damped := mul_le_mul_of_nonneg_left settled.damping_le
    (show (0 : ℚ) ≤ e by exact_mod_cast start)
  have bound : (e : ℚ) * (damping + product * (xp.length + 1)) ≤
      (curve.weighted xp + product * xp.length) * previous := by
    change _ * (_ + _ * ((xp.length : ℚ) + 1)) ≤ (_ + _ * (xp.length : ℚ)) * _ at step
    linarith
  exact_mod_cast bound

namespace Settled

variable {damping : Int}

theorem previous_pos (settled : curve.Settled xp d previous product damping) : 0 < previous := by
  refine settled.nonneg.lt_of_ne fun start => ?_
  have damped := settled.damping_le
  have multiplied := settled.product_le
  simp only [← start, Int.cast_zero, mul_zero, zero_pow (Nat.succ_ne_zero _), zero_div,
    Int.cast_nonpos] at damped multiplied
  have empty : product = 0 := le_antisymm multiplied settled.product_nonneg
  have divisible := settled.positive
  rw [empty, zero_mul] at divisible
  omega

/-- The tangent in the value before the last step, taken at the result, passes the right side of the
equation by no more than the step has rounded. -/
theorem tangent_le (settled : curve.Settled xp d previous product damping) (nonneg : 0 ≤ d)
    {lost : ℚ} (rounded : (previous : ℚ) ^ (xp.length + 1) / (curve.equation xp).divisor =
      product + lost) :
    previous * ((curve.equation xp).level previous +
        (curve.equation xp).slope previous * (d - previous) - curve.weighted xp) ≤
      d + lost * ((xp.length + 1) * d - xp.length * previous) := by
  have stepped : (d : ℚ) * (damping + product * (xp.length + 1)) ≤
      (curve.weighted xp + product * xp.length) * previous := by
    exact_mod_cast (le_fdiv_iff settled.positive).mp settled.value.le
  have damped := mul_le_mul_of_nonneg_left settled.le_damping.le
    (show (0 : ℚ) ≤ d by exact_mod_cast nonneg)
  unfold Equation.level Equation.slope
  rw [equation_count, rounded]
  have slope : (previous : ℚ) * (previous ^ xp.length / (curve.equation xp).divisor) =
      product + lost := by
    rw [← rounded, pow_succ', mul_div_assoc]
  linear_combination stepped + damped + (xp.length + 1) * (d - previous) * slope

/-- What the product term has lost, together with the ratio of the exact term to the invariant. -/
theorem exists_lost (settled : curve.Settled xp d previous product damping) :
    ∃ lost : ℚ, 0 ≤ lost ∧
      (previous : ℚ) ^ (xp.length + 1) / (curve.equation xp).divisor = product + lost ∧
      lost + previous ^ xp.length / (curve.equation xp).divisor ≤
        spread (curve.divisor xp.length) previous xp := by
  have nonneg : (0 : ℚ) ≤ previous := by exact_mod_cast settled.nonneg
  have bound := drift_add_le nonneg settled.divisors (le_refl 1)
    (show (0 : ℚ) + 1 ≤ 1 by rw [zero_add])
  have multiplied := settled.product_le
  have close := settled.le_product
  rw [one_mul, one_mul] at bound
  refine ⟨previous ^ (xp.length + 1) / (curve.equation xp).divisor - product, by linarith,
    by ring, ?_⟩
  exact (add_le_add_left (by linarith) _).trans bound

/-- A last step that does not go down stands above a value that the equation does not allow by what
the step has rounded. -/
theorem overshoot_of_le (settled : curve.Settled xp d previous product damping) (start : 0 ≤ e)
    (below : e < d) (above : curve.weighted xp < (curve.equation xp).level e)
    (risen : previous ≤ d) :
    previous * ((curve.equation xp).slope e * (d - e)) <
      previous + (previous + (xp.length + 1) ^ 2) *
        spread (curve.divisor xp.length) previous xp := by
  obtain ⟨lost, unsigned, rounded, within⟩ := settled.exists_lost
  set equation := curve.equation xp
  set bound := spread (curve.divisor xp.length) previous xp
  have near := settled.near
  have positive : (0 : ℚ) < previous := by exact_mod_cast settled.previous_pos
  have origin : (0 : ℚ) ≤ e := by exact_mod_cast start
  have between : (e : ℚ) ≤ previous := by exact_mod_cast (show e ≤ previous by omega)
  have one : (d : ℚ) - previous ≤ 1 := by
    have : (d : ℚ) ≤ previous + 1 := by exact_mod_cast near.1
    linarith
  have gap : (0 : ℚ) ≤ d - previous := by
    have : (previous : ℚ) ≤ d := by exact_mod_cast risen
    linarith
  have ratio : (0 : ℚ) ≤ previous ^ xp.length / equation.divisor :=
    div_nonneg (pow_nonneg positive.le _) settled.sound.divisor.le
  have count : (1 : ℚ) ≤ xp.length := by exact_mod_cast settled.count
  have unit : 1 ≤ bound := one_le_spread positive.le settled.divisors
  have tangent := settled.tangent_le (by omega) rounded
  have first := Equation.tangent_le_level settled.sound origin positive.le
  have second := mul_le_mul_of_nonneg_right
    (Equation.slope_mono settled.sound origin between) gap
  calc
    previous * (equation.slope e * (d - e)) <
        previous * (equation.level previous + equation.slope previous * (d - previous) -
          curve.weighted xp) := by
      refine mul_lt_mul_of_pos_left ?_ positive
      linarith
    _ ≤ d + lost * ((xp.length + 1) * d - xp.length * previous) := tangent
    _ ≤ previous + 1 + lost * (previous + (xp.length + 1)) := by
      refine add_le_add (by linarith) (mul_le_mul_of_nonneg_left ?_ unsigned)
      linarith [mul_le_mul_of_nonneg_left one (show (0 : ℚ) ≤ xp.length + 1 by positivity)]
    _ ≤ previous + bound + bound * (previous + (xp.length + 1)) := by
      refine add_le_add (by linarith) (mul_le_mul_of_nonneg_right (by linarith) (by positivity))
    _ ≤ previous + (previous + (xp.length + 1) ^ 2) * bound := by
      have square : (xp.length : ℚ) + 2 ≤ (xp.length + 1) ^ 2 := by
        linarith [mul_le_mul_of_nonneg_left count (show (0 : ℚ) ≤ xp.length by positivity),
          show ((xp.length : ℚ) + 1) ^ 2 = xp.length * xp.length + 2 * xp.length + 1 by ring]
      linarith [mul_le_mul_of_nonneg_right square (show 0 ≤ bound by linarith)]

/-- A last step that goes down has started above the curve of the tangent by a term of second order. -/
theorem overshoot_of_lt (settled : curve.Settled xp d previous product damping) (start : 0 ≤ e)
    (below : e < d) (above : curve.weighted xp < (curve.equation xp).level e)
    (fallen : d < previous) :
    previous * ((curve.equation xp).slope e * (d - e)) <
      previous + (previous + (xp.length + 1) ^ 2) *
        spread (curve.divisor xp.length) previous xp := by
  obtain ⟨lost, unsigned, rounded, within⟩ := settled.exists_lost
  set equation := curve.equation xp
  set bound := spread (curve.divisor xp.length) previous xp
  have near := settled.near
  obtain rfl : d = previous - 1 := by omega
  have positive : (0 : ℚ) < previous := by exact_mod_cast settled.previous_pos
  have unit : (1 : ℚ) ≤ previous := by exact_mod_cast settled.previous_pos
  have origin : (0 : ℚ) ≤ e := by exact_mod_cast start
  have ratio : (0 : ℚ) ≤ previous ^ xp.length / equation.divisor :=
    div_nonneg (pow_nonneg positive.le _) settled.sound.divisor.le
  have tangent := settled.tangent_le (by omega) rounded
  rw [Int.cast_sub, Int.cast_one] at tangent ⊢
  have reached : (0 : ℚ) ≤ previous - 1 := by linarith
  have first := Equation.tangent_le_level settled.sound origin reached
  have second := Equation.tangent_le_level settled.sound reached positive.le
  have slopes := Equation.slope_sub_slope_le settled.sound unit
  rw [equation_count] at slopes
  calc
    previous * (equation.slope e * (previous - 1 - e)) <
        previous * (equation.level previous - equation.slope (previous - 1) -
          curve.weighted xp) := by
      refine mul_lt_mul_of_pos_left ?_ positive
      linarith
    _ ≤ previous + lost * previous + (xp.length + 1) * (xp.length *
          (previous ^ xp.length / equation.divisor)) := by
      linarith [mul_nonneg unsigned (show (0 : ℚ) ≤ xp.length + 1 by positivity)]
    _ ≤ previous + (previous + (xp.length + 1) ^ 2) *
          (lost + previous ^ xp.length / equation.divisor) := by
      have rest : 0 ≤ lost * (xp.length + 1) ^ 2 +
          previous ^ xp.length / equation.divisor * (previous + (xp.length + 1)) := by positivity
      linarith
    _ ≤ previous + (previous + (xp.length + 1) ^ 2) * bound :=
      add_le_add_right (mul_le_mul_of_nonneg_left within (by positivity)) _

end Settled

/-- The invariant stands above a value that the equation does not allow by no more than its product
term has lost to rounding, divided by the slope of the equation there. -/
theorem overshoot_lt (admissible : curve.Admissible xp.length) (unsigned : ∀ x ∈ xp, 0 ≤ x)
    (present : total xp ≠ 0) (start : 0 ≤ e) (below : e < d)
    (above : curve.weighted xp < (curve.equation xp).level e)
    (computed : curve.invariant xp = .ok d) :
    (d - e) * (curve.equation xp).slope e <
      1 + (1 + 2 * (xp.length + 1) ^ 2 / d) *
        spread (curve.divisor xp.length) (d + 1) xp := by
  obtain ⟨previous, product, damping, settled⟩ :=
    settled_of_invariant admissible unsigned present computed
  have near := settled.near
  have positive : (0 : ℚ) < previous := by exact_mod_cast settled.previous_pos
  have result : (0 : ℚ) < d := by exact_mod_cast (show 0 < d by omega)
  have close : (d : ℚ) ≤ 2 * previous := by
    have := settled.previous_pos
    exact_mod_cast (show d ≤ 2 * previous by omega)
  have grown : spread (curve.divisor xp.length) previous xp ≤
      spread (curve.divisor xp.length) (d + 1) xp :=
    spread_mono positive.le (by exact_mod_cast near.2) settled.divisors
  have factor : (xp.length + 1 : ℚ) ^ 2 / previous ≤ 2 * (xp.length + 1) ^ 2 / d := by
    rw [div_le_div_iff₀ positive result]
    linarith [mul_le_mul_of_nonneg_left close (show (0 : ℚ) ≤ (xp.length + 1) ^ 2 by positivity)]
  have stepped : previous * ((curve.equation xp).slope e * (d - e)) <
      previous + (previous + (xp.length + 1) ^ 2) *
        spread (curve.divisor xp.length) previous xp := by
    rcases le_or_gt previous d with risen | fallen
    · exact settled.overshoot_of_le start below above risen
    · exact settled.overshoot_of_lt start below above fallen
  calc
    (d - e) * (curve.equation xp).slope e =
        previous * ((curve.equation xp).slope e * (d - e)) / previous := by
      rw [mul_div_cancel_left₀ _ positive.ne', mul_comm]
    _ < (previous + (previous + (xp.length + 1) ^ 2) *
          spread (curve.divisor xp.length) previous xp) / previous :=
      div_lt_div_of_pos_right stepped positive
    _ = 1 + (1 + (xp.length + 1) ^ 2 / previous) *
          spread (curve.divisor xp.length) previous xp := by
      field_simp
    _ ≤ 1 + (1 + 2 * (xp.length + 1) ^ 2 / d) *
          spread (curve.divisor xp.length) (d + 1) xp := by
      refine add_le_add_right (mul_le_mul (by linarith) grown ?_ (by positivity)) _
      exact zero_le_one.trans (one_le_spread positive.le settled.divisors)

end

end Curve
end Stable
end Amm
