import Amm.Proofs.Composable.Solver

/-!
The two directions in which the invariant of a composable pool is rounded, compared. A step that rounds
down does not pass above the tangent of the equation, and a step that rounds up not below it, although
the product that they round stands on both sides of the quotient. So the last step that rounds down
leaves a value whose own tangent, one unit before it, is still short of the equation; no step that rounds
up, from this value or from a greater one, ends below it.
-/

namespace Amm

namespace Equation

/-- How high the tangent at `d` is one unit before `d`. -/
def footing (equation : Equation) (d : ℚ) : ℚ :=
  equation.level d - equation.slope d

variable {equation : Equation} {d e next product right sum : ℚ}

theorem footing_eq (equation : Equation) (d : ℚ) :
    equation.footing d =
      d ^ equation.count / equation.divisor * (d - (equation.count + 1)) +
        (equation.leverage - 1) * (d - 1) := by
  rw [footing, level_eq, slope]
  ring

section
variable (sound : equation.Sound)
include sound

/-! A step with some product of the balances, against the tangent at the value it is made from. -/

section
variable (positive : 0 < d) (unsigned : 0 ≤ product)
include positive unsigned

theorem step_divisor_pos : 0 < (equation.count + 1) * d + (equation.leverage - 1) * product := by
  have damped := mul_nonneg (sub_nonneg.mpr sound.leverage) unsigned
  have first : 0 < (equation.count + 1 : ℚ) * d := by positivity
  linarith

/-- Where a step grows with the product, a product that is too small does not lead above the tangent. -/
theorem tangent_le_of_step (lowered : product * (d ^ equation.count / equation.divisor) ≤ d)
    (grows : equation.count * d * (equation.leverage - 1) ≤ (equation.count + 1) * right)
    (stepped : next * ((equation.count + 1) * d + (equation.leverage - 1) * product) ≤
      equation.count * d * d + right * product) :
    equation.level d + equation.slope d * (next - d) ≤ right := by
  have lost := mul_nonneg (sub_nonneg.mpr grows) (sub_nonneg.mpr lowered)
  have scaled := mul_le_mul_of_nonneg_right stepped (slope_nonneg sound positive.le)
  rw [level_eq]
  unfold slope at scaled ⊢
  refine le_of_mul_le_mul_right ?_ (step_divisor_pos sound positive unsigned)
  linarith

theorem le_tangent_of_step (raised : d ≤ product * (d ^ equation.count / equation.divisor))
    (grows : equation.count * d * (equation.leverage - 1) ≤ (equation.count + 1) * right)
    (stepped : equation.count * d * d + right * product ≤
      next * ((equation.count + 1) * d + (equation.leverage - 1) * product)) :
    right ≤ equation.level d + equation.slope d * (next - d) := by
  have gained := mul_nonneg (sub_nonneg.mpr grows) (sub_nonneg.mpr raised)
  have scaled := mul_le_mul_of_nonneg_right stepped (slope_nonneg sound positive.le)
  rw [level_eq]
  unfold slope at scaled ⊢
  refine le_of_mul_le_mul_right ?_ (step_divisor_pos sound positive unsigned)
  linarith

/-- The linear part of the left side stays within the right side. -/
theorem linear_le_of_step (nonneg : 0 ≤ right) (within : (equation.leverage - 1) * d ≤ right)
    (stepped : next * ((equation.count + 1) * d + (equation.leverage - 1) * product) ≤
      equation.count * d * d + right * product) :
    (equation.leverage - 1) * next ≤ right := by
  have damped := sub_nonneg.mpr sound.leverage
  have scaled := mul_le_mul_of_nonneg_left stepped damped
  have counted : 0 ≤ equation.count * d := mul_nonneg (Nat.cast_nonneg _) positive.le
  have weighted := mul_le_mul_of_nonneg_left within counted
  have rest := mul_nonneg nonneg positive.le
  refine le_of_mul_le_mul_right ?_ (step_divisor_pos sound positive unsigned)
  linarith

/-- Where a step falls with the product, it leads to where the linear part alone is the right side. -/
theorem le_linear_of_step
    (falls : (equation.count + 1) * right ≤ equation.count * d * (equation.leverage - 1))
    (stepped : equation.count * d * d + right * product ≤
      next * ((equation.count + 1) * d + (equation.leverage - 1) * product)) :
    right ≤ (equation.leverage - 1) * next := by
  have scaled := mul_le_mul_of_nonneg_left stepped (sub_nonneg.mpr sound.leverage)
  have weighted := mul_le_mul_of_nonneg_right falls positive.le
  refine le_of_mul_le_mul_right ?_ (step_divisor_pos sound positive unsigned)
  linarith

end

/-- From above a value whose footing is short of the right side, the tangent reaches the right side less
than one unit below the value. -/
theorem lt_of_footing_lt (start : 0 ≤ e) (above : e ≤ d) (short : equation.footing e < right)
    (reached : right ≤ equation.level d + equation.slope d * (next - d)) : e - 1 < next := by
  by_contra below
  have nonneg := start.trans above
  have tangent := tangent_le_level sound nonneg start
  have slopes := slope_mono sound start above
  have steep : 0 ≤ equation.slope d * (e - 1 - next) :=
    mul_nonneg (slope_nonneg sound nonneg) (by linarith)
  unfold footing at short
  linarith

theorem footing_add_one_le (start : 0 ≤ d) : equation.footing (d + 1) ≤ equation.level d := by
  have tangent := tangent_le_level sound (show 0 ≤ d + 1 by linarith) start
  unfold footing
  linarith

/-! The sum of the balances, whose power is not below the divisor, bounds what the steps find. -/

section
variable (equal : equation.divisor ≤ sum ^ equation.count) (many : equation.count ≤ sum)
include equal many

theorem sum_le_level : equation.leverage * sum ≤ equation.level sum := by
  have some : 0 ≤ sum := (Nat.cast_nonneg equation.count).trans many
  have ratio := mul_le_mul_of_nonneg_right ((one_le_div sound.divisor).mpr equal) some
  rw [level_eq]
  linarith

theorem lt_sum_of_level_lt (short : equation.level d < equation.leverage * sum) : d < sum := by
  by_contra beyond
  have some : 0 ≤ sum := (Nat.cast_nonneg equation.count).trans many
  have rises := level_mono sound some (not_lt.mp beyond)
  linarith [sum_le_level sound equal many]

end

variable (leveraged : 1 < equation.leverage)
include leveraged

theorem footing_lt_level (start : 0 ≤ d) : equation.footing d < equation.level d :=
  sub_lt_self _ (slope_pos sound leveraged start)

/-- Beyond the number of balances the footing rises. -/
theorem footing_lt_footing (start : 0 ≤ e) (above : e < d) (far : equation.count + 1 ≤ d) :
    equation.footing e < equation.footing d := by
  have divisor := sound.divisor
  have ratio : e ^ equation.count / equation.divisor ≤ d ^ equation.count / equation.divisor := by
    gcongr
  have nonneg : 0 ≤ e ^ equation.count / equation.divisor := by positivity
  have power := mul_le_mul_of_nonneg_right ratio (sub_nonneg.mpr far)
  have rise := mul_le_mul_of_nonneg_left above.le nonneg
  have linear := mul_lt_mul_of_pos_left above (sub_pos.mpr leveraged)
  rw [footing_eq, footing_eq]
  linarith

section
variable (equal : equation.divisor ≤ sum ^ equation.count) (many : equation.count ≤ sum)
include equal many

theorem le_sum_of_level_le (within : equation.level d ≤ equation.leverage * sum) : d ≤ sum := by
  by_contra beyond
  have some : 0 ≤ sum := (Nat.cast_nonneg equation.count).trans many
  have rises := level_lt_level sound leveraged some (not_le.mp beyond)
  linarith [sum_le_level sound equal many]

/-- Two units above the sum the footing is beyond the right side. -/
theorem lt_of_footing_le (positive : 0 < equation.count) (weighty : equation.count ≤ equation.leverage)
    (within : equation.footing d ≤ equation.leverage * sum) : d < sum + 2 := by
  have some : 0 ≤ sum := (Nat.cast_nonneg equation.count).trans many
  have ratio : 1 < (sum + 2) ^ equation.count / equation.divisor :=
    (one_lt_div sound.divisor).mpr
      (equal.trans_lt (pow_lt_pow_left₀ (by linarith) some positive.ne'))
  have power := mul_lt_mul_of_pos_right ratio (show 0 < sum + 1 - equation.count by linarith)
  have beyond : equation.leverage * sum < equation.footing (sum + 2) := by
    rw [footing_eq]
    linarith
  by_contra far
  rcases (not_lt.mp far).eq_or_lt with rfl | above
  · linarith
  · have rises := footing_lt_footing sound leveraged (by linarith) above (by linarith)
    linarith

end

/-- One unit below a footing that is not beyond the right side the footing is short of it. -/
theorem footing_sub_one_lt (many : equation.count ≤ sum) (start : 1 ≤ d)
    (within : equation.footing d ≤ equation.leverage * sum) :
    equation.footing (d - 1) < equation.leverage * sum := by
  rcases le_total (equation.count + 1 : ℚ) d with far | near
  · exact (footing_lt_footing sound leveraged (by linarith) (by linarith) far).trans_le within
  -- So near to zero the power term is not above its own tangent.
  · have ratio : 0 ≤ (d - 1) ^ equation.count / equation.divisor :=
      div_nonneg (pow_nonneg (by linarith) _) sound.divisor.le
    have power := mul_nonneg ratio (show 0 ≤ equation.count + 1 - (d - 1) by linarith)
    have linear := mul_le_mul_of_nonneg_left (show d - 1 - 1 ≤ sum - 1 by linarith)
      (sub_nonneg.mpr sound.leverage)
    have some : 0 ≤ sum := (Nat.cast_nonneg equation.count).trans many
    rw [footing_eq]
    linarith

end

end Equation

namespace Composable

variable {amp d next product : Int} {n : Int} {balances : List Int}

section
variable {start term : Int}

/-- The product rounded up, with its first term given. -/
theorem le_multipliedTerm_up (count : 0 ≤ n) (invariant : 0 < d) (unsigned : ∀ x ∈ balances, 0 ≤ x)
    (computed : balances.foldlM (fun term balance => rounded (term * balance * n) d true) start =
      .ok term) :
    start * (balances.map (· * n)).prod ≤ term * d ^ balances.length := by
  induction balances generalizing start with
  | nil =>
      obtain rfl : start = term := by simpa [pure, Except.pure] using computed
      simp
  | cons x balances ih =>
      rw [List.foldlM_cons, Priced.bind_eq_ok] at computed
      obtain ⟨raised, step, rest⟩ := computed
      have others : ∀ y ∈ balances, 0 ≤ y := fun y member => unsigned y (by simp [member])
      have product : 0 ≤ (balances.map (· * n)).prod := prod_map_mul_nonneg count others
      have covered := (rounded_up_covers invariant step).1
      rw [List.map_cons, List.prod_cons, List.length_cons, pow_succ]
      calc
        start * (x * n * (balances.map (· * n)).prod) =
            start * x * n * (balances.map (· * n)).prod := by ring
        _ ≤ raised * d * (balances.map (· * n)).prod := mul_le_mul_of_nonneg_right covered product
        _ = raised * (balances.map (· * n)).prod * d := by ring
        _ ≤ term * d ^ balances.length * d := mul_le_mul_of_nonneg_right (ih others rest) invariant.le
        _ = term * (d ^ balances.length * d) := mul_assoc _ _ _

end

theorem le_balanceProduct_up (count : 0 ≤ n) (invariant : 0 < d) (unsigned : ∀ x ∈ balances, 0 ≤ x)
    (computed : balanceProduct n d balances true = .ok product) :
    (balances.map (· * n)).prod * d ≤ product * d ^ balances.length := by
  cases balances with
  | nil => exact absurd computed (Priced.abort_ne_ok _ _)
  | cons first others =>
      have bound := le_multipliedTerm_up count invariant (fun x member => unsigned x (by simp [member]))
        computed
      rw [List.map_cons, List.prod_cons, List.length_cons, pow_succ, ← mul_assoc]
      exact mul_le_mul_of_nonneg_right bound invariant.le

/-- With several balances a step divides by the value it is made from. -/
theorem roundedStep_ne_zero {roundUp : Bool} {sum : Int} (several : 1 < balances.length)
    (step : roundedStep amp balances sum roundUp d = .ok next) : d ≠ 0 := by
  obtain ⟨product, multiplied, -⟩ := Priced.bind_eq_ok.mp step
  exact balanceProduct_ne_zero several multiplied

theorem divisor_eq (amp : Int) (balances : List Int) :
    (equation amp balances).divisor =
      ((balances.map (· * (balances.length : Int))).prod : Int) :=
  rfl

theorem leverage_mul_mul_eq (amp : Int) (balances : List Int) (sum product : Int) :
    (equation amp balances).leverage * sum * product =
      (amp * balances.length * sum * product : Int) / ampUnit := by
  rw [eq_div_iff (show ((ampUnit : Int) : ℚ) ≠ 0 by decide)]
  push_cast
  rw [← leverage_mul_ampUnit]
  ring

theorem leverage_sub_one_mul_eq (amp : Int) (balances : List Int) (product : Int) :
    ((equation amp balances).leverage - 1) * product =
      ((amp * balances.length - ampUnit) * product : Int) / ampUnit := by
  rw [eq_div_iff (show ((ampUnit : Int) : ℚ) ≠ 0 by decide)]
  push_cast
  rw [← leverage_mul_ampUnit]
  ring

theorem div_le_rounded_up {a b result : Int} (positive : 0 < b)
    (computed : rounded a b true = .ok result) : (a : ℚ) / b ≤ result := by
  rw [div_le_iff₀ (by exact_mod_cast positive)]
  exact_mod_cast (rounded_up_covers positive computed).1

theorem roundedStep_up_eq_ok {sum : Int} (step : roundedStep amp balances sum true d = .ok next) :
    ∃ product weighted, balanceProduct balances.length d balances true = .ok product ∧
      rounded (amp * balances.length * sum * product) ampUnit true = .ok weighted ∧
      rounded (balances.length * d * d + weighted) ((balances.length + 1) * d +
        ((amp * balances.length - ampUnit) * product).fdiv ampUnit) true = .ok next := by
  simp only [roundedStep, Priced.bind_eq_ok, rounded_down_eq_ok, Bool.not_true] at step
  obtain ⟨product, multiplied, weighted, weighed, _, ⟨-, rfl⟩, divided⟩ := step
  exact ⟨product, weighted, multiplied, weighed, divided⟩

section
variable (amplified : ampUnit ≤ amp) (some : 0 < balances.length) (positive : ∀ x ∈ balances, 0 < x)
include amplified some positive

theorem balanceProduct_down_mul_le (invariant : 0 < d)
    (computed : balanceProduct balances.length d balances false = .ok product) :
    product * ((d : ℚ) ^ balances.length / (equation amp balances).divisor) ≤ d := by
  have bound := balanceProduct_mul_le (Int.natCast_nonneg _) invariant.le
    (fun x member => (positive x member).le) computed
  rw [mul_div_assoc', div_le_iff₀ (equation_sound amplified some positive).divisor,
    mul_comm (d : ℚ), divisor_eq]
  exact_mod_cast bound

theorem le_balanceProduct_up_mul (invariant : 0 < d)
    (computed : balanceProduct balances.length d balances true = .ok product) :
    d ≤ product * ((d : ℚ) ^ balances.length / (equation amp balances).divisor) := by
  have bound := le_balanceProduct_up (Int.natCast_nonneg _) invariant
    (fun x member => (positive x member).le) computed
  rw [mul_div_assoc', le_div_iff₀ (equation_sound amplified some positive).divisor,
    mul_comm (d : ℚ), divisor_eq]
  exact_mod_cast bound

variable {sum : Int} (present : 0 ≤ sum)
include present

/-- A step rounded down loses in the product, in the quotient and in both terms of its own. -/
theorem exists_of_step_down (invariant : 0 < d)
    (step : roundedStep amp balances sum false d = .ok next) :
    ∃ product : ℚ, 0 ≤ product ∧
      product * ((d : ℚ) ^ balances.length / (equation amp balances).divisor) ≤ d ∧
      next * ((balances.length + 1) * d + ((equation amp balances).leverage - 1) * product) ≤
        balances.length * d * d + (equation amp balances).leverage * sum * product := by
  have unsigned : ∀ x ∈ balances, 0 ≤ x := fun x member => (positive x member).le
  have result := roundedStep_nonneg amplified some unsigned present invariant.le step
  obtain ⟨product, damping, multiplied, damped, divisible, value⟩ := roundedStep_eq_ok step
  have unit : (0 : Int) < ampUnit := by decide
  have sound := equation_sound amplified some positive
  have nonneg : (0 : ℚ) ≤ product := by
    exact_mod_cast balanceProduct_nonneg (Int.natCast_nonneg _) invariant.le unsigned multiplied
  have damping_ge : ((equation amp balances).leverage - 1) * product ≤ damping :=
    (leverage_sub_one_mul_eq _ _ _).trans_le (div_le_rounded_up unit damped)
  have weighted_le : ((amp * balances.length * sum * product).fdiv ampUnit : Int) ≤
      (equation amp balances).leverage * sum * product :=
    (cast_fdiv_le unit).trans_eq (leverage_mul_mul_eq _ _ _ _).symm
  have divides : 0 < (balances.length + 1) * d + damping := by
    have damping_nonneg : 0 ≤ damping := by
      exact_mod_cast (mul_nonneg (sub_nonneg.mpr sound.leverage) nonneg).trans damping_ge
    have := mul_pos (show (0 : Int) < balances.length + 1 by omega) invariant
    omega
  have floored := (le_fdiv_iff divides).mp value.le
  refine ⟨product, nonneg, balanceProduct_down_mul_le amplified some positive invariant multiplied, ?_⟩
  calc
    next * ((balances.length + 1) * d + ((equation amp balances).leverage - 1) * product) ≤
        (next * ((balances.length + 1) * d + damping) : ℚ) :=
      mul_le_mul_of_nonneg_left (by linarith) (by exact_mod_cast result)
    _ ≤ balances.length * d * d + ((amp * balances.length * sum * product).fdiv ampUnit : Int) := by
      exact_mod_cast floored
    _ ≤ _ := by linarith

/-- A step rounded up gains in the same places. -/
theorem exists_of_step_up (invariant : 0 < d)
    (step : roundedStep amp balances sum true d = .ok next) :
    ∃ product : ℚ, 0 ≤ product ∧
      d ≤ product * ((d : ℚ) ^ balances.length / (equation amp balances).divisor) ∧
      balances.length * d * d + (equation amp balances).leverage * sum * product ≤
        next * ((balances.length + 1) * d + ((equation amp balances).leverage - 1) * product) := by
  obtain ⟨product, weighted, multiplied, weighed, divided⟩ := roundedStep_up_eq_ok step
  have unit : (0 : Int) < ampUnit := by decide
  have sound := equation_sound amplified some positive
  have cast : (0 : ℚ) < d := by exact_mod_cast invariant
  have raised := le_balanceProduct_up_mul amplified some positive invariant multiplied
  have nonneg : (0 : ℚ) ≤ product :=
    nonneg_of_mul_nonneg_left (cast.le.trans raised) (div_pos (pow_pos cast _) sound.divisor)
  have weighted_ge : (equation amp balances).leverage * sum * product ≤ weighted :=
    (leverage_mul_mul_eq _ _ _ _).trans_le (div_le_rounded_up unit weighed)
  have damping_le : (((amp * balances.length - ampUnit) * product).fdiv ampUnit : Int) ≤
      ((equation amp balances).leverage - 1) * product :=
    (cast_fdiv_le unit).trans_eq (leverage_sub_one_mul_eq _ _ _).symm
  have damping_nonneg : 0 ≤ ((amp * balances.length - ampUnit) * product).fdiv ampUnit := by
    have ampTotal : ampUnit ≤ amp * balances.length := (curve_admissible amplified some).amp
    exact Int.fdiv_nonneg (mul_nonneg (by omega) (by exact_mod_cast nonneg)) unit.le
  generalize ((amp * balances.length - ampUnit) * product).fdiv ampUnit = damping
    at divided damping_le damping_nonneg
  have divides : 0 < (balances.length + 1) * d + damping := by
    have := mul_pos (show (0 : Int) < balances.length + 1 by omega) invariant
    omega
  have covered : (balances.length * d * d + weighted : ℚ) ≤
      next * ((balances.length + 1) * d + damping) := by
    exact_mod_cast (rounded_up_covers divides divided).1
  have gathered : balances.length * d * d + (equation amp balances).leverage * sum * product ≤
      (next * ((balances.length + 1) * d + damping) : ℚ) := by linarith
  have result : (0 : ℚ) ≤ next := by
    have leverage := zero_le_one.trans sound.leverage
    have sum : (0 : ℚ) ≤ sum := by exact_mod_cast present
    refine nonneg_of_mul_nonneg_left (le_trans ?_ gathered) (by exact_mod_cast divides)
    positivity
  refine ⟨product, nonneg, raised, gathered.trans ?_⟩
  exact mul_le_mul_of_nonneg_left (by linarith) result

end

theorem length_le_leverage (amplified : ampUnit ≤ amp) :
    (balances.length : ℚ) ≤ (equation amp balances).leverage := by
  have unit : (0 : ℚ) < ampUnit := by decide
  refine le_of_mul_le_mul_right ?_ unit
  rw [leverage_mul_ampUnit, mul_comm]
  exact_mod_cast mul_le_mul_of_nonneg_right amplified (Int.natCast_nonneg balances.length)

theorem one_lt_leverage (amplified : ampUnit ≤ amp) (several : 1 < balances.length) :
    1 < (equation amp balances).leverage :=
  lt_of_lt_of_le (by exact_mod_cast several) (length_le_leverage amplified)

theorem divisor_le_total_pow (amp : Int) (positive : ∀ x ∈ balances, 0 < x) :
    (equation amp balances).divisor ≤ (total balances : ℚ) ^ balances.length := by
  rw [divisor_eq, total_eq_sum]
  exact_mod_cast prod_mul_length_le fun x member => (positive x member).le

/-- A value at which a step rounded down grows with the product: the linear part of the left side alone
is not beyond the right side. -/
structure Growing (amp : Int) (balances : List Int) (value : Int) : Prop where
  nonneg : 0 ≤ value
  linear : ((equation amp balances).leverage - 1) * value ≤
    (equation amp balances).leverage * total balances

/-- A value below which no step rounded up leads from where the iteration starts. -/
structure Footed (amp : Int) (balances : List Int) (value : Int) : Prop where
  nonneg : 0 ≤ value
  within : value ≤ total balances
  short : (equation amp balances).footing value < (equation amp balances).leverage * total balances

section
variable (amplified : ampUnit ≤ amp) (several : 1 < balances.length)
  (positive : ∀ x ∈ balances, 0 < x)
include amplified several positive

/-- Steps rounded down stay where they grow with the product. -/
theorem Growing.of_step_down (growing : Growing amp balances d)
    (step : roundedStep amp balances (total balances) false d = .ok next) :
    Growing amp balances next := by
  have some : 0 < balances.length := by omega
  have sound := equation_sound amplified some positive
  have unsigned : ∀ x ∈ balances, 0 ≤ x := fun x member => (positive x member).le
  have present := total_nonneg unsigned
  have invariant := growing.nonneg.lt_of_ne (roundedStep_ne_zero several step).symm
  have right : 0 ≤ (equation amp balances).leverage * (total balances : ℚ) :=
    mul_nonneg (zero_le_one.trans sound.leverage) (by exact_mod_cast present)
  obtain ⟨product, nonneg, -, stepped⟩ :=
    exists_of_step_down amplified some positive present invariant step
  exact ⟨roundedStep_nonneg amplified some unsigned present growing.nonneg step,
    Equation.linear_le_of_step sound (by exact_mod_cast invariant) nonneg right growing.linear stepped⟩

theorem Growing.tangent_le (growing : Growing amp balances d)
    (step : roundedStep amp balances (total balances) false d = .ok next) :
    (equation amp balances).level d + (equation amp balances).slope d * (next - d) ≤
      (equation amp balances).leverage * total balances := by
  have some : 0 < balances.length := by omega
  have sound := equation_sound amplified some positive
  have present := total_nonneg fun x member => (positive x member).le
  have invariant := growing.nonneg.lt_of_ne (roundedStep_ne_zero several step).symm
  have right : 0 ≤ (equation amp balances).leverage * (total balances : ℚ) :=
    mul_nonneg (zero_le_one.trans sound.leverage) (by exact_mod_cast present)
  obtain ⟨product, nonneg, lowered, stepped⟩ :=
    exists_of_step_down amplified some positive present invariant step
  have count : (0 : ℚ) ≤ (equation amp balances).count := Nat.cast_nonneg _
  have weighted := mul_le_mul_of_nonneg_left growing.linear count
  exact Equation.tangent_le_of_step sound (by exact_mod_cast invariant) nonneg lowered
    (by linarith) stepped

/-- A neighbour of a value is footed where the tangent at the value is within the right side. -/
theorem footed_of_tangent {previous : Int} (start : 0 ≤ previous) (nonneg : 0 ≤ d)
    (near : d ≤ previous + 1 ∧ previous ≤ d + 1)
    (tangent : (equation amp balances).level previous +
        (equation amp balances).slope previous * (d - previous) ≤
      (equation amp balances).leverage * total balances) : Footed amp balances d := by
  have sound := equation_sound amplified (by omega) positive
  have leveraged := one_lt_leverage amplified several
  have equal := divisor_le_total_pow amp positive
  have many : ((equation amp balances).count : ℚ) ≤ total balances := by
    exact_mod_cast length_le_total positive
  have cast : (0 : ℚ) ≤ previous := by exact_mod_cast start
  have steep := Equation.slope_pos sound leveraged cast
  -- The value is one unit above the one that the tangent is at, or this one, or one unit below it.
  rcases (show d = previous + 1 ∨ d = previous ∨ d = previous - 1 by omega) with rfl | rfl | rfl
  · push_cast at tangent
    have before := Equation.lt_sum_of_level_lt (d := previous) sound equal many (by linarith)
    have footing := Equation.footing_add_one_le sound cast
    refine ⟨nonneg, Int.add_one_le_of_lt (by exact_mod_cast before), ?_⟩
    push_cast
    linarith
  · have within : (equation amp balances).level d ≤
        (equation amp balances).leverage * total balances := by linarith
    exact ⟨nonneg, by exact_mod_cast Equation.le_sum_of_level_le sound leveraged equal many within,
      (Equation.footing_lt_level sound leveraged cast).trans_le within⟩
  · have within : (equation amp balances).footing previous ≤
        (equation amp balances).leverage * total balances := by
      unfold Equation.footing
      push_cast at tangent
      linarith
    have below := Equation.lt_of_footing_le sound leveraged equal many
      (show 0 < balances.length by omega) (length_le_leverage amplified) within
    have before := Equation.footing_sub_one_lt sound leveraged many
      (by exact_mod_cast (show 1 ≤ previous by omega)) within
    refine ⟨nonneg, ?_, by exact_mod_cast before⟩
    have : previous < total balances + 2 := by exact_mod_cast below
    omega

/-- What the iteration that rounds down has found is footed. -/
theorem footed_of_down (computed : roundedInvariant amp balances false = .ok d) :
    Footed amp balances d := by
  have present : 0 < total balances :=
    total_pos (List.ne_nil_of_length_pos (by omega)) positive
  rw [roundedInvariant, if_neg present.ne'] at computed
  have starts : Growing amp balances (total balances) := by
    refine ⟨present.le, ?_⟩
    have cast : (0 : ℚ) ≤ total balances := by exact_mod_cast present.le
    linarith
  obtain ⟨previous, growing, step, near⟩ := Newton.settle_ends (Growing amp balances)
    (fun _ _ growing step => growing.of_step_down amplified several positive step) starts computed
  exact footed_of_tangent amplified several positive growing.nonneg
    (growing.of_step_down amplified several positive step).nonneg (near_of_withinOne near)
    (growing.tangent_le amplified several positive step)

/-- No step rounded up passes below a footed value from above. -/
theorem Footed.le_of_step_up {value : Int} (footed : Footed amp balances value) (above : value ≤ d)
    (step : roundedStep amp balances (total balances) true d = .ok next) : value ≤ next := by
  have some : 0 < balances.length := by omega
  have sound := equation_sound amplified some positive
  have invariant : 0 < d := (footed.nonneg.trans above).lt_of_ne (roundedStep_ne_zero several step).symm
  have present := footed.nonneg.trans footed.within
  have cast : (0 : ℚ) < d := by exact_mod_cast invariant
  obtain ⟨product, nonneg, raised, stepped⟩ :=
    exists_of_step_up amplified some positive present invariant step
  rcases le_total ((equation amp balances).count * d * ((equation amp balances).leverage - 1) : ℚ)
    (((equation amp balances).count + 1) * ((equation amp balances).leverage * total balances))
    with grows | falls
  · have reached := Equation.le_tangent_of_step sound cast nonneg raised grows stepped
    have below := Equation.lt_of_footing_lt sound (by exact_mod_cast footed.nonneg)
      (by exact_mod_cast above) footed.short reached
    exact Int.le_of_sub_one_lt (by exact_mod_cast below)
  · have reached := Equation.le_linear_of_step sound cast nonneg falls stepped
    have leveraged := sub_pos.mpr (one_lt_leverage amplified several)
    have within : (value : ℚ) ≤ total balances := by exact_mod_cast footed.within
    have whole : (0 : ℚ) ≤ total balances := by exact_mod_cast present
    have scaled := mul_le_mul_of_nonneg_left within leveraged.le
    have below : (value : ℚ) ≤ next := le_of_mul_le_mul_left (by linarith) leveraged
    exact_mod_cast below

end

/-- The invariant rounded down is not above the invariant rounded up, although the two iterations make
different steps and may end after different numbers of them. -/
theorem roundedInvariant_down_le_up {down up : Int} (amplified : ampUnit ≤ amp)
    (several : 2 ≤ balances.length) (positive : ∀ x ∈ balances, 0 < x)
    (floor : roundedInvariant amp balances false = .ok down)
    (ceiling : roundedInvariant amp balances true = .ok up) : down ≤ up := by
  have footed := footed_of_down amplified several positive floor
  have present : 0 < total balances :=
    total_pos (List.ne_nil_of_length_pos (by omega)) positive
  rw [roundedInvariant, if_neg present.ne'] at ceiling
  -- The iteration that rounds up starts from the sum, which is above the value, and stays above it.
  exact Newton.settle_preserves (down ≤ ·)
    (fun _ _ above step => footed.le_of_step_up amplified several positive above step) footed.within
    ceiling

/-- Six balances of different sizes. -/
def sixBalances : List Int :=
  [214321579579179247, 42179537589172147219, 1520481514459573495, 414759131324123123, 4219759729147925,
    5197345436285624443]

theorem sixBalances_down_le_up :
    roundedInvariant 10000 sixBalances false = .ok 10463766246264891996 ∧
      roundedInvariant 10000 sixBalances true = .ok 10463766246264892100 ∧
      (10463766246264891996 : Int) ≤ 10463766246264892100 := by
  have floor : roundedInvariant 10000 sixBalances false = .ok 10463766246264891996 := by
    decide +kernel
  have ceiling : roundedInvariant 10000 sixBalances true = .ok 10463766246264892100 := by
    decide +kernel
  exact ⟨floor, ceiling,
    roundedInvariant_down_le_up (by decide) (by decide) (by decide) floor ceiling⟩

end Composable
end Amm
