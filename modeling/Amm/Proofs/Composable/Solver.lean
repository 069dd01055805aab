import Amm.Proofs.Composable.Moves
import Amm.Proofs.Composable.Surplus
import Mathlib.Algebra.BigOperators.Ring.List

/-!
How the solvers of a composable pool round. A balance is rounded up, so the balances that it completes
have a surplus at the invariant it is solved for. An invariant that is rounded down falls short of its
equation by one unit and by what the product of the balances has lost.
-/

namespace Amm
namespace Composable

section
variable {a b result : Int}

theorem rounded_down_eq_ok : rounded a b false = .ok result ↔ b ≠ 0 ∧ a.fdiv b = result :=
  Priced.quotient_eq_ok

/-- A quotient rounded up covers what is divided, by less than one divisor. -/
theorem rounded_up_covers (positive : 0 < b) (computed : rounded a b true = .ok result) :
    a ≤ result * b ∧ result * b < a + b := by
  rw [rounded, Fixed.div, if_pos rfl, Fixed.divUp_eq a positive] at computed
  obtain rfl := Except.ok.inj computed
  have below := (le_fdiv_iff positive).mp (le_refl ((a - 1).fdiv b))
  have above := (raised_le_iff positive).mp (le_refl ((a - 1).fdiv b + 1))
  refine ⟨above, ?_⟩
  rw [add_mul, one_mul]
  omega

theorem rounded_ne_zero {roundUp : Bool} (computed : rounded a b roundUp = .ok result) : b ≠ 0 := by
  rintro rfl
  cases roundUp <;> simp [rounded, Fixed.div, Fixed.divUp, Fixed.divDown, Priced.ofFixed] at computed

theorem ratioDown_eq_ok : ratioDown a b = .ok result ↔ b ≠ 0 ∧ (a * Fixed.one).fdiv b = result := by
  by_cases zero : b = 0
  · simp [ratioDown, Fixed.divDownFixed, Priced.ofFixed, zero]
  · simp [ratioDown, Fixed.divDownFixed_eq a zero, Priced.ofFixed, zero]

end

variable {amp d e n y : Int} {balances : List Int} {index : Nat}

/-- A term that is multiplied by each balance and by `n`, and divided by the invariant in turn. -/
def multipliedTerm (n d start : Int) (balances : List Int) : Priced Int :=
  balances.foldlM (fun term balance => rounded (term * balance * n) d false) start

section
variable {start start' term : Int} {x : Int}

theorem multipliedTerm_cons (computed : multipliedTerm n d start (x :: balances) = .ok term) :
    d ≠ 0 ∧ multipliedTerm n d ((start * x * n).fdiv d) balances = .ok term := by
  rw [multipliedTerm, List.foldlM_cons, Priced.bind_eq_ok] at computed
  obtain ⟨next, step, rest⟩ := computed
  obtain ⟨divisible, rfl⟩ := rounded_down_eq_ok.mp step
  exact ⟨divisible, rest⟩

theorem multipliedTerm_nonneg (count : 0 ≤ n) (nonneg : 0 ≤ d) (unsigned : ∀ x ∈ balances, 0 ≤ x)
    (origin : 0 ≤ start) (computed : multipliedTerm n d start balances = .ok term) : 0 ≤ term := by
  refine Priced.foldlM_preserves (0 ≤ ·) origin (fun current x next member holds step => ?_) computed
  obtain ⟨-, rfl⟩ := rounded_down_eq_ok.mp step
  exact Int.fdiv_nonneg (mul_nonneg (mul_nonneg holds (unsigned x member)) count) nonneg

theorem multipliedTerm_mul_le (count : 0 ≤ n) (nonneg : 0 ≤ d) (unsigned : ∀ x ∈ balances, 0 ≤ x)
    (computed : multipliedTerm n d start balances = .ok term) :
    term * d ^ balances.length ≤ start * (balances.map (· * n)).prod := by
  induction balances generalizing start with
  | nil =>
      obtain rfl : start = term := by simpa [multipliedTerm, pure, Except.pure] using computed
      simp
  | cons x balances ih =>
      obtain ⟨divisible, rest⟩ := multipliedTerm_cons computed
      have others : ∀ y ∈ balances, 0 ≤ y := fun y member => unsigned y (by simp [member])
      have kept := ih others rest
      have product : 0 ≤ (balances.map (· * n)).prod := prod_map_mul_nonneg count others
      have rounded := (le_fdiv_iff (nonneg.lt_of_ne divisible.symm)).mp
        (le_refl ((start * x * n).fdiv d))
      rw [List.map_cons, List.prod_cons, List.length_cons, pow_succ]
      calc
        term * (d ^ balances.length * d) = term * d ^ balances.length * d := (mul_assoc _ _ _).symm
        _ ≤ (start * x * n).fdiv d * (balances.map (· * n)).prod * d :=
          mul_le_mul_of_nonneg_right kept nonneg
        _ = (start * x * n).fdiv d * d * (balances.map (· * n)).prod := by ring
        _ ≤ start * x * n * (balances.map (· * n)).prod :=
          mul_le_mul_of_nonneg_right rounded product
        _ = start * (x * n * (balances.map (· * n)).prod) := by ring

/-- The term computes at every greater invariant, to something that is not greater. -/
theorem multipliedTerm_antitone (count : 0 ≤ n) (nonneg : 0 ≤ d) (grown : d ≤ e)
    (unsigned : ∀ x ∈ balances, 0 ≤ x) (origin : 0 ≤ start') (below : start' ≤ start)
    (computed : multipliedTerm n d start balances = .ok term) :
    ∃ term', multipliedTerm n e start' balances = .ok term' ∧ 0 ≤ term' ∧ term' ≤ term := by
  induction balances generalizing start start' with
  | nil =>
      obtain rfl : start = term := by simpa [multipliedTerm, pure, Except.pure] using computed
      exact ⟨start', rfl, origin, below⟩
  | cons x balances ih =>
      obtain ⟨divisible, rest⟩ := multipliedTerm_cons computed
      have positive : 0 < d := nonneg.lt_of_ne divisible.symm
      have first : 0 ≤ x * n := mul_nonneg (unsigned x (by simp)) count
      have present : 0 ≤ start' * x * n := mul_assoc start' x n ▸ mul_nonneg origin first
      have quotient : 0 ≤ (start' * x * n).fdiv e := Int.fdiv_nonneg present (nonneg.trans grown)
      have smaller : (start' * x * n).fdiv e ≤ (start * x * n).fdiv d := by
        rw [le_fdiv_iff positive]
        calc
          (start' * x * n).fdiv e * d ≤ (start' * x * n).fdiv e * e :=
            mul_le_mul_of_nonneg_left grown quotient
          _ ≤ start' * x * n := (le_fdiv_iff (positive.trans_le grown)).mp (le_refl _)
          _ ≤ start * x * n := by
            rw [mul_assoc, mul_assoc]
            exact mul_le_mul_of_nonneg_right below first
      obtain ⟨term', computed', bounds⟩ := ih (fun y member => unsigned y (by simp [member]))
        quotient smaller rest
      refine ⟨term', ?_, bounds⟩
      rw [multipliedTerm, List.foldlM_cons, Priced.bind_eq_ok]
      exact ⟨_, rounded_down_eq_ok.mpr ⟨(positive.trans_le grown).ne', rfl⟩, computed'⟩

end

section
variable {product : Int}

theorem balanceProduct_eq_ok (computed : balanceProduct n d balances false = .ok product) :
    ∃ first others, balances = first :: others ∧
      multipliedTerm n d (first * n) others = .ok product := by
  cases balances with
  | nil => exact absurd computed (Priced.abort_ne_ok _ _)
  | cons first others => exact ⟨first, others, rfl, computed⟩

theorem balanceProduct_nonneg (count : 0 ≤ n) (nonneg : 0 ≤ d) (unsigned : ∀ x ∈ balances, 0 ≤ x)
    (computed : balanceProduct n d balances false = .ok product) : 0 ≤ product := by
  obtain ⟨first, others, rfl, multiplied⟩ := balanceProduct_eq_ok computed
  exact multipliedTerm_nonneg count nonneg (fun x member => unsigned x (by simp [member]))
    (mul_nonneg (unsigned first (by simp)) count) multiplied

theorem balanceProduct_mul_le (count : 0 ≤ n) (nonneg : 0 ≤ d) (unsigned : ∀ x ∈ balances, 0 ≤ x)
    (computed : balanceProduct n d balances false = .ok product) :
    product * d ^ balances.length ≤ (balances.map (· * n)).prod * d := by
  obtain ⟨first, others, rfl, multiplied⟩ := balanceProduct_eq_ok computed
  have bound := multipliedTerm_mul_le count nonneg (fun x member => unsigned x (by simp [member]))
    multiplied
  rw [List.map_cons, List.prod_cons, List.length_cons, pow_succ, ← mul_assoc]
  exact mul_le_mul_of_nonneg_right bound nonneg

/-- With several balances the product divides by the invariant. -/
theorem balanceProduct_ne_zero {roundUp : Bool} (several : 1 < balances.length)
    (computed : balanceProduct n d balances roundUp = .ok product) : d ≠ 0 := by
  match balances, several with
  | first :: second :: others, _ =>
      rw [balanceProduct, List.foldlM_cons, Priced.bind_eq_ok] at computed
      obtain ⟨_, divided, -⟩ := computed
      exact rounded_ne_zero divided

/-- A product that is there has all its balances. -/
theorem balanceProduct_present (count : 0 ≤ n) (invariant : 0 < d) (unsigned : ∀ x ∈ balances, 0 ≤ x)
    (positive : 0 < product) (computed : balanceProduct n d balances false = .ok product) :
    ∀ x ∈ balances, 0 < x := by
  intro x member
  refine (unsigned x member).lt_of_ne fun none => ?_
  have bound := balanceProduct_mul_le count invariant.le unsigned computed
  have zero : (balances.map (· * n)).prod = 0 :=
    List.prod_eq_zero (List.mem_map.mpr ⟨x, member, by rw [← none, zero_mul]⟩)
  rw [zero, zero_mul] at bound
  exact absurd (mul_pos positive (pow_pos invariant _)) (not_lt.mpr bound)

theorem balanceProduct_antitone (count : 0 ≤ n) (nonneg : 0 ≤ d) (grown : d ≤ e)
    (unsigned : ∀ x ∈ balances, 0 ≤ x)
    (computed : balanceProduct n d balances false = .ok product) :
    ∃ product', balanceProduct n e balances false = .ok product' ∧ 0 ≤ product' ∧
      product' ≤ product := by
  obtain ⟨first, others, rfl, multiplied⟩ := balanceProduct_eq_ok computed
  exact multipliedTerm_antitone count nonneg grown (fun x member => unsigned x (by simp [member]))
    (mul_nonneg (unsigned first (by simp)) count) (le_refl _) multiplied

end

section
variable {sum next : Int}

theorem roundedStep_eq_ok (step : roundedStep amp balances sum false d = .ok next) :
    ∃ product damping, balanceProduct balances.length d balances false = .ok product ∧
      rounded ((amp * balances.length - ampUnit) * product) ampUnit true = .ok damping ∧
      (balances.length + 1) * d + damping ≠ 0 ∧
      next = (balances.length * d * d + (amp * balances.length * sum * product).fdiv ampUnit).fdiv
        ((balances.length + 1) * d + damping) := by
  simp only [roundedStep, Priced.bind_eq_ok, rounded_down_eq_ok, Bool.not_false] at step
  obtain ⟨product, multiplied, _, ⟨-, rfl⟩, damping, damped, divisible, rfl⟩ := step
  exact ⟨product, damping, multiplied, damped, divisible, rfl⟩

theorem roundedStep_nonneg (amplified : ampUnit ≤ amp) (some : 0 < balances.length)
    (unsigned : ∀ x ∈ balances, 0 ≤ x) (present : 0 ≤ sum) (start : 0 ≤ d)
    (step : roundedStep amp balances sum false d = .ok next) : 0 ≤ next := by
  obtain ⟨product, damping, multiplied, damped, divisible, rfl⟩ := roundedStep_eq_ok step
  have count : (0 : Int) ≤ balances.length := Int.natCast_nonneg _
  have unit : (0 : Int) < ampUnit := by decide
  have ampTotal : ampUnit ≤ amp * balances.length := (curve_admissible amplified some).amp
  have nonneg := balanceProduct_nonneg count start unsigned multiplied
  have covered := (rounded_up_covers unit damped).1
  have damping : 0 ≤ damping :=
    nonneg_of_mul_nonneg_left ((mul_nonneg (by omega) nonneg).trans covered) unit
  have weighted : 0 ≤ (amp * balances.length * sum * product).fdiv ampUnit :=
    Int.fdiv_nonneg (mul_nonneg (mul_nonneg (by omega) present) nonneg) unit.le
  apply Int.fdiv_nonneg <;> positivity

/-- A step that is rounded down, in units of the equation. -/
theorem roundedStep_lt (amplified : ampUnit ≤ amp) (some : 0 < balances.length)
    (unsigned : ∀ x ∈ balances, 0 ≤ x) (start : 0 ≤ d) (result : 0 ≤ next)
    (step : roundedStep amp balances sum false d = .ok next) :
    ∃ product, balanceProduct balances.length d balances false = .ok product ∧
      balances.length * d * d + (equation amp balances).leverage * sum * product <
        ((next : ℚ) + 1) * ((balances.length + 1) * d +
          ((equation amp balances).leverage - 1) * product + 1) := by
  obtain ⟨product, damping, multiplied, damped, divisible, value⟩ := roundedStep_eq_ok step
  have unit : (0 : Int) < ampUnit := by decide
  have ampTotal : ampUnit ≤ amp * balances.length := (curve_admissible amplified some).amp
  have nonneg := balanceProduct_nonneg (Int.natCast_nonneg _) start unsigned multiplied
  obtain ⟨covered, within⟩ := rounded_up_covers unit damped
  have damping_nonneg : 0 ≤ damping :=
    nonneg_of_mul_nonneg_left ((mul_nonneg (by omega) nonneg).trans covered) unit
  have positive : 0 < (balances.length + 1) * d + damping := by
    have := mul_nonneg (show (0 : Int) ≤ balances.length + 1 by omega) start
    omega
  have passed := Int.add_one_le_of_lt
    ((fdiv_lt_iff positive).mp (value.symm.trans_lt (lt_add_one next)))
  have weighted := div_lt_cast_fdiv_add_one (a := amp * balances.length * sum * product) unit
  have scale := leverage_mul_ampUnit amp balances
  generalize (equation amp balances).leverage = leverage at scale ⊢
  have cast : (0 : ℚ) < ampUnit := by decide
  have damping_lt : (damping : ℚ) < (leverage - 1) * product + 1 := by
    have whole : (damping * ampUnit : ℚ) < (amp * balances.length - ampUnit) * product + ampUnit := by
      exact_mod_cast within
    rw [← scale] at whole
    exact lt_of_mul_lt_mul_right (by linarith) cast.le
  have weighted_lt : leverage * sum * product <
      ((amp * balances.length * sum * product).fdiv ampUnit : Int) + 1 := by
    refine lt_of_eq_of_lt ?_ weighted
    push_cast
    rw [← scale]
    field_simp
  refine ⟨product, multiplied, ?_⟩
  calc
    balances.length * d * d + leverage * sum * product <
        balances.length * d * d +
          ((amp * balances.length * sum * product).fdiv ampUnit : Int) + 1 := by linarith
    _ ≤ (next + 1) * ((balances.length + 1) * d + damping) := by exact_mod_cast passed
    _ ≤ (next + 1) * ((balances.length + 1) * d + (leverage - 1) * product + 1) := by
      refine mul_le_mul_of_nonneg_left (by linarith) ?_
      exact_mod_cast (show 0 ≤ next + 1 by omega)

/-- What a step adds to a square, where it moves by one unit at most. -/
theorem step_gap_le {previous : Int} (some : 1 ≤ n) (start : 0 ≤ d)
    (near : d ≤ previous + 1 ∧ previous ≤ d + 1) :
    (d + 1) * ((n + 1) * previous + 1) - n * previous * previous ≤ (d + n + 1) ^ 2 := by
  obtain ⟨t, rfl⟩ : ∃ t, previous = d + t := ⟨previous - d, by omega⟩
  have wide : 0 ≤ d * (n + (n - 1) * t) := by
    refine mul_nonneg start ?_
    have := mul_nonneg (show 0 ≤ n - 1 by omega) (show 0 ≤ t + 1 by omega)
    linarith
  have rest : 0 ≤ (n + 1) * (1 - t) + n * n + n - 1 + n * (t * t) := by
    have := mul_nonneg (show 0 ≤ n + 1 by omega) (show 0 ≤ 1 - t by omega)
    have := mul_nonneg (show 0 ≤ n by omega) (mul_self_nonneg t)
    have := mul_self_nonneg n
    linarith
  linarith

end

/-- An invariant rounded down: for one unit more, what the right side of the equation has beyond the
linear part of the left is less than the square of the invariant, up to the number of balances, by the
product of the balances as it is rounded for that unit. -/
def RoundedDown (amp : Int) (balances : List Int) (d : Int) : Prop :=
  ∃ product, balanceProduct balances.length (d + 1) balances false = .ok product ∧
    product * ((equation amp balances).leverage * (total balances : Int) -
      ((equation amp balances).leverage - 1) * (d + 1)) < ((d : ℚ) + balances.length + 1) ^ 2

theorem roundedInvariant_nonneg (amplified : ampUnit ≤ amp) (some : 0 < balances.length)
    (unsigned : ∀ x ∈ balances, 0 ≤ x)
    (computed : roundedInvariant amp balances false = .ok d) : 0 ≤ d := by
  unfold roundedInvariant at computed
  by_cases empty : total balances = 0
  · obtain rfl : 0 = d := by simpa [empty] using computed
    exact le_refl 0
  · rw [if_neg empty] at computed
    exact Newton.settle_preserves (0 ≤ ·)
      (fun _ _ start step => roundedStep_nonneg amplified some unsigned (total_nonneg unsigned) start
        step) (total_nonneg unsigned) computed

theorem roundedInvariant_roundedDown (amplified : ampUnit ≤ amp) (some : 0 < balances.length)
    (unsigned : ∀ x ∈ balances, 0 ≤ x) (present : total balances ≠ 0)
    (computed : roundedInvariant amp balances false = .ok d) : RoundedDown amp balances d := by
  have result := roundedInvariant_nonneg amplified some unsigned computed
  have sum : 0 ≤ total balances := total_nonneg unsigned
  rw [roundedInvariant, if_neg present] at computed
  obtain ⟨previous, start, step, near⟩ := Newton.settle_ends (0 ≤ ·)
    (fun _ _ start step => roundedStep_nonneg amplified some unsigned sum start step) sum computed
  obtain ⟨product, multiplied, stepped⟩ := roundedStep_lt amplified some unsigned start result step
  have moved := near_of_withinOne near
  obtain ⟨product', multiplied', nonneg, below⟩ :=
    balanceProduct_antitone (Int.natCast_nonneg _) start moved.2 unsigned multiplied
  have square : ((d : ℚ) + 1) * ((balances.length + 1) * previous + 1) -
      balances.length * previous * previous ≤ (d + balances.length + 1) ^ 2 := by
    exact_mod_cast step_gap_le (show (1 : Int) ≤ balances.length by omega) result moved
  refine ⟨product', multiplied', ?_⟩
  set rest : ℚ := (equation amp balances).leverage * (total balances : Int) -
    ((equation amp balances).leverage - 1) * (d + 1) with same
  rcases le_total 0 rest with some | none
  · calc
      product' * rest ≤ product * rest :=
        mul_le_mul_of_nonneg_right (by exact_mod_cast below) some
      _ < (d + 1) * ((balances.length + 1) * previous + 1) -
            balances.length * previous * previous := by
        rw [same]
        linarith
      _ ≤ (d + balances.length + 1) ^ 2 := square
  · have unsigned : (0 : ℚ) ≤ product' := by exact_mod_cast nonneg
    have positive : (0 : ℚ) < d + balances.length + 1 := by
      exact_mod_cast (show 0 < d + balances.length + 1 by omega)
    exact (mul_nonpos_of_nonneg_of_nonpos unsigned none).trans_lt (pow_pos positive 2)

section
variable {k : Coefficients} {next : Int}

theorem coefficients_eq_ok (computed : coefficients amp balances d index = .ok k) :
    ∃ product balance share, balanceProduct balances.length d balances false = .ok product ∧
      balances[index]? = some balance ∧
      rounded (d * d) (amp * balances.length * product) true = .ok share ∧
      k = ⟨total balances - balance + d.fdiv (amp * balances.length) * ampUnit,
        share * ampUnit * balance⟩ := by
  simp only [coefficients, Priced.bind_eq_ok, Priced.entry_eq_ok, rounded_down_eq_ok,
    Except.ok.injEq] at computed
  obtain ⟨product, multiplied, balance, balanceAt, share, shared, _, ⟨-, rfl⟩, rfl⟩ := computed
  exact ⟨product, balance, share, multiplied, balanceAt, shared, rfl⟩

/-- A step from the right of the point where the quadratic turns stays there and ends where the
quadratic is not below its constant. -/
theorem balanceStep_above (nonneg : 0 ≤ y) (above : d - k.b ≤ y) (square : 0 ≤ k.c)
    (step : balanceStep k d y = .ok next) :
    0 ≤ next ∧ d - k.b ≤ next ∧ k.c ≤ next * next + (k.b - d) * next := by
  have positive : 0 < y * 2 + k.b - d := by
    have := rounded_ne_zero step
    omega
  obtain ⟨covered, -⟩ := rounded_up_covers positive step
  refine ⟨?_, ?_, ?_⟩
  · exact nonneg_of_mul_nonneg_left ((add_nonneg (mul_self_nonneg y) square).trans covered) positive
  · have excess : 0 ≤ (y - (d - k.b)) * (y - (d - k.b)) := mul_self_nonneg _
    refine le_of_mul_le_mul_right ?_ positive
    linarith
  · have apart : 0 ≤ (next - y) * (next - y) := mul_self_nonneg _
    linarith

/-- The balance that is solved for is where the quadratic is not below its constant. -/
theorem balanceFor_eq_ok (start : 0 ≤ d) (solved : balanceFor amp balances d index = .ok y)
    (signs : ∀ k, coefficients amp balances d index = .ok k → 0 ≤ k.b ∧ 0 ≤ k.c) :
    ∃ k, coefficients amp balances d index = .ok k ∧ 0 ≤ y ∧ k.c ≤ y * y + (k.b - d) * y := by
  obtain ⟨k, computed, rest⟩ := Priced.bind_eq_ok.mp solved
  obtain ⟨first, begun, settled⟩ := Priced.bind_eq_ok.mp rest
  obtain ⟨linear, square⟩ := signs k computed
  -- The iteration starts with its own step from the invariant.
  have step : balanceStep k d d = .ok first := by
    rw [balanceStep, show d * 2 + k.b - d = d + k.b by ring]
    exact begun
  have kept := Newton.settle_preserves
    (fun y => 0 ≤ y ∧ d - k.b ≤ y ∧ k.c ≤ y * y + (k.b - d) * y)
    (fun _ _ holds step => balanceStep_above holds.1 holds.2.1 square step)
    (balanceStep_above start (by omega) square step) settled
  exact ⟨k, computed, kept.1, kept.2.2⟩

/-- The coefficients are rounded in favour of the pool. -/
theorem coefficients_bounds (amplified : 0 < amp) (unsigned : ∀ x ∈ balances, 0 ≤ x)
    (start : 0 ≤ d) (computed : coefficients amp balances d index = .ok k) :
    ∃ (product : Int) (bound : index < balances.length),
      balanceProduct balances.length d balances false = .ok product ∧ 0 < product ∧
      0 ≤ k.b ∧ 0 ≤ k.c ∧
      k.b = total (balances.eraseIdx index) + d.fdiv (amp * balances.length) * ampUnit ∧
      d * d * ampUnit * balances[index] ≤ k.c * (amp * balances.length * product) := by
  obtain ⟨product, balance, share, multiplied, balanceAt, shared, rfl⟩ := coefficients_eq_ok computed
  obtain ⟨bound, rfl⟩ := List.getElem?_eq_some_iff.mp balanceAt
  have unit : (0 : Int) < ampUnit := by decide
  have ampTotal : 0 < amp * balances.length := mul_pos amplified (by omega)
  have positive : 0 < product := by
    have nonneg := balanceProduct_nonneg (Int.natCast_nonneg _) start unsigned multiplied
    exact nonneg.lt_of_ne (right_ne_zero_of_mul (rounded_ne_zero shared)).symm
  have divisor : 0 < amp * balances.length * product := mul_pos ampTotal positive
  obtain ⟨covered, -⟩ := rounded_up_covers divisor shared
  have sharing : 0 ≤ share :=
    nonneg_of_mul_nonneg_left ((mul_self_nonneg d).trans covered) divisor
  have balance : 0 ≤ balances[index] := unsigned _ (List.getElem_mem bound)
  have others : 0 ≤ total (balances.eraseIdx index) :=
    total_nonneg fun x member => unsigned x (List.mem_of_mem_eraseIdx member)
  have rest : total balances - balances[index] = total (balances.eraseIdx index) := by
    rw [total_eq_add bound]
    ring
  have weight : 0 ≤ d.fdiv (amp * balances.length) := Int.fdiv_nonneg start ampTotal.le
  refine ⟨product, bound, multiplied, positive, ?_, ?_, by rw [rest], ?_⟩
  · rw [rest]
    exact add_nonneg others (mul_nonneg weight unit.le)
  · exact mul_nonneg (mul_nonneg sharing unit.le) balance
  · have scaled := mul_le_mul_of_nonneg_right covered (mul_nonneg unit.le balance)
    linarith

/-- The constant covers the power term of the equation without the balance. -/
theorem powerWithout_le {product : Int} (amplified : 0 < amp) (invariant : 0 < d)
    (present : ∀ x ∈ balances, 0 < x) (bound : index < balances.length)
    (multiplied : balanceProduct balances.length d balances false = .ok product) (square : 0 ≤ k.c)
    (constant : d * d * ampUnit * balances[index] ≤ k.c * (amp * balances.length * product)) :
    powerWithout balances index d ≤ (equation amp balances).leverage * k.c := by
  have some : 0 < balances.length := by omega
  have weighty := leverage_pos amplified some
  have scale := leverage_mul_ampUnit amp balances
  have unit : (0 : ℚ) < ampUnit := by decide
  have balance : (0 : ℚ) < balances[index] := by exact_mod_cast present _ (List.getElem_mem bound)
  have positive : (0 : ℚ) < d := by exact_mod_cast invariant
  have divisor : 0 < balances.length *
      ((balances.eraseIdx index).map (· * (balances.length : Int))).prod := by
    refine mul_pos (by exact_mod_cast some) (List.prod_pos fun factor member => ?_)
    obtain ⟨x, held, rfl⟩ := List.mem_map.mp member
    exact mul_pos (present x (List.mem_of_mem_eraseIdx held)) (by exact_mod_cast some)
  have multiple : (product : ℚ) * d ^ balances.length ≤ balances[index] *
      (balances.length * ((balances.eraseIdx index).map (· * (balances.length : Int))).prod : Int) *
        d := by
    have rounded := balanceProduct_mul_le (Int.natCast_nonneg _) invariant.le
      (fun x member => (present x member).le) multiplied
    rw [← List.CommMonoid.mul_prod_eraseIdx (l := balances.map (· * (balances.length : Int)))
      (i := index) (by rwa [List.length_map]), List.eraseIdx_map, List.getElem_map,
      mul_assoc balances[index]] at rounded
    exact_mod_cast rounded
  have constant : (d * d * balances[index] : ℚ) ≤
      (equation amp balances).leverage * k.c * product := by
    have whole : (d * d * ampUnit * balances[index] : ℚ) ≤
        k.c * (amp * balances.length * product) := by
      exact_mod_cast constant
    rw [← scale] at whole
    exact le_of_mul_le_mul_right (by linarith) unit
  generalize (equation amp balances).leverage = leverage at weighty constant ⊢
  rw [powerWithout, div_le_iff₀ (by exact_mod_cast divisor)]
  refine le_of_mul_le_mul_right ?_ (mul_pos balance positive)
  have weight : 0 ≤ leverage * k.c :=
    mul_nonneg weighty.le (by exact_mod_cast square)
  calc
    (d : ℚ) ^ (balances.length + 1) * (balances[index] * d) =
        d * d * balances[index] * d ^ balances.length := by ring
    _ ≤ leverage * k.c * product * d ^ balances.length :=
      mul_le_mul_of_nonneg_right constant (pow_nonneg positive.le _)
    _ = leverage * k.c * (product * d ^ balances.length) := mul_assoc _ _ _
    _ ≤ leverage * k.c * (balances[index] * (balances.length *
          ((balances.eraseIdx index).map (· * (balances.length : Int))).prod : Int) * d) :=
      mul_le_mul_of_nonneg_left multiple weight
    _ = _ := by ring

theorem square_pos {product balance : Int} (amplified : 0 < amp) (some : 0 < balances.length)
    (invariant : 0 < d) (present : 0 < balance) (positive : 0 < product)
    (constant : d * d * ampUnit * balance ≤ k.c * (amp * balances.length * product)) : 0 < k.c := by
  have divisor : 0 < amp * balances.length * product :=
    mul_pos (mul_pos amplified (by omega)) positive
  have left : 0 < d * d * ampUnit * balance :=
    mul_pos (mul_pos (mul_pos invariant invariant) (by decide)) present
  exact pos_of_mul_pos_left (left.trans_le constant) divisor.le

/-- The linear coefficient is rounded down. -/
theorem leverage_mul_linear_le (amplified : 0 < amp) (some : 0 < balances.length)
    (linear : k.b = total (balances.eraseIdx index) + d.fdiv (amp * balances.length) * ampUnit) :
    (equation amp balances).leverage * k.b ≤
      (equation amp balances).leverage * total (balances.eraseIdx index) + d := by
  have ampTotal : 0 < amp * balances.length := mul_pos amplified (by omega)
  have scale := leverage_mul_ampUnit amp balances
  have weight := (le_fdiv_iff ampTotal).mp (le_refl (d.fdiv (amp * balances.length)))
  have rounded : (d.fdiv (amp * balances.length) : Int) *
      ((equation amp balances).leverage * ampUnit) ≤ (d : ℚ) := by
    rw [scale]
    exact_mod_cast weight
  rw [linear]
  push_cast
  linarith

/-- The balance that is solved for completes the others to balances with a surplus. -/
theorem surplus_of_balanceFor (amplified : ampUnit ≤ amp) (several : 1 < balances.length)
    (unsigned : ∀ x ∈ balances, 0 ≤ x) (start : 0 ≤ d)
    (solved : balanceFor amp balances d index = .ok y) :
    0 < y ∧ (∀ x ∈ balances, 0 < x) ∧ 0 ≤ surplus amp (balances.set index y) d := by
  have some : 0 < balances.length := by omega
  have amplification : 0 < amp := (show (0 : Int) < ampUnit by decide).trans_le amplified
  obtain ⟨k, computed, nonneg, quadratic⟩ := balanceFor_eq_ok start solved fun k computed => by
    obtain ⟨_, _, -, -, linear, square, -⟩ :=
      coefficients_bounds amplification unsigned start computed
    exact ⟨linear, square⟩
  obtain ⟨product, bound, multiplied, positive, -, square, linear, constant⟩ :=
    coefficients_bounds amplification unsigned start computed
  have invariant : 0 < d := start.lt_of_ne (balanceProduct_ne_zero several multiplied).symm
  have present := balanceProduct_present (Int.natCast_nonneg _) invariant unsigned positive multiplied
  have balance : 0 < balances[index] := present _ (List.getElem_mem bound)
  have left : 0 < y := by
    refine nonneg.lt_of_ne fun none => ?_
    have := square_pos amplification some invariant balance positive constant
    rw [← none] at quadratic
    omega
  refine ⟨left, present, ?_⟩
  have power := powerWithout_le amplification invariant present bound multiplied square constant
  have slack := leverage_mul_linear_le amplification some linear
  have weighty := leverage_pos amplification some
  have cast : (0 : ℚ) < y := by exact_mod_cast left
  rw [surplus_set_eq bound]
  generalize (equation amp balances).leverage = leverage at weighty slack power ⊢
  have quadratic : leverage * k.c ≤ leverage * (y * y + (k.b - d) * y) :=
    mul_le_mul_of_nonneg_left (by exact_mod_cast quadratic) weighty.le
  have term : powerWithout balances index d / y ≤
      leverage * (y + total (balances.eraseIdx index)) - (leverage - 1) * d := by
    rw [div_le_iff₀ cast]
    linarith [mul_le_mul_of_nonneg_right slack cast.le]
  push_cast
  linarith

end

/-- What a sale leaves of the bought balance completes the balances to some with a surplus. -/
theorem surplus_of_outGivenIn {sold released : Int} {indexIn indexOut : Nat}
    (amplified : ampUnit ≤ amp) (several : 1 < balances.length) (different : indexIn ≠ indexOut)
    (unsigned : ∀ x ∈ balances, 0 ≤ x) (start : 0 ≤ d) (unsignedSale : 0 ≤ sold)
    (computed : outGivenIn amp balances indexIn indexOut sold d = .ok released) :
    ∃ balanceIn balanceOut, balances[indexIn]? = some balanceIn ∧
      balances[indexOut]? = some balanceOut ∧ 0 ≤ released ∧ 0 < balanceOut - released - 1 ∧
      (∀ x ∈ balances.set indexIn (balanceIn + sold), 0 < x) ∧
      0 ≤ surplus amp ((balances.set indexIn (balanceIn + sold)).set indexOut
        (balanceOut - released - 1)) d := by
  simp only [outGivenIn, Priced.bind_eq_ok, Priced.entry_eq_ok] at computed
  obtain ⟨balanceIn, balanceInAt, rest, solved, balanceOut, balanceOutAt, _, beyond, less⟩ := computed
  obtain ⟨-, rfl⟩ := difference_eq_ok beyond
  obtain ⟨one, rfl⟩ := difference_eq_ok less
  rw [List.getElem?_set_ne different] at balanceOutAt
  have after : ∀ x ∈ balances.set indexIn (balanceIn + sold), 0 ≤ x :=
    forall_set unsigned (add_nonneg (unsigned _ (List.mem_of_getElem? balanceInAt)) unsignedSale)
  obtain ⟨left, present, covered⟩ := surplus_of_balanceFor amplified
    (by rwa [List.length_set]) after start solved
  have same : balanceOut - (balanceOut - rest - 1) - 1 = rest := by ring
  refine ⟨balanceIn, balanceOut, balanceInAt, balanceOutAt, by omega, ?_⟩
  rw [same]
  exact ⟨left, present, covered⟩

end Composable
end Amm
