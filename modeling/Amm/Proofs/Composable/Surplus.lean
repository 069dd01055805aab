import Amm.Composable.Curve
import Amm.Proofs.Stable.Comparison

/-!
The equation of a composable pool, read as a surplus: what the sum of the balances has beyond what an
invariant needs. The surplus is concave in each balance, so the worth of one unit of a balance at one
point bounds it everywhere.
-/

namespace Amm
namespace Composable

/-- A composable pool prices on a stable curve without offset. -/
def curve (amp : Int) : Stable.Curve :=
  ⟨amp, ampUnit, false⟩

def equation (amp : Int) (balances : List Int) : Equation :=
  (curve amp).equation balances

/-- By how much the right side of the equation exceeds the left one at an invariant. -/
def surplus (amp : Int) (balances : List Int) (d : Int) : ℚ :=
  (equation amp balances).leverage * (total balances : Int) - (equation amp balances).level d

/-- By how much the surplus grows with one unit of a balance. -/
def worth (amp : Int) (balances : List Int) (index : Nat) (d : Int) : ℚ :=
  (equation amp balances).leverage +
    d ^ (balances.length + 1) / (equation amp balances).divisor / (balances.getD index 0 : Int)

/-- The power term of the equation times the balance at an index. -/
def powerWithout (balances : List Int) (index : Nat) (d : Int) : ℚ :=
  d ^ (balances.length + 1) /
    (balances.length * ((balances.eraseIdx index).map (· * (balances.length : Int))).prod : Int)

variable {amp d y : Int} {balances balances' : List Int} {index : Nat}

theorem curve_admissible (amplified : ampUnit ≤ amp) (some : 0 < balances.length) :
    (curve amp).Admissible balances.length := by
  refine ⟨show (1 : Int) ≤ 1000 by decide, amplified.trans ?_⟩
  have positive : 0 ≤ amp := (show (0 : Int) ≤ ampUnit by decide).trans amplified
  exact le_mul_of_one_le_right positive (by exact_mod_cast some)

theorem leverage_mul_ampUnit (amp : Int) (balances : List Int) :
    (equation amp balances).leverage * ampUnit = amp * balances.length :=
  div_mul_cancel₀ _ (show ((ampUnit : Int) : ℚ) ≠ 0 by decide)

theorem leverage_pos (amplified : 0 < amp) (some : 0 < balances.length) :
    0 < (equation amp balances).leverage := by
  have ampTotal : (0 : ℚ) < amp * balances.length := by
    exact_mod_cast mul_pos amplified (show (0 : Int) < balances.length by omega)
  rw [← leverage_mul_ampUnit] at ampTotal
  exact pos_of_mul_pos_left ampTotal (by decide)

theorem equation_sound (amplified : ampUnit ≤ amp) (some : 0 < balances.length)
    (positive : ∀ x ∈ balances, 0 < x) : (equation amp balances).Sound :=
  (curve amp).plain_sound (curve_admissible amplified some) positive

/-- Greater balances have a greater surplus. -/
theorem surplus_mono (amplified : ampUnit ≤ amp) (some : 0 < balances.length)
    (positive : ∀ x ∈ balances, 0 < x) (below : List.Forall₂ (· ≤ ·) balances balances')
    (start : 0 ≤ d) : surplus amp balances d ≤ surplus amp balances' d := by
  have sound := equation_sound amplified some positive
  have level : (equation amp balances').level d ≤ (equation amp balances).level d := by
    refine Stable.Curve.level_le_of_forall₂ sound below (fun x member => ?_) start
    rw [show (curve amp).divisor balances.length x = x * balances.length from rfl]
    exact mul_pos (positive x member) (by exact_mod_cast some)
  have sum : ((total balances : Int) : ℚ) ≤ (total balances' : Int) := by
    rw [total_eq_sum, total_eq_sum]
    exact_mod_cast below.sum_le_sum
  have leverage : (equation amp balances').leverage = (equation amp balances).leverage := by
    simp only [equation, Stable.Curve.equation_leverage, below.length_eq]
  have grown := mul_le_mul_of_nonneg_left sum (zero_le_one.trans sound.leverage)
  unfold surplus
  rw [leverage]
  linarith

theorem prod_map_mul_nonneg {n : Int} (count : 0 ≤ n) (unsigned : ∀ x ∈ balances, 0 ≤ x) :
    0 ≤ (balances.map (· * n)).prod :=
  List.prod_nonneg fun factor member => by
    obtain ⟨x, held, rfl⟩ := List.mem_map.mp member
    exact mul_nonneg (unsigned x held) count

theorem powerWithout_nonneg (unsigned : ∀ x ∈ balances, 0 ≤ x) (start : 0 ≤ d) :
    0 ≤ powerWithout balances index d := by
  have product : 0 ≤ ((balances.eraseIdx index).map (· * (balances.length : Int))).prod :=
    prod_map_mul_nonneg (Int.natCast_nonneg _) fun x held => unsigned x (List.mem_of_mem_eraseIdx held)
  refine div_nonneg (pow_nonneg (by exact_mod_cast start) _) ?_
  exact_mod_cast mul_nonneg (Int.natCast_nonneg balances.length) product

/-- Lists that compare keep comparing where one entry of each is replaced. -/
theorem forall₂_set {a b : Int} (below : List.Forall₂ (· ≤ ·) balances balances') (entry : a ≤ b)
    (index : Nat) : List.Forall₂ (· ≤ ·) (balances.set index a) (balances'.set index b) := by
  induction below generalizing index with
  | nil => exact .nil
  | cons first rest ih =>
      cases index with
      | zero => exact .cons entry rest
      | succ index => exact .cons first (ih index)

section
variable (bound : index < balances.length)
include bound

theorem power_eq :
    d ^ (balances.length + 1) / (equation amp balances).divisor =
      powerWithout balances index d / balances[index] := by
  have product := List.CommMonoid.mul_prod_eraseIdx
    (l := balances.map (· * (balances.length : Int))) (by rwa [List.length_map])
  rw [List.eraseIdx_map, List.getElem_map] at product
  have divisor : (equation amp balances).divisor =
      ((balances.map (· * (balances.length : Int))).prod : Int) := rfl
  rw [divisor, ← product, powerWithout, div_div]
  push_cast
  ring

theorem surplus_eq :
    surplus amp balances d = (equation amp balances).leverage *
        (balances[index] + total (balances.eraseIdx index) : Int) -
      (powerWithout balances index d / balances[index] +
        ((equation amp balances).leverage - 1) * d) := by
  rw [← power_eq bound, ← total_eq_add bound]
  rfl

theorem surplus_set_eq :
    surplus amp (balances.set index y) d = (equation amp balances).leverage *
        (y + total (balances.eraseIdx index) : Int) -
      (powerWithout balances index d / y + ((equation amp balances).leverage - 1) * d) := by
  rw [surplus_eq (show index < (balances.set index y).length by rwa [List.length_set]),
    List.getElem_set_self, List.eraseIdx_set_eq]
  simp only [equation, Stable.Curve.equation_leverage, powerWithout, List.length_set,
    List.eraseIdx_set_eq]

theorem worth_eq :
    worth amp balances index d = (equation amp balances).leverage +
      powerWithout balances index d / balances[index] / balances[index] := by
  rw [worth, power_eq bound, List.getD_eq_getElem?_getD, List.getElem?_eq_getElem bound,
    Option.getD_some]

theorem worth_nonneg (amplified : ampUnit ≤ amp) (unsigned : ∀ x ∈ balances, 0 ≤ x)
    (start : 0 ≤ d) : 0 ≤ worth amp balances index d := by
  have balance : (0 : ℚ) ≤ balances[index] := by exact_mod_cast unsigned _ (List.getElem_mem bound)
  have leverage : 0 ≤ (equation amp balances).leverage := by
    have ampTotal : (ampUnit : Int) ≤ amp * balances.length :=
      (curve_admissible amplified (by omega)).amp
    have unit : (0 : Int) ≤ ampUnit := by decide
    exact div_nonneg (by exact_mod_cast unit.trans ampTotal) (by exact_mod_cast unit)
  rw [worth_eq bound]
  exact add_nonneg leverage
    (div_nonneg (div_nonneg (powerWithout_nonneg unsigned start) balance) balance)

/-- The surplus is below its tangent in one balance. -/
theorem surplus_set_le (positive : 0 < y) (unsigned : ∀ x ∈ balances, 0 ≤ x) (start : 0 ≤ d) :
    surplus amp (balances.set index y) d ≤
      surplus amp balances d - (balances[index] - y) * worth amp balances index d := by
  have balance : 0 ≤ balances[index] := unsigned _ (List.getElem_mem bound)
  have power : 0 ≤ powerWithout balances index d := powerWithout_nonneg unsigned start
  rw [surplus_set_eq bound, surplus_eq bound, worth_eq bound]
  generalize powerWithout balances index d = k at power ⊢
  generalize balances[index] = z at balance ⊢
  have left : (0 : ℚ) < y := by exact_mod_cast positive
  -- What the tangent leaves out is a square.
  have apart : k / z - k / y ≤ -(z - y) * (k / z / z) := by
    rcases balance.eq_or_lt with rfl | some
    · have := div_nonneg power left.le
      simpa using this
    · have held : (0 : ℚ) < z := by exact_mod_cast some
      have square : 0 ≤ k * (z - y) ^ 2 / (z ^ 2 * y) := by positivity
      have same : -(z - y) * (k / z / z) - (k / z - k / y) = k * (z - y) ^ 2 / (z ^ 2 * y) := by
        field_simp
        ring
      linarith
  push_cast
  linarith

end

end Composable
end Amm
