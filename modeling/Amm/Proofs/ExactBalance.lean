import Amm.Proofs.Quadratic
import Amm.Proofs.Rounding
import Mathlib.Algebra.BigOperators.Group.List.Basic
import Mathlib.Algebra.Order.BigOperators.Group.List
import Mathlib.Analysis.MeanInequalities
import Mathlib.Tactic.FieldSimp

/-!
The balance that completes others to a stable pool with a given invariant, with nothing rounded. It is
convex in the other balances: a mix of two lists of them is completed by no more than the same mix of what
completes the two, because the power term of the equation is a reciprocal of the balances.
-/

namespace Amm

/-- The linear coefficient of the quadratic for the missing balance. -/
def exactSlope (leverage : ℚ) (d : Int) (others : List Int) : ℚ :=
  total others + d / leverage - d

/-- The power term of the equation times the missing balance. -/
def exactPower (d : Int) (others : List Int) : ℚ :=
  d ^ (others.length + 2) /
    ((others.length + 1) * (others.map (· * ((others.length : Int) + 1))).prod : Int)

/-- The missing balance for which the equation holds. -/
noncomputable def exactBalance (leverage : ℚ) (d : Int) (others : List Int) : ℝ :=
  greaterRoot (exactSlope leverage d others) (exactPower d others / leverage : ℚ)

section
variable {leverage : ℚ} {d : Int} {others : List Int} {y : ℝ}

theorem divisors_pos {count : Int} (present : ∀ x ∈ others, 0 < x) (some : 0 < count) :
    0 < (others.map (· * count)).prod :=
  List.prod_pos (List.forall_mem_map.mpr fun x held => mul_pos (present x held) some)

theorem exactPower_pos (invariant : 0 < d) (present : ∀ x ∈ others, 0 < x) :
    0 < exactPower d others := by
  have count : (0 : Int) < others.length + 1 := by omega
  have divisors := divisors_pos present count
  have power : (0 : ℚ) < (d : ℚ) ^ (others.length + 2) := pow_pos (by exact_mod_cast invariant) _
  exact div_pos power (by exact_mod_cast mul_pos count divisors)

/-- The quadratic and the equation compare a balance alike. -/
theorem quadratic_sub_eq_surplus (d : Int) (others : List Int) (weighty : 0 < leverage)
    (nonzero : y ≠ 0) :
    leverage * (y * y + exactSlope leverage d others * y - (exactPower d others / leverage : ℚ)) =
      y * (leverage * (y + total others) - (exactPower d others / y + (leverage - 1) * d)) := by
  have weight : (leverage : ℝ) ≠ 0 := by exact_mod_cast weighty.ne'
  rw [exactSlope]
  push_cast
  field_simp
  ring

variable (weighty : 0 < leverage) (invariant : 0 < d) (present : ∀ x ∈ others, 0 < x)
include weighty invariant present

theorem exactConstant_pos : (0 : ℝ) < (exactPower d others / leverage : ℚ) := by
  exact_mod_cast div_pos (exactPower_pos invariant present) weighty

theorem exactBalance_pos : 0 < exactBalance leverage d others :=
  greaterRoot_pos _ (exactConstant_pos weighty invariant present)

theorem exactBalance_le_iff (positive : 0 < y) :
    exactBalance leverage d others ≤ y ↔
      exactPower d others / y + (leverage - 1) * d ≤ leverage * (y + total others) := by
  have weight : (0 : ℝ) < leverage := by exact_mod_cast weighty
  have compared := quadratic_sub_eq_surplus d others weighty positive.ne'
  rw [exactBalance, ← le_quadratic_iff (exactConstant_pos weighty invariant present) positive.le,
    ← sub_nonneg, ← mul_nonneg_iff_of_pos_left weight, compared, mul_nonneg_iff_of_pos_left positive,
    sub_nonneg]

/-- An integer above a quadratic whose coefficients are rounded up is at least the exact balance. -/
theorem exactBalance_le_of_quadratic {b c z : Int} (slope : b - d ≤ exactSlope leverage d others)
    (constant : exactPower d others / leverage ≤ c) (nonneg : 0 ≤ z)
    (above : c ≤ z * z + (b - d) * z) : exactBalance leverage d others ≤ z := by
  have start : (0 : ℚ) ≤ z := by exact_mod_cast nonneg
  have exact : exactPower d others / leverage ≤ z * z + exactSlope leverage d others * z := by
    have quadratic : (c : ℚ) ≤ z * z + (b - d) * z := by exact_mod_cast above
    linarith [mul_le_mul_of_nonneg_right slope start]
  rw [exactBalance, ← le_quadratic_iff (exactConstant_pos weighty invariant present)
    (by exact_mod_cast start)]
  exact_mod_cast exact

/-- An integer that is not above a quadratic whose coefficients are rounded down exceeds the exact balance
by at most what the linear coefficient has lost. -/
theorem le_exactBalance_of_quadratic {b c z : Int} (slope : exactSlope leverage d others ≤ b - d + 1)
    (constant : c ≤ exactPower d others / leverage)
    (below : (z + 1) * (z + 1) + (b - d) * (z + 1) ≤ c) : z ≤ exactBalance leverage d others := by
  have root := exactBalance_pos weighty invariant present
  rcases le_total z 0 with none | nonneg
  · exact (Int.cast_nonpos.mpr none).trans root.le
  have start : (0 : ℚ) ≤ z := by exact_mod_cast nonneg
  have reached : z * z + exactSlope leverage d others * z ≤ exactPower d others / leverage := by
    have positive := div_pos (exactPower_pos invariant present) weighty
    rcases le_total (z + exactSlope leverage d others) 0 with turned | beyond
    · linarith [mul_nonpos_of_nonpos_of_nonneg turned start]
    · have quadratic : ((z + 1) * (z + 1) + (b - d) * (z + 1) : ℚ) ≤ c := by exact_mod_cast below
      linarith [mul_le_mul_of_nonneg_right slope start]
  rw [exactBalance, ← quadratic_le_iff (exactConstant_pos weighty invariant present).le
    (by exact_mod_cast start)]
  exact_mod_cast reached

/-- With the exact balance in its place the equation holds. -/
theorem exactBalance_equation :
    exactPower d others / exactBalance leverage d others + (leverage - 1) * d =
      leverage * (exactBalance leverage d others + total others) := by
  have positive := exactBalance_pos weighty invariant present
  have root := greaterRoot_eq (exactSlope leverage d others)
    (exactConstant_pos weighty invariant present).le
  have compared := quadratic_sub_eq_surplus d others weighty positive.ne'
  rw [← exactBalance] at root
  rw [root, sub_self, mul_zero, eq_comm, mul_eq_zero_iff_left positive.ne', sub_eq_zero] at compared
  exact compared.symm

end

section
variable {ι : Type} {balances : List ι} {part : ℝ}

theorem rpow_mix_mul {a b a' b' m m' : ℝ} (nonneg : 0 ≤ a) (other : 0 ≤ b) (nonneg' : 0 ≤ a')
    (other' : 0 ≤ b') (first : a ^ (1 - part) * b ^ part ≤ m)
    (second : a' ^ (1 - part) * b' ^ part ≤ m') :
    (a * a') ^ (1 - part) * (b * b') ^ part ≤ m * m' := by
  rw [Real.mul_rpow nonneg nonneg', Real.mul_rpow other other']
  calc
    _ = a ^ (1 - part) * b ^ part * (a' ^ (1 - part) * b' ^ part) := by ring
    _ ≤ m * m' := mul_le_mul first second (by positivity) ((by positivity : (0 : ℝ) ≤ _).trans first)

section
variable (unsigned : 0 ≤ part) (whole : part ≤ 1)
include unsigned whole

theorem rpow_mix_le {a b : ℝ} (first : 0 ≤ a) (second : 0 ≤ b) :
    a ^ (1 - part) * b ^ part ≤ (1 - part) * a + part * b :=
  Real.geom_mean_le_arith_mean2_weighted (sub_nonneg.mpr whole) unsigned first second (by ring)

theorem mix_pos {a b : ℝ} (first : 0 < a) (second : 0 < b) : 0 < (1 - part) * a + part * b :=
  (by positivity : 0 < a ^ (1 - part) * b ^ part).trans_le
    (rpow_mix_le unsigned whole first.le second.le)

/-- The product of mixed factors is at least the mean of the products. -/
theorem rpow_mix_le_prod {f g : ι → ℝ} (first : ∀ x ∈ balances, 0 < f x)
    (second : ∀ x ∈ balances, 0 < g x) :
    (balances.map f).prod ^ (1 - part) * (balances.map g).prod ^ part ≤
      (balances.map fun x => (1 - part) * f x + part * g x).prod := by
  induction balances with
  | nil => simp
  | cons x balances ih =>
      rw [List.forall_mem_cons] at first second
      simp only [List.map_cons, List.prod_cons]
      have firstProduct := List.prod_pos (List.forall_mem_map.mpr first.2)
      have secondProduct := List.prod_pos (List.forall_mem_map.mpr second.2)
      exact rpow_mix_mul first.1.le second.1.le firstProduct.le secondProduct.le
        (rpow_mix_le unsigned whole first.1.le second.1.le) (ih first.2 second.2)

/-- The reciprocal of what is at least a mean is at most the mix of the reciprocals. -/
theorem inv_le_mix {a b m : ℝ} (first : 0 < a) (second : 0 < b)
    (mixed : a ^ (1 - part) * b ^ part ≤ m) : m⁻¹ ≤ (1 - part) * a⁻¹ + part * b⁻¹ := by
  refine (inv_anti₀ (by positivity) mixed).trans ?_
  rw [mul_inv, ← Real.inv_rpow first.le, ← Real.inv_rpow second.le]
  exact rpow_mix_le unsigned whole (by positivity) (by positivity)

end

/-- What the equation divides its power term by, but for the missing balance. -/
def divisorOf (balances : List ι) (f : ι → Int) : ℝ :=
  (balances.map fun x => (f x * (balances.length + 1) : ℝ)).prod

variable {leverage : ℚ} {d : Int} {f g h : ι → Int}

theorem exactPower_div_eq (d : Int) (balances : List ι) (f : ι → Int) (y : ℝ) :
    exactPower d (balances.map f) / y =
      d ^ (balances.length + 2) / (balances.length + 1) * (y * divisorOf balances f)⁻¹ := by
  have product : ((((balances.map f).map (· * ((balances.length : Int) + 1))).prod : Int) : ℝ) =
      divisorOf balances f := by
    rw [Int.cast_list_prod, List.map_map, List.map_map]
    exact congrArg List.prod (List.map_congr_left fun x _ => by simp)
  simp only [exactPower, List.length_map, Rat.cast_div, Rat.cast_pow, Rat.cast_intCast, Int.cast_mul,
    Rat.cast_mul, Int.cast_add, Rat.cast_add, Int.cast_one, Rat.cast_one, Int.cast_natCast,
    Rat.cast_natCast, product]
  field_simp

section
variable (positive : ∀ x ∈ balances, 0 < f x)
include positive

theorem factors_pos : ∀ x ∈ balances, (0 : ℝ) < f x * (balances.length + 1) := fun x member =>
  mul_pos (Int.cast_pos.mpr (positive x member)) (by positivity)

theorem divisorOf_pos : 0 < divisorOf balances f :=
  List.prod_pos (List.forall_mem_map.mpr (factors_pos positive))

end

theorem mix_total_le (mixed : ∀ x ∈ balances, (1 - part) * f x + part * g x ≤ h x) :
    (1 - part) * total (balances.map f) + part * total (balances.map g) ≤
      total (balances.map h) := by
  simp only [total_eq_sum, Int.cast_list_sum, List.map_map, ← List.sum_map_mul_left,
    ← List.sum_map_add]
  exact List.sum_le_sum mixed

section
variable (unsigned : 0 ≤ part) (whole : part ≤ 1) (first : ∀ x ∈ balances, 0 < f x)
  (second : ∀ x ∈ balances, 0 < g x)
  (mixed : ∀ x ∈ balances, (1 - part) * f x + part * g x ≤ h x)
include unsigned whole first second mixed

theorem mixed_pos : ∀ x ∈ balances, 0 < h x := fun x member => by
  have above := (mix_pos unsigned whole (Int.cast_pos.mpr (first x member))
    (Int.cast_pos.mpr (second x member))).trans_le (mixed x member)
  exact_mod_cast above

theorem rpow_mix_le_divisorOf :
    divisorOf balances f ^ (1 - part) * divisorOf balances g ^ part ≤ divisorOf balances h := by
  refine (rpow_mix_le_prod unsigned whole (factors_pos first) (factors_pos second)).trans ?_
  refine List.prod_map_le_prod_map₀ _ _ (fun x member => ?_) fun x member => ?_
  · exact (mix_pos unsigned whole (factors_pos first x member) (factors_pos second x member)).le
  · have scaled := mul_le_mul_of_nonneg_right (mixed x member)
      (show (0 : ℝ) ≤ balances.length + 1 by positivity)
    linarith

/-- Balances that are at least a mix of two others are completed by at most the mix of what completes
those. -/
theorem exactBalance_mix_le (weighty : 0 < leverage) (invariant : 0 < d) :
    exactBalance leverage d (balances.map h) ≤
      (1 - part) * exactBalance leverage d (balances.map f) +
        part * exactBalance leverage d (balances.map g) := by
  have third := List.forall_mem_map.mpr (mixed_pos unsigned whole first second mixed)
  have one := exactBalance_equation weighty invariant (List.forall_mem_map.mpr first)
  have two := exactBalance_equation weighty invariant (List.forall_mem_map.mpr second)
  have onePos := exactBalance_pos weighty invariant (List.forall_mem_map.mpr first)
  have twoPos := exactBalance_pos weighty invariant (List.forall_mem_map.mpr second)
  generalize exactBalance leverage d (balances.map f) = y at one onePos ⊢
  generalize exactBalance leverage d (balances.map g) = z at two twoPos ⊢
  rw [exactBalance_le_iff weighty invariant third (mix_pos unsigned whole onePos twoPos)]
  rw [exactPower_div_eq] at one two ⊢
  have onePart := divisorOf_pos first
  have twoPart := divisorOf_pos second
  have reciprocal := inv_le_mix unsigned whole (mul_pos onePos onePart) (mul_pos twoPos twoPart)
    (rpow_mix_mul onePos.le twoPos.le onePart.le twoPart.le
      (rpow_mix_le unsigned whole onePos.le twoPos.le)
      (rpow_mix_le_divisorOf unsigned whole first second mixed))
  have power : (0 : ℝ) ≤ d ^ (balances.length + 2) / (balances.length + 1) := by
    have nonneg : (0 : ℝ) ≤ d := by exact_mod_cast invariant.le
    positivity
  have left := mul_le_mul_of_nonneg_left reciprocal power
  have right := mul_le_mul_of_nonneg_left (mix_total_le mixed)
    (show (0 : ℝ) ≤ leverage by exact_mod_cast weighty.le)
  linear_combination left + right + (1 - part) * one + part * two

end

end

end Amm
