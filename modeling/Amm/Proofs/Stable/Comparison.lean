import Amm.Proofs.Stable.Completion

/-!
The equations of two lists of balances compared. Greater balances lower the left side of the equation
and raise the right one, and so does the offset in the divisors for the left side. What is above the
invariant is not allowed by the equation. The greater the balances, the less completes them.
-/

namespace Amm
namespace Stable
namespace Curve

variable {curve : Curve} {xp xp' : List Int} {d e : Int}

theorem divisor_mono (curve : Curve) {n x x' : Int} (count : 0 ≤ n) (below : x ≤ x') :
    curve.divisor n x ≤ curve.divisor n x' := by
  have product := mul_le_mul_of_nonneg_right below count
  unfold divisor
  split <;> omega

theorem divisors_le {divisor : Int → Int} (mono : ∀ x x', x ≤ x' → divisor x ≤ divisor x')
    (below : List.Forall₂ (· ≤ ·) xp xp') (positive : ∀ x ∈ xp, 0 < divisor x) :
    (xp.map divisor).prod ≤ (xp'.map divisor).prod := by
  induction below with
  | nil => exact le_refl _
  | @cons x x' xp xp' first _ ih =>
      rw [List.map_cons, List.map_cons, List.prod_cons, List.prod_cons]
      have start : 0 < divisor x := positive x (by simp)
      have rest := ih fun y member => positive y (by simp [member])
      have unsigned : 0 ≤ (xp.map divisor).prod := List.prod_nonneg fun factor member => by
        obtain ⟨y, held, rfl⟩ := List.mem_map.mp member
        exact (positive y (by simp [held])).le
      exact mul_le_mul (mono x x' first) rest unsigned (start.le.trans (mono x x' first))

theorem le_of_forall₂ {least : Int} (below : List.Forall₂ (· ≤ ·) xp xp')
    (above : ∀ x ∈ xp, least ≤ x) : ∀ x ∈ xp', least ≤ x := by
  induction below with
  | nil => simp
  | @cons x x' xp xp' first _ ih =>
      intro y member
      rcases List.mem_cons.mp member with rfl | later
      · exact (above x (by simp)).trans first
      · exact ih (fun z held => above z (by simp [held])) y later

/-- Greater balances lower the left side of the equation. -/
theorem level_le_of_forall₂ (sound : (curve.equation xp).Sound)
    (below : List.Forall₂ (· ≤ ·) xp xp')
    (positive : ∀ x ∈ xp, 0 < curve.divisor xp.length x) (start : 0 ≤ e) :
    (curve.equation xp').level e ≤ (curve.equation xp).level e := by
  have divisors := divisors_le (fun _ _ => curve.divisor_mono (Int.natCast_nonneg xp.length)) below
    positive
  refine Equation.level_le_level sound below.length_eq.symm ?_ ?_ (by exact_mod_cast start)
  · rw [equation_leverage, equation_leverage, below.length_eq]
  · rw [equation_divisor, equation_divisor, ← below.length_eq]
    exact_mod_cast divisors

theorem weighted_le_of_forall₂ (admissible : curve.Admissible xp.length)
    (below : List.Forall₂ (· ≤ ·) xp xp') : curve.weighted xp ≤ curve.weighted xp' := by
  have ⟨precision, amp⟩ := admissible
  rw [weighted, weighted, ← below.length_eq, total_eq_sum, total_eq_sum]
  refine fdiv_le_fdiv (by omega) (mul_le_mul_of_nonneg_left below.sum_le_sum (by omega))

theorem leverage_mul_total_lt (curve : Curve) (xp : List Int) (precision : 1 ≤ curve.precision) :
    (curve.equation xp).leverage * total xp < curve.weighted xp + 1 := by
  have rounded := div_lt_cast_fdiv_add_one (a := curve.amp * xp.length * total xp)
    (show 0 < curve.precision from precision)
  rw [equation_leverage, weighted]
  push_cast at rounded
  linarith [div_mul_eq_mul_div ((curve.amp : ℚ) * xp.length) (curve.precision : ℚ) (total xp : ℚ)]

theorem plain_sound (admissible : curve.Admissible xp.length) (positive : ∀ x ∈ xp, 0 < x) :
    (curve.plain.equation xp).Sound := by
  have plain : curve.plain.Admissible xp.length := ⟨admissible.precision, admissible.amp⟩
  refine sound_of_divisors plain fun x member => ?_
  rw [plain_divisor]
  exact mul_pos (positive x member) (by exact_mod_cast List.length_pos_of_mem member)

/-- The offset in the divisors lowers the left side of the equation. -/
theorem level_le_plain (admissible : curve.Admissible xp.length) (positive : ∀ x ∈ xp, 0 < x)
    (start : 0 ≤ e) : (curve.equation xp).level e ≤ (curve.plain.equation xp).level e := by
  refine Equation.level_le_level (plain_sound admissible positive) rfl rfl ?_
    (by exact_mod_cast start)
  have divisors : (xp.map (curve.plain.divisor xp.length)).prod ≤
      (xp.map (curve.divisor xp.length)).prod := by
    refine List.prod_map_le_prod_map₀ _ _ (fun x member => ?_) fun x member => ?_
    · rw [plain_divisor]
      exact mul_nonneg (positive x member).le (Int.natCast_nonneg _)
    · rw [plain_divisor, divisor]
      split <;> omega
  rw [equation_divisor, equation_divisor]
  exact_mod_cast divisors

/-- Where an integer is not allowed by the equation, the product term is at least the integer. -/
theorem one_le_ratio (admissible : curve.Admissible xp.length) (positive : ∀ x ∈ xp, 0 < x)
    (start : 0 ≤ e) (above : curve.weighted xp < (curve.plain.equation xp).level e) :
    1 ≤ (e : ℚ) ^ xp.length / (curve.plain.equation xp).divisor := by
  have sound := plain_sound admissible positive
  have origin : (0 : ℚ) ≤ e := by exact_mod_cast start
  rcases le_or_gt (total xp) e with large | small
  · have mean := prod_mul_length_le fun x member => (positive x member).le
    have unsigned := total_nonneg fun x member => (positive x member).le
    have divisors : (xp.map (curve.plain.divisor xp.length)).prod ≤ e ^ xp.length := by
      rw [total_eq_sum] at large unsigned
      rw [List.map_congr_left fun x _ => curve.plain_divisor xp.length x]
      exact mean.trans (pow_le_pow_left₀ unsigned large _)
    rw [one_le_div sound.divisor, equation_divisor]
    exact_mod_cast divisors
  · have rounded := leverage_mul_total_lt curve.plain xp admissible.precision
    have sum : (e : ℚ) + 1 ≤ total xp := by exact_mod_cast small
    have leverage := sound.leverage
    have weight := mul_le_mul_of_nonneg_left sum (zero_le_one.trans leverage)
    change (curve.plain.weighted xp : ℚ) < _ at above
    unfold Equation.level at above
    rw [equation_count, pow_succ', mul_div_assoc] at above
    by_contra short
    have product := mul_le_mul_of_nonneg_left (le_of_not_ge short) origin
    linarith

/-- Where an integer is not allowed by the equation, the slope is at least that for equal balances. -/
theorem leverage_add_le_slope (admissible : curve.Admissible xp.length) (positive : ∀ x ∈ xp, 0 < x)
    (start : 0 ≤ e) (above : curve.weighted xp < (curve.plain.equation xp).level e) :
    (curve.plain.equation xp).leverage + xp.length ≤ (curve.plain.equation xp).slope e := by
  have ratio := one_le_ratio admissible positive start above
  have tokens : (0 : ℚ) ≤ xp.length + 1 := by positivity
  unfold Equation.slope
  rw [equation_count]
  linarith [mul_le_mul_of_nonneg_left ratio tokens]

/-- The equation does not allow what is above the invariant. -/
theorem weighted_lt_level (admissible : curve.Admissible xp.length) (unsigned : ∀ x ∈ xp, 0 ≤ x)
    (present : total xp ≠ 0) (start : 0 ≤ e) (computed : curve.invariant xp = .ok d) (above : d < e) :
    curve.weighted xp < (curve.equation xp).level e := by
  by_contra within
  exact absurd (le_invariant admissible unsigned present start (not_lt.mp within) computed)
    (not_le.mpr above)

section
variable {others others' : List Int} {n y y' : Int}

theorem dividedTerm_antitone {divisor : Int → Int} {start start' term term' : Int} (nonneg : 0 ≤ d)
    (mono : ∀ x x', x ≤ x' → divisor x ≤ divisor x')
    (below : List.Forall₂ (· ≤ ·) others others') (positive : ∀ x ∈ others, 0 < divisor x)
    (unsigned : 0 ≤ start') (order : start' ≤ start)
    (computed : dividedTerm divisor d start others = .ok term)
    (computed' : dividedTerm divisor d start' others' = .ok term') : term' ≤ term := by
  induction below generalizing start start' with
  | nil =>
      obtain rfl : start = term := by simpa [dividedTerm, pure, Except.pure] using computed
      obtain rfl : start' = term' := by simpa [dividedTerm, pure, Except.pure] using computed'
      exact order
  | @cons x x' others others' first _ ih =>
      obtain ⟨-, rest⟩ := dividedTerm_cons computed
      obtain ⟨-, rest'⟩ := dividedTerm_cons computed'
      have least : 0 < divisor x := positive x (by simp)
      have greater : 0 < divisor x' := least.trans_le (mono x x' first)
      have next : 0 ≤ (start' * d).fdiv (divisor x') :=
        Int.fdiv_nonneg (mul_nonneg unsigned nonneg) greater.le
      refine ih (fun y member => positive y (by simp [member])) next ?_ rest rest'
      rw [le_fdiv_iff least]
      calc (start' * d).fdiv (divisor x') * divisor x
          ≤ (start' * d).fdiv (divisor x') * divisor x' :=
            mul_le_mul_of_nonneg_left (mono x x' first) next
        _ ≤ start' * d := (le_fdiv_iff greater).mp le_rfl
        _ ≤ start * d := mul_le_mul_of_nonneg_right order nonneg

/-- The greater the other balances, the less completes them to the same invariant. -/
theorem solve_antitone (admissible : curve.Admissible n) (count : 0 < n) (start : 0 ≤ d)
    (unsigned : ∀ x ∈ others, 0 ≤ x) (below : List.Forall₂ (· ≤ ·) others others')
    (solved : curve.solve n d others = .ok y) (solved' : curve.solve n d others' = .ok y') :
    y' ≤ y := by
  have unsigned' := le_of_forall₂ below unsigned
  have least := solve_nonneg admissible count.le start unsigned solved
  obtain ⟨⟨b, c⟩, computed, settled⟩ := Priced.bind_eq_ok.mp solved
  obtain ⟨⟨b', c'⟩, computed', settled'⟩ := Priced.bind_eq_ok.mp solved'
  obtain ⟨linear, square, -⟩ := coefficients_nonneg admissible count.le start unsigned computed
  obtain ⟨linear', square', -⟩ := coefficients_nonneg admissible count.le start unsigned' computed'
  obtain ⟨order, order'⟩ : b ≤ b' ∧ c' ≤ c := by
    simp only [coefficients, Priced.bind_eq_ok, Priced.require_eq_ok, Except.ok.injEq,
      Prod.mk.injEq] at computed computed'
    obtain ⟨_, -, term, multiplied, rfl, rfl⟩ := computed
    obtain ⟨_, -, term', multiplied', rfl, rfl⟩ := computed'
    rw [remainingTerm_eq count.ne'] at multiplied multiplied'
    have divisors := dividedTerm_pos (fun x member => mul_nonneg (unsigned x member) count.le)
      multiplied
    have term := dividedTerm_antitone start
      (fun _ _ more => mul_le_mul_of_nonneg_right more count.le) below divisors start le_rfl
      multiplied multiplied'
    have precision : (0 : Int) < curve.precision := admissible.precision
    have ampTotal := admissible.ampTotal_pos
    constructor
    · rw [total_eq_sum, total_eq_sum]
      exact add_le_add_left below.sum_le_sum _
    · refine fdiv_le_fdiv (mul_pos ampTotal count) ?_
      gcongr
  by_contra more
  have above : y < y' := not_le.mp more
  have positive : 0 < y' := least.trans_lt above
  -- Between the two quadratics there is room for one unit, which equal coefficients do not leave.
  have outside := lt_quadratic square linear start settled above
  have within := quadratic_le square' linear' start settled'
  have steeper : (b - d) * y' ≤ (b' - d) * y' :=
    mul_le_mul_of_nonneg_right (by omega) positive.le
  obtain rfl : c = c' := by omega
  obtain rfl : b = b' := by
    have same : (b' - b) * y' = 0 := by linarith
    have := (mul_eq_zero.mp same).resolve_right positive.ne'
    omega
  exact above.ne (Except.ok.inj (settled.symm.trans settled'))

end

end Curve
end Stable
end Amm
