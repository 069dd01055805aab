import Amm.Crypto.Curve
import Amm.Proofs.Priced
import Amm.Proofs.Tangent

/-!
The square root of a fixed-point number. The iteration ends only at a value that its step keeps. Such a
value is the root rounded down, and there is one unless the next square is one unit away: then the step
goes back and forth between the two values around the root until the steps are over.
-/

namespace Amm

/-- There is no square between the squares of two neighbours. -/
theorem not_isSquare_of_between {n : Int} (root : Int) (nonneg : 0 ≤ root) (above : root * root < n)
    (below : n < (root + 1) * (root + 1)) : ¬IsSquare n := by
  rintro ⟨other, rfl⟩
  rw [← abs_mul_abs_self other] at above below
  have low : root < |other| := lt_of_mul_self_lt_mul_self₀ (abs_nonneg other) above
  have high : |other| < root + 1 := lt_of_mul_self_lt_mul_self₀ (by omega) below
  omega

namespace FloorRoot

variable {n root : Int} (floor : FloorRoot 0 n root)
include floor

theorem square_le : root * root ≤ n := by
  linarith [floor.reached]

theorem lt_square : n < (root + 1) * (root + 1) := by
  linarith [floor.next]

theorem eq_of_squares {y : Int} (nonneg : 0 ≤ y) (below : y * y ≤ n) (above : n < (y + 1) * (y + 1)) :
    y = root := by
  have start := floor.nonneg
  have low : root < y + 1 := lt_of_mul_self_lt_mul_self₀ (by omega) (floor.square_le.trans_lt above)
  have high : y < root + 1 := lt_of_mul_self_lt_mul_self₀ (by omega) (below.trans_lt floor.lt_square)
  omega

theorem eq_floor_sqrt : root = ⌊√(n : ℝ)⌋ := by
  have nonneg : (0 : ℝ) ≤ root := by exact_mod_cast floor.nonneg
  refine (Int.floor_eq_iff.mpr ⟨?_, ?_⟩).symm
  · exact Real.le_sqrt_of_sq_le (by rw [sq]; exact_mod_cast floor.square_le)
  · rw [Real.sqrt_lt' (by linarith), sq]
    exact_mod_cast floor.lt_square

end FloorRoot

namespace Crypto

section
variable {n y : Int} (positive : 0 < y)
include positive

theorem babylonian_eq : (n.fdiv y + y).fdiv 2 = tangentStep 0 n y := by
  have joined : n.fdiv y + y = (y * y + n).fdiv y := by
    rw [add_comm (y * y), Int.add_mul_fdiv_right n y positive.ne']
  rw [joined, Int.fdiv_fdiv_eq_fdiv_mul _ positive.le (by decide), tangentStep, add_zero]

/-- A step keeps the root rounded down and nothing else, and not even that one unit short of a
square. -/
theorem tangentStep_eq_self_iff :
    tangentStep 0 n y = y ↔ y * y ≤ n ∧ n + 1 < (y + 1) * (y + 1) := by
  have divisor : 0 < y * 2 + 0 := by omega
  rw [tangentStep, le_antisymm_iff, fdiv_le_iff divisor, le_fdiv_iff divisor, and_comm]
  exact and_congr ⟨fun below => by linarith, fun below => by linarith⟩
    ⟨fun above => by linarith, fun above => by linarith⟩

end

variable {x y root : Int} {steps : Nat}

theorem sqrtFrom_succ {z : Int} (positive : 0 < z) :
    sqrtFrom x (steps + 1) y z =
      if z = y then .ok y else sqrtFrom x steps z (tangentStep 0 (x * Fixed.one) z) := by
  have divided : Priced.quotient (x * Fixed.one) z = .ok ((x * Fixed.one).fdiv z) :=
    Priced.quotient_eq_ok.mpr ⟨positive.ne', rfl⟩
  rw [sqrtFrom, divided, Priced.ok_bind, babylonian_eq positive]

/-- The first step leads from the number itself. -/
theorem sqrt_of_pos (positive : 0 < x) :
    sqrt x = sqrtFrom x 256 x (tangentStep 0 (x * Fixed.one) x) := by
  have first : (x + Fixed.one).fdiv 2 = tangentStep 0 (x * Fixed.one) x := by
    rw [← babylonian_eq positive, Int.mul_fdiv_cancel_left _ positive.ne', add_comm]
  rw [sqrt, if_neg positive.ne', first]

section
variable (floor : FloorRoot 0 (x * Fixed.one) root) (some : 0 < root)
include floor some

theorem tangentStep_pos (positive : 0 < y) : 0 < tangentStep 0 (x * Fixed.one) y :=
  some.trans_le (floor.le_tangentStep (by omega))

/-- The iteration gives a value that its step keeps, or none. -/
theorem sqrtFrom_cases (steps : Nat) (positive : 0 < y) :
    (∃ result, sqrtFrom x steps y (tangentStep 0 (x * Fixed.one) y) = .ok result ∧ 0 < result ∧
      tangentStep 0 (x * Fixed.one) result = result) ∨
    sqrtFrom x steps y (tangentStep 0 (x * Fixed.one) y) = Priced.refuse .sqrtDidNotConverge := by
  induction steps generalizing y with
  | zero => exact .inr rfl
  | succ steps ih =>
      have next := tangentStep_pos floor some positive
      rw [sqrtFrom_succ next]
      split
      · rename_i kept
        exact .inl ⟨y, rfl, positive, kept⟩
      · exact ih next

/-- A step before an iteration that finds the root changes nothing. -/
theorem sqrtFrom_step (positive : 0 < y)
    (rest : sqrtFrom x steps (tangentStep 0 (x * Fixed.one) y)
      (tangentStep 0 (x * Fixed.one) (tangentStep 0 (x * Fixed.one) y)) = .ok root) :
    sqrtFrom x (steps + 1) y (tangentStep 0 (x * Fixed.one) y) = .ok root := by
  rw [sqrtFrom_succ (tangentStep_pos floor some positive)]
  split
  · rename_i kept
    obtain ⟨below, above⟩ := (tangentStep_eq_self_iff positive).mp kept
    rw [floor.eq_of_squares positive.le below (by omega)]
  · exact rest

section
variable (settled : x * Fixed.one + 1 < (root + 1) * (root + 1))
include settled

theorem tangentStep_root : tangentStep 0 (x * Fixed.one) root = root :=
  (tangentStep_eq_self_iff some).mpr ⟨floor.square_le, settled⟩

/-- Once the distance to the root is below the square root of the root, three steps are enough. -/
theorem sqrtFrom_near (above : root ≤ y)
    (near : (y - (root + 1)) * (y - (root + 1)) ≤ y * 2) :
    sqrtFrom x (steps + 3) y (tangentStep 0 (x * Fixed.one) y) = .ok root := by
  have positive : 0 < y := some.trans_le above
  have kept := tangentStep_root floor some settled
  have one : root ≤ tangentStep 0 (x * Fixed.one) y := floor.le_tangentStep (by omega)
  have close : tangentStep 0 (x * Fixed.one) y ≤ root + 1 :=
    floor.tangentStep_le (by omega) (by omega)
  have two : tangentStep 0 (x * Fixed.one) (tangentStep 0 (x * Fixed.one) y) = root := by
    rcases one.eq_or_lt with same | beyond
    · rw [← same, kept]
    · have half := floor.halves beyond
      have low := floor.le_tangentStep (y := tangentStep 0 (x * Fixed.one) y) (by omega)
      omega
  refine sqrtFrom_step floor some positive (sqrtFrom_step floor some (by omega) ?_)
  rw [two, kept, sqrtFrom, if_pos rfl]

/-- The distance to the root halves with every step until it is small against the root. -/
theorem sqrtFrom_far (steps : Nat) (large : 2 ^ 29 ≤ root) (above : root ≤ y)
    (far : y - root < 2 ^ 15 * 2 ^ steps) :
    sqrtFrom x (steps + 3) y (tangentStep 0 (x * Fixed.one) y) = .ok root := by
  induction steps generalizing y with
  | zero =>
      -- The root is `2 ^ 29` at least, and the square of `2 ^ 15` is twice that.
      have product : 0 ≤ (y - root) * (2 ^ 15 - (y - root)) := mul_nonneg (by omega) (by omega)
      exact sqrtFrom_near floor some settled above (by linarith)
  | succ steps ih =>
      rcases above.eq_or_lt with rfl | beyond
      · exact sqrtFrom_near floor some settled le_rfl (by linarith)
      · have positive : 0 < y := by omega
        have low := floor.le_tangentStep (y := y) (by omega)
        have half := floor.halves beyond
        rw [pow_succ] at far
        exact sqrtFrom_step floor some positive (ih low (by omega))

end

end

/-- The root of the product with one of a positive number is far from zero. -/
theorem root_large (floor : FloorRoot 0 (x * Fixed.one) root) (positive : 0 < x) :
    2 ^ 29 ≤ root := by
  have whole : Fixed.one ≤ x * Fixed.one := le_mul_of_one_le_left Fixed.one_pos.le positive
  by_contra small
  have square : (root + 1) * (root + 1) ≤ 2 ^ 29 * 2 ^ 29 :=
    mul_self_le_mul_self (by linarith [floor.nonneg]) (by omega)
  have bound : (2 ^ 29 * 2 ^ 29 : Int) ≤ Fixed.one := by decide
  linarith [floor.lt_square]

/-- Whatever the number is, a root that is found is the exact one rounded down. -/
theorem floorRoot_of_sqrt {result : Int} (unsigned : 0 ≤ x) (found : sqrt x = .ok result) :
    FloorRoot 0 (x * Fixed.one) result := by
  rcases unsigned.eq_or_lt with rfl | positive
  · obtain rfl : 0 = result := by simpa [sqrt] using found
    exact ⟨le_rfl, by decide, by decide⟩
  obtain ⟨root, floor⟩ := exists_floorRoot 0 (mul_nonneg unsigned Fixed.one_pos.le)
  have some : 0 < root := by linarith [root_large floor positive]
  rw [sqrt_of_pos positive] at found
  rcases sqrtFrom_cases floor some 256 positive with ⟨kept, same, nonneg, fixed⟩ | refused
  · obtain rfl := Except.ok.inj (found.symm.trans same)
    obtain ⟨below, above⟩ := (tangentStep_eq_self_iff nonneg).mp fixed
    exact ⟨nonneg.le, by linarith, by linarith⟩
  · exact absurd (refused.symm.trans found) (Priced.refuse_ne_ok _ _)

/-- The square root of a word is found, as the exact root rounded down, unless the number that the root
is taken of is one unit short of a square. Of such a number no root is found. -/
theorem sqrt_exact_unless_before_square (x : Int) (unsigned : 0 ≤ x) (word : x < 2 ^ 256) :
    (¬(0 < x ∧ IsSquare (x * Fixed.one + 1)) → sqrt x = .ok ⌊√((x * Fixed.one : Int) : ℝ)⌋) ∧
      (0 < x ∧ IsSquare (x * Fixed.one + 1) → sqrt x = Priced.refuse .sqrtDidNotConverge) := by
  rcases unsigned.eq_or_lt with rfl | positive
  · simp [sqrt]
  obtain ⟨root, floor⟩ := exists_floorRoot 0 (mul_nonneg unsigned Fixed.one_pos.le)
  have large := root_large floor positive
  have some : 0 < root := by linarith
  rw [sqrt_of_pos positive]
  constructor
  · intro apart
    have settled : x * Fixed.one + 1 < (root + 1) * (root + 1) := by
      refine lt_of_le_of_ne floor.lt_square fun square => apart ⟨positive, root + 1, square⟩
    have first : tangentStep 0 (x * Fixed.one) x ≤ 2 ^ 256 := by
      rw [tangentStep, fdiv_le_iff (by omega)]
      have square := mul_le_mul_of_nonneg_left word.le unsigned
      have product := mul_le_mul_of_nonneg_left (show Fixed.one ≤ 2 ^ 256 by decide) unsigned
      linarith
    rw [← floor.eq_floor_sqrt]
    exact sqrtFrom_step floor some positive
      (sqrtFrom_far floor some settled 252 large (floor.le_tangentStep (by omega))
        (by omega))
  · rintro ⟨-, square⟩
    rcases sqrtFrom_cases floor some 256 positive with ⟨kept, -, nonneg, fixed⟩ | refused
    · obtain ⟨below, above⟩ := (tangentStep_eq_self_iff nonneg).mp fixed
      exact absurd square (not_isSquare_of_between _ nonneg.le (by omega) above)
    · exact refused

/-- The greatest word has a root. The number one unit short of the square of almost one has none. -/
theorem greatest_word_has_root :
    (0 : Int) ≤ 2 ^ 256 - 1 ∧ (2 ^ 256 - 1 : Int) < 2 ^ 256 ∧
      sqrt (2 ^ 256 - 1) = .ok ⌊√(((2 ^ 256 - 1) * Fixed.one : Int) : ℝ)⌋ ∧
      sqrt (2 ^ 256 - 1) = .ok 340282366920938463463374607431768211455999999999 ∧
      sqrt 999999999999999998 = Priced.refuse .sqrtDidNotConverge := by
  have between : ¬IsSquare ((2 ^ 256 - 1) * Fixed.one + 1) :=
    not_isSquare_of_between 340282366920938463463374607431768211455999999999 (by decide)
      (by decide) (by decide)
  have square : IsSquare (999999999999999998 * Fixed.one + 1) := ⟨999999999999999999, by decide⟩
  exact ⟨by decide, by decide,
    (sqrt_exact_unless_before_square (2 ^ 256 - 1) (by decide) (by decide)).1 fun whole =>
      between whole.2,
    by decide +kernel,
    (sqrt_exact_unless_before_square 999999999999999998 (by decide) (by decide)).2
      ⟨by decide, square⟩⟩

end Crypto
end Amm
