import Amm.Proofs.Composable.Solver
import Amm.Proofs.ExactBalance

/-!
Where a composable pool finds a balance. The quadratic is rounded in favour of the pool in both
coefficients, and every step of the iteration is a quotient rounded up, so it stays beyond the root and
divides by nothing that is not positive. The balance it ends on is at least the one that the equation
asks for, and within three units of the root of its own quadratic.
-/

namespace Amm
namespace Composable

/-- The balance at an index for which the equation holds, with nothing rounded. -/
noncomputable def exactAt (amp : Int) (balances : List Int) (index : Nat) (d : Int) : ℝ :=
  exactBalance (equation amp balances).leverage d (balances.eraseIdx index)

variable {amp d y : Int} {balances : List Int} {index : Nat} {k : Coefficients}

theorem powerWithout_eq (bound : index < balances.length) :
    powerWithout balances index d = exactPower d (balances.eraseIdx index) := by
  have length : (balances.eraseIdx index).length + 1 = balances.length := by
    rw [List.length_eraseIdx_of_lt bound]
    omega
  rw [powerWithout, exactPower, ← length]
  push_cast
  rfl

/-- A step of a tangent that is rounded up and moves by one unit at most ends within three units of the
root. -/
theorem lt_greaterRoot_add_three {slope constant p q : ℝ} (unsigned : 0 ≤ constant)
    (beyond : greaterRoot slope constant ≤ p) (near : p ≤ q + 1)
    (rounded : q * (p * 2 + slope) < p * p + constant + (p * 2 + slope)) :
    q < greaterRoot slope constant + 3 := by
  have root := greaterRoot_nonneg slope unsigned
  have other := greaterRoot_add_slope_nonneg slope unsigned
  have split := quadratic_sub_eq slope (y := p) unsigned
  -- The divisor is the sum of the distances of `p` from both roots, and the step moves by the product of
  -- the two over their sum.
  obtain ⟨u, away⟩ : ∃ u, u = p - greaterRoot slope constant := ⟨_, rfl⟩
  obtain ⟨v, across⟩ : ∃ v, v = p + (greaterRoot slope constant + slope) := ⟨_, rfl⟩
  rw [← away, ← across] at split
  have shorter : 0 ≤ u ∧ u ≤ v := by constructor <;> linarith
  have divisor : p * 2 + slope = u + v := by linarith
  rw [divisor] at rounded
  have value : p * p + constant = p * (u + v) - u * v := by
    rw [← divisor]
    linarith
  have moved := mul_le_mul_of_nonneg_right near (show 0 ≤ u + v by linarith)
  have product : u * v < 2 * (u + v) := by linarith
  have square : u * u ≤ u * v := mul_le_mul_of_nonneg_left shorter.2 shorter.1
  have gap : (q - 1 - greaterRoot slope constant) * (u + v) < 2 * (u + v) := by
    have start : greaterRoot slope constant = p - u := by linarith
    rw [start]
    linarith
  have within := lt_of_mul_lt_mul_right gap (by linarith)
  linarith

/-- A balance at which no division of the iteration before it has failed to be positive, which is at
least what the equation asks for and less than three units above the root that was looked for. -/
def Covers (amp : Int) (balances : List Int) (d : Int) (index : Nat) (y : Int) : Prop :=
  ∃ k first, coefficients amp balances d index = .ok k ∧
    rounded (d * d + k.c) (d + k.b) true = .ok first ∧ 0 < d + k.b ∧
    (∀ value, Newton.Visits (balanceStep k d) first value → 0 < value * 2 + k.b - d) ∧
    0 < exactAt amp balances index d ∧ exactAt amp balances index d ≤ y ∧
    y < greaterRoot (k.b - d) k.c + 3

/-- A value that is not negative, beyond the turn of the quadratic and not below it. -/
def Beyond (k : Coefficients) (d value : Int) : Prop :=
  0 ≤ value ∧ d - k.b ≤ value ∧ k.c ≤ value * value + (k.b - d) * value

theorem Beyond.divisor_pos {value : Int} (beyond : Beyond k d value) (square : 0 < k.c) :
    0 < value * 2 + k.b - d := by
  obtain ⟨nonneg, turned, above⟩ := beyond
  rcases nonneg.eq_or_lt with rfl | some
  · omega
  · omega

theorem beyond_of_visits {first value : Int} (start : 0 ≤ d) (linear : 0 ≤ k.b) (square : 0 ≤ k.c)
    (begun : rounded (d * d + k.c) (d + k.b) true = .ok first)
    (visited : Newton.Visits (balanceStep k d) first value) : Beyond k d value := by
  -- The iteration starts with its own step from the invariant.
  have step : balanceStep k d d = .ok first := by
    rw [balanceStep, show d * 2 + k.b - d = d + k.b by ring]
    exact begun
  exact visited.preserves (Beyond k d)
    (fun _ _ holds computed => balanceStep_above holds.1 holds.2.1 square computed)
    (balanceStep_above start (by omega) square step)

theorem covers_of_balanceFor (amplified : 0 < amp) (invariant : 0 < d)
    (unsigned : ∀ x ∈ balances, 0 ≤ x) (solved : balanceFor amp balances d index = .ok y) :
    Covers amp balances d index y := by
  obtain ⟨k, computed, rest⟩ := Priced.bind_eq_ok.mp solved
  obtain ⟨first, begun, settles⟩ := Priced.bind_eq_ok.mp rest
  obtain ⟨product, bound, multiplied, positive, linear, -, rounding, constant⟩ :=
    coefficients_bounds amplified unsigned invariant.le computed
  have some : 0 < balances.length := by omega
  have present := balanceProduct_present (Int.natCast_nonneg _) invariant unsigned positive multiplied
  have square := square_pos amplified some invariant (present _ (List.getElem_mem bound)) positive
    constant
  have visits : ∀ value, Newton.Visits (balanceStep k d) first value → Beyond k d value :=
    fun value => beyond_of_visits invariant.le linear square.le begun
  obtain ⟨previous, visited, step, near⟩ := Newton.settle_visits settles
  have before := visits previous visited
  obtain ⟨nonneg, -, reached⟩ := balanceStep_above before.1 before.2.1 square.le step
  have constantCast : (0 : ℝ) < k.c := by exact_mod_cast square
  have weighty := leverage_pos amplified some
  have others : ∀ x ∈ balances.eraseIdx index, 0 < x := fun x member =>
    present x (List.mem_of_mem_eraseIdx member)
  refine ⟨k, first, computed, begun, by omega, fun value held => (visits value held).divisor_pos square,
    exactBalance_pos weighty invariant others, ?_, ?_⟩
  · have power := powerWithout_le amplified invariant present bound multiplied square.le constant
    have slack := leverage_mul_linear_le amplified some rounding
    rw [powerWithout_eq bound] at power
    refine exactBalance_le_of_quadratic weighty invariant others ?_ ?_ nonneg reached
    · have shifted : (k.b : ℚ) ≤ total (balances.eraseIdx index) +
          d / (equation amp balances).leverage := by
        refine le_of_mul_le_mul_left ?_ weighty
        rw [mul_add, mul_div_cancel₀ _ weighty.ne']
        exact slack
      unfold exactSlope
      linarith
    · rw [div_le_iff₀ weighty]
      linarith
  · have divisor := before.divisor_pos square
    obtain ⟨-, within⟩ := rounded_up_covers divisor step
    have away : greaterRoot (k.b - d) k.c ≤ (previous : ℝ) := by
      rw [← le_quadratic_iff constantCast (by exact_mod_cast before.1)]
      exact_mod_cast before.2.2
    refine lt_greaterRoot_add_three constantCast.le away
      (by exact_mod_cast (near_of_withinOne near).2) ?_
    have shifted : y * (previous * 2 + (k.b - d)) <
        previous * previous + k.c + (previous * 2 + (k.b - d)) := by
      linarith
    exact_mod_cast shifted

/-- What a sale would release from the balance at an index if nothing were rounded. -/
noncomputable def exactOut (amp : Int) (balances : List Int) (indexIn indexOut : Nat)
    (sold d : Int) : ℝ :=
  let after := balances.set indexIn (balances.getD indexIn 0 + sold)
  after.getD indexOut 0 - exactAt amp after indexOut d

/-- What a purchase would charge into the balance at an index if nothing were rounded. -/
noncomputable def exactIn (amp : Int) (balances : List Int) (indexIn indexOut : Nat)
    (bought d : Int) : ℝ :=
  let after := balances.set indexOut (balances.getD indexOut 0 - bought)
  exactAt amp after indexIn d - after.getD indexIn 0

section
variable {indexIn indexOut : Nat} {sold bought paid : Int}

theorem getD_of_entry {values : List Int} {value : Int} (found : values[index]? = some value) :
    values.getD index 0 = value := by
  simp [List.getD_eq_getElem?_getD, found]

theorem out_below_exact (amplified : 0 < amp) (invariant : 0 < d) (unsigned : ∀ x ∈ balances, 0 ≤ x)
    (start : 0 ≤ balances.getD indexIn 0 + sold)
    (computed : outGivenIn amp balances indexIn indexOut sold d = .ok paid) :
    (paid + 1 : ℝ) ≤ exactOut amp balances indexIn indexOut sold d := by
  simp only [outGivenIn, Priced.bind_eq_ok, Priced.entry_eq_ok] at computed
  obtain ⟨_, balanceInAt, rest, solved, _, balanceOutAt, _, beyond, less⟩ := computed
  obtain ⟨-, rfl⟩ := difference_eq_ok beyond
  obtain ⟨-, rfl⟩ := difference_eq_ok less
  obtain rfl := getD_of_entry balanceInAt
  obtain rfl := getD_of_entry balanceOutAt
  obtain ⟨_, _, -, -, -, -, -, covered, -⟩ :=
    covers_of_balanceFor amplified invariant (forall_set unsigned start) solved
  simp only [exactOut]
  push_cast
  linarith

theorem exact_below_in (amplified : 0 < amp) (invariant : 0 < d) (unsigned : ∀ x ∈ balances, 0 ≤ x)
    (computed : inGivenOut amp balances indexIn indexOut bought d = .ok paid) :
    exactIn amp balances indexIn indexOut bought d + 1 ≤ paid := by
  simp only [inGivenOut, Priced.bind_eq_ok, Priced.entry_eq_ok, Except.ok.injEq] at computed
  obtain ⟨_, balanceOutAt, _, withdrawn, filled, solved, _, balanceInAt, _, short, rfl⟩ := computed
  obtain ⟨held, rfl⟩ := difference_eq_ok withdrawn
  obtain ⟨-, rfl⟩ := difference_eq_ok short
  obtain rfl := getD_of_entry balanceOutAt
  obtain rfl := getD_of_entry balanceInAt
  obtain ⟨_, _, -, -, -, -, -, covered, -⟩ :=
    covers_of_balanceFor amplified invariant (forall_set unsigned (by omega)) solved
  simp only [exactIn]
  push_cast
  linarith

end

/-- Every rounding on the way to a balance is in favour of the pool: the balance covers what the exact
equation asks for, a sale releases at least a unit less than the exact amount, and a purchase charges at
least a unit more. -/
theorem solved_balances_cover (amp d : Int) (balances : List Int) (amplified : 0 < amp)
    (invariant : 0 < d) (present : ∀ x ∈ balances, 0 < x) :
    (∀ index y, balanceFor amp balances d index = .ok y → Covers amp balances d index y) ∧
    (∀ indexIn indexOut sold released, 0 ≤ balances.getD indexIn 0 + sold →
      outGivenIn amp balances indexIn indexOut sold d = .ok released →
      (released + 1 : ℝ) ≤ exactOut amp balances indexIn indexOut sold d) ∧
    (∀ indexIn indexOut bought paid, inGivenOut amp balances indexIn indexOut bought d = .ok paid →
      exactIn amp balances indexIn indexOut bought d + 1 ≤ paid) := by
  have unsigned : ∀ x ∈ balances, 0 ≤ x := fun x member => (present x member).le
  refine ⟨fun index y solved => ?_, fun indexIn indexOut sold released start computed => ?_,
    fun indexIn indexOut bought paid computed => ?_⟩
  · exact covers_of_balanceFor amplified invariant unsigned solved
  · exact out_below_exact amplified invariant unsigned start computed
  · exact exact_below_in amplified invariant unsigned computed

/-- Three balances in the ratio of one to two to three, whose invariant is 5895811 at an amplification
of five. -/
def slopedTriple : List Int :=
  [1000000, 2000000, 3000000]

theorem slopedTriple_solved :
    balanceFor 5000 slopedTriple 5895811 1 = .ok 2000650 ∧
      outGivenIn 5000 slopedTriple 0 2 50000 5895811 = .ok 63017 ∧
      inGivenOut 5000 slopedTriple 0 2 50000 5895811 = .ok 39558 := by
  decide +kernel

theorem slopedTriple_covered :
    Covers 5000 slopedTriple 5895811 1 2000650 ∧
      63018 ≤ exactOut 5000 slopedTriple 0 2 50000 5895811 ∧
      exactIn 5000 slopedTriple 0 2 50000 5895811 ≤ 39557 := by
  obtain ⟨solved, released, paid⟩ := slopedTriple_solved
  obtain ⟨covers, below, above⟩ :=
    solved_balances_cover 5000 5895811 slopedTriple (by decide) (by decide) (by decide)
  have least := below 0 2 50000 63017 (by decide) released
  have most := above 0 2 50000 39558 paid
  push_cast at least most
  exact ⟨covers 1 2000650 solved, by linarith, by linarith⟩

end Composable
end Amm
