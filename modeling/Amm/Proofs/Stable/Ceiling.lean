import Amm.Proofs.Stable.ProductTerm

/-!
Values that the iterations for the invariant do not end above. Whether one is such a ceiling is decided
by the rounded product term at it and at the next two values. The sum of the balances is a ceiling for
two balances, for more of them where the sum leaves room for the roundings, and every value is one that
exceeds the sum by what the roundings can add.
-/

namespace Amm
namespace Stable
namespace Curve

/-- At `v` and at the two values behind it the rounded term is not so far below the value that an
iteration could end above `v`. -/
structure Ceiling (xp : List Int) (v : Int) : Prop where
  level : total xp * v < roundedTerm xp v * (v + xp.length + 1)
  next : total xp < roundedTerm xp (v + 1)
  later : 2 * total xp * (v + 2) + total xp < 2 * (roundedTerm xp (v + 2) * (v + 1 - xp.length))

instance (xp : List Int) (v : Int) : Decidable (Ceiling xp v) :=
  decidable_of_iff
    (total xp * v < roundedTerm xp v * (v + xp.length + 1) ∧
      total xp < roundedTerm xp (v + 1) ∧
      2 * total xp * (v + 2) + total xp < 2 * (roundedTerm xp (v + 2) * (v + 1 - xp.length)))
    ⟨fun bounds => ⟨bounds.1, bounds.2.1, bounds.2.2⟩,
      fun ceiling => ⟨ceiling.level, ceiling.next, ceiling.later⟩⟩

section
variable {xp : List Int} {p q v : Int}

theorem foldl_fdiv_mono {divisor : Int → Int} {start start' : Int} {balances : List Int}
    (positive : ∀ x ∈ balances, 0 < divisor x) (unsigned : 0 ≤ start) (nonneg : 0 ≤ p)
    (grown : start ≤ start') (above : p ≤ q) :
    balances.foldl (fun term x => (term * p).fdiv (divisor x)) start ≤
      balances.foldl (fun term x => (term * q).fdiv (divisor x)) start' := by
  induction balances generalizing start start' with
  | nil => exact grown
  | cons x balances ih =>
      obtain ⟨first, others⟩ := List.forall_mem_cons.mp positive
      apply ih others
      · exact Int.fdiv_nonneg (mul_nonneg unsigned nonneg) first.le
      · exact fdiv_le_fdiv first (mul_le_mul grown above nonneg (unsigned.trans grown))

theorem roundedTerm_mono (positive : ∀ x ∈ xp, 0 < x) (nonneg : 0 ≤ p) (above : p ≤ q) :
    roundedTerm xp p ≤ roundedTerm xp q :=
  foldl_fdiv_mono (fun _ member => mul_length_pos positive member) nonneg nonneg above above

namespace Ceiling

/-- A term that loses no more than one unit per balance at the sum, and gains that number with each of
the next two units, makes the sum a ceiling if it exceeds about twice the square of their number. -/
theorem of_steps (several : 2 ≤ xp.length)
    (wide : 2 * ((xp.length : Int) * (xp.length + 1) - 2) < total xp)
    (first : total xp - xp.length ≤ roundedTerm xp (total xp))
    (second : total xp + 1 ≤ roundedTerm xp (total xp + 1))
    (third : total xp + xp.length + 2 ≤ roundedTerm xp (total xp + 2)) :
    Ceiling xp (total xp) := by
  have count : (2 : Int) ≤ xp.length := by exact_mod_cast several
  have few : (xp.length : Int) ≤ xp.length * (xp.length + 1) :=
    le_mul_of_one_le_right (by omega) (by omega)
  have square : (4 : Int) ≤ xp.length * (xp.length + 1) := by
    linarith [mul_le_mul count count (by decide) (by omega)]
  constructor
  · have bound := mul_le_mul_of_nonneg_right first (show 0 ≤ total xp + xp.length + 1 by omega)
    linarith
  · omega
  · have bound := mul_le_mul_of_nonneg_right third (show 0 ≤ total xp + 1 - xp.length by omega)
    linarith

/-- One unit above the sum the power of the ratio makes up for what the roundings take. -/
theorem lt_of_next {n s term : ℚ} {k : Nat} (count : n = k) (several : 2 ≤ n)
    (wide : 2 * (n * (n + 1) - 2) < s)
    (bound : ((s + 1) / s) ^ k * (s + 1 - n - 1 / 2) ≤ term) : s < term := by
  have sum : 0 < s := by nlinarith
  have powers := one_add_mul_le_pow (show -2 ≤ 1 / s by linarith [one_div_pos.mpr sum]) k
  rw [add_div, div_self sum.ne'] at bound
  rw [← count] at powers
  have scaled := mul_le_mul_of_nonneg_right
    ((mul_le_mul_of_nonneg_right powers (show 0 ≤ s + 1 - n - 1 / 2 by nlinarith)).trans bound)
    sum.le
  have cleared : (1 + n * (1 / s)) * (s + 1 - n - 1 / 2) * s = (s + n) * (s + 1 / 2 - n) := by
    field_simp
    ring
  rw [cleared] at scaled
  have above : s * s < term * s := by linarith
  exact lt_of_mul_lt_mul_right above sum.le

/-- Two units above the sum the terms of first order would not suffice. -/
theorem lt_of_later {n s term : ℚ} {k : Nat} (count : n = k) (several : 2 ≤ n)
    (wide : 2 * (n * (n + 1) - 2) < s)
    (bound : ((s + 2) / s) ^ k * (s + 2 - n - 1 / 2) ≤ term) : s + n + 1 < term := by
  have sum : 0 < s := by nlinarith
  have powers := one_add_mul_add_le_pow k (show 0 ≤ 2 / s by positivity)
  rw [add_div, div_self sum.ne'] at bound
  rw [← count] at powers
  have scaled := mul_le_mul_of_nonneg_right
    ((mul_le_mul_of_nonneg_right powers (show 0 ≤ s + 2 - n - 1 / 2 by nlinarith)).trans bound)
    (sq_nonneg s)
  have cleared : (1 + n * (2 / s) + n * (n - 1) / 2 * (2 / s) ^ 2) * (s + 2 - n - 1 / 2) * s ^ 2 =
      (s ^ 2 + 2 * n * s + 2 * n * (n - 1)) * (s + 3 / 2 - n) := by
    field_simp
    ring
  rw [cleared] at scaled
  have lost := mul_le_mul_of_nonneg_right
    (show 2 * (n - 1) * (n - 3 / 2) ≤ s by linarith) (show 0 ≤ n by linarith)
  have above : (s + n + 1) * s ^ 2 < term * s ^ 2 := by linarith [pow_pos sum 2]
  exact lt_of_mul_lt_mul_right above (sq_nonneg s)

theorem of_room (positive : ∀ x ∈ xp, 0 < x) (several : 2 ≤ xp.length)
    (enough : roundingRoom xp.length ≤ total xp)
    (wide : 2 * ((xp.length : Int) * (xp.length + 1) - 2) < total xp) : Ceiling xp (total xp) := by
  have count : (2 : ℚ) ≤ xp.length := by exact_mod_cast several
  have square : (2 * (xp.length * (xp.length + 1) - 2) : ℚ) < total xp := by exact_mod_cast wide
  have sum : (0 : ℚ) < total xp := by nlinarith
  have term {p : Int} (above : total xp ≤ p) := pow_mul_le_roundedTerm positive several enough above
  apply of_steps several wide
  · have bound := term le_rfl
    rw [div_self sum.ne', one_pow, one_mul] at bound
    have close : (total xp - xp.length : ℚ) < roundedTerm xp (total xp) + 1 := by linarith
    exact Int.lt_add_one_iff.mp (by exact_mod_cast close)
  · have bound := term (p := total xp + 1) (by omega)
    push_cast at bound
    exact Int.add_one_le_iff.mpr (by exact_mod_cast lt_of_next rfl count square bound)
  · have bound := term (p := total xp + 2) (by omega)
    push_cast at bound
    have above : total xp + xp.length + 1 < roundedTerm xp (total xp + 2) := by
      exact_mod_cast lt_of_later rfl count square bound
    omega

/-- For five balances and more the room is great enough for that. -/
theorem wide_of_room {n : Nat} {sum : Int} (many : 5 ≤ n) (enough : roundingRoom n ≤ sum) :
    2 * ((n : Int) * (n + 1) - 2) < sum := by
  have count : (5 : ℚ) ≤ n := by exact_mod_cast many
  have cubic : (0 : ℚ) ≤ n ^ 2 * (n - 5) := mul_nonneg (sq_nonneg _) (by linarith)
  have bound : (2 * (n * (n + 1) - 2) : ℚ) < sum := by linarith [cubic_le_roundingRoom n]
  exact_mod_cast bound

/-- No value is exceeded that lies as far above the sum as the roundings can reach. -/
theorem of_excess (positive : ∀ x ∈ xp, 0 < x) (several : 2 ≤ xp.length)
    (far : total xp + roundingExcess xp.length ≤ v) : Ceiling xp v := by
  have present : xp ≠ [] := List.ne_nil_of_length_pos (by omega)
  have sum : 0 < total xp := total_pos present positive
  have count : (2 : Int) ≤ xp.length := by exact_mod_cast several
  have least := natCast_le_roundingExcess (show 0 < xp.length by omega)
  have above : total xp + xp.length ≤ v := by
    have : (total xp + xp.length : ℚ) ≤ v := by linarith
    exact_mod_cast this
  have term {p : Int} (beyond : v ≤ p) := le_roundedTerm_of_excess positive present
    (far.trans (show (v : ℚ) ≤ p by exact_mod_cast beyond))
  constructor
  · have bound := term le_rfl
    have gained : 0 ≤ (v - total xp) * xp.length := mul_nonneg (by omega) (by omega)
    have scaled := mul_le_mul_of_nonneg_right (show total xp ≤ roundedTerm xp v by omega)
      (show 0 ≤ v + xp.length + 1 by omega)
    have extra : 0 < total xp * (xp.length + 1) := mul_pos sum (by omega)
    linarith
  · have gained : 0 < (v + 1 - total xp) * xp.length := mul_pos (by omega) (by omega)
    linarith [term (show v ≤ v + 1 by omega)]
  · obtain ⟨extra, same⟩ : ∃ extra, v + 2 = total xp + extra := ⟨v + 2 - total xp, by omega⟩
    have bound := term (show v ≤ v + 2 by omega)
    rw [same, add_sub_cancel_left] at bound
    have left : 0 ≤ total xp + extra - 1 - xp.length := by omega
    have scaled := mul_le_mul_of_nonneg_right bound left
    have gained : (xp.length + 2) * 2 * total xp ≤ extra * xp.length * total xp :=
      mul_le_mul_of_nonneg_right (mul_le_mul (by omega) count (by decide) (by omega)) sum.le
    have rest : 0 ≤ extra * xp.length * (extra - 1 - xp.length) :=
      mul_nonneg (mul_nonneg (by omega) (by omega)) (by omega)
    rw [same, show v + 1 - (xp.length : Int) = total xp + extra - 1 - xp.length by omega]
    linarith [mul_pos sum (show (0 : Int) < xp.length by omega)]

/-- Two balances leave no exception. -/
theorem of_pair {x0 x1 : Int} (positive0 : 0 < x0) (positive1 : 0 < x1) :
    Ceiling [x0, x1] (total [x0, x1]) := by
  have whole : total [x0, x1] = x0 + x1 := by simp [total]
  have term {p : Int} (above : x0 + x1 ≤ p) :
      p + (p - (x0 + x1) - 1) * 2 + 1 ≤ roundedTerm [x0, x1] p :=
    le_pairTerm positive0 positive1 above
      ((fdiv_lt_iff (show 0 < x0 * 2 by omega)).mp (lt_add_one _))
      ((fdiv_lt_iff (show 0 < x1 * 2 by omega)).mp (lt_add_one _))
  by_cases tiny : x0 + x1 ≤ 3
  · -- the bound of the pair is too low for three small pools, whose terms are far above it
    obtain ⟨rfl, rfl⟩ | ⟨rfl, rfl⟩ | ⟨rfl, rfl⟩ :
      (x0 = 1 ∧ x1 = 1) ∨ (x0 = 1 ∧ x1 = 2) ∨ (x0 = 2 ∧ x1 = 1) := by omega
    · decide
    · decide
    · decide
  · constructor
    · rw [whole]
      have bound := mul_le_mul_of_nonneg_right (term le_rfl) (show 0 ≤ x0 + x1 + 2 + 1 by omega)
      push_cast [List.length_cons, List.length_nil]
      linarith
    · have bound := term (show x0 + x1 ≤ x0 + x1 + 1 by omega)
      rw [whole]
      omega
    · have bound := mul_le_mul_of_nonneg_right (term (show x0 + x1 ≤ x0 + x1 + 2 by omega))
        (show 0 ≤ x0 + x1 + 1 - 2 by omega)
      rw [whole]
      push_cast [List.length_cons, List.length_nil]
      linarith

theorem of_two (positive : ∀ x ∈ xp, 0 < x) (two : xp.length = 2) : Ceiling xp (total xp) := by
  obtain ⟨x0, x1, rfl⟩ := List.length_eq_two.mp two
  obtain ⟨positive0, positive1⟩ : 0 < x0 ∧ 0 < x1 := by simpa using positive
  exact of_pair positive0 positive1

end Ceiling

end

end Curve
end Stable
end Amm
