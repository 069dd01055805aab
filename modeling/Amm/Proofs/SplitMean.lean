import Amm.Proofs.Equation
import Mathlib.Algebra.Order.BigOperators.Group.Finset
import Mathlib.Analysis.Complex.ExponentialBounds

/-!
Products of numbers with mean one, cut in two parts. If the second part is below its share, the first
part can have a product above one, but the whole product then stays below one by more. So the product
of the first part never exceeds one by more than a great multiple of what the whole lacks. For a
rounding at each place of a list these multiples add up to the room that all of them need together.
-/

namespace Amm

theorem one_sub_mul_exp_le {z : ℝ} (nonneg : 0 ≤ z) (part : z ≤ 1) :
    (1 - z) * Real.exp z ≤ 1 - z ^ 2 / 2 := by
  have rest : 0 < 2 - z := by linarith
  calc
    (1 - z) * Real.exp z ≤ (1 - z) * ((2 + z) / (2 - z)) :=
      mul_le_mul_of_nonneg_left (Real.exp_le_two_add_div_two_sub nonneg (by linarith))
        (by linarith)
    _ ≤ 1 - z ^ 2 / 2 := by
      rw [← mul_div_assoc, div_le_iff₀ rest]
      linarith [pow_nonneg nonneg 3, show (1 - z ^ 2 / 2) * (2 - z) =
        (1 - z) * (2 + z) + z ^ 3 / 2 by ring]

/-- A power of a sum against an exponential, when the sum lies above one. -/
theorem one_add_div_pow_le_exp (n : Nat) {t : ℝ} (nonneg : 0 ≤ t) :
    (1 + t / n) ^ n ≤ Real.exp t := by
  have below := Real.one_sub_div_pow_le_exp_neg (n := n) (t := -t)
    (by linarith [show (0 : ℝ) ≤ n from Nat.cast_nonneg n])
  rwa [neg_div, sub_neg_eq_add, neg_neg] at below

theorem one_sub_pow_mul_le_one {y : ℝ} (m : Nat) (nonneg : 0 ≤ y) (part : y ≤ 1) :
    (1 - y) ^ m * (1 + m * y) ≤ 1 := by
  calc
    (1 - y) ^ m * (1 + m * y) ≤ (1 - y) ^ m * (1 + y) ^ m :=
      mul_le_mul_of_nonneg_left (one_add_mul_le_pow (by linarith) m)
        (pow_nonneg (by linarith) m)
    _ = ((1 - y) * (1 + y)) ^ m := (mul_pow _ _ _).symm
    _ ≤ 1 := by
      apply pow_le_one₀
      · exact mul_nonneg (by linarith) (by linarith)
      · linarith [mul_self_nonneg y]

section
variable {m n : Nat} {z c : ℚ}

/-- Factors below one lose more than the factors that make up for them gain. -/
theorem balanced_prod_le (m n : Nat) (nonneg : 0 ≤ z) (part : z ≤ 1) :
    (1 - z) ^ m * (1 + m * z / n) ^ n * (1 + m * (z ^ 2 / 2)) ≤ 1 := by
  have low : (0 : ℝ) ≤ z := by exact_mod_cast nonneg
  have high : (z : ℝ) ≤ 1 := by exact_mod_cast part
  have left : (0 : ℝ) ≤ 1 - z := by linarith
  have square : (z : ℝ) ^ 2 ≤ 1 := pow_le_one₀ low high
  have factors : (1 - z : ℝ) ^ m * (1 + m * z / n) ^ n ≤ (1 - z ^ 2 / 2) ^ m := by
    calc
      (1 - z : ℝ) ^ m * (1 + m * z / n) ^ n ≤ (1 - z) ^ m * Real.exp (m * z) :=
        mul_le_mul_of_nonneg_left (one_add_div_pow_le_exp n (by positivity)) (pow_nonneg left m)
      _ = ((1 - z) * Real.exp z) ^ m := by rw [mul_pow, ← Real.exp_nat_mul]
      _ ≤ (1 - z ^ 2 / 2) ^ m :=
        pow_le_pow_left₀ (mul_nonneg left (Real.exp_nonneg _)) (one_sub_mul_exp_le low high) m
  have bound : (1 - z : ℝ) ^ m * (1 + m * z / n) ^ n * (1 + m * (z ^ 2 / 2)) ≤ 1 := by
    calc
      (1 - z : ℝ) ^ m * (1 + m * z / n) ^ n * (1 + m * (z ^ 2 / 2)) ≤
          (1 - z ^ 2 / 2) ^ m * (1 + m * (z ^ 2 / 2)) :=
        mul_le_mul_of_nonneg_right factors (by positivity)
      _ ≤ 1 := one_sub_pow_mul_le_one m (by positivity) (by linarith)
  exact_mod_cast bound

/-- Between zero and one the terms of second order of a power are at most what they are at one. -/
theorem one_add_mul_pow_le (n : Nat) (growth : 0 ≤ c) (nonneg : 0 ≤ z) (part : z ≤ 1) :
    (1 + c * z) ^ n ≤ 1 + n * (c * z) + z ^ 2 * ((1 + c) ^ n - 1 - n * c) := by
  induction n with
  | zero => simp
  | succ n ih =>
      have above : 0 ≤ (1 + c) ^ n - 1 - n * c := by
        linarith [one_add_mul_le_pow (show -2 ≤ c by linarith) n]
      have factor : 0 ≤ 1 + c * z := by positivity
      have stepped := mul_le_mul_of_nonneg_right ih factor
      have second := mul_le_mul_of_nonneg_left
        (mul_le_mul_of_nonneg_left part (mul_nonneg growth above)) (sq_nonneg z)
      rw [pow_succ (1 + c * z), pow_succ (1 + c)]
      push_cast
      linarith

/-- The terms of first and second order of a power. -/
theorem one_add_mul_add_le_pow (n : Nat) (growth : 0 ≤ c) :
    1 + n * c + n * (n - 1) / 2 * c ^ 2 ≤ (1 + c) ^ n := by
  induction n with
  | zero => simp
  | succ n ih =>
      have stepped := mul_le_mul_of_nonneg_right ih (show 0 ≤ 1 + c by linarith)
      have third : 0 ≤ (n : ℚ) * (n - 1) / 2 * c ^ 3 := by
        cases n with
        | zero => simp
        | succ n =>
            push_cast
            rw [add_sub_cancel_right]
            positivity
      rw [pow_succ (1 + c)]
      push_cast
      linarith

theorem add_le_one_add_div_pow {k : Nat} (present : 0 < k) (m : Nat) :
    1 + (m : ℚ) ≤ (1 + m / k) ^ k := by
  have nonneg : (0 : ℚ) ≤ m / k := by positivity
  have bound := one_add_mul_le_pow (show -2 ≤ (m : ℚ) / k by linarith) k
  rwa [mul_div_cancel₀ _ (show (k : ℚ) ≠ 0 by positivity)] at bound

end

/-- How often the part that the whole product lacks pays for what the product of the first `k` numbers
exceeds one by, if `m` numbers follow. -/
def splitRoom (k m : Nat) : ℚ :=
  m * (k + m) + (1 + 2 / m) * ((1 + m / k) ^ k - 1 - m)

theorem mul_add_le_splitRoom {k : Nat} (present : 0 < k) (m : Nat) :
    (m * (k + m) : ℚ) ≤ splitRoom k m := by
  have higher := sub_nonneg.mpr (add_le_one_add_div_pow present m)
  rw [← sub_sub] at higher
  exact le_add_of_nonneg_right (mul_nonneg (by positivity) higher)

section
variable {front back : List ℚ}

theorem prod_le_one_of_mean {us : List ℚ} (unsigned : ∀ u ∈ us, 0 ≤ u)
    (mean : us.sum = us.length) : us.prod ≤ 1 := by
  rcases eq_or_ne us [] with rfl | present
  · exact le_rfl
  · have count : (us.length : ℚ) ≠ 0 := by
      exact_mod_cast (List.length_pos_iff.mpr present).ne'
    have bound := prod_le_mean_pow unsigned
    rwa [mean, div_self count, one_pow] at bound

/-- If the second part is below its share by a part `z`, the first part gains what is missing. -/
theorem front_prod_le {z : ℚ} (unsignedFront : ∀ u ∈ front, 0 ≤ u) (present : front ≠ [])
    (gained : front.sum = front.length + back.length * z) :
    front.prod ≤ (1 + back.length * z / front.length) ^ front.length := by
  have length : (0 : ℚ) < front.length := by exact_mod_cast List.length_pos_iff.mpr present
  have bound := prod_le_mean_pow unsignedFront
  rwa [gained, add_div, div_self length.ne'] at bound

/-- Where the second part is below its share by a part `z`, the first part exceeds one in the first
order of `z` and the whole product lacks something in the second. -/
theorem prods_le_of_short (unsignedFront : ∀ u ∈ front, 0 ≤ u) (unsignedBack : ∀ u ∈ back, 0 ≤ u)
    (present : front ≠ []) (mean : front.sum + back.sum = front.length + back.length)
    (short : back.sum < back.length) :
    ∃ z : ℚ, 0 ≤ z ∧ z ≤ 1 ∧
      front.prod ≤ 1 + back.length * z +
        z ^ 2 * ((1 + (back.length : ℚ) / front.length) ^ front.length - 1 - back.length) ∧
      front.prod * back.prod * (1 + back.length * (z ^ 2 / 2)) ≤ 1 := by
  have length : (0 : ℚ) < front.length := by exact_mod_cast List.length_pos_iff.mpr present
  have sum : 0 ≤ back.sum := List.sum_nonneg unsignedBack
  have share : (0 : ℚ) < back.length := sum.trans_lt short
  obtain ⟨z, same⟩ : ∃ z, z = 1 - back.sum / back.length := ⟨_, rfl⟩
  have low : 0 ≤ z := by
    rw [same, sub_nonneg, div_le_one share]
    exact short.le
  have high : z ≤ 1 := by
    have := div_nonneg sum share.le
    linarith
  have missing : back.length * z = back.length - back.sum := by
    rw [same, mul_sub, mul_one, mul_div_cancel₀ _ share.ne']
  have gained := front_prod_le unsignedFront present
    (show front.sum = front.length + back.length * z by linarith)
  have lost : back.prod ≤ (1 - z) ^ back.length := by
    rw [same, sub_sub_cancel]
    exact prod_le_mean_pow unsignedBack
  refine ⟨z, low, high, ?_, ?_⟩
  · have growth := one_add_mul_pow_le front.length (div_nonneg share.le length.le) low high
    rw [← mul_div_right_comm, ← mul_div_assoc, mul_div_cancel_left₀ _ length.ne',
      mul_div_cancel₀ _ length.ne'] at growth
    exact gained.trans growth
  · have whole : front.prod * back.prod ≤
        (1 - z) ^ back.length * (1 + back.length * z / front.length) ^ front.length := by
      rw [mul_comm ((1 - z) ^ _)]
      exact mul_le_mul gained lost (List.prod_nonneg unsignedBack) (by positivity)
    calc
      front.prod * back.prod * (1 + back.length * (z ^ 2 / 2)) ≤
          (1 - z) ^ back.length * (1 + back.length * z / front.length) ^ front.length *
            (1 + back.length * (z ^ 2 / 2)) :=
        mul_le_mul_of_nonneg_right whole (by positivity)
      _ ≤ 1 := balanced_prod_le _ _ low high

/-- The linear term is the only one that the whole product does not pay for at every `z`. -/
theorem linear_le_slack_add {m n z slack : ℚ} (slackened : 2 * slack * (n - 1) = 1)
    (some : 0 < slack) : m * z ≤ slack + m * (n - 1) * (m * (z ^ 2 / 2)) := by
  have square : 0 ≤ slack * (1 - m * (n - 1) * z) ^ 2 := by positivity
  have expand : slack * (1 - m * (n - 1) * z) ^ 2 =
      slack - m * z * (2 * slack * (n - 1)) +
        m * (n - 1) * (m * (z ^ 2 / 2)) * (2 * slack * (n - 1)) := by ring
  rw [expand, slackened, mul_one, mul_one] at square
  linarith

/-- What a part `z` gains in first and second order, against a slack and what the whole lacks. -/
theorem gain_le_slack_add {m n z higher slack whole : ℚ} (share : 0 < m) (count : 0 ≤ n)
    (low : 0 ≤ z) (high : z ≤ 1) (unsigned : 0 ≤ higher) (slackened : 2 * slack * (n - 1) = 1)
    (some : 0 < slack) (lacking : whole * (1 + m * (z ^ 2 / 2)) ≤ 1) :
    m * z + z ^ 2 * higher ≤ slack + (m * n + (1 + 2 / m) * higher) * (1 - whole) := by
  obtain ⟨w, same⟩ : ∃ w, w = m * (z ^ 2 / 2) := ⟨_, rfl⟩
  have nonneg : 0 ≤ w := by rw [same]; positivity
  have second : z ^ 2 = 2 / m * w := by
    rw [same]
    field_simp
  have linear : m * z ≤ slack + m * (n - 1) * w := by
    rw [same]
    exact linear_le_slack_add slackened some
  have carried : m * z * w ≤ m * w :=
    mul_le_mul_of_nonneg_right (mul_le_of_le_one_right share.le high) nonneg
  have squared : z ^ 2 * higher * w ≤ higher * w :=
    mul_le_mul_of_nonneg_right (mul_le_of_le_one_left unsigned (pow_le_one₀ low high)) nonneg
  have paid : (m * z + z ^ 2 * higher) * (1 + w) ≤
      (slack + (m * n + (1 + 2 / m) * higher) * (1 - whole)) * (1 + w) := by
    rw [← same] at lacking
    have rest := mul_le_mul_of_nonneg_left (show w ≤ (1 - whole) * (1 + w) by linarith)
      (show 0 ≤ m * n + (1 + 2 / m) * higher by positivity)
    have spare := mul_nonneg some.le nonneg
    calc
      (m * z + z ^ 2 * higher) * (1 + w) =
          m * z + m * z * w + z ^ 2 * higher + z ^ 2 * higher * w := by ring
      _ ≤ slack + m * (n - 1) * w + m * w + 2 / m * w * higher + higher * w := by
        rw [second] at squared ⊢
        linarith
      _ = slack + (m * n + (1 + 2 / m) * higher) * w := by ring
      _ ≤ (slack + (m * n + (1 + 2 / m) * higher) * (1 - whole)) * (1 + w) := by linarith
  exact le_of_mul_le_mul_right paid (by linarith)

/-- The product of the first part exceeds one by no more than a small slack and a multiple of what the
whole product lacks. -/
theorem front_prod_le_add (unsignedFront : ∀ u ∈ front, 0 ≤ u) (unsignedBack : ∀ u ∈ back, 0 ≤ u)
    (present : front ≠ []) (several : 2 ≤ front.length + back.length)
    (mean : front.sum + back.sum = front.length + back.length) :
    front.prod ≤ 1 + 1 / (2 * (front.length + back.length - 1)) +
      splitRoom front.length back.length * (1 - front.prod * back.prod) := by
  have length : 0 < front.length := List.length_pos_iff.mpr present
  have others : (0 : ℚ) < front.length + back.length - 1 := by
    have : (2 : ℚ) ≤ front.length + back.length := by exact_mod_cast several
    linarith
  have slack : (0 : ℚ) < 1 / (2 * (front.length + back.length - 1)) := by positivity
  rcases le_or_gt (back.length : ℚ) back.sum with enough | short
  · have count : (0 : ℚ) < front.length := by exact_mod_cast length
    have small : front.prod ≤ 1 := by
      refine (prod_le_mean_pow unsignedFront).trans (pow_le_one₀ ?_ ?_)
      · exact div_nonneg (List.sum_nonneg unsignedFront) count.le
      · rw [div_le_one count]
        linarith
    have room : 0 ≤ splitRoom front.length back.length :=
      (show (0 : ℚ) ≤ back.length * (front.length + back.length) by positivity).trans
        (mul_add_le_splitRoom length _)
    have whole : (front ++ back).prod ≤ 1 := by
      apply prod_le_one_of_mean
      · intro u member
        exact (List.mem_append.mp member).elim (unsignedFront u) (unsignedBack u)
      · rw [List.sum_append, mean, List.length_append, Nat.cast_add]
    rw [List.prod_append] at whole
    linarith [mul_nonneg room (sub_nonneg.mpr whole)]
  · obtain ⟨z, low, high, first, lacking⟩ :=
      prods_le_of_short unsignedFront unsignedBack present mean short
    have higher := sub_nonneg.mpr (add_le_one_add_div_pow length back.length)
    rw [← sub_sub] at higher
    have share : (0 : ℚ) < back.length := (List.sum_nonneg unsignedBack).trans_lt short
    have gain := gain_le_slack_add (n := front.length + back.length) share (by positivity) low high
      higher (by field_simp) slack lacking
    unfold splitRoom
    linarith

end

/-- The products of the initial segments of a list, added up. -/
def fronts : List ℚ → ℚ
  | [] => 0
  | u :: us => u * (1 + fronts us)

theorem fronts_nonneg {us : List ℚ} (unsigned : ∀ u ∈ us, 0 ≤ u) : 0 ≤ fronts us := by
  induction us with
  | nil => exact le_rfl
  | cons u us ih =>
      obtain ⟨first, others⟩ := List.forall_mem_cons.mp unsigned
      exact mul_nonneg first (add_nonneg zero_le_one (ih others))

theorem fronts_eq_sum (us : List ℚ) :
    fronts us = ∑ k ∈ Finset.range us.length, (us.take (k + 1)).prod := by
  induction us with
  | nil => rfl
  | cons u us ih =>
      rw [fronts, ih, List.length_cons, Finset.sum_range_succ', mul_add, mul_one, Finset.mul_sum]
      simp only [List.take_succ_cons, List.prod_cons, List.take_zero, List.prod_nil, mul_one]
      exact add_comm _ _

/-- A sum of `n` balances that leaves room for the roundings at all of them. -/
def roundingRoom (n : Nat) : ℚ :=
  2 * n + ∑ k ∈ Finset.range (n - 1), splitRoom (k + 1) (n - 1 - k)

/-- The most that the products of the initial segments of `n` numbers with mean one add up to. -/
def roundingExcess (n : Nat) : ℚ :=
  ∑ k ∈ Finset.range n, ((n : ℚ) / (k + 1 : Nat)) ^ (k + 1)

theorem sum_falling (others : Nat) :
    ∑ k ∈ Finset.range others, ((others - k : Nat) : ℚ) = others * (others + 1) / 2 := by
  induction others with
  | zero => simp
  | succ others ih =>
      rw [Finset.sum_range_succ']
      simp only [Nat.add_sub_add_right, Nat.sub_zero]
      rw [ih]
      push_cast
      ring

/-- The room grows with the third power of the number, not counting the terms of higher order. -/
theorem cubic_le_roundingRoom (n : Nat) : (n : ℚ) ^ 2 * (n - 1) / 2 + 2 * n ≤ roundingRoom n := by
  cases n with
  | zero => simp [roundingRoom]
  | succ others =>
      have each : ∀ k ∈ Finset.range others,
          ((others - k : Nat) : ℚ) * (others + 1 : Nat) ≤ splitRoom (k + 1) (others - k) := by
        intro k member
        have below := Finset.mem_range.mp member
        have bound := mul_add_le_splitRoom k.succ_pos (others - k)
        rwa [← Nat.cast_add, show k + 1 + (others - k) = others + 1 by omega] at bound
      have summed := Finset.sum_le_sum each
      rw [← Finset.sum_mul, sum_falling] at summed
      rw [roundingRoom, Nat.add_sub_cancel]
      push_cast at summed ⊢
      linarith

theorem natCast_le_roundingExcess {n : Nat} (present : 0 < n) : (n : ℚ) ≤ roundingExcess n := by
  have first := Finset.single_le_sum
    (f := fun k : Nat => ((n : ℚ) / (k + 1 : Nat)) ^ (k + 1))
    (fun k _ => by positivity) (Finset.mem_range.mpr present)
  simpa [roundingExcess] using first

section
variable {us : List ℚ}

theorem fronts_le_roundingExcess (unsigned : ∀ u ∈ us, 0 ≤ u) (mean : us.sum = us.length) :
    fronts us ≤ roundingExcess us.length := by
  rw [fronts_eq_sum]
  apply Finset.sum_le_sum
  intro k member
  have length : (us.take (k + 1)).length = k + 1 :=
    List.length_take_of_le (Finset.mem_range.mp member)
  have first : ∀ u ∈ us.take (k + 1), 0 ≤ u := fun u held => unsigned u (List.mem_of_mem_take held)
  have rest : 0 ≤ (us.drop (k + 1)).sum :=
    List.sum_nonneg fun u held => unsigned u (List.mem_of_mem_drop held)
  have parts : (us.take (k + 1)).sum + (us.drop (k + 1)).sum = us.length := by
    rw [← List.sum_append, List.take_append_drop, mean]
  calc
    (us.take (k + 1)).prod ≤ ((us.take (k + 1)).sum / (k + 1 : Nat)) ^ (k + 1) := by
      have bound := prod_le_mean_pow first
      rwa [length] at bound
    _ ≤ ((us.length : ℚ) / (k + 1 : Nat)) ^ (k + 1) := by
      apply pow_le_pow_left₀
      · exact div_nonneg (List.sum_nonneg first) (Nat.cast_nonneg _)
      · exact div_le_div_of_nonneg_right (by linarith) (Nat.cast_nonneg _)

theorem take_prod_le_add (unsigned : ∀ u ∈ us, 0 ≤ u) (mean : us.sum = us.length)
    (several : 2 ≤ us.length) {k : Nat} (below : k < us.length - 1) :
    (us.take (k + 1)).prod ≤ 1 + 1 / (2 * (us.length - 1)) +
      splitRoom (k + 1) (us.length - 1 - k) * (1 - us.prod) := by
  have front : (us.take (k + 1)).length = k + 1 := List.length_take_of_le (by omega)
  have back : (us.drop (k + 1)).length = us.length - 1 - k := by rw [List.length_drop]; omega
  have count : (((k + 1 : Nat) : ℚ) + (us.length - 1 - k : Nat)) = us.length := by
    rw [← Nat.cast_add]
    congr 1
    omega
  have first : ∀ u ∈ us.take (k + 1), 0 ≤ u := fun u held => unsigned u (List.mem_of_mem_take held)
  have rest : ∀ u ∈ us.drop (k + 1), 0 ≤ u := fun u held => unsigned u (List.mem_of_mem_drop held)
  have split := front_prod_le_add first rest (List.ne_nil_of_length_pos (by omega)) (by omega)
    (by rw [← List.sum_append, List.take_append_drop, mean, front, back, count])
  rwa [front, back, count, ← List.prod_append, List.take_append_drop] at split

/-- Where there is room, what the products of the initial segments add up to is paid for by the part
that the whole product lacks. -/
theorem fronts_add_le {q : ℚ} (unsigned : ∀ u ∈ us, 0 ≤ u) (mean : us.sum = us.length)
    (several : 2 ≤ us.length) (enough : roundingRoom us.length ≤ q) :
    fronts us + (q - us.length - 1 / 2) * us.prod ≤ q := by
  have others : (0 : ℚ) < us.length - 1 := by
    have : (2 : ℚ) ≤ us.length := by exact_mod_cast several
    linarith
  have whole := prod_le_one_of_mean unsigned mean
  have each := Finset.sum_le_sum fun k (member : k ∈ Finset.range (us.length - 1)) =>
    take_prod_le_add unsigned mean several (Finset.mem_range.mp member)
  rw [Finset.sum_add_distrib, Finset.sum_const, Finset.card_range, nsmul_eq_mul, ← Finset.sum_mul,
    Nat.cast_sub (show 1 ≤ us.length by omega), Nat.cast_one] at each
  have slack : (us.length - 1 : ℚ) * (1 + 1 / (2 * (us.length - 1))) = us.length - 1 / 2 := by
    field_simp
    ring
  have last : fronts us = ∑ k ∈ Finset.range (us.length - 1), (us.take (k + 1)).prod + us.prod := by
    rw [fronts_eq_sum]
    nth_rewrite 1 [show us.length = us.length - 1 + 1 by omega]
    rw [Finset.sum_range_succ, List.take_of_length_le (by omega)]
  unfold roundingRoom at enough
  rw [slack] at each
  have paid := mul_nonneg (show 0 ≤ q + 1 / 2 - us.length -
    ∑ k ∈ Finset.range (us.length - 1), splitRoom (k + 1) (us.length - 1 - k) by linarith)
    (sub_nonneg.mpr whole)
  rw [last]
  linarith

end

end Amm
