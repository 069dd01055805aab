import Amm.Proofs.Stable.Ceiling
import Mathlib.Logic.Function.Iterate

/-!
The least rounded term over all lists of as many balances with the same sum, found row by row: a row
holds for some number of balances the least term for each sum that they can have. So three and four
balances whose sum leaves no room for the roundings are decided one sum after the other.
-/

namespace Amm
namespace Stable
namespace Curve

/-- The least of the terms that the entries become when the newest of them is divided by a balance
`x`, the one before it by `x + 1`, and so on. -/
def leastQuotient (n p : Nat) : Nat → Nat → List Nat → Nat
  | x, newest, [] => newest * p / (x * n)
  | x, newest, next :: older =>
      -- the lesser of the two, without a comparison
      let quotient := newest * p / (x * n)
      quotient - (quotient - leastQuotient n p (x + 1) next older)

/-- The row for one more balance. An entry stands for a sum that exceeds the number of balances by its
position. -/
def nextRow (n p : Nat) : List Nat → List Nat → List Nat
  | _, [] => []
  | older, entry :: row => leastQuotient n p 1 entry older :: nextRow n p (entry :: older) row

/-- The terms of one balance. -/
def firstRow (n p length : Nat) : List Nat :=
  (List.range length).map fun j => p * p / ((j + 1) * n)

/-- The least rounded term at `p` of `n` balances whose sum exceeds their number by `extra`. -/
def leastTerm (n p extra : Nat) : Nat :=
  ((nextRow n p [])^[n - 1] (firstRow n p (extra + 1))).getD extra 0

section
variable {n p : Nat}

theorem leastQuotient_le_newest (x newest : Nat) (older : List Nat) :
    leastQuotient n p x newest older ≤ newest * p / (x * n) := by
  cases older with
  | nil => exact le_rfl
  | cons next older => exact Nat.sub_le _ _

theorem leastQuotient_le {x newest entry i : Nat} {older : List Nat} (held : older[i]? = some entry) :
    leastQuotient n p x newest older ≤ entry * p / ((x + i + 1) * n) := by
  induction older generalizing x newest i with
  | nil => simp at held
  | cons next older ih =>
      have lesser : leastQuotient n p x newest (next :: older) ≤
          leastQuotient n p (x + 1) next older := by
        rw [leastQuotient]
        omega
      apply lesser.trans
      cases i with
      | zero =>
          obtain rfl : next = entry := by simpa using held
          exact leastQuotient_le_newest _ _ _
      | succ i =>
          have bound : leastQuotient n p (x + 1) next older ≤ entry * p / ((x + 1 + i + 1) * n) :=
            ih (by simpa using held)
          rwa [show x + 1 + i + 1 = x + (i + 1) + 1 by omega] at bound

theorem nextRow_getD_le_older {row older : List Nat} {entry i j : Nat}
    (held : older[i]? = some entry) :
    (nextRow n p older row).getD j 0 ≤ entry * p / ((i + j + 2) * n) := by
  induction row generalizing older i j with
  | nil => simp [nextRow]
  | cons first row ih =>
      cases j with
      | zero =>
          have bound : leastQuotient n p 1 first older ≤ entry * p / ((1 + i + 1) * n) :=
            leastQuotient_le held
          rwa [show 1 + i + 1 = i + 0 + 2 by omega] at bound
      | succ j =>
          have bound : (nextRow n p (first :: older) row).getD j 0 ≤
              entry * p / ((i + 1 + j + 2) * n) :=
            ih (by simpa using held)
          rwa [show i + 1 + j + 2 = i + (j + 1) + 2 by omega] at bound

/-- An entry of the next row is no more than what any entry before it gives. -/
theorem nextRow_getD_le (older row : List Nat) (i j : Nat) :
    (nextRow n p older row).getD (i + j) 0 ≤ row.getD i 0 * p / ((j + 1) * n) := by
  induction row generalizing older i with
  | nil => simp [nextRow]
  | cons first row ih =>
      cases i with
      | succ i =>
          rw [show i + 1 + j = i + j + 1 by omega]
          exact ih (first :: older) i
      | zero =>
          cases j with
          | zero =>
              have bound := leastQuotient_le_newest (n := n) (p := p) 1 first older
              simpa [nextRow] using bound
          | succ j =>
              have bound : (nextRow n p (first :: older) row).getD j 0 ≤
                  first * p / ((0 + j + 2) * n) :=
                nextRow_getD_le_older rfl
              rw [show 0 + j + 2 = j + 1 + 1 by omega] at bound
              rw [zero_add]
              exact bound

theorem natCast_quotient (entry x : Nat) :
    ((entry * p / (x * n) : Nat) : Int) = ((entry : Int) * p).fdiv ((x : Int) * n) := by
  rw [Int.fdiv_eq_ediv_of_nonneg _ (by positivity)]
  push_cast
  rfl

/-- The balances are `j + 1` for the numbers `j` of a list, which say how far the entries move. -/
theorem iterate_nextRow_le (present : 0 < n) (others : List Nat) {row : List Nat} {i : Nat}
    {start : Int} (below : (row.getD i 0 : Int) ≤ start) :
    (((nextRow n p [])^[others.length] row).getD (i + others.sum) 0 : Int) ≤
      (others.map fun j : Nat => (j + 1 : Int)).foldl
        (fun term x : Int => (term * (p : Int)).fdiv (x * (n : Int))) start := by
  induction others generalizing row i start with
  | nil => simpa using below
  | cons j others ih =>
      rw [List.length_cons, Function.iterate_succ_apply, List.sum_cons, ← add_assoc, List.map_cons,
        List.foldl_cons]
      apply ih
      have entry := nextRow_getD_le (n := n) (p := p) [] row i j
      calc
        ((nextRow n p [] row).getD (i + j) 0 : Int) ≤
            ((row.getD i 0 * p / ((j + 1) * n) : Nat) : Int) := by exact_mod_cast entry
        _ = ((row.getD i 0 : Int) * p).fdiv ((j + 1 : Int) * n) := natCast_quotient _ (j + 1)
        _ ≤ (start * p).fdiv ((j + 1 : Int) * n) :=
          fdiv_le_fdiv (by positivity) (mul_le_mul_of_nonneg_right below (Int.natCast_nonneg p))

end

theorem exists_map_succ {xp : List Int} (positive : ∀ x ∈ xp, 0 < x) :
    ∃ others : List Nat, xp = others.map fun j : Nat => (j + 1 : Int) := by
  induction xp with
  | nil => exact ⟨[], rfl⟩
  | cons x xp ih =>
      obtain ⟨first, rest⟩ := List.forall_mem_cons.mp positive
      obtain ⟨others, rfl⟩ := ih rest
      refine ⟨(x - 1).toNat :: others, ?_⟩
      rw [List.map_cons, Int.toNat_of_nonneg (by omega), sub_add_cancel]

theorem total_map_succ (others : List Nat) :
    total (others.map fun j : Nat => (j + 1 : Int)) = others.sum + others.length := by
  rw [total_eq_sum]
  induction others with
  | nil => rfl
  | cons j others ih =>
      rw [List.map_cons, List.sum_cons, ih, List.sum_cons, List.length_cons]
      push_cast
      ring

theorem exists_extra {xp : List Int} (positive : ∀ x ∈ xp, 0 < x) :
    ∃ extra : Nat, total xp = extra + xp.length := by
  obtain ⟨others, rfl⟩ := exists_map_succ positive
  exact ⟨others.sum, by rw [total_map_succ, List.length_map]⟩

section
variable {xp : List Int} {extra : Nat}

/-- The least term is a bound on the term of every list. -/
theorem leastTerm_le {p : Nat} (positive : ∀ x ∈ xp, 0 < x) (some : xp ≠ [])
    (sum : total xp = extra + xp.length) :
    (leastTerm xp.length p extra : Int) ≤ roundedTerm xp p := by
  obtain ⟨all, rfl⟩ := exists_map_succ positive
  rw [total_map_succ, List.length_map] at sum
  obtain rfl : all.sum = extra := by omega
  rw [leastTerm, roundedTerm, List.length_map]
  cases all with
  | nil => exact absurd rfl some
  | cons j others =>
      rw [List.length_cons, Nat.add_sub_cancel, List.sum_cons, List.map_cons, List.foldl_cons]
      apply iterate_nextRow_le (Nat.succ_pos _)
      have entry : (firstRow (others.length + 1) p (j + others.sum + 1)).getD j 0 =
          p * p / ((j + 1) * (others.length + 1)) := by
        have inside : j < j + others.sum + 1 := by omega
        simp [firstRow, inside]
      rw [entry]
      exact (natCast_quotient p (j + 1)).le

/-- The sums that the least terms show to be ceilings of `n` balances. -/
def Tabled (n extra : Nat) : Prop :=
  (extra + n) * (extra + n) < leastTerm n (extra + n) extra * (extra + n + n + 1) ∧
    extra + n < leastTerm n (extra + n + 1) extra ∧
    2 * (extra + n) * (extra + n + 2) + (extra + n) <
      2 * (leastTerm n (extra + n + 2) extra * (extra + 1))

instance (n extra : Nat) : Decidable (Tabled n extra) :=
  inferInstanceAs (Decidable (_ ∧ _))

theorem Ceiling.of_tabled (positive : ∀ x ∈ xp, 0 < x) (some : xp ≠ [])
    (sum : total xp = extra + xp.length) (tabled : Tabled xp.length extra) :
    Ceiling xp (total xp) := by
  obtain ⟨level, next, later⟩ := tabled
  have term (more : Nat) :
      (leastTerm xp.length (extra + xp.length + more) extra : Int) ≤
        roundedTerm xp (total xp + more) := by
    rw [sum]
    exact leastTerm_le positive some sum
  constructor
  · have least := term 0
    rw [Nat.add_zero, Nat.cast_zero, add_zero] at least
    have bound := mul_le_mul_of_nonneg_right least (show 0 ≤ total xp + xp.length + 1 by omega)
    zify at level
    rw [← sum] at level
    exact level.trans_le bound
  · zify at next
    rw [← sum] at next
    exact next.trans_le (term 1)
  · have bound := mul_le_mul_of_nonneg_right (term 2) (show 0 ≤ total xp + 1 - xp.length by omega)
    zify at later
    rw [← sum, show (extra : Int) + 1 = total xp + 1 - xp.length by omega] at later
    push_cast at bound
    linarith

end

set_option maxRecDepth 10000 in
theorem tabled_three : ∀ extra < 18, extra ≠ 1 → Tabled 3 extra := by
  decide +kernel

set_option maxRecDepth 10000 in
theorem tabled_four : ∀ extra < 33, Tabled 4 extra := by
  decide +kernel

namespace Ceiling

variable {xp : List Int}

/-- Three balances leave one exception. -/
theorem of_three (positive : ∀ x ∈ xp, 0 < x) (three : xp.length = 3) (other : xp ≠ [2, 1, 1]) :
    Ceiling xp (total xp) := by
  have some : xp ≠ [] := List.ne_nil_of_length_pos (by omega)
  obtain ⟨extra, sum⟩ := exists_extra positive
  rcases lt_or_ge extra 18 with small | large
  · by_cases single : extra = 1
    · obtain ⟨x, y, z, rfl⟩ := List.length_eq_three.mp three
      obtain ⟨first, second, third⟩ : 0 < x ∧ 0 < y ∧ 0 < z := by simpa using positive
      have four : x + y + z = 4 := by
        have whole : total [x, y, z] = x + y + z := by simp [total]
        rw [whole, single] at sum
        simpa using sum
      obtain ⟨rfl, rfl, rfl⟩ | ⟨rfl, rfl, rfl⟩ | ⟨rfl, rfl, rfl⟩ :
        (x = 2 ∧ y = 1 ∧ z = 1) ∨ (x = 1 ∧ y = 2 ∧ z = 1) ∨ (x = 1 ∧ y = 1 ∧ z = 2) := by omega
      · exact absurd rfl other
      · decide
      · decide
    · exact of_tabled positive some sum (by rw [three]; exact tabled_three extra small single)
  · have enough : roundingRoom 3 ≤ 21 := by norm_num [roundingRoom, splitRoom, Finset.sum_range_succ]
    have wide : (21 : Int) ≤ total xp := by omega
    apply of_room positive (by omega)
    · rw [three]
      exact enough.trans (by exact_mod_cast wide)
    · rw [three]
      omega

/-- Four balances leave none. -/
theorem of_four (positive : ∀ x ∈ xp, 0 < x) (four : xp.length = 4) : Ceiling xp (total xp) := by
  have some : xp ≠ [] := List.ne_nil_of_length_pos (by omega)
  obtain ⟨extra, sum⟩ := exists_extra positive
  rcases lt_or_ge extra 33 with small | large
  · exact of_tabled positive some sum (by rw [four]; exact tabled_four extra small)
  · have enough : roundingRoom 4 ≤ 37 := by norm_num [roundingRoom, splitRoom, Finset.sum_range_succ]
    have wide : (37 : Int) ≤ total xp := by omega
    apply of_room positive (by omega)
    · rw [four]
      exact enough.trans (by exact_mod_cast wide)
    · rw [four]
      omega

end Ceiling

end Curve
end Stable
end Amm
