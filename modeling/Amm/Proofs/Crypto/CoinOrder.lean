import Amm.Proofs.Crypto.Curve

/-!
The order of the coins of a crypto pool. The solvers sort the balances before they read them, so the
place of a coin says nothing to them. The solver for one balance first puts a zero in its place: what
it reads are the other balances and their number, not the balance that it is asked for.
-/

namespace Amm
namespace Crypto

variable {x x' : List Int}

/-- Balances in any order are sorted into the same list. -/
theorem descending_of_perm (same : x.Perm x') : descending x = descending x' := by
  rw [descending_eq, descending_eq]
  have sorted := ((List.perm_insertionSort (· ≥ ·) x).trans same).trans
    (List.perm_insertionSort (· ≥ ·) x').symm
  exact sorted.eq_of_pairwise' (List.pairwise_insertionSort (· ≥ ·) x)
    (List.pairwise_insertionSort (· ≥ ·) x')

theorem newtonD_of_perm (shape : Shape) (same : x.Perm x') :
    newtonD shape x = newtonD shape x' := by
  simp only [newtonD, same.length_eq, descending_of_perm same]

/-- Lists with an entry each have as many entries if they have as many others. -/
theorem length_eq_of_eraseIdx {i i' : Nat} (bound : i < x.length) (bound' : i' < x'.length)
    (same : (x.eraseIdx i).length = (x'.eraseIdx i').length) : x.length = x'.length := by
  rw [List.length_eraseIdx_of_lt bound, List.length_eraseIdx_of_lt bound'] at same
  omega

/-- The solver sorts the others together with a zero, which need not come last: balances below zero
come after it, and then the zero is among those that are read. -/
theorem newtonY_of_perm (shape : Shape) (d : Int) {i i' : Nat} (bound : i < x.length)
    (bound' : i' < x'.length) (others : (x.eraseIdx i).Perm (x'.eraseIdx i')) :
    newtonY shape x d i = newtonY shape x' d i' := by
  have count : x.length = x'.length := length_eq_of_eraseIdx bound bound' others.length_eq
  have sorted : descending (x.set i 0) = descending (x'.set i' 0) := by
    apply descending_of_perm
    calc (x.set i 0).Perm (0 :: x.eraseIdx i) := List.set_perm_cons_eraseIdx bound 0
      List.Perm _ (0 :: x'.eraseIdx i') := others.cons 0
      List.Perm _ (x'.set i' 0) := (List.set_perm_cons_eraseIdx bound' 0).symm
  simp only [newtonY, sorted, count, bound', count ▸ bound]

/-- The balance that is solved for is replaced by a zero, so any other may stand there. -/
theorem newtonY_set (shape : Shape) (x : List Int) (d balance : Int) (i : Nat) :
    newtonY shape (x.set i balance) d i = newtonY shape x d i := by
  rcases Nat.lt_or_ge i x.length with bound | outside
  · refine newtonY_of_perm shape d (by rwa [List.length_set]) bound ?_
    rw [List.eraseIdx_set_eq]
  · rw [List.set_eq_of_length_le outside]

/-- The invariant is the same for the same balances in any order. The balance of a coin is the same
wherever the coins stand and whatever its own balance is. Where there is no solution, the cause is the
same as well. -/
theorem solvers_ignore_coin_order (shape : Shape) :
    (∀ x x' : List Int, x.Perm x' → newtonD shape x = newtonD shape x') ∧
    (∀ (x x' : List Int) (d : Int) (i i' : Nat), i < x.length → i' < x'.length →
      (x.eraseIdx i).Perm (x'.eraseIdx i') → newtonY shape x d i = newtonY shape x' d i') ∧
    ∀ (x : List Int) (d balance : Int) (i : Nat),
      newtonY shape (x.set i balance) d i = newtonY shape x d i := by
  refine ⟨?_, ?_, newtonY_set shape⟩
  · intro x x' same
    exact newtonD_of_perm shape same
  · intro x x' d i i' bound bound' others
    exact newtonY_of_perm shape d bound bound' others

/-- Three coins in two orders, one of which has a balance below zero where it is solved for. -/
theorem uneven_triple_solved_in_any_order :
    newtonD ⟨1707629, 11809167828997⟩ [11000000000000000000000000, 10000000000000000000000000,
      9000000000000000000000000] = .ok 29903819884111238191753245 ∧
    newtonY ⟨1707629, 11809167828997⟩ [11000000000000000000000000, 9000000000000000000000000, -5]
      30000000000000000000000000 2 = .ok 10096795604368470368630653 ∧
    newtonY ⟨1707629, 11809167828997⟩ [11000000000000000000000000, 9000000000000000000000000, 7]
      30000000000000000000000000 2 = .ok 10096795604368470368630653 := by
  obtain ⟨invariant, completed, ignored⟩ := solvers_ignore_coin_order ⟨1707629, 11809167828997⟩
  have first : newtonY ⟨1707629, 11809167828997⟩ [7, 9000000000000000000000000,
      11000000000000000000000000] 30000000000000000000000000 0 =
        .ok 10096795604368470368630653 := by
    decide +kernel
  have last : newtonY ⟨1707629, 11809167828997⟩ [11000000000000000000000000,
      9000000000000000000000000, -5] 30000000000000000000000000 2 =
        .ok 10096795604368470368630653 := by
    rw [completed _ [7, 9000000000000000000000000, 11000000000000000000000000] _ 2 0 (by decide)
      (by decide) (by decide)]
    exact first
  refine ⟨?_, last, ?_⟩
  · rw [invariant _ [10000000000000000000000000, 9000000000000000000000000,
      11000000000000000000000000] (by decide)]
    decide +kernel
  · exact (ignored _ _ 7 2).trans last

end Crypto
end Amm
