import Amm.Crypto.Curve
import Amm.Proofs.Newton
import Amm.Proofs.Rounding
import Mathlib.Data.List.Sort

/-!
What the solver of a crypto pool promises of its results. An invariant that it gives out is positive:
the greatest balance is, and it is a safe part of the invariant.
-/

namespace Amm

theorem pow10_pos (exponent : Nat) : 0 < pow10 exponent :=
  Int.natCast_pos.mpr (Nat.pow_pos (by decide))

namespace Crypto

theorem requireSafeBalances_greatest {x : List Int} {done : Unit}
    (safe : requireSafeBalances x = .ok done) :
    ∃ greatest others, x = greatest :: others ∧ 0 < greatest := by
  cases x with
  | nil => simp [requireSafeBalances] at safe
  | cons greatest others =>
      simp only [requireSafeBalances, Priced.bind_eq_ok, Priced.require_eq_ok, Bool.and_eq_true,
        decide_eq_true_eq] at safe
      obtain ⟨-, ⟨bound, -⟩, -⟩ := safe
      exact ⟨greatest, others, rfl, (pow10_pos 9).trans_le bound⟩

/-- Only a positive invariant has the part of a positive balance in the safe range. -/
theorem invariant_pos_of_safePart {balance d part : Int} (positive : 0 < balance)
    (divided : Priced.quotient (balance * Fixed.one) d = .ok part) (safe : isSafePart part = true) :
    0 < d := by
  obtain ⟨nonzero, rfl⟩ := Priced.quotient_eq_ok.mp divided
  simp only [isSafePart, Bool.and_eq_true, decide_eq_true_eq] at safe
  have large := (pow10_pos 16).trans_le safe.1
  by_contra notPositive
  have small : (balance * Fixed.one).fdiv d ≤ 0 :=
    Int.fdiv_nonpos_of_nonneg_of_nonpos (mul_nonneg positive.le (by decide)) (by omega)
  omega

theorem newtonD_pos {shape : Shape} {balances : List Int} {d : Int}
    (solved : newtonD shape balances = .ok d) : 0 < d := by
  simp only [newtonD, Priced.bind_eq_ok, Except.ok.injEq] at solved
  obtain ⟨_, -, _, -, _, safeBalances, mean, -, found, -, _, safeParts, rfl⟩ := solved
  obtain ⟨greatest, others, sorted, positive⟩ := requireSafeBalances_greatest safeBalances
  simp only [sorted, requireSafeParts, List.forM_eq_forM, List.forM_cons, Priced.bind_eq_ok,
    Priced.require_eq_ok] at safeParts
  obtain ⟨_, ⟨part, divided, safe⟩, -⟩ := safeParts
  exact invariant_pos_of_safePart positive divided safe

theorem insertDescending_eq (balance : Int) (sorted : List Int) :
    insertDescending balance sorted = sorted.orderedInsert (· ≥ ·) balance := by
  induction sorted with
  | nil => rfl
  | cons other rest ih =>
      rw [insertDescending, List.orderedInsert_cons, ih]

theorem descending_eq (balances : List Int) :
    descending balances = balances.insertionSort (· ≥ ·) := by
  induction balances with
  | nil => rfl
  | cons balance rest ih =>
      rw [List.insertionSort_cons, ← ih, ← insertDescending_eq]
      rfl

theorem mem_descending {x : Int} {balances : List Int} : x ∈ descending balances ↔ x ∈ balances := by
  rw [descending_eq, List.mem_insertionSort]

/-- An invariant is only found for balances that are all positive: the greatest one is, and each other
one is a part of it that is not too small. -/
theorem newtonD_balances_pos {shape : Shape} {balances : List Int} {d : Int}
    (solved : newtonD shape balances = .ok d) : ∀ x ∈ balances, 0 < x := by
  simp only [newtonD, Priced.bind_eq_ok, Except.ok.injEq] at solved
  obtain ⟨_, -, _, -, _, safe, -⟩ := solved
  obtain ⟨greatest, others, sorted, positive⟩ := requireSafeBalances_greatest safe
  intro x member
  rw [← mem_descending, sorted] at member
  simp only [sorted, requireSafeBalances, Priced.bind_eq_ok] at safe
  obtain ⟨_, -, parts⟩ := safe
  rcases List.mem_cons.mp member with rfl | other
  · exact positive
  · obtain ⟨_, passed⟩ := Priced.forM_passes parts other
    simp only [Priced.bind_eq_ok, Priced.bareQuotient_eq_ok, Priced.require_eq_ok,
      decide_eq_true_eq] at passed
    obtain ⟨_, ⟨-, rfl⟩, large⟩ := passed
    have part := (le_fdiv_iff positive).mp large
    have least : 0 < pow10 11 * greatest := mul_pos (pow10_pos 11) positive
    exact pos_of_mul_pos_left (least.trans_le part) Fixed.one_pos.le

/-- A balance is only found for a positive invariant, and it is positive itself: it is a safe part of
the invariant. -/
theorem newtonY_pos {shape : Shape} {x : List Int} {d y : Int} {i : Nat}
    (solved : newtonY shape x d i = .ok y) : 0 < d ∧ 0 < y := by
  simp only [newtonY, Priced.bind_eq_ok, Priced.require_eq_ok, Priced.bareQuotient_eq_ok,
    Bool.and_eq_true, decide_eq_true_eq, Except.ok.injEq] at solved
  obtain ⟨_, -, _, -, _, -, _, ⟨large, -⟩, _, -, _, -, _, -, _, -, _, -, found, -, _, ⟨-, rfl⟩, _,
    safe, rfl⟩ := solved
  have positive : 0 < d := (pow10_pos 17).trans_le large
  simp only [isSafePart, Bool.and_eq_true, decide_eq_true_eq] at safe
  have part := (le_fdiv_iff positive).mp safe.1
  have least : 0 < pow10 16 * d := mul_pos (pow10_pos 16) positive
  exact ⟨positive, pos_of_mul_pos_left (least.trans_le part) Fixed.one_pos.le⟩

section
open Priced

/-! The solver has causes of its own for what it refuses. The loss is none of them. -/

variable {shape : Shape} {x : List Int} {d start : Int}

theorem reduceBy_avoids_loss : Avoids .loss (reduceBy d start x) :=
  .foldlM (fun _ _ => .quotient (by decide)) x start

theorem limits_avoids_loss {coins : Nat} : Avoids .loss (limits coins) := by
  unfold limits
  split
  · exact .value _
  · exact .value _
  · exact .refuse (by decide)

theorem geometricMean_avoids_loss : Avoids .loss (geometricMean x) := by
  unfold geometricMean
  split
  · exact .refuse (by decide)
  · refine Newton.run_avoids (fun current => ?_) (by decide) steps _
    exact .bind reduceBy_avoids_loss fun ratio => .bind .bareQuotient fun next => .value _

theorem sqrt_avoids_loss {square : Int} : Avoids .loss (sqrt square) := by
  have iterates : ∀ steps y z, Avoids .loss (sqrtFrom square steps y z) := by
    intro steps
    induction steps with
    | zero => exact fun _ _ => .refuse (by decide)
    | succ steps ih =>
        intro y z
        rw [sqrtFrom]
        split
        · exact .value y
        · exact .bind (.quotient (by decide)) fun ratio => ih z _
  unfold sqrt
  split
  · exact .value 0
  · exact iterates _ _ _

theorem halfSeries_avoids_loss {part precision : Int} (steps : Nat) (k term sum : Int)
    (negative : Bool) : Avoids .loss (halfSeries part precision steps k term sum negative) := by
  induction steps generalizing k term sum negative with
  | zero => exact .refuse (by decide)
  | succ steps ih =>
      refine .bind .bareQuotient fun term => ?_
      dsimp only
      split
      · exact .value _
      · exact ih _ _ _ _

theorem halfpow_avoids_loss {power precision : Int} : Avoids .loss (halfpow power precision) := by
  simp only [halfpow]
  split
  · exact .value 0
  · refine .bind (.require (by decide)) fun _ => ?_
    split
    · exact .value _
    · exact .bind (halfSeries_avoids_loss _ _ _ _ _) fun sum => .value _

theorem firstCoefficient_avoids_loss {gap : Int} : Avoids .loss (firstCoefficient shape d gap) :=
  .bind (.quotient (by decide)) fun _ => .bind (.quotient (by decide)) fun _ =>
    .quotient (by decide)

theorem euclideanQuotient_avoids_loss {a b : Int} : Avoids .loss (euclideanQuotient a b) := by
  unfold euclideanQuotient
  split
  · exact .refuse (by decide)
  · exact .value _

theorem invariantStep_avoids_loss {sum : Int} : Avoids .loss (invariantStep shape x sum d) := by
  refine .bind reduceBy_avoids_loss fun k0 => .bind firstCoefficient_avoids_loss fun mul1 => ?_
  refine .bind (.quotient (by decide)) fun mul2 => .bind (.quotient (by decide)) fun spread => ?_
  refine .bind euclideanQuotient_avoids_loss fun plus => ?_
  refine .bind euclideanQuotient_avoids_loss fun square => ?_
  refine .bind euclideanQuotient_avoids_loss fun share => ?_
  dsimp only
  split
  · exact .bind (.quotient (by decide)) fun part => .bind (.value _) fun minus => .value _
  · exact .bind (.quotient (by decide)) fun part => .bind (.value _) fun minus => .value _

theorem requireSafeBalances_avoids_loss : Avoids .loss (requireSafeBalances x) := by
  cases x with
  | nil => exact .refuse (by decide)
  | cons greatest others =>
      refine .bind (.require (by decide)) fun _ => .forM (fun balance => ?_) others
      exact .bind .bareQuotient fun part => .require (by decide)

theorem newtonD_avoids_loss : Avoids .loss (newtonD shape x) := by
  refine .bind limits_avoids_loss fun limits => .bind (.require (by decide)) fun _ => ?_
  refine .bind requireSafeBalances_avoids_loss fun _ => ?_
  refine .bind geometricMean_avoids_loss fun mean => ?_
  refine .bind (Newton.run_avoids (fun _ => invariantStep_avoids_loss) (by decide) steps _)
    fun d => .bind (.forM (fun balance => ?_) _) fun _ => .value d
  exact .bind (.quotient (by decide)) fun part => .require (by decide)

theorem balanceStep_avoids_loss {others : Others} {y : Int} :
    Avoids .loss (balanceStep shape d others y) := by
  refine .bind (.quotient (by decide)) fun k0 => .bind firstCoefficient_avoids_loss fun mul1 => ?_
  refine .bind (.quotient (by decide)) fun ratio => ?_
  dsimp only
  split
  · exact .value _
  · refine .bind (.quotient (by decide)) fun slope => .bind (.require (by decide)) fun _ => ?_
    refine .bind .bareQuotient fun part => .bind .bareQuotient fun ahead => ?_
    exact .bind (.quotient (by decide)) fun correction => .bind .bareQuotient fun behind => .value _

theorem newtonY_avoids_loss {i : Nat} : Avoids .loss (newtonY shape x d i) := by
  refine .bind limits_avoids_loss fun limits => .bind (.require (by decide)) fun _ => ?_
  refine .bind (.require (by decide)) fun _ => .bind (.require (by decide)) fun _ => ?_
  refine .bind (.require (by decide)) fun _ => .bind .entry fun greatest => ?_
  refine .bind (.require (by decide)) fun _ => .bind ?_ fun start => ?_
  · exact .bind .bareQuotient fun part => .foldlM (fun _ _ => .quotient (by decide)) _ _
  · refine .bind reduceBy_avoids_loss fun k0 => ?_
    refine .bind (Newton.run_avoids (fun _ => balanceStep_avoids_loss) (by decide) steps _)
      fun y => ?_
    exact .bind .bareQuotient fun part => .bind (.require (by decide)) fun _ => .value y

end

end Crypto
end Amm
