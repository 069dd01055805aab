import Amm.Proofs.Aborts
import Amm.Proofs.Crypto.Curve
import Amm.Proofs.Ramp

/-!
The faults of the solvers of a crypto pool. There are none. Some divisions do not check their
divisor, but each of them comes after a check that zero does not pass, or divides by a number that
counts coins or terms.
-/

namespace Amm
namespace Crypto

open Priced

variable {allowed : Fault → Prop} {shape : Shape} {x : List Int} {d : Int}

theorem descending_length (balances : List Int) : (descending balances).length = balances.length := by
  rw [descending_eq, List.length_insertionSort]

theorem limits_abortsOnly (coins : Nat) : AbortsOnly allowed (limits coins) := by
  unfold limits
  split
  · exact .value _
  · exact .value _
  · exact .refuse _

theorem reduceBy_abortsOnly (d start : Int) (factors : List Int) :
    AbortsOnly allowed (reduceBy d start factors) :=
  .foldlM (fun _ _ _ => .quotient) start

/-- The mean divides by the number of balances, of which there is one to start from. -/
theorem geometricMean_abortsOnly (x : List Int) : AbortsOnly allowed (geometricMean x) := by
  unfold geometricMean
  split
  · exact .refuse _
  · rename_i first rest
    refine Newton.run_abortsOnly (fun current => ?_) steps first
    refine .bind (reduceBy_abortsOnly _ _ _) fun ratio _ => ?_
    have counted : ((first :: rest).length : Int) ≠ 0 := by
      rw [List.length_cons]
      omega
    exact .bind (.bareQuotient_of_ne (mul_ne_zero counted Fixed.one_pos.ne')) fun next _ => .value _

theorem sqrtFrom_abortsOnly (square : Int) (steps : Nat) (y z : Int) :
    AbortsOnly allowed (sqrtFrom square steps y z) := by
  induction steps generalizing y z with
  | zero => exact .refuse _
  | succ steps ih =>
      rw [sqrtFrom]
      split
      · exact .value y
      · exact .bind .quotient fun ratio _ => ih z _

theorem sqrt_abortsOnly (square : Int) : AbortsOnly allowed (sqrt square) := by
  unfold sqrt
  split
  · exact .value 0
  · exact sqrtFrom_abortsOnly square _ _ _

/-- The series divides by the number of its term, and the terms are counted from one. -/
theorem halfSeries_abortsOnly (part precision : Int) (steps : Nat) {k : Int} (counted : 1 ≤ k)
    (term sum : Int) (negative : Bool) :
    AbortsOnly allowed (halfSeries part precision steps k term sum negative) := by
  induction steps generalizing k term sum negative with
  | zero => exact .refuse _
  | succ steps ih =>
      have divisor : k * Fixed.one ≠ 0 := mul_ne_zero (by omega) Fixed.one_pos.ne'
      refine .bind (.bareQuotient_of_ne divisor) fun next _ => ?_
      dsimp only
      split
      · exact .value _
      · exact ih (by omega) _ _ _

theorem halfpow_abortsOnly (power precision : Int) : AbortsOnly allowed (halfpow power precision) := by
  unfold halfpow
  dsimp only
  split
  · exact .value 0
  · refine .bind .require fun _ _ => ?_
    split
    · exact .value _
    · exact .bind (halfSeries_abortsOnly _ _ _ le_rfl _ _ _) fun sum _ => .value _

theorem reductionCoefficient_abortsOnly (x : List Int) (feeGamma : Int) :
    AbortsOnly allowed (reductionCoefficient x feeGamma) := by
  refine .bind (reduceBy_abortsOnly _ _ _) fun k _ => ?_
  split
  · exact .quotient
  · exact .value k

theorem euclideanQuotient_abortsOnly (a b : Int) : AbortsOnly allowed (euclideanQuotient a b) := by
  unfold euclideanQuotient
  split
  · exact .refuse _
  · exact .value _

theorem firstCoefficient_abortsOnly (shape : Shape) (d gap : Int) :
    AbortsOnly allowed (firstCoefficient shape d gap) :=
  .bind .quotient fun _ _ => .bind .quotient fun _ _ => .quotient

theorem invariantStep_abortsOnly (shape : Shape) (x : List Int) (sum d : Int) :
    AbortsOnly allowed (invariantStep shape x sum d) := by
  refine .bind (reduceBy_abortsOnly _ _ _) fun k0 _ => ?_
  refine .bind (firstCoefficient_abortsOnly _ _ _) fun mul1 _ => ?_
  refine .bind .quotient fun mul2 _ => .bind .quotient fun spread _ => ?_
  refine .bind (euclideanQuotient_abortsOnly _ _) fun plus _ => ?_
  refine .bind (euclideanQuotient_abortsOnly _ _) fun square _ => ?_
  refine .bind (euclideanQuotient_abortsOnly _ _) fun share _ => ?_
  dsimp only
  split
  · exact .bind .quotient fun part _ => .bind (.value _) fun minus _ => .value _
  · exact .bind .quotient fun part _ => .bind (.value _) fun minus _ => .value _

/-- The other balances are divided by the greatest one, which is in its range by then. -/
theorem requireSafeBalances_abortsOnly (x : List Int) :
    AbortsOnly allowed (requireSafeBalances x) := by
  cases x with
  | nil => exact .refuse _
  | cons greatest others =>
      refine .bind .require fun _ inRange => .forM fun balance _ => ?_
      simp only [require_eq_ok, Bool.and_eq_true, decide_eq_true_eq] at inRange
      have positive : 0 < greatest := (pow10_pos 9).trans_le inRange.1
      exact .bind (.bareQuotient_of_ne positive.ne') fun part _ => .require

theorem newtonD_abortsOnly (shape : Shape) (balances : List Int) :
    AbortsOnly allowed (newtonD shape balances) := by
  refine .bind (limits_abortsOnly _) fun limits _ => .bind .require fun _ _ => ?_
  refine .bind (requireSafeBalances_abortsOnly _) fun _ _ => ?_
  refine .bind (geometricMean_abortsOnly _) fun mean _ => ?_
  refine .bind (Newton.run_abortsOnly (fun d => invariantStep_abortsOnly _ _ _ d) steps _)
    fun d _ => ?_
  exact .bind (.forM fun balance _ => .bind .quotient fun part _ => .require) fun _ _ => .value d

/-- Three divisions are by the slope, which is checked before the first of them. -/
theorem balanceStep_abortsOnly (shape : Shape) (d : Int) (others : Others) (y : Int) :
    AbortsOnly allowed (balanceStep shape d others y) := by
  refine .bind .quotient fun k0 _ => .bind (firstCoefficient_abortsOnly _ _ _) fun mul1 _ => ?_
  refine .bind .quotient fun ratio _ => ?_
  dsimp only
  split
  · exact .value _
  · refine .bind .quotient fun slope _ => .bind .require fun _ checked => ?_
    have nonzero : slope ≠ 0 := by simpa using require_eq_ok.mp checked
    refine .bind (.bareQuotient_of_ne nonzero) fun part _ => ?_
    refine .bind (.bareQuotient_of_ne nonzero) fun ahead _ => .bind .quotient fun correction _ => ?_
    exact .bind (.bareQuotient_of_ne nonzero) fun behind _ => .value _

theorem firstBalance_abortsOnly {n : Int} (counted : n ≠ 0) (d : Int) (others : List Int) :
    AbortsOnly allowed (firstBalance n d others) :=
  .bind (.bareQuotient_of_ne counted) fun part _ => .foldlM (fun _ _ _ => .quotient) part

/-- The invariant is in its range before anything is divided by it, and the index of the balance
before there is anything to count. -/
theorem newtonY_abortsOnly (shape : Shape) (x : List Int) (d : Int) (i : Nat) :
    AbortsOnly allowed (newtonY shape x d i) := by
  refine .bind (limits_abortsOnly _) fun limits _ => .bind .require fun _ _ => ?_
  refine .bind .require fun _ _ => .bind .require fun _ inRange => .bind .require fun _ inside => ?_
  simp only [require_eq_ok, Bool.and_eq_true, decide_eq_true_eq] at inRange inside
  have positive : 0 < d := (pow10_pos 17).trans_le inRange.1
  have counted : (x.length : Int) ≠ 0 := by omega
  have listed : 0 < (descending (x.set i 0)).length := by
    rw [descending_length, List.length_set]
    omega
  refine .bind (.entry listed) fun greatest _ => .bind .require fun _ _ => ?_
  refine .bind (firstBalance_abortsOnly counted _ _) fun start _ => ?_
  refine .bind (reduceBy_abortsOnly _ _ _) fun k0 _ => ?_
  refine .bind (Newton.run_abortsOnly (fun y => balanceStep_abortsOnly _ _ _ y) steps _)
    fun y _ => ?_
  exact .bind (.bareQuotient_of_ne positive.ne') fun part _ => .bind .require fun _ _ => .value y

theorem AGammaRamp.shape_abortsOnly {ramp : AGammaRamp} {now : Time}
    (time : ramp.Overflows now → allowed .timeOverflow) : AbortsOnly allowed (ramp.shape now) := by
  unfold AGammaRamp.shape
  dsimp only
  split
  · rename_i running
    refine .bind (Time.since_abortsOnly fun far => ?_) fun window _ => ?_
    · exact time ⟨running, fun fits => far fits.1⟩
    refine .bind (Time.since_abortsOnly fun far => ?_) fun elapsed _ => ?_
    · exact time ⟨running, fun fits => far fits.2⟩
    exact .bind .quotient fun ann _ => .bind .quotient fun gamma _ => .value _
  · exact .value _

end Crypto
end Amm
