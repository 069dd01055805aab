import Amm.Proofs.Balanced
import Amm.Proofs.Stable.SmallSums

/-!
The invariant of a pool against the sum of its balances. The iterations start at the sum, where they
come down from. The product term is rounded down on the way, so they can end above the sum; they do not
where the sum is a ceiling, and they never end further above it than the roundings reach.
-/

namespace Amm
namespace Stable
namespace Curve

/-- The last step of an iteration for `n` balances from `p` to `d`, with the damping that it takes at `p`
and the one that it would take at the sum. -/
structure LastStep (n sum p d product damped damping : Int) : Prop where
  present : 0 < sum
  unsigned : 0 ≤ damped
  raised : sum ≤ p → damped ≤ damping
  scaled : damped * p < (damping + 1) * sum
  near : d ≤ p + 1 ∧ p ≤ d + 1
  positive : 0 < damping + product * (n + 1)
  divided : d * (damping + product * (n + 1)) ≤ (damped + sum + product * n) * p

namespace LastStep

variable {n sum p d product damped damping : Int}

/-- A damping that is a part of the value, rounded down. -/
theorem of_damping {c precision : Int} (factor : 0 ≤ c) (scale : 0 < precision) (present : 0 < sum)
    (nonneg : 0 ≤ p) (near : d ≤ p + 1 ∧ p ≤ d + 1)
    (positive : 0 < (c * p).fdiv precision + product * (n + 1))
    (divided : d * ((c * p).fdiv precision + product * (n + 1)) ≤
      ((c * sum).fdiv precision + sum + product * n) * p) :
    LastStep n sum p d product ((c * sum).fdiv precision) ((c * p).fdiv precision) where
  present := present
  unsigned := Int.fdiv_nonneg (mul_nonneg factor present.le) scale.le
  raised above := fdiv_le_fdiv scale (mul_le_mul_of_nonneg_left above factor)
  scaled := by
    have low := mul_le_mul_of_nonneg_right
      ((le_fdiv_iff scale).mp (le_refl ((c * sum).fdiv precision))) nonneg
    have high := mul_lt_mul_of_pos_right
      ((fdiv_lt_iff scale).mp (lt_add_one ((c * p).fdiv precision))) present
    apply lt_of_mul_lt_mul_right _ scale.le
    linarith
  near := near
  positive := positive
  divided := divided

/-- What the damping leaves of the weighted sum in a step that starts above the sum. -/
theorem two_mul_undamped_le (last : LastStep n sum p d product damped damping)
    (above : sum + 2 ≤ p) : 2 * (damped * p - (p - 1) * damping) ≤ sum := by
  have raised := last.raised (by omega)
  have present := last.present
  rcases le_or_gt sum (2 * damping) with large | small
  · have rest := mul_nonneg (last.unsigned.trans raised) (show 0 ≤ p - 2 - sum by omega)
    linarith [last.scaled]
  · rcases raised.eq_or_lt with rfl | grown
    · linarith
    · have := mul_le_mul_of_nonneg_right (Int.add_one_le_iff.mpr grown) (show 0 ≤ p by omega)
      linarith

/-- The last step ends above a ceiling only if its term is less than the rounded one. -/
theorem le_of_ceiling {xp : List Int} {v : Int}
    (last : LastStep xp.length (total xp) p d product damped damping) (positive : ∀ x ∈ xp, 0 < x)
    (term : roundedTerm xp p ≤ product) (above : total xp ≤ v) (ceiling : Ceiling xp v) : d ≤ v := by
  by_contra passed
  have present := last.present
  have near := last.near
  have raised := last.raised (by omega)
  have few := length_le_total positive
  have reached {e : Int} (below : e ≤ d) :
      e * (damping + product * (xp.length + 1)) ≤ (damped + total xp + product * xp.length) * p :=
    (mul_le_mul_of_nonneg_right below last.positive.le).trans last.divided
  obtain level | next | later : p = v ∨ p = v + 1 ∨ v + 2 ≤ p := by omega
  · have bound := reached (show v + 1 ≤ d by omega)
    have scaled := mul_le_mul_of_nonneg_right term (show 0 ≤ v + xp.length + 1 by omega)
    have damped_le := mul_le_mul_of_nonneg_right raised (show 0 ≤ v by omega)
    rw [level] at bound scaled
    linarith [ceiling.level, last.unsigned]
  · have bound := reached (show p ≤ d by omega)
    rw [mul_comm p] at bound
    have cancelled := le_of_mul_le_mul_right bound (show 0 < p by omega)
    rw [next] at term
    linarith [ceiling.next]
  · have bound := reached (show p - 1 ≤ d by omega)
    have least := (roundedTerm_mono positive (show 0 ≤ v + 2 by omega) later).trans term
    have grown := (roundedTerm_mono positive (show 0 ≤ v + 1 by omega)
      (show v + 1 ≤ v + 2 by omega)).trans least
    have scaled := mul_le_mul_of_nonneg_right least (show 0 ≤ v + 1 - (xp.length : Int) by omega)
    -- behind `v + 2` the term makes up for each further unit
    have farther := mul_le_mul_of_nonneg_right (ceiling.next.le.trans grown)
      (show 0 ≤ p - (v + 2) by omega)
    linarith [ceiling.later, last.two_mul_undamped_le (by omega)]

end LastStep

section
variable {curve : Curve} {xp : List Int} {d : Int}

theorem exists_lastStep (admissible : curve.Admissible xp.length) (unsigned : ∀ x ∈ xp, 0 ≤ x)
    (present : 0 < total xp) (computed : curve.invariant xp = .ok d) :
    ∃ p product damped damping, curve.productTerm xp.length p xp = .ok product ∧
      LastStep xp.length (total xp) p d product damped damping := by
  have precision : (0 : Int) < curve.precision := admissible.precision
  have factor : 0 ≤ curve.amp * xp.length - curve.precision := sub_nonneg.mpr admissible.amp
  have count : (0 : Int) ≤ xp.length := Int.natCast_nonneg _
  rw [invariant, if_neg present.ne'] at computed
  obtain ⟨p, nonneg, step, close⟩ := Newton.settle_ends (0 ≤ ·)
    (fun _ _ start step => invariantStep_nonneg admissible unsigned present.le start step) present.le
    computed
  obtain ⟨product, damping, multiplied, rfl, divisible, value⟩ := invariantStep_eq_ok step
  have positive : 0 < ((curve.amp * xp.length - curve.precision) * p).fdiv curve.precision +
      product * (xp.length + 1) := by
    have damped := Int.fdiv_nonneg (mul_nonneg factor nonneg) precision.le
    have term := mul_nonneg (curve.productTerm_nonneg count unsigned nonneg multiplied)
      (show 0 ≤ (xp.length : Int) + 1 by omega)
    omega
  have weighted : (curve.amp * xp.length * total xp).fdiv curve.precision =
      ((curve.amp * xp.length - curve.precision) * total xp).fdiv curve.precision + total xp := by
    rw [damping_eq_sub precision.ne', sub_add_cancel]
  rw [weighted] at value
  exact ⟨p, product, _, _, multiplied, .of_damping factor precision present nonneg
    (near_of_withinOne close) positive ((le_fdiv_iff positive).mp value.le)⟩

theorem le_of_ceiling (plain : curve.offset = false) (admissible : curve.Admissible xp.length)
    (present : xp ≠ []) (positive : ∀ x ∈ xp, 0 < x) {v : Int} (above : total xp ≤ v)
    (ceiling : Ceiling xp v) (computed : curve.invariant xp = .ok d) : d ≤ v := by
  obtain ⟨p, product, damped, damping, multiplied, last⟩ :=
    exists_lastStep admissible (fun x member => (positive x member).le) (total_pos present positive)
      computed
  rw [productTerm_eq_rounded plain positive] at multiplied
  exact last.le_of_ceiling positive (Except.ok.inj multiplied).le above ceiling

/-- The equation allows the value one for balances of at least one. -/
theorem invariant_pos (admissible : curve.Admissible xp.length) (several : 2 ≤ xp.length)
    (positive : ∀ x ∈ xp, 0 < x) (computed : curve.invariant xp = .ok d) : 0 < d := by
  have unsigned : ∀ x ∈ xp, 0 ≤ x := fun x member => (positive x member).le
  have sum : (2 : Int) ≤ total xp := le_trans (by exact_mod_cast several) (length_le_total positive)
  have divisors : ∀ x ∈ xp, 0 < curve.divisor xp.length x := fun x member => by
    have product := mul_pos (positive x member) (show (0 : Int) < xp.length by omega)
    unfold divisor
    split <;> omega
  have sound := sound_of_divisors admissible divisors
  have level : (curve.equation xp).level 1 ≤ (curve.equation xp).leverage := by
    have share : 1 / (curve.equation xp).divisor ≤ 1 := by
      have whole : (1 : ℚ) ≤ (curve.equation xp).divisor := by
        have := sound.divisor
        rw [equation_divisor] at this ⊢
        exact_mod_cast this
      exact div_le_one_of_le₀ whole sound.divisor.le
    unfold Equation.level
    rw [one_pow]
    linarith
  have weighted : (curve.equation xp).leverage ≤ curve.weighted xp := by
    have precision : (0 : Int) < curve.precision := admissible.precision
    have rounded := div_lt_cast_fdiv_add_one (a := curve.amp * xp.length * total xp) precision
    have twice := mul_le_mul_of_nonneg_left (show (2 : ℚ) ≤ total xp by exact_mod_cast sum)
      (zero_le_one.trans sound.leverage)
    have same : ((curve.amp * xp.length * total xp : Int) : ℚ) / curve.precision =
        (curve.equation xp).leverage * total xp := by
      rw [equation_leverage]
      push_cast
      ring
    rw [same] at rounded
    unfold Curve.weighted
    linarith [sound.leverage]
  have allowed := le_invariant admissible unsigned (show total xp ≠ 0 by omega)
    (show (0 : Int) ≤ 1 by decide) (by exact_mod_cast level.trans weighted) computed
  omega

end

end Curve
end Stable

namespace SyncSwap

theorem pairTerm_nonneg {x0 x1 p : Int} (unsigned0 : 0 ≤ x0) (unsigned1 : 0 ≤ x1) (nonneg : 0 ≤ p) :
    0 ≤ (((p * p).fdiv x0 * p).fdiv x1).fdiv 4 := by
  have first : 0 ≤ (p * p).fdiv x0 := Int.fdiv_nonneg (mul_self_nonneg p) unsigned0
  have second : 0 ≤ ((p * p).fdiv x0 * p).fdiv x1 :=
    Int.fdiv_nonneg (mul_nonneg first nonneg) unsigned1
  exact Int.fdiv_nonneg second (by decide)

/-- Two divisions by balances and one by four lose no more than divisions by twice the balances. -/
theorem pairTerm_bounds {x0 x1 p : Int} (positive0 : 0 < x0) (positive1 : 0 < x1) (nonneg : 0 ≤ p) :
    (p * p).fdiv (x0 * 2) * p < ((((p * p).fdiv x0 * p).fdiv x1).fdiv 4 + 1) * (x1 * 2) := by
  have doubled : 2 * (p * p).fdiv (x0 * 2) ≤ (p * p).fdiv x0 := by
    rw [le_fdiv_iff positive0]
    linarith [(le_fdiv_iff (show 0 < x0 * 2 by omega)).mp (le_refl ((p * p).fdiv (x0 * 2)))]
  have first := mul_le_mul_of_nonneg_right doubled nonneg
  have second := (fdiv_lt_iff positive1).mp (lt_add_one (((p * p).fdiv x0 * p).fdiv x1))
  have quarter := (fdiv_lt_iff (show (0 : Int) < 4 by decide)).mp
    (lt_add_one ((((p * p).fdiv x0 * p).fdiv x1).fdiv 4))
  have last := mul_le_mul_of_nonneg_right (Int.add_one_le_iff.mpr quarter) positive1.le
  linarith

theorem invariant_le_add {a x0 x1 d : Int} (amplified : 1 ≤ a) (positive0 : 0 < x0)
    (positive1 : 0 < x1) (computed : SyncSwap.invariant a x0 x1 = .ok d) : d ≤ x0 + x1 := by
  have sum : 0 < x0 + x1 := by omega
  have factor : 0 ≤ a * 2 - 1 := by omega
  unfold SyncSwap.invariant at computed
  dsimp only at computed
  rw [if_neg sum.ne'] at computed
  obtain ⟨p, -, step, close⟩ := Newton.settle_visits computed
  have near := near_of_withinOne close
  rcases lt_or_ge p (x0 + x1) with below | above
  · omega
  · have nonneg : 0 ≤ p := by omega
    simp only [invariantStep, Priced.bind_eq_ok, Priced.quotient_eq_ok] at step
    obtain ⟨_, ⟨-, rfl⟩, _, ⟨-, rfl⟩, divisible, value⟩ := step
    have product := pairTerm_nonneg positive0.le positive1.le nonneg
    have damping := mul_nonneg factor nonneg
    have divisor : 0 < (a * 2 - 1) * p + (((p * p).fdiv x0 * p).fdiv x1).fdiv 4 * (2 + 1) := by
      omega
    have divided : d * ((a * 2 - 1) * p + (((p * p).fdiv x0 * p).fdiv x1).fdiv 4 * (2 + 1)) ≤
        ((a * 2 - 1) * (x0 + x1) + (x0 + x1) + (((p * p).fdiv x0 * p).fdiv x1).fdiv 4 * 2) * p := by
      linarith [(le_fdiv_iff divisor).mp value.ge]
    have whole : total [x0, x1] = x0 + x1 := by simp [total]
    have last : Stable.Curve.LastStep [x0, x1].length (x0 + x1) p d
        ((((p * p).fdiv x0 * p).fdiv x1).fdiv 4) ((a * 2 - 1) * (x0 + x1)) ((a * 2 - 1) * p) := {
      present := sum
      unsigned := mul_nonneg factor sum.le
      raised := fun risen => mul_le_mul_of_nonneg_left risen factor
      scaled := by linarith
      near := near
      positive := divisor
      divided := divided }
    have term : Stable.Curve.roundedTerm [x0, x1] p ≤ (((p * p).fdiv x0 * p).fdiv x1).fdiv 4 :=
      Int.lt_add_one_iff.mp ((fdiv_lt_iff (show 0 < x1 * 2 by omega)).mpr
        (pairTerm_bounds positive0 positive1 nonneg))
    rw [← whole] at last ⊢
    have positive : ∀ x ∈ [x0, x1], 0 < x := by simp [positive0, positive1]
    exact Stable.Curve.LastStep.le_of_ceiling last positive term le_rfl
      (Stable.Curve.Ceiling.of_pair positive0 positive1)

end SyncSwap

/-- What an invariant `d` of the balances `xp` has to do with their sum. -/
structure BoundedBySum (xp : List Int) (d : Int) : Prop where
  positive : 0 < d
  /-- It is at most the sum for two balances, for three others than these and for four, for equal ones,
  and for any number of them if the sum leaves room. -/
  within : xp.length = 2 ∨ (xp.length = 3 ∧ xp ≠ [2, 1, 1]) ∨ xp.length = 4 ∨
    (∃ m, xp = List.replicate xp.length m) ∨ roundingRoom xp.length ≤ total xp → d ≤ total xp
  /-- It is at most any value that the rounded terms show to be a ceiling. -/
  ceiling : ∀ v, total xp ≤ v → Stable.Curve.Ceiling xp v → d ≤ v
  /-- It never exceeds the sum by more than the roundings can add. -/
  near : (d : ℚ) < total xp + roundingExcess xp.length + 1

namespace BoundedBySum

section
open Stable (Curve)
open Stable.Curve

variable {curve : Curve} {xp : List Int} {d : Int}

/-- Room for the roundings suffices for any number of balances. -/
theorem ceiling_of_room (several : 2 ≤ xp.length) (positive : ∀ x ∈ xp, 0 < x)
    (enough : roundingRoom xp.length ≤ total xp) : Ceiling xp (total xp) := by
  obtain two | three | four | many :
    xp.length = 2 ∨ xp.length = 3 ∨ xp.length = 4 ∨ 5 ≤ xp.length := by omega
  · exact .of_two positive two
  · apply Ceiling.of_three positive three
    rintro rfl
    norm_num [roundingRoom, splitRoom, Finset.sum_range_succ, total] at enough
  · exact .of_four positive four
  · exact .of_room positive several enough (Ceiling.wide_of_room many enough)

theorem eq_total_of_replicate (plain : curve.offset = false) (admissible : curve.Admissible xp.length)
    (present : xp ≠ []) (positive : ∀ x ∈ xp, 0 < x) (computed : curve.invariant xp = .ok d)
    {m : Int} (same : xp = List.replicate xp.length m) : d = total xp := by
  have count : 0 < xp.length := List.length_pos_iff.mpr present
  have single : 0 < m := by
    apply positive
    rw [same]
    exact List.mem_replicate.mpr ⟨count.ne', rfl⟩
  have precision : 0 < curve.precision := admissible.precision
  have amp : 0 ≤ curve.amp :=
    nonneg_of_mul_nonneg_left (precision.le.trans admissible.amp) (by exact_mod_cast count)
  rw [same, invariant_replicate plain amp precision single] at computed
  rw [same, total_replicate]
  exact (Except.ok.inj computed).symm

theorem of_curve (plain : curve.offset = false) (admissible : curve.Admissible xp.length)
    (several : 2 ≤ xp.length) (positive : ∀ x ∈ xp, 0 < x) (computed : curve.invariant xp = .ok d) :
    BoundedBySum xp d := by
  have present : xp ≠ [] := List.ne_nil_of_length_pos (by omega)
  have below {v : Int} (above : total xp ≤ v) (ceiling : Ceiling xp v) : d ≤ v :=
    le_of_ceiling plain admissible present positive above ceiling computed
  constructor
  · exact invariant_pos admissible several positive computed
  · rintro (two | ⟨three, other⟩ | four | ⟨m, same⟩ | enough)
    · exact below le_rfl (.of_two positive two)
    · exact below le_rfl (.of_three positive three other)
    · exact below le_rfl (.of_four positive four)
    · exact (eq_total_of_replicate plain admissible present positive computed same).le
    · exact below le_rfl (ceiling_of_room several positive enough)
  · intro v above ceiling
    exact below above ceiling
  · have nonneg : 0 ≤ roundingExcess xp.length :=
      (Nat.cast_nonneg _).trans (natCast_le_roundingExcess (List.length_pos_iff.mpr present))
    have far := Int.le_ceil ((total xp : ℚ) + roundingExcess xp.length)
    have above : (total xp : ℚ) ≤ ⌈(total xp : ℚ) + roundingExcess xp.length⌉ := by linarith
    have reached := below (by exact_mod_cast above) (.of_excess positive several far)
    calc
      (d : ℚ) ≤ ⌈(total xp : ℚ) + roundingExcess xp.length⌉ := by exact_mod_cast reached
      _ < total xp + roundingExcess xp.length + 1 := Int.ceil_lt_add_one _

end

end BoundedBySum

/-- The invariant of positive balances is positive, and it is bounded by their sum. -/
theorem invariant_within_sum :
    (∀ (curve : Stable.Curve) (xp : List Int) (d : Int), curve.offset = false →
      curve.Admissible xp.length → 2 ≤ xp.length → (∀ x ∈ xp, 0 < x) → curve.invariant xp = .ok d →
      BoundedBySum xp d) ∧
    (∀ (amp : Int) (balances : List Int) (d : Int), Composable.ampUnit ≤ amp * balances.length →
      2 ≤ balances.length → (∀ x ∈ balances, 0 < x) → Composable.invariant amp balances = .ok d →
      BoundedBySum balances d) ∧
    ∀ a x0 x1 d : Int, 1 ≤ a → 0 < x0 → 0 < x1 → SyncSwap.invariant a x0 x1 = .ok d →
      d ≤ x0 + x1 := by
  refine ⟨fun _ _ _ => .of_curve, ?_, ?_⟩
  · intro amp balances d amplified several positive computed
    have plain : (Composable.curve amp).offset = false := rfl
    exact .of_curve plain
      ⟨show (1 : Int) ≤ Composable.ampUnit by decide, amplified⟩ several positive
      (Composable.curve_invariant_of_invariant computed)
  · intro a x0 x1 d amplified positive0 positive1 computed
    exact SyncSwap.invariant_le_add amplified positive0 positive1 computed

/-- Five balances whose sum leaves room and five whose sum the terms show to be a ceiling, the three
tiny balances that the invariant exceeds, a tiny composable pool and a two token pool. -/
theorem uneven_balances_within_sum :
    (⟨2000, 1, false⟩ : Stable.Curve).Admissible 5 ∧
      (⟨2000, 1, false⟩ : Stable.Curve).invariant
        [7 * 10 ^ 18, 2 * 10 ^ 18, 10 ^ 18, 5 * 10 ^ 17, 3 * 10 ^ 17] = .ok 10777201438888447388 ∧
      roundingRoom 5 ≤
        total [7 * 10 ^ 18, 2 * 10 ^ 18, 10 ^ 18, 5 * 10 ^ 17, 3 * 10 ^ 17] ∧
      (10777201438888447388 : Int) ≤
        total [7 * 10 ^ 18, 2 * 10 ^ 18, 10 ^ 18, 5 * 10 ^ 17, 3 * 10 ^ 17] ∧
      (⟨34, 100, false⟩ : Stable.Curve).invariant [16, 1, 1, 1, 1] = .ok 12 ∧
      Stable.Curve.Ceiling [16, 1, 1, 1, 1] 20 ∧ (12 : Int) ≤ 20 ∧
      (⟨34, 100, false⟩ : Stable.Curve).invariant [2, 1, 1] = .ok 5 ∧
      (5 : ℚ) < total [2, 1, 1] + roundingExcess 3 + 1 ∧
      Composable.invariant 1000 [3, 1] = .ok 4 ∧ (4 : Int) ≤ total [3, 1] ∧
      SyncSwap.invariant 1000 (3 * 10 ^ 18) (10 ^ 18) = .ok 3999334331614366873 ∧
      (3999334331614366873 : Int) ≤ 3 * 10 ^ 18 + 10 ^ 18 := by
  have admissible : (⟨2000, 1, false⟩ : Stable.Curve).Admissible 5 := ⟨by decide, by decide⟩
  have five : (⟨2000, 1, false⟩ : Stable.Curve).invariant
      [7 * 10 ^ 18, 2 * 10 ^ 18, 10 ^ 18, 5 * 10 ^ 17, 3 * 10 ^ 17] =
        .ok 10777201438888447388 := by decide +kernel
  have enough : roundingRoom 5 ≤
      total [7 * 10 ^ 18, 2 * 10 ^ 18, 10 ^ 18, 5 * 10 ^ 17, 3 * 10 ^ 17] := by
    norm_num [roundingRoom, splitRoom, Finset.sum_range_succ, total]
  have small : (⟨34, 100, false⟩ : Stable.Curve).invariant [16, 1, 1, 1, 1] = .ok 12 := by
    decide +kernel
  have ceiling : Stable.Curve.Ceiling [16, 1, 1, 1, 1] 20 := by decide
  have tiny : (⟨34, 100, false⟩ : Stable.Curve).invariant [2, 1, 1] = .ok 5 := by decide +kernel
  have two : Composable.invariant 1000 [3, 1] = .ok 4 := by decide +kernel
  have pair : SyncSwap.invariant 1000 (3 * 10 ^ 18) (10 ^ 18) = .ok 3999334331614366873 := by
    decide +kernel
  exact ⟨admissible, five, enough,
    (invariant_within_sum.1 _ _ _ rfl admissible (by decide) (by decide) five).within
      (.inr (.inr (.inr (.inr enough)))),
    small, ceiling,
    (invariant_within_sum.1 _ _ _ rfl ⟨by decide, by decide⟩ (by decide) (by decide) small).ceiling
      20 (by decide) ceiling,
    tiny,
    (invariant_within_sum.1 _ _ _ rfl ⟨by decide, by decide⟩ (by decide) (by decide) tiny).near,
    two,
    (invariant_within_sum.2.1 _ _ _ (by decide) (by decide) (by decide) two).within (.inl rfl),
    pair, invariant_within_sum.2.2 _ _ _ _ (by decide) (by decide) (by decide) pair⟩

/-- For a tiny sum the three roundings of the product term lift the invariant above the sum. -/
theorem tiny_sum_exceeded :
    ¬ ∀ (curve : Stable.Curve) (xp : List Int) (d : Int), curve.offset = false →
      curve.Admissible xp.length → 2 ≤ xp.length → (∀ x ∈ xp, 0 < x) → curve.invariant xp = .ok d →
      0 < d ∧ d ≤ total xp := by
  intro within
  have computed : (⟨34, 100, false⟩ : Stable.Curve).invariant [2, 1, 1] = .ok 5 := by decide +kernel
  have bound := within ⟨34, 100, false⟩ [2, 1, 1] 5 rfl ⟨by decide, by decide⟩ (by decide) (by decide)
    computed
  exact absurd bound.2 (by decide)

/-- Two lists of five balances are exceeded as well. -/
example : (⟨2, 10, false⟩ : Stable.Curve).invariant [2, 1, 1, 1, 1] = .ok 7 ∧
    (⟨4, 10, false⟩ : Stable.Curve).invariant [2, 2, 1, 1, 1] = .ok 8 := by
  decide +kernel

end Amm
