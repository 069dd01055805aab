import Amm.Proofs.Stable.Retention
import Mathlib.Data.List.GetD

/-!
What it costs the invariant of a stable pool that one balance is short. Each missing unit is worth
something in the equation, so an invariant that the equation still allows without it is lower by that
much. Balances that are a part of other ones allow the same part of the invariant.
-/

namespace Amm
namespace Stable
namespace Curve

variable {curve : Curve} {xp xp' : List Int} {i : Nat} {d z : Int} {e loss ratio : ℚ}

/-- What one unit of a balance is worth in the equation at an invariant: without it the right side is
lower by the leverage, and the left side higher by at least the rest. -/
def worth (curve : Curve) (xp : List Int) (i : Nat) (e : ℚ) : ℚ :=
  (curve.equation xp).leverage + e ^ (xp.length + 1) / (curve.equation xp).divisor *
    (xp.length / (curve.divisor xp.length (xp.getD i 0) : Int))

theorem divisors_set (divisor : Int → Int) (bound : i < xp.length) :
    ((xp.set i z).map divisor).prod * divisor xp[i] = (xp.map divisor).prod * divisor z := by
  have short := List.CommMonoid.mul_prod_eraseIdx (l := (xp.set i z).map divisor) (i := i)
    (by simpa using bound)
  have whole := List.CommMonoid.mul_prod_eraseIdx (l := xp.map divisor) (i := i)
    (by simpa using bound)
  rw [List.eraseIdx_map, List.getElem_map] at short whole
  rw [List.eraseIdx_set_eq, List.getElem_set_self] at short
  rw [← short, ← whole]
  ring

theorem total_set (bound : i < xp.length) : total (xp.set i z) = total xp - (xp[i] - z) := by
  rw [total_eq_add bound, total_eq_add (show i < (xp.set i z).length by simpa using bound),
    List.eraseIdx_set_eq, List.getElem_set_self]
  ring

/-- A balance that is short raises the left side of the equation. -/
theorem level_add_le_level_set (sound : (curve.equation xp).Sound) (bound : i < xp.length)
    (positive : 0 < curve.divisor xp.length z) (short : z ≤ xp[i]) (nonneg : 0 ≤ e) :
    (curve.equation xp).level e + (xp[i] - z) * (e ^ (xp.length + 1) / (curve.equation xp).divisor *
        (xp.length / (curve.divisor xp.length xp[i] : Int))) ≤
      (curve.equation (xp.set i z)).level e := by
  have least : (0 : ℚ) < curve.divisor xp.length z := by exact_mod_cast positive
  have order : (curve.divisor xp.length z : ℚ) ≤ curve.divisor xp.length xp[i] := by
    exact_mod_cast curve.divisor_mono (Int.natCast_nonneg _) short
  have greatest := least.trans_le order
  have gap : (curve.divisor xp.length xp[i] : ℚ) - curve.divisor xp.length z =
      (xp[i] - z) * xp.length := by
    have whole : curve.divisor xp.length xp[i] - curve.divisor xp.length z =
        (xp[i] - z) * xp.length := by
      unfold divisor
      split <;> ring
    exact_mod_cast whole
  have divisor : (curve.equation (xp.set i z)).divisor =
      (curve.equation xp).divisor * (curve.divisor xp.length z / curve.divisor xp.length xp[i]) := by
    have moved := divisors_set (z := z) (curve.divisor xp.length) bound
    rw [equation_divisor, equation_divisor, List.length_set, mul_div_assoc', eq_div_iff greatest.ne']
    exact_mod_cast moved
  have term : 0 ≤ e ^ (xp.length + 1) / (curve.equation xp).divisor :=
    div_nonneg (pow_nonneg nonneg _) sound.divisor.le
  have raised : 1 + (xp[i] - z) * (xp.length / curve.divisor xp.length xp[i] : ℚ) ≤
      curve.divisor xp.length xp[i] / curve.divisor xp.length z := by
    rw [← mul_div_assoc, ← gap, le_div_iff₀ least]
    field_simp
    linarith [mul_self_nonneg ((curve.divisor xp.length xp[i] : ℚ) - curve.divisor xp.length z)]
  have grown : e ^ (xp.length + 1) / (curve.equation (xp.set i z)).divisor =
      e ^ (xp.length + 1) / (curve.equation xp).divisor *
        (curve.divisor xp.length xp[i] / curve.divisor xp.length z) := by
    rw [divisor, div_mul_eq_div_div, div_div_eq_mul_div, mul_div_assoc]
  have leverage : (curve.equation (xp.set i z)).leverage = (curve.equation xp).leverage := by
    rw [equation_leverage, equation_leverage, List.length_set]
  calc
    _ = e ^ (xp.length + 1) / (curve.equation xp).divisor *
          (1 + (xp[i] - z) * (xp.length / curve.divisor xp.length xp[i] : ℚ)) +
          ((curve.equation xp).leverage - 1) * e := by
      rw [Equation.level, equation_count]
      ring
    _ ≤ e ^ (xp.length + 1) / (curve.equation xp).divisor *
          (curve.divisor xp.length xp[i] / curve.divisor xp.length z) +
          ((curve.equation xp).leverage - 1) * e :=
      add_le_add_left (mul_le_mul_of_nonneg_left raised term) _
    _ = _ := by rw [Equation.level, equation_count, List.length_set, leverage, grown]

/-- An invariant that the equation allows for balances of which one is short stands below the invariant
of the whole balances by what the missing units are worth, up to the loss that it is allowed with. -/
theorem shortage_lt (admissible : curve.Admissible xp.length) (unsigned : ∀ x ∈ xp, 0 ≤ x)
    (present : total xp ≠ 0) (computed : curve.invariant xp = .ok d) (bound : i < xp.length)
    (positive : 0 < curve.divisor xp.length z) (short : z ≤ xp[i]) (nonneg : 0 ≤ e)
    (within : (curve.equation (xp.set i z)).level e ≤
      (curve.equation xp).leverage * total (xp.set i z) + loss) :
    (xp[i] - z) * curve.worth xp i e < 1 + loss + (d + 1 - e) * (curve.equation xp).slope (d + 1) := by
  obtain ⟨_, _, _, settled⟩ := settled_of_invariant admissible unsigned present computed
  have start : (0 : ℚ) ≤ d + 1 := by
    have := invariant_nonneg admissible unsigned computed
    exact_mod_cast (show 0 ≤ d + 1 by omega)
  have raised := level_add_le_level_set settled.sound bound positive short nonneg
  have above := weighted_lt_level admissible unsigned present (by exact_mod_cast start) computed
    (lt_add_one d)
  have rounded := leverage_mul_total_lt curve xp admissible.precision
  have tangent := Equation.tangent_le_level settled.sound start nonneg
  rw [total_set bound] at within
  push_cast at within above
  rw [worth, List.getD_eq_getElem _ _ bound]
  linarith

theorem one_le_completionLoss (start : 0 ≤ d) (unsigned : ∀ x ∈ xp, 0 ≤ x) :
    1 ≤ completionLoss d xp i := by
  have lost : ∀ balances : List Int, (∀ x ∈ balances, 0 ≤ x) → ∀ loss : ℚ, 0 ≤ loss →
      0 ≤ drift (· * xp.length) d loss balances := by
    intro balances
    induction balances with
    | nil => exact fun _ loss nonneg => nonneg
    | cons x balances ih =>
        intro others loss nonneg
        refine ih (fun y member => others y (by simp [member])) _ ?_
        have first : (0 : ℚ) ≤ (x * xp.length : Int) := by
          exact_mod_cast mul_nonneg (others x (by simp)) (Int.natCast_nonneg _)
        have invariant : (0 : ℚ) ≤ d := by exact_mod_cast start
        positivity
  have drifted := lost (xp.eraseIdx i) (fun x member => unsigned x (List.mem_of_mem_eraseIdx member))
    0 le_rfl
  have divisor : (0 : ℚ) ≤ (xp.getD i 0 * xp.length : Int) := by
    have entry : 0 ≤ xp.getD i 0 := by
      rw [List.getD_eq_getElem?_getD]
      cases found : xp[i]? with
      | none => exact le_refl 0
      | some x => exact unsigned x (List.mem_of_getElem? found)
    exact_mod_cast mul_nonneg entry (Int.natCast_nonneg _)
  have invariant : (0 : ℚ) ≤ d := by exact_mod_cast start
  rw [completionLoss]
  linarith [mul_nonneg drifted (div_nonneg invariant divisor)]

/-- Balances that are at least those of which one exceeds a solved balance allow the invariant that it
was solved for, up to what the solver has lost. -/
theorem level_le_of_solve_lt {y : Int} (admissible : curve.Admissible xp.length)
    (positive : ∀ x ∈ xp, 0 < x) (bound : i < xp.length) (start : 0 ≤ d)
    (solved : curve.solve xp.length d (xp.eraseIdx i) = .ok y) (above : y < xp[i])
    (below : List.Forall₂ (· ≤ ·) xp xp') :
    (curve.equation xp').level d ≤
      (curve.equation xp').leverage * total xp' + (completionLoss d xp i - 1) := by
  have positive' : ∀ x ∈ xp', 0 < x := le_of_forall₂ below positive
  have allowed := plain_level_lt admissible bound start
    (fun x member => (positive x (List.mem_of_mem_eraseIdx member)).le) solved above
    (positive _ (List.getElem_mem bound))
  have compared := level_le_of_forall₂ (plain_sound admissible positive) below
    (fun x member => by
      rw [plain_divisor]
      exact mul_pos (positive x member) (by omega)) start
  have offset := level_le_plain (below.length_eq ▸ admissible) positive' start
  have leverage : (curve.plain.equation xp).leverage = (curve.equation xp').leverage := by
    rw [equation_leverage, equation_leverage, below.length_eq]
    rfl
  have sums : (total xp : ℚ) ≤ total xp' := by
    rw [total_eq_sum, total_eq_sum]
    exact_mod_cast below.sum_le_sum
  have weight := (plain_sound admissible positive).leverage
  rw [leverage] at allowed weight
  rw [completionLoss, List.getD_eq_getElem _ _ bound]
  linarith [mul_le_mul_of_nonneg_left sums (zero_le_one.trans weight)]

/-- The divisors of balances that are a part of other ones are at least that part of theirs. -/
theorem ratio_pow_mul_divisors_le {n : Int} (unsigned : 0 ≤ ratio) (part : ratio ≤ 1) (count : 0 ≤ n)
    (below : List.Forall₂ (fun x x' : Int => ratio * x ≤ x') xp xp')
    (positive : ∀ x ∈ xp, 0 < curve.divisor n x) :
    ratio ^ xp.length * ((xp.map (curve.divisor n)).prod : Int) ≤
      ((xp'.map (curve.divisor n)).prod : Int) := by
  induction below with
  | nil => simp
  | @cons x x' xp xp' first _ ih =>
      have rest := ih fun y member => positive y (by simp [member])
      have start : (0 : ℚ) < curve.divisor n x := by exact_mod_cast positive x (by simp)
      have others : (0 : ℚ) ≤ ((xp.map (curve.divisor n)).prod : Int) := by
        have product : 0 ≤ (xp.map (curve.divisor n)).prod := List.prod_nonneg fun factor member => by
          obtain ⟨y, held, rfl⟩ := List.mem_map.mp member
          exact (positive y (by simp [held])).le
        exact_mod_cast product
      have kept : ratio * curve.divisor n x ≤ curve.divisor n x' := by
        have tokens : (0 : ℚ) ≤ n := by exact_mod_cast count
        have product := mul_le_mul_of_nonneg_right first tokens
        unfold divisor
        split <;> push_cast <;> linarith
      rw [List.map_cons, List.map_cons, List.prod_cons, List.prod_cons, List.length_cons, pow_succ',
        Int.cast_mul, Int.cast_mul]
      calc ratio * ratio ^ xp.length *
            (curve.divisor n x * ((xp.map (curve.divisor n)).prod : Int) : ℚ)
          = ratio * curve.divisor n x *
              (ratio ^ xp.length * ((xp.map (curve.divisor n)).prod : Int)) := by ring
        _ ≤ curve.divisor n x' * ((xp'.map (curve.divisor n)).prod : Int) :=
            mul_le_mul kept rest (by positivity) ((mul_nonneg unsigned start.le).trans kept)

theorem ratio_mul_total_le (below : List.Forall₂ (fun x x' : Int => ratio * x ≤ x') xp xp') :
    ratio * total xp ≤ total xp' := by
  rw [total_eq_sum, total_eq_sum]
  induction below with
  | nil => simp
  | cons first _ ih =>
      rw [List.sum_cons, List.sum_cons, Int.cast_add, Int.cast_add]
      linarith

/-- Balances that are a part of other ones allow the same part of an invariant that those allow. -/
theorem level_ratio_le (admissible : curve.Admissible xp.length) (sound : (curve.equation xp).Sound)
    (positive : ∀ x ∈ xp, 0 < curve.divisor xp.length x)
    (positive' : ∀ x ∈ xp', 0 < curve.divisor xp'.length x) (unsigned : 0 ≤ ratio)
    (part : ratio ≤ 1) (below : List.Forall₂ (fun x x' : Int => ratio * x ≤ x') xp xp')
    (nonneg : 0 ≤ e) (within : (curve.equation xp).level e ≤ curve.weighted xp) :
    (curve.equation xp').level (ratio * e) ≤ (curve.equation xp).leverage * total xp' := by
  have divisors := ratio_pow_mul_divisors_le unsigned part (Int.natCast_nonneg xp.length) below
    positive
  have divisor' := (sound_of_divisors (below.length_eq ▸ admissible) positive').divisor
  have leverage : (curve.equation xp').leverage = (curve.equation xp).leverage := by
    rw [equation_leverage, equation_leverage, below.length_eq]
  rw [below.length_eq, ← equation_divisor, ← below.length_eq, ← equation_divisor] at divisors
  have term : (ratio * e) ^ (xp.length + 1) / (curve.equation xp').divisor ≤
      ratio * (e ^ (xp.length + 1) / (curve.equation xp).divisor) := by
    rw [← mul_div_assoc, div_le_div_iff₀ divisor' sound.divisor, mul_pow, pow_succ' ratio]
    calc ratio * ratio ^ xp.length * e ^ (xp.length + 1) * (curve.equation xp).divisor
        = ratio * e ^ (xp.length + 1) * (ratio ^ xp.length * (curve.equation xp).divisor) := by ring
      _ ≤ ratio * e ^ (xp.length + 1) * (curve.equation xp').divisor :=
          mul_le_mul_of_nonneg_left divisors (mul_nonneg unsigned (pow_nonneg nonneg _))
  have right : (curve.weighted xp : ℚ) ≤ (curve.equation xp).leverage * total xp := by
    have floor := cast_fdiv_le (a := curve.amp * xp.length * total xp)
      (show 0 < curve.precision from admissible.precision)
    rw [equation_leverage, weighted, div_mul_eq_mul_div]
    exact_mod_cast floor
  calc (curve.equation xp').level (ratio * e)
      ≤ ratio * (curve.equation xp).level e := by
        unfold Equation.level
        rw [equation_count, equation_count, leverage, ← below.length_eq]
        linarith
    _ ≤ ratio * ((curve.equation xp).leverage * total xp) :=
        mul_le_mul_of_nonneg_left (within.trans right) unsigned
    _ = (curve.equation xp).leverage * (ratio * total xp) := by ring
    _ ≤ (curve.equation xp).leverage * total xp' :=
        mul_le_mul_of_nonneg_left (ratio_mul_total_le below) (zero_le_one.trans sound.leverage)

theorem divisor_pos {n x : Int} (count : 0 < n) (positive : 0 < x) : 0 < curve.divisor n x := by
  have product := mul_pos positive count
  unfold divisor
  split <;> omega

theorem divisors_pos_of_forall₂ {n : Int} (count : 0 ≤ n) (below : List.Forall₂ (· ≤ ·) xp xp')
    (positive : ∀ x ∈ xp, 0 < curve.divisor n x) : ∀ x ∈ xp', 0 < curve.divisor n x := by
  induction below with
  | nil => simp
  | @cons x x' xp xp' first _ ih =>
      obtain ⟨start, others⟩ := List.forall_mem_cons.mp positive
      exact List.forall_mem_cons.mpr
        ⟨start.trans_le (curve.divisor_mono count first), ih others⟩

theorem forall_mem_set {Holds : Int → Prop} (bound : i < xp.length) (entry : Holds z)
    (others : ∀ x ∈ xp.eraseIdx i, Holds x) : ∀ x ∈ xp.set i z, Holds x := by
  intro x member
  have split := (List.getElem_cons_eraseIdx_perm
    (show i < (xp.set i z).length by simpa using bound)).mem_iff.mpr member
  rw [List.getElem_set_self, List.eraseIdx_set_eq] at split
  rcases List.mem_cons.mp split with rfl | other
  · exact entry
  · exact others x other

theorem total_ne_zero (computed : curve.invariant xp = .ok d) (nonzero : d ≠ 0) : total xp ≠ 0 := by
  intro empty
  rw [invariant, if_pos empty] at computed
  exact nonzero (Except.ok.inj computed).symm

/-- Balances with an invariant of which a part is left. What is left of one of them exceeds the balance
that completes the others to that part, or the same part of it. -/
structure Exceeds (curve : Curve) (xp : List Int) (i : Nat) (d left z : Int) : Prop where
  bound : i < xp.length
  unsigned : ∀ x ∈ xp, 0 ≤ x
  found : curve.invariant xp = .ok d
  positive : 0 < d
  nonneg : 0 ≤ left
  below : left ≤ d
  solved : ∃ y, curve.solve xp.length left (xp.eraseIdx i) = .ok y ∧
    (y < z ∨ (xp.getD i 0 * left).fdiv d < z)

namespace Exceeds

variable {left : Int} (exceeds : curve.Exceeds xp i d left z)
include exceeds

theorem mono {z' : Int} (above : z ≤ z') : curve.Exceeds xp i d left z' := by
  obtain ⟨y, solved, more⟩ := exceeds.solved
  exact { exceeds with
    solved := ⟨y, solved, more.imp (fun first => first.trans_le above) fun part => part.trans_le above⟩ }

theorem pos (admissible : curve.Admissible xp.length) : 0 < z := by
  have count : (0 : Int) ≤ xp.length := Int.natCast_nonneg _
  obtain ⟨y, solved, above | above⟩ := exceeds.solved
  · exact (solve_nonneg admissible count exceeds.nonneg
      (fun x member => exceeds.unsigned x (List.mem_of_mem_eraseIdx member)) solved).trans_lt above
  · refine (Int.fdiv_nonneg (mul_nonneg ?_ exceeds.nonneg) exceeds.positive.le).trans_lt above
    rw [List.getD_eq_getElem _ _ exceeds.bound]
    exact exceeds.unsigned _ (List.getElem_mem _)

/-- Where it exceeds its own part, all balances are at least that part. -/
theorem ratio_le (above : (xp.getD i 0 * left).fdiv d < z)
    (below : List.Forall₂ (· ≤ ·) (xp.set i z) xp') :
    List.Forall₂ (fun x x' : Int => (left / d : ℚ) * x ≤ x') xp xp' := by
  have whole : (0 : ℚ) < d := by exact_mod_cast exceeds.positive
  have part : (left / d : ℚ) ≤ 1 := by
    rw [div_le_one whole]
    exact_mod_cast exceeds.below
  rw [List.forall₂_iff_get] at below ⊢
  obtain ⟨count, each⟩ := below
  rw [List.length_set] at count
  refine ⟨count, fun j first second => ?_⟩
  have entry := each j (by simpa using first) second
  simp only [List.get_eq_getElem, List.getElem_set] at entry ⊢
  split at entry
  · rename_i target
    subst target
    rw [List.getD_eq_getElem _ _ first, fdiv_lt_iff exceeds.positive] at above
    have more : (xp[i] * left : ℚ) < z * d := by exact_mod_cast above
    have order : (z : ℚ) ≤ xp'[i] := by exact_mod_cast entry
    rw [div_mul_eq_mul_div, div_le_iff₀ whole]
    linarith [mul_le_mul_of_nonneg_right order whole.le]
  · have unsigned : (0 : ℚ) ≤ xp[j] := by
      exact_mod_cast exceeds.unsigned _ (List.getElem_mem first)
    have order : (xp[j] : ℚ) ≤ xp'[j] := by exact_mod_cast entry
    linarith [mul_le_mul_of_nonneg_right part unsigned]

/-- The balances with what is left, and all that are not below them, allow what is left of the
invariant, up to rounding. -/
theorem level_le {h : Int} (admissible : curve.Admissible xp.length) (slack : 0 ≤ h)
    (allowed : (curve.equation xp).level ((d - h : Int) : ℚ) ≤ curve.weighted xp)
    (below : List.Forall₂ (· ≤ ·) (xp.set i z) xp') (start : 0 ≤ e) (covered : e ≤ left - h) :
    (curve.equation xp').level e ≤
      (curve.equation xp').leverage * total xp' + (completionLoss left (xp.set i z) i - 1) := by
  have bound := exceeds.bound
  have entry := exceeds.pos admissible
  have length : (xp.set i z).length = xp.length := List.length_set
  have same : xp'.length = xp.length := by rw [← below.length_eq, length]
  have admissible' : curve.Admissible xp'.length := same ▸ admissible
  have present := total_ne_zero exceeds.found exceeds.positive.ne'
  obtain ⟨_, _, _, settled⟩ := settled_of_invariant admissible exceeds.unsigned present exceeds.found
  have divisors' : ∀ x ∈ xp', 0 < curve.divisor xp'.length x := by
    rw [same]
    refine divisors_pos_of_forall₂ (Int.natCast_nonneg _) below
      (forall_mem_set bound (divisor_pos (by omega) entry) fun x member => ?_)
    exact settled.divisors x (List.mem_of_mem_eraseIdx member)
  have sound' := sound_of_divisors admissible' divisors'
  obtain ⟨y, solved, above | above⟩ := exceeds.solved
  · have positive : ∀ x ∈ xp.set i z, 0 < x := forall_mem_set bound entry fun x member =>
      (exceeds.unsigned x (List.mem_of_mem_eraseIdx member)).lt_of_ne
        (solve_present admissible (Int.natCast_nonneg _) exceeds.nonneg
          (fun x member => exceeds.unsigned x (List.mem_of_mem_eraseIdx member)) solved x member).symm
    have completed := level_le_of_solve_lt (by rw [length]; exact admissible) positive
      (by rw [length]; exact bound) exceeds.nonneg
      (by rw [length, List.eraseIdx_set_eq]; exact solved)
      (by rw [List.getElem_set_self]; exact above) below
    have gap : (0 : ℚ) ≤ h := by exact_mod_cast slack
    exact (Equation.level_mono sound' start (by linarith)).trans completed
  · have whole : (0 : ℚ) < d := by exact_mod_cast exceeds.positive
    have rest : (0 : ℚ) ≤ left := by exact_mod_cast exceeds.nonneg
    have gap : (0 : ℚ) ≤ h := by exact_mod_cast slack
    have ratio : (0 : ℚ) ≤ left / d := div_nonneg rest whole.le
    have part : (left / d : ℚ) ≤ 1 := by
      rw [div_le_one whole]
      exact_mod_cast exceeds.below
    have parts := exceeds.ratio_le above below
    have scaled := level_ratio_le admissible settled.sound settled.divisors divisors' ratio part parts
      (show (0 : ℚ) ≤ (d - h : Int) by
        have : (left : ℚ) ≤ d := by exact_mod_cast exceeds.below
        push_cast
        linarith) allowed
    have leverage : (curve.equation xp').leverage = (curve.equation xp).leverage := by
      rw [equation_leverage, equation_leverage, same]
    have lost := one_le_completionLoss (i := i) exceeds.nonneg
      (forall_mem_set bound entry.le fun x member =>
        exceeds.unsigned x (List.mem_of_mem_eraseIdx member))
    have reached : e ≤ left / d * ((d - h : Int) : ℚ) := by
      have kept : (left / d : ℚ) * d = left := div_mul_cancel₀ _ whole.ne'
      have lower := mul_le_mul_of_nonneg_right part gap
      push_cast
      linarith
    rw [leverage]
    linarith [Equation.level_mono sound' start reached]

end Exceeds

end Curve
end Stable
end Amm
