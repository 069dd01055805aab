import Amm.Proofs.Stable.Comparison
import Amm.Proofs.Stable.Root
import Amm.Proofs.Stable.Swap
import Mathlib.Data.List.GetD

/-!
What a withdrawal of one coin pays. The fees reduce the balances to a mix of the whole ones and of their
proportional parts, and what completes a mix is at most the mix of what completes the two. So with nothing
rounded no withdrawal pays less than nothing. The unit that is held back and the rounding of the invariants
can turn a small payout negative, and nothing checks its sign.
-/

namespace Amm
namespace Stable
namespace Holdings

/-- The invariant that is left for the others once shares are burnt. -/
def burntTo (supply shares d : Int) : Int :=
  d - (shares * d).fdiv supply

section
variable {supply shares d : Int}

theorem burntTo_le (issued : 0 < supply) (burnt : 0 ≤ shares) (nonneg : 0 ≤ d) :
    burntTo supply shares d ≤ d := by
  have part := Int.fdiv_nonneg (mul_nonneg burnt nonneg) issued.le
  unfold burntTo
  omega

/-- Burning shares leaves at least the part of the invariant that belongs to the others. -/
theorem mul_sub_le_burntTo (issued : 0 < supply) :
    d * (supply - shares) ≤ burntTo supply shares d * supply := by
  have floor := (le_fdiv_iff issued).mp (le_refl ((shares * d).fdiv supply))
  unfold burntTo
  linarith

theorem burntTo_nonneg (issued : 0 < supply) (covered : shares ≤ supply) (nonneg : 0 ≤ d) :
    0 ≤ burntTo supply shares d := by
  have part := mul_nonneg nonneg (sub_nonneg.mpr covered)
  exact nonneg_of_mul_nonneg_left (part.trans (mul_sub_le_burntTo issued)) issued

end

section
variable {fee d0 d1 y x : Int}

theorem proportional_le (whole : 0 < d0) (below : d1 ≤ d0) (unsigned : 0 ≤ x) :
    (x * d1).fdiv d0 ≤ x := by
  have part := mul_le_mul_of_nonneg_left below unsigned
  rw [fdiv_le_iff whole]
  linarith

/-- A balance that is not the target of a withdrawal is reduced by a part of its distance from the
proportional one. -/
theorem reduced_bounds (rate : IsFee fee) (whole : 0 < d0) (nonneg : 0 ≤ d1) (below : d1 ≤ d0)
    (unsigned : 0 ≤ x) : 0 ≤ reduced fee d0 d1 y false x ∧ reduced fee d0 d1 y false x ≤ x := by
  have ideal : 0 ≤ (x * d1).fdiv d0 := Int.fdiv_nonneg (mul_nonneg unsigned nonneg) whole.le
  have part := proportional_le whole below unsigned
  have charged := share_nonneg rate (sub_nonneg.mpr part)
  have covered := share_le rate (sub_nonneg.mpr part)
  simp only [reduced, Bool.false_eq_true, if_false]
  omega

/-- The target of a withdrawal keeps at least the lower of the balance that is solved for and the
proportional one, beside what is taken from it. -/
theorem lt_left_of_reduced {rest : Int} (rate : IsFee fee) (solved : y ≤ rest) :
    y < x - (reduced fee d0 d1 y true x - rest - 1) ∨
      (x * d1).fdiv d0 < x - (reduced fee d0 d1 y true x - rest - 1) := by
  simp only [reduced, if_true]
  rcases le_total 0 ((x * d1).fdiv d0 - y) with gain | loss
  · have charged := share_nonneg rate gain
    exact .inl (by omega)
  · have credited := le_share rate loss
    exact .inr (by omega)

theorem share_le_part (amount fee : Int) : (share amount fee : ℝ) ≤ fee / feeUnit * amount := by
  have floor := cast_fdiv_le (a := fee * amount) feeUnit_pos
  have cast : ((share amount fee : ℚ) : ℝ) ≤ ((fee * amount : Int) / feeUnit : ℚ) := by
    exact_mod_cast floor
  push_cast at cast
  rwa [mul_div_right_comm] at cast

/-- A reduced balance is at least the mix of the whole one and of the proportional one. -/
theorem mix_le_reduced :
    (1 - fee / feeUnit) * x + fee / feeUnit * ((x * d1).fdiv d0 : Int) ≤
      (reduced fee d0 d1 y false x : ℝ) := by
  have charged := share_le_part (x - (x * d1).fdiv d0) fee
  simp only [reduced, Bool.false_eq_true, if_false]
  push_cast at charged ⊢
  linarith

theorem sub_le_target :
    x - fee / feeUnit * ((x * d1).fdiv d0 - y : Int) ≤ (reduced fee d0 d1 y true x : ℝ) := by
  have charged := share_le_part ((x * d1).fdiv d0 - y) fee
  simp only [reduced, if_true]
  push_cast at charged ⊢
  linarith

end

/-- The fee on a balance is at most one half of its distance from the proportional one. -/
theorem two_mul_imbalanceFee_le {swapFee : Int} (rate : IsFee swapFee) (n : Nat) :
    2 * imbalanceFee swapFee n ≤ feeUnit := by
  have count : 2 * (n : Int) ≤ 4 * (((max n 2 : Nat) : Int) - 1) := by omega
  have positive : (0 : Int) < 4 * (((max n 2 : Nat) : Int) - 1) := by omega
  have floor : imbalanceFee swapFee n * (4 * (((max n 2 : Nat) : Int) - 1)) ≤ swapFee * n :=
    (le_fdiv_iff positive).mp le_rfl
  have whole := mul_le_mul rate.2 count (by omega) feeUnit_pos.le
  refine le_of_mul_le_mul_right ?_ positive
  linarith

/-- The part of its distance from the proportional one that a balance is charged. -/
noncomputable def chargePart (holdings : Holdings) : ℝ :=
  holdings.chargeRate / feeUnit

section
variable {holdings : Holdings} {rates : List Int} {now : Time}
  (admissible : holdings.Admissible rates now)
include admissible

theorem chargePart_nonneg : 0 ≤ holdings.chargePart :=
  div_nonneg (by exact_mod_cast (chargeRate_isFee admissible).1) (by exact_mod_cast feeUnit_pos.le)

theorem two_mul_chargePart_le : 2 * holdings.chargePart ≤ 1 := by
  have unit : (0 : ℝ) < feeUnit := by exact_mod_cast feeUnit_pos
  rw [chargePart, ← mul_div_assoc, div_le_one unit]
  exact_mod_cast two_mul_imbalanceFee_le admissible.swapFee holdings.reserves.length

end

/-- What a withdrawal into one coin is priced on: the scaled balances and their invariant, the balance
that completes the others to what is left of it, and the one that completes the reduced others. -/
structure Payout (holdings : Holdings) (shares : Int) (i : Nat) (rates : List Int) (now : Time)
    (paid : Withdrawal) where
  xp : List Int
  d0 : Int
  y : Int
  rest : Int
  balance : Int
  rate : Int
  covered : shares ≤ holdings.supply
  nonzero : d0 ≠ 0
  scale : scaled holdings.reserves rates = .ok xp
  found : (holdings.curve now).invariant xp = .ok d0
  bound : i < xp.length
  balanceAt : xp[i]? = some balance
  rateAt : rates[i]? = some rate
  solved : (holdings.curve now).solve xp.length (burntTo holdings.supply shares d0)
    (xp.eraseIdx i) = .ok y
  completed : (holdings.curve now).solve xp.length (burntTo holdings.supply shares d0)
    ((xp.eraseIdx i).map (reduced holdings.chargeRate d0 (burntTo holdings.supply shares d0) y false)) =
      .ok rest
  amount : paid.amount = ((reduced holdings.chargeRate d0 (burntTo holdings.supply shares d0) y true
    balance - rest - 1) * Fixed.one).fdiv rate
  fee : paid.fee = ((balance - y) * Fixed.one).fdiv rate - paid.amount

variable {holdings next : Holdings} {rates : List Int} {now : Time} {i : Nat} {shares : Int}
  {paid : Withdrawal}

/-- Apart from the target all balances are reduced alike. -/
theorem eraseIdx_mapIdx_reduced (fee d0 d1 y : Int) (xp : List Int) (i : Nat) :
    (xp.mapIdx fun j x => reduced fee d0 d1 y (j = i) x).eraseIdx i =
      (xp.eraseIdx i).map (reduced fee d0 d1 y false) := by
  refine List.ext_getElem (by simp [List.length_eraseIdx]) fun j first second => ?_
  simp only [List.getElem_eraseIdx, List.getElem_mapIdx, List.getElem_map]
  split
  · rw [decide_eq_false (by omega)]
  · rw [decide_eq_false (by omega)]

theorem payout_of_withdrawalFor (succeeds : holdings.withdrawalFor shares i rates now = .ok paid) :
    Nonempty (holdings.Payout shares i rates now paid) := by
  simp only [withdrawalFor, Curve.balanceFor, Priced.bind_eq_ok, Priced.require_eq_ok,
    Priced.entry_eq_ok, Priced.bareQuotient_eq_ok, decide_eq_true_eq, Except.ok.injEq] at succeeds
  obtain ⟨_, -, _, -, _, covered, solver, priced, xp, scale, d0, found, _, nonzero, y,
    ⟨_, bound, solved⟩, rest, ⟨_, -, completed⟩, left, leftAt, balance, balanceAt, rate, rateAt,
    amount, ⟨-, rfl⟩, _, ⟨-, rfl⟩, rfl⟩ := succeeds
  obtain ⟨-, rfl⟩ := solver_eq_ok.mp priced
  rw [List.length_mapIdx, eraseIdx_mapIdx_reduced] at completed
  rw [List.getElem?_mapIdx, balanceAt] at leftAt
  obtain rfl := Option.some.inj leftAt
  exact ⟨xp, d0, y, rest, balance, rate, covered, nonzero, scale, found, bound, balanceAt, rateAt,
    solved, completed, by simp only [decide_true]; rfl, rfl⟩

namespace Payout

variable (payout : holdings.Payout shares i rates now paid)

/-- What is left of the invariant. -/
def left : Int :=
  burntTo holdings.supply shares payout.d0

def others : List Int :=
  payout.xp.eraseIdx i

/-- The part of a balance that is proportional to what is left of the invariant. -/
def ideal (x : Int) : Int :=
  (x * payout.left).fdiv payout.d0

/-- The balance of the target less the fee on its distance from the proportional one. -/
def target : Int :=
  reduced holdings.chargeRate payout.d0 payout.left payout.y true payout.balance

/-- What completes the other balances to what is left of the invariant, each replaced by a value of it,
with nothing rounded. -/
noncomputable def completion (f : Int → Int) : ℝ :=
  exactBalance ((holdings.curve now).amp * payout.xp.length / (holdings.curve now).precision)
    payout.left (payout.others.map f)

/-- What the withdrawal pays on the scale of the balances if the fee and the balance that is left are not
rounded: the target less its fee, less the mix of the exact balances for the whole others and for the
proportional ones. -/
noncomputable def margin : ℝ :=
  payout.balance - holdings.chargePart * (payout.ideal payout.balance - payout.y) -
    ((1 - holdings.chargePart) * payout.completion id +
      holdings.chargePart * payout.completion payout.ideal)

theorem length_eq : (payout.xp.length : Int) = payout.others.length + 1 := by
  have bound := payout.bound
  rw [others, List.length_eraseIdx_of_lt bound]
  omega

theorem rate_pos (admissible : holdings.Admissible rates now) : 0 < payout.rate :=
  admissible.rates payout.rate (List.mem_of_getElem? payout.rateAt)

theorem amount_nonneg_iff (admissible : holdings.Admissible rates now) :
    0 ≤ paid.amount ↔ payout.rest < payout.target := by
  rw [payout.amount, le_fdiv_iff (payout.rate_pos admissible), zero_mul,
    mul_nonneg_iff_of_pos_right Fixed.one_pos]
  change 0 ≤ payout.target - payout.rest - 1 ↔ _
  omega

/-- A withdrawal that pays something and whose target covers the balance that is solved for lowers the
reserve, even if the fee is negative. -/
theorem taken_nonneg (admissible : holdings.Admissible rates now) (pays : 0 ≤ paid.amount)
    (covers : payout.y ≤ payout.balance) : 0 ≤ paid.amount + share paid.fee holdings.adminFee := by
  rcases le_total 0 paid.fee with charged | credited
  · have admin := share_nonneg admissible.adminFee charged
    omega
  · have admin := le_share admissible.adminFee credited
    have whole : 0 ≤ ((payout.balance - payout.y) * Fixed.one).fdiv payout.rate :=
      Int.fdiv_nonneg (mul_nonneg (sub_nonneg.mpr covers) Fixed.one_pos.le)
        (payout.rate_pos admissible).le
    have fee := payout.fee
    omega

section
variable (admissible : holdings.Admissible rates now)
  (unsigned : ∀ reserve ∈ holdings.reserves, 0 ≤ reserve)
include admissible

theorem curve_admissible : (holdings.curve now).Admissible payout.xp.length := by
  rw [scaled_length payout.scale]
  exact admissible.curve

include unsigned

theorem xp_nonneg : ∀ x ∈ payout.xp, 0 ≤ x :=
  scaled_nonneg unsigned admissible.rates payout.scale

theorem others_nonneg : ∀ x ∈ payout.others, 0 ≤ x := fun x member =>
  payout.xp_nonneg admissible unsigned x (List.mem_of_mem_eraseIdx member)

theorem d0_pos : 0 < payout.d0 :=
  (Curve.invariant_nonneg (payout.curve_admissible admissible)
    (payout.xp_nonneg admissible unsigned) payout.found).lt_of_ne payout.nonzero.symm

theorem others_pos (some : 0 < payout.left) : ∀ x ∈ payout.others, 0 < x := fun x member =>
  (payout.others_nonneg admissible unsigned x member).lt_of_ne
    (Curve.solve_present (payout.curve_admissible admissible) (Int.natCast_nonneg _) some.le
      (payout.others_nonneg admissible unsigned) payout.solved x member).symm

theorem y_le_completion (some : 0 < payout.left) : payout.y ≤ payout.completion id + 2 := by
  have solved := Curve.solve_le_exactBalance_add_two (payout.curve_admissible admissible)
    payout.length_eq some (payout.others_nonneg admissible unsigned) payout.solved
  rw [completion, List.map_id]
  exact_mod_cast solved

variable (issued : 0 < holdings.supply) (burnt : 0 ≤ shares)
include issued

theorem left_nonneg : 0 ≤ payout.left :=
  burntTo_nonneg issued payout.covered (payout.d0_pos admissible unsigned).le

include burnt

theorem left_le : payout.left ≤ payout.d0 :=
  burntTo_le issued burnt (payout.d0_pos admissible unsigned).le

theorem reduced_others_bounds {x : Int} (member : x ∈ payout.others) :
    0 ≤ reduced holdings.chargeRate payout.d0 payout.left payout.y false x ∧
      reduced holdings.chargeRate payout.d0 payout.left payout.y false x ≤ x :=
  reduced_bounds (chargeRate_isFee admissible) (payout.d0_pos admissible unsigned)
    (payout.left_nonneg admissible unsigned issued) (payout.left_le admissible unsigned issued burnt)
    (payout.others_nonneg admissible unsigned x member)

/-- The fees leave less of the other balances, so that more completes them. -/
theorem y_le_rest : payout.y ≤ payout.rest := by
  have bound := payout.bound
  refine Curve.solve_antitone (payout.curve_admissible admissible) (by omega)
    (payout.left_nonneg admissible unsigned issued) (List.forall_mem_map.mpr fun x member => ?_) ?_
    payout.completed payout.solved
  · exact (payout.reduced_others_bounds admissible unsigned issued burnt member).1
  · rw [List.forall₂_map_left_iff, List.forall₂_same]
    exact fun x member => (payout.reduced_others_bounds admissible unsigned issued burnt member).2

/-- Where the solved and the proportional balances cover the exact ones the margin is not negative. -/
theorem margin_nonneg (first : payout.completion id ≤ payout.y)
    (second : payout.completion payout.ideal ≤ payout.ideal payout.balance)
    (covers : payout.y ≤ payout.balance) : 0 ≤ payout.margin := by
  have part : payout.ideal payout.balance ≤ payout.balance :=
    proportional_le (payout.d0_pos admissible unsigned)
      (payout.left_le admissible unsigned issued burnt)
      (payout.xp_nonneg admissible unsigned _ (List.mem_of_getElem? payout.balanceAt))
  have fee := chargePart_nonneg admissible
  have half := two_mul_chargePart_le admissible
  have distance : (0 : ℝ) ≤ payout.balance - payout.y := by
    exact_mod_cast sub_nonneg.mpr covers
  have gap : (0 : ℝ) ≤ payout.balance - payout.ideal payout.balance := by
    exact_mod_cast sub_nonneg.mpr part
  have rest : 0 ≤ 1 - holdings.chargePart := by linarith
  have uncharged : 0 ≤ 1 - 2 * holdings.chargePart := by linarith
  rw [margin]
  linarith [mul_le_mul_of_nonneg_left first rest, mul_le_mul_of_nonneg_left second fee,
    mul_nonneg uncharged distance, mul_nonneg fee gap]

/-- The payout falls short of the margin by what the balance that is left is rounded by. -/
theorem margin_le (some : 0 < payout.left) (parts : ∀ x ∈ payout.others, 0 < payout.ideal x) :
    payout.margin ≤ payout.target - payout.rest + 2 := by
  have curve := payout.curve_admissible admissible
  have fee := chargePart_nonneg admissible
  have half := two_mul_chargePart_le admissible
  have completed := Curve.solve_le_exactBalance_add_two curve
    (by rw [List.length_map]; exact payout.length_eq) some
    (List.forall_mem_map.mpr fun x member =>
      (payout.reduced_others_bounds admissible unsigned issued burnt member).1) payout.completed
  -- The reduced balances are at least a mix of the whole and the proportional ones.
  have mix := exactBalance_mix_le fee (by linarith) (f := id) (g := payout.ideal)
    (h := reduced holdings.chargeRate payout.d0 payout.left payout.y false)
    (payout.others_pos admissible unsigned some) parts (fun x _ => mix_le_reduced)
    curve.leverage_pos some
  have target : payout.balance -
      holdings.chargePart * ((payout.ideal payout.balance - payout.y : Int) : ℝ) ≤ payout.target :=
    sub_le_target
  rw [Int.cast_natCast] at completed mix
  push_cast at target
  rw [margin, completion, completion]
  linarith

end

end Payout

/-- The reserve falls by what is paid and by the admin part of the fee. -/
theorem reserve_le_iff (withdrawn : holdings.withdraw shares i rates now = .ok (paid, next)) :
    next.reserves.getD i 0 ≤ holdings.reserves.getD i 0 ↔
      0 ≤ paid.amount + share paid.fee holdings.adminFee := by
  obtain ⟨reserve, -, reserveAt, -, rfl⟩ := withdraw_eq_ok withdrawn
  obtain ⟨bound, rfl⟩ := List.getElem?_eq_some_iff.mp reserveAt
  rw [List.getD_eq_getElem _ _ bound, List.getD_eq_getElem _ _ (by simpa using bound),
    List.getElem_set_self]
  omega

/-- A withdrawal pays a negative amount exactly where the balance that completes the reduced others is not
below the target. That is rounding: with nothing rounded the margin is not negative, and where the exact
balances leave a margin of more than two units the amount is not negative and the reserve does not
grow. -/
theorem withdrawals_pay_beyond_rounding (holdings next : Holdings) (shares : Int) (i : Nat)
    (rates : List Int) (now : Time) (paid : Withdrawal) (admissible : holdings.Admissible rates now)
    (present : ∀ reserve ∈ holdings.reserves, 0 < reserve) (issued : 0 < holdings.supply)
    (burnt : 0 ≤ shares) (withdrawn : holdings.withdraw shares i rates now = .ok (paid, next)) :
    ∃ payout : holdings.Payout shares i rates now paid,
      (0 ≤ paid.amount ↔ payout.rest < payout.target) ∧
      (next.reserves.getD i 0 ≤ holdings.reserves.getD i 0 ↔
        0 ≤ paid.amount + share paid.fee holdings.adminFee) ∧
      (0 ≤ paid.amount → payout.y ≤ payout.balance →
        next.reserves.getD i 0 ≤ holdings.reserves.getD i 0) ∧
      (payout.completion id ≤ payout.y →
        payout.completion payout.ideal ≤ payout.ideal payout.balance →
        payout.y ≤ payout.balance → 0 ≤ payout.margin) ∧
      (0 < payout.left → (∀ x ∈ payout.others, 0 < payout.ideal x) →
        payout.margin ≤ payout.target - payout.rest + 2 ∧
        (2 < payout.margin → payout.completion id + 2 ≤ payout.balance →
          0 ≤ paid.amount ∧ next.reserves.getD i 0 ≤ holdings.reserves.getD i 0)) := by
  have unsigned : ∀ reserve ∈ holdings.reserves, 0 ≤ reserve := fun reserve member =>
    (present reserve member).le
  obtain ⟨_, computed, -⟩ := withdraw_eq_ok withdrawn
  obtain ⟨payout⟩ := payout_of_withdrawalFor computed
  have pays := payout.amount_nonneg_iff admissible
  have lowers := reserve_le_iff withdrawn
  have taken : 0 ≤ paid.amount → payout.y ≤ payout.balance →
      next.reserves.getD i 0 ≤ holdings.reserves.getD i 0 := fun nonneg covers =>
    lowers.mpr (payout.taken_nonneg admissible nonneg covers)
  refine ⟨payout, pays, lowers, taken, payout.margin_nonneg admissible unsigned issued burnt,
    fun some parts => ?_⟩
  have close := payout.margin_le admissible unsigned issued burnt some parts
  refine ⟨close, fun wide covers => ?_⟩
  have nonneg : 0 ≤ paid.amount := by
    rw [pays]
    have apart : (payout.rest : ℝ) < payout.target := by linarith
    exact_mod_cast apart
  have solved := payout.y_le_completion admissible unsigned some
  exact ⟨nonneg, taken nonneg (by exact_mod_cast solved.trans covers)⟩

end Holdings

/-- Two coins, three of the second for each of the first. -/
def tripledPair : Holdings where
  reserves := [1000000, 3000000]
  supply := 3993431
  amp := .constant 100
  precision := 1
  swapFee := 4000000
  adminFee := 5000000000
  offset := false

theorem tripledPair_admissible (now : Time) :
    tripledPair.Admissible [Fixed.one, Fixed.one] now := by
  refine ⟨⟨show (1 : Int) ≤ 1 by decide, ?_⟩, by decide, ⟨by decide, by decide⟩,
    ⟨by decide, by decide⟩⟩
  simp [Holdings.curve, tripledPair]

theorem tripledPair_withdraw :
    tripledPair.withdraw 400000 1 [Fixed.one, Fixed.one] 600 =
      .ok (⟨402168, 41⟩, { tripledPair with
        reserves := [1000000, 2597812]
        supply := 3593431 }) := by
  decide +kernel

theorem tripledPair_withdrawal_pays :
    ∃ payout : tripledPair.Payout 400000 1 [Fixed.one, Fixed.one] 600 ⟨402168, 41⟩,
      2 < payout.margin ∧ payout.completion id + 2 ≤ payout.balance ∧
        0 ≤ (402168 : Int) ∧ (2597812 : Int) ≤ 3000000 := by
  obtain ⟨payout, -, -, -, -, beyond⟩ := Holdings.withdrawals_pay_beyond_rounding _ _ _ _ _ _ _
    (tripledPair_admissible 600) (by decide) (by decide) (by decide) tripledPair_withdraw
  have balances : payout.xp = [1000000, 3000000] :=
    Except.ok.inj (payout.scale.symm.trans (by decide +kernel))
  have whole : payout.d0 = 3993431 := by
    have found := payout.found
    rw [balances] at found
    exact Except.ok.inj (found.symm.trans (by decide +kernel))
  have left : payout.left = 3593431 := by
    rw [Holdings.Payout.left, whole]
    decide +kernel
  have solved : payout.y = 2597791 := by
    have computed := payout.solved
    rw [balances, whole] at computed
    exact Except.ok.inj (computed.symm.trans (by decide +kernel))
  have target : payout.balance = 3000000 := by
    have entry := payout.balanceAt
    rw [balances] at entry
    exact (Option.some.inj entry).symm
  have others : payout.others = [1000000] := by
    rw [Holdings.Payout.others, balances]
    rfl
  have part : ∀ x, payout.ideal x = (x * 3593431).fdiv 3993431 := fun x => by
    rw [Holdings.Payout.ideal, whole, left]
  -- Both exact balances are below an integer that is above the quadratic rounded in favour of it.
  have first : payout.completion id ≤ 2597792 := by
    rw [Holdings.Payout.completion, others, balances, left]
    exact_mod_cast exactBalance_le_of_quadratic (b := 1017967) (c := 58001328795) (z := 2597792)
      (by decide +kernel) (by decide) (by decide) (by decide +kernel) (by decide +kernel) (by decide)
      (by decide)
  have second : payout.completion payout.ideal ≤ 2699507 := by
    rw [Holdings.Payout.completion, others, balances, left, List.map_singleton, part]
    exact_mod_cast exactBalance_le_of_quadratic (b := 917802) (c := 64457738135) (z := 2699507)
      (by decide +kernel) (by decide) (by decide) (by decide +kernel) (by decide +kernel) (by decide)
      (by decide)
  have fee : tripledPair.chargePart = 1 / 5000 := by
    rw [Holdings.chargePart, show tripledPair.chargeRate = 2000000 by decide, feeUnit]
    norm_num
  have wide : 2 < payout.margin := by
    rw [Holdings.Payout.margin, fee, target, solved, part,
      show ((3000000 : Int) * 3593431).fdiv 3993431 = 2699506 by decide]
    push_cast
    linarith
  have covers : payout.completion id + 2 ≤ payout.balance := by
    rw [target]
    push_cast
    linarith
  have parts : ∀ x ∈ payout.others, 0 < payout.ideal x := by
    simp only [others, part]
    decide
  exact ⟨payout, wide, covers, (beyond (by rw [left]; decide) parts).2 wide covers⟩

/-- A pair with little of its second token and with the offset in its divisors. -/
def offsetPair : Holdings where
  reserves := [300000000000000000000, 500000000000000000]
  supply := 242030622896023639671
  amp := .constant 20000
  precision := 100
  swapFee := 4000000
  adminFee := 5000000000
  offset := true

theorem offsetPair_admissible (now : Time) :
    offsetPair.Admissible [Fixed.one, Fixed.one] now := by
  refine ⟨⟨show (1 : Int) ≤ 100 by decide, ?_⟩, by decide, ⟨by decide, by decide⟩,
    ⟨by decide, by decide⟩⟩
  simp [Holdings.curve, offsetPair]

theorem offsetPair_withdraw :
    offsetPair.withdraw 10 0 [Fixed.one, Fixed.one] 600 =
      .ok (⟨-35, 0⟩, { offsetPair with
        reserves := [300000000000000000035, 500000000000000000]
        supply := 242030622896023639661 }) := by
  decide +kernel

/-- Ten shares are burnt for less than nothing, and the reserve grows. -/
theorem withdrawal_pays_negative_amount :
    ¬ ∀ (holdings next : Holdings) (shares : Int) (i : Nat) (rates : List Int) (now : Time)
      (paid : Withdrawal), (∀ reserve ∈ holdings.reserves, 0 < reserve) → 0 < holdings.supply →
      holdings.Admissible rates now → 0 ≤ shares → shares ≤ holdings.supply →
      holdings.withdraw shares i rates now = .ok (paid, next) →
      0 ≤ paid.amount ∧ next.reserves.getD i 0 ≤ holdings.reserves.getD i 0 := by
  intro pays
  obtain ⟨nonneg, -⟩ := pays _ _ _ _ _ _ _ (by decide) (by decide) (offsetPair_admissible 600)
    (by decide) (by decide) offsetPair_withdraw
  exact absurd nonneg (by decide)

end Stable
end Amm
