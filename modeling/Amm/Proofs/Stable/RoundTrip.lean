import Amm.Proofs.Stable.Shortage
import Amm.Proofs.Stable.Withdrawal

/-!
A deposit of one coin and the withdrawal of the shares that it minted, into the same coin. Burning the
shares leaves the invariant from before the deposit, but for what the invariants in between are rounded
by, and the withdrawal leaves balances that allow it. If more was paid than came in, those are short of
the balances before the deposit, which have no invariant to spare.
-/

namespace Amm
namespace Stable
namespace Holdings

section
variable {holdings : Holdings} {rates xp : List Int} {now : Time} {i : Nat} {shares : Int}
  {paid : Withdrawal}

/-- What a withdrawal leaves of its scaled target exceeds the balance that completes the others to the
invariant left, or the target's own part of it. -/
theorem exceeds_of_withdrawalFor (admissible : holdings.Admissible rates now)
    (unsigned : ∀ reserve ∈ holdings.reserves, 0 ≤ reserve) (issued : 0 < holdings.supply)
    (burnt : 0 ≤ shares) (succeeds : holdings.withdrawalFor shares i rates now = .ok paid) :
    ∃ xp d0 rate left, scaled holdings.reserves rates = .ok xp ∧
      (holdings.curve now).invariant xp = .ok d0 ∧ rates[i]? = some rate ∧
      (holdings.curve now).Exceeds xp i d0 (burntTo holdings.supply shares d0) left ∧
      paid.amount * rate ≤ (xp.getD i 0 - left) * Fixed.one := by
  obtain ⟨payout⟩ := payout_of_withdrawalFor succeeds
  have entry : payout.xp.getD i 0 = payout.balance := by
    rw [List.getD_eq_getElem?_getD, payout.balanceAt, Option.getD_some]
  refine ⟨payout.xp, payout.d0, payout.rate, payout.balance - (payout.target - payout.rest - 1),
    payout.scale, payout.found, payout.rateAt,
    ⟨payout.bound, payout.xp_nonneg admissible unsigned, payout.found,
      payout.d0_pos admissible unsigned, payout.left_nonneg admissible unsigned issued,
      payout.left_le admissible unsigned issued burnt, payout.y, payout.solved, ?_⟩, ?_⟩
  · rw [entry]
    exact lt_left_of_reduced (chargeRate_isFee admissible)
      (payout.y_le_rest admissible unsigned issued burnt)
  · rw [entry, sub_sub_cancel, payout.amount]
    exact (le_fdiv_iff (payout.rate_pos admissible)).mp le_rfl

/-- What a deposit of one coin and the withdrawal of the shares minted for it are worked out on: the
scaled balances before the deposit, those that the shares are minted for and those that the pool keeps,
with their invariants. -/
structure Trip (holdings next : Holdings) (i : Nat) (amount minted : Int) (rates : List Int)
    (now : Time) where
  inflow : Inflow
  before : List Int
  counted : List Int
  kept : List Int
  d2 : Int
  whole : Int
  priced : holdings.inflow (singleAmount holdings.reserves.length i amount) rates now = .ok inflow
  beforeScaled : scaled holdings.reserves rates = .ok before
  countedScaled : scaled (holdings.afterFees inflow) rates = .ok counted
  keptScaled : scaled (holdings.afterAdminFees inflow) rates = .ok kept
  beforeFound : (holdings.curve now).invariant before = .ok inflow.d0
  countedFound : (holdings.curve now).invariant counted = .ok d2
  keptFound : (holdings.curve now).invariant kept = .ok whole
  nonzero : inflow.d0 ≠ 0
  mints : minted = (holdings.supply * (d2 - inflow.d0)).fdiv inflow.d0
  leaves : next = { holdings with
    reserves := holdings.afterAdminFees inflow
    supply := holdings.supply + minted }

theorem scaled_mono {balances balances' xp' : List Int} (positive : ∀ rate ∈ rates, 0 < rate)
    (below : List.Forall₂ (· ≤ ·) balances balances') (before : scaled balances rates = .ok xp)
    (after : scaled balances' rates = .ok xp') : List.Forall₂ (· ≤ ·) xp xp' := by
  obtain ⟨-, rfl⟩ := scaled_eq_ok before
  obtain ⟨-, rfl⟩ := scaled_eq_ok after
  rw [List.forall₂_iff_get] at below ⊢
  refine ⟨by simp [below.1], fun j first second => ?_⟩
  simp only [List.get_eq_getElem, List.getElem_zipWith]
  rw [List.length_zipWith] at first second
  exact fdiv_le_fdiv Fixed.one_pos (mul_le_mul_of_nonneg_right
    (below.2 j (by omega) (by omega)) (positive _ (List.getElem_mem _)).le)

theorem forall₂_entry {R : Int → Int → Prop} {first second : List Int} {j : Nat} {x y : Int}
    (pairs : List.Forall₂ R first second) (firstAt : first[j]? = some x)
    (secondAt : second[j]? = some y) : R x y := by
  obtain ⟨bound, rfl⟩ := List.getElem?_eq_some_iff.mp firstAt
  obtain ⟨bound', rfl⟩ := List.getElem?_eq_some_iff.mp secondAt
  exact pairs.get bound bound'

theorem forall₂_set_of_others {R : Int → Int → Prop} {first second : List Int} {a b : Int}
    (count : first.length = second.length)
    (others : ∀ j x y, j ≠ i → first[j]? = some x → second[j]? = some y → R x y) (entry : R a b) :
    List.Forall₂ R (first.set i a) (second.set i b) := by
  rw [List.forall₂_iff_get]
  refine ⟨by simp [count], fun j bound bound' => ?_⟩
  simp only [List.get_eq_getElem, List.getElem_set]
  rw [List.length_set] at bound bound'
  split
  · exact entry
  · exact others j _ _ (by omega) (List.getElem?_eq_getElem bound) (List.getElem?_eq_getElem bound')

section
variable {inflow : Inflow}

/-- A fee is not negative, and the admin takes a part of it. -/
theorem adminShare_bounds (admissible : holdings.Admissible rates now) (old new : Int) :
    0 ≤ share (depositCharge holdings.chargeRate inflow.d0 inflow.d1 old new) holdings.adminFee ∧
      share (depositCharge holdings.chargeRate inflow.d0 inflow.d1 old new) holdings.adminFee ≤
        depositCharge holdings.chargeRate inflow.d0 inflow.d1 old new := by
  have charged : 0 ≤ depositCharge holdings.chargeRate inflow.d0 inflow.d1 old new :=
    share_nonneg (chargeRate_isFee admissible) (absDiff_nonneg _ _)
  exact ⟨share_nonneg admissible.adminFee charged, share_le admissible.adminFee charged⟩

theorem afterFees_forall₂ (admissible : holdings.Admissible rates now) :
    List.Forall₂ (· ≤ ·) (holdings.afterFees inflow) (holdings.afterAdminFees inflow) := by
  rw [afterFees_eq, afterAdminFees_eq, List.forall₂_iff_get]
  refine ⟨by simp, fun j first second => ?_⟩
  simp only [List.get_eq_getElem, List.getElem_zipWith]
  exact sub_le_sub_left (adminShare_bounds admissible _ _).2 _

theorem afterAdminFees_forall₂ (admissible : holdings.Admissible rates now)
    (count : inflow.balances.length = holdings.reserves.length) :
    List.Forall₂ (· ≤ ·) (holdings.afterAdminFees inflow) inflow.balances := by
  rw [afterAdminFees_eq, List.forall₂_iff_get]
  refine ⟨by simp [count], fun j first second => ?_⟩
  simp only [List.get_eq_getElem, List.getElem_zipWith]
  exact sub_le_self _ (adminShare_bounds admissible _ _).1

end

namespace Trip

variable {next : Holdings} {amount minted : Int}
  (trip : holdings.Trip next i amount minted rates now)

/-- The invariant that the withdrawal of the minted shares leaves. -/
def left : Int :=
  burntTo next.supply minted trip.whole

/-- Rounding that raises the invariants of a trip: by how much the invariant left is below the one
before the deposit, and by how much the one of the balances kept is above its own equation. -/
structure Slack (k h : Nat) : Prop where
  left : trip.inflow.d0 - k ≤ trip.left
  kept : ((holdings.curve now).equation trip.kept).level ((trip.whole - h : Int) : ℚ) ≤
    (holdings.curve now).weighted trip.kept
  covered : k + h ≤ trip.inflow.d0

include trip

theorem next_supply : next.supply = holdings.supply + minted := by
  rw [trip.leaves]

theorem next_curve : next.curve now = holdings.curve now := by
  rw [trip.leaves]
  rfl

theorem before_length : trip.before.length = holdings.reserves.length :=
  scaled_length trip.beforeScaled

theorem balances_length : trip.inflow.balances.length = holdings.reserves.length := by
  obtain ⟨count, -, same, -, -⟩ := inflow_eq_ok trip.priced
  rw [same, List.length_zipWith, count, min_self]

theorem kept_length : trip.kept.length = holdings.reserves.length := by
  rw [scaled_length trip.keptScaled, afterAdminFees_eq, List.length_zipWith, trip.balances_length,
    min_self]

theorem counted_length : trip.counted.length = holdings.reserves.length := by
  rw [scaled_length trip.countedScaled, afterFees_eq, List.length_zipWith, trip.balances_length,
    min_self]

/-- Shares are minted only where the fees leave some growth of the invariant. -/
theorem d0_lt_d2 (issued : 0 < holdings.supply) (some : 0 < minted)
    (positive : 0 < trip.inflow.d0) : trip.inflow.d0 < trip.d2 := by
  have minting : minted * trip.inflow.d0 ≤ holdings.supply * (trip.d2 - trip.inflow.d0) :=
    (le_fdiv_iff positive).mp trip.mints.le
  exact sub_pos.mp (pos_of_mul_pos_right ((mul_pos some positive).trans_le minting) issued.le)

/-- The shares minted are worth no more than the growth of the invariant, so that burning them leaves
the invariant from before the deposit, but for what the invariant after the fees was found too high. -/
theorem sub_le_left {k : Int} (issued : 0 < holdings.supply) (some : 0 ≤ minted)
    (positive : 0 < trip.inflow.d0) (nonneg : 0 ≤ k) (close : trip.d2 - k ≤ trip.whole) :
    trip.inflow.d0 - k ≤ trip.left := by
  have supply : 0 < holdings.supply + minted := by omega
  have minting : minted * trip.inflow.d0 ≤ holdings.supply * (trip.d2 - trip.inflow.d0) :=
    (le_fdiv_iff positive).mp trip.mints.le
  have burning : trip.whole * (holdings.supply + minted - minted) ≤
      trip.left * (holdings.supply + minted) := by
    rw [left, trip.next_supply]
    exact mul_sub_le_burntTo supply
  refine le_of_mul_le_mul_right ?_ supply
  have part := mul_le_mul_of_nonneg_left close issued.le
  have slack := mul_nonneg nonneg some
  linarith

/-- What the pool keeps of a reserve is not more than what was there and came in. -/
theorem kept_mul_le (admissible : holdings.Admissible rates now) {j : Nat} {reserve rate x : Int}
    (reserveAt : holdings.reserves[j]? = some reserve) (rateAt : rates[j]? = some rate)
    (keptAt : trip.kept[j]? = some x) :
    x * Fixed.one ≤ (reserve + if i = j then amount else 0) * rate := by
  obtain ⟨balance, balanceAt, rfl⟩ := scaled_getElem trip.keptScaled keptAt rateAt
  obtain ⟨-, -, same, -, -⟩ := inflow_eq_ok trip.priced
  have filledAt : trip.inflow.balances[j]? = some (reserve + if i = j then amount else 0) := by
    rw [same, zipWith_add_singleAmount rfl, List.getElem?_modify, reserveAt]
    split <;> simp
  have below := forall₂_entry (afterAdminFees_forall₂ admissible trip.balances_length) balanceAt
    filledAt
  calc (balance * rate).fdiv Fixed.one * Fixed.one ≤ balance * rate :=
        (le_fdiv_iff Fixed.one_pos).mp le_rfl
    _ ≤ _ := mul_le_mul_of_nonneg_right below (admissible.rates rate (List.mem_of_getElem? rateAt)).le

theorem next_reserves : next.reserves = holdings.afterAdminFees trip.inflow :=
  congrArg Holdings.reserves trip.leaves

theorem before_nonneg (sound : holdings.Sound) (admissible : holdings.Admissible rates now) :
    ∀ x ∈ trip.before, 0 ≤ x :=
  scaled_nonneg sound.reserves admissible.rates trip.beforeScaled

theorem counted_nonneg (sound : holdings.Sound) (admissible : holdings.Admissible rates now)
    (payable : holdings.Payable trip.inflow) : ∀ x ∈ trip.counted, 0 ≤ x :=
  scaled_nonneg ((afterFees_nonneg_iff sound admissible trip.priced).mpr payable) admissible.rates
    trip.countedScaled

theorem next_reserves_nonneg (sound : holdings.Sound) (admissible : holdings.Admissible rates now)
    (payable : holdings.Payable trip.inflow) : ∀ reserve ∈ next.reserves, 0 ≤ reserve := by
  rw [trip.next_reserves]
  exact afterAdminFees_nonneg admissible
    ((afterFees_nonneg_iff sound admissible trip.priced).mpr payable)

theorem next_admissible (admissible : holdings.Admissible rates now) : next.Admissible rates now := by
  refine Continues.admissible ⟨_, _, trip.leaves, ?_⟩ admissible
  rw [← trip.kept_length, scaled_length trip.keptScaled]

theorem d0_pos (sound : holdings.Sound) (admissible : holdings.Admissible rates now) :
    0 < trip.inflow.d0 :=
  (inflow_nonneg sound admissible trip.priced).1.lt_of_ne trip.nonzero.symm

theorem kept_le_before (admissible : holdings.Admissible rates now) {j : Nat} {x x' : Int}
    (other : j ≠ i) (keptAt : trip.kept[j]? = some x) (beforeAt : trip.before[j]? = some x') :
    x ≤ x' := by
  have bound := (List.getElem?_eq_some_iff.mp beforeAt).1
  obtain ⟨count, -⟩ := scaled_eq_ok trip.beforeScaled
  rw [trip.before_length, count] at bound
  obtain ⟨reserve, reserveAt, rfl⟩ := scaled_getElem trip.beforeScaled beforeAt
    (List.getElem?_eq_getElem bound)
  have kept := trip.kept_mul_le admissible reserveAt (List.getElem?_eq_getElem bound) keptAt
  rw [if_neg other.symm, add_zero] at kept
  exact (le_fdiv_iff Fixed.one_pos).mpr kept

/-- What is there of the coin on the internal scale before the deposit if `t` units are missing. -/
def lacking (_ : holdings.Trip next i amount minted rates now) (t : Nat) : Int :=
  ((holdings.reserves.getD i 0 - t) * rates.getD i 0).fdiv Fixed.one

/-- If the withdrawal pays `t` units more than were deposited, it leaves no more than what is there
without them. -/
theorem exceeds_lacking {t : Nat} (sound : holdings.Sound)
    (admissible : holdings.Admissible rates now) (issued : 0 < holdings.supply) (some : 0 < minted)
    (payable : holdings.Payable trip.inflow)
    (withdrawn : next.withdrawalFor minted i rates now = .ok paid)
    (takes : amount + t ≤ paid.amount) :
    (holdings.curve now).Exceeds trip.kept i trip.whole trip.left (trip.lacking t) ∧
      trip.lacking t ≤ trip.before.getD i 0 := by
  have supply : 0 < next.supply := by
    rw [trip.next_supply]
    omega
  obtain ⟨xp, d, rate, l, scale, found, rateAt, exceeds, paidFor⟩ :=
    exceeds_of_withdrawalFor (trip.next_admissible admissible)
      (trip.next_reserves_nonneg sound admissible payable) supply some.le withdrawn
  obtain rfl : trip.kept = xp := by
    rw [trip.next_reserves] at scale
    exact Except.ok.inj (trip.keptScaled.symm.trans scale)
  rw [trip.next_curve] at found exceeds
  obtain rfl : trip.whole = d := Except.ok.inj (trip.keptFound.symm.trans found)
  have bound := exceeds.bound
  have positive : 0 < rate := admissible.rates rate (List.mem_of_getElem? rateAt)
  obtain ⟨reserve, reserveAt⟩ : ∃ reserve, holdings.reserves[i]? = Option.some reserve :=
    ⟨_, List.getElem?_eq_getElem (trip.kept_length ▸ bound)⟩
  have kept := trip.kept_mul_le admissible reserveAt rateAt (List.getElem?_eq_getElem bound)
  rw [if_pos rfl] at kept
  rw [List.getD_eq_getElem _ _ bound] at paidFor
  have lacks : trip.lacking t = ((reserve - t) * rate).fdiv Fixed.one := by
    rw [lacking, List.getD_eq_getElem?_getD, List.getD_eq_getElem?_getD, reserveAt, rateAt,
      Option.getD_some, Option.getD_some]
  constructor
  · refine exceeds.mono ?_
    have part := mul_le_mul_of_nonneg_right takes positive.le
    rw [lacks, le_fdiv_iff Fixed.one_pos]
    linarith
  · obtain ⟨x, beforeAt⟩ : ∃ x, trip.before[i]? = Option.some x :=
      ⟨_, List.getElem?_eq_getElem (by rw [trip.before_length, ← trip.kept_length]; exact bound)⟩
    obtain ⟨reserve', reserveAt', rfl⟩ := scaled_getElem trip.beforeScaled beforeAt rateAt
    obtain rfl := Option.some.inj (reserveAt.symm.trans reserveAt')
    rw [lacks, List.getD_eq_getElem?_getD, beforeAt, Option.getD_some]
    exact fdiv_le_fdiv Fixed.one_pos (mul_le_mul_of_nonneg_right (by omega) positive.le)

/-- A withdrawal that pays `t` units more than were deposited leaves the balances of before without
them an invariant that they do not have. -/
theorem shortage_lt_of_le {k h t : Nat} (sound : holdings.Sound)
    (admissible : holdings.Admissible rates now) (issued : 0 < holdings.supply) (some : 0 < minted)
    (payable : holdings.Payable trip.inflow)
    (withdrawn : next.withdrawalFor minted i rates now = .ok paid) (slack : trip.Slack k h)
    (takes : amount + t ≤ paid.amount) :
    (trip.before.getD i 0 - trip.lacking t) *
        (holdings.curve now).worth trip.before i (trip.inflow.d0 - (k + h)) <
      Curve.completionLoss trip.left (trip.kept.set i (trip.lacking t)) i +
        (k + h + 1) * ((holdings.curve now).equation trip.before).slope (trip.inflow.d0 + 1) := by
  obtain ⟨exceeds, short⟩ :=
    trip.exceeds_lacking sound admissible issued some payable withdrawn takes
  have curve : (holdings.curve now).Admissible trip.kept.length := by
    rw [trip.kept_length]
    exact admissible.curve
  have same : trip.kept.length = trip.before.length := by rw [trip.kept_length, trip.before_length]
  have bound : i < trip.before.length := same ▸ exceeds.bound
  have entry : trip.before.getD i 0 = trip.before[i] := List.getD_eq_getElem _ _ bound
  have present := Curve.total_ne_zero trip.beforeFound trip.nonzero
  have left : ((trip.inflow.d0 : ℚ) - k) ≤ trip.left := by exact_mod_cast slack.left
  have origin : (0 : ℚ) ≤ trip.inflow.d0 - (k + h) := by
    have := slack.covered
    exact_mod_cast (show (0 : Int) ≤ trip.inflow.d0 - (k + h) by omega)
  have within := exceeds.level_le curve (Int.natCast_nonneg h) slack.kept
    (forall₂_set_of_others same (fun _ _ _ => trip.kept_le_before admissible) le_rfl) origin
    (by push_cast; linarith)
  have leverage : ((holdings.curve now).equation (trip.before.set i (trip.lacking t))).leverage =
      ((holdings.curve now).equation trip.before).leverage := by
    rw [Curve.equation_leverage, Curve.equation_leverage, List.length_set]
  rw [leverage] at within
  rw [entry] at short ⊢
  have shortage := Curve.shortage_lt (same ▸ curve) (trip.before_nonneg sound admissible) present
    trip.beforeFound bound (Curve.divisor_pos (by omega) (exceeds.pos curve)) short origin within
  linarith

/-- The slack of a trip is bounded by what the solver can leave its invariants above their equation. -/
theorem slack_of_overshoot {k h : Nat} (sound : holdings.Sound)
    (admissible : holdings.Admissible rates now) (issued : 0 < holdings.supply) (some : 0 < minted)
    (payable : holdings.Payable trip.inflow) (within : k + h ≤ trip.inflow.d0)
    (counted : (holdings.curve now).overshoot trip.d2 trip.counted ≤
      k * ((holdings.curve now).equation trip.counted).slope (trip.d2 - k))
    (kept : (holdings.curve now).overshoot trip.whole trip.kept ≤
      h * ((holdings.curve now).equation trip.kept).slope (trip.whole - h)) :
    trip.Slack k h := by
  have curve : (holdings.curve now).Admissible trip.counted.length := by
    rw [trip.counted_length]
    exact admissible.curve
  have fewer := scaled_mono admissible.rates (afterFees_forall₂ admissible) trip.countedScaled
    trip.keptScaled
  have keptNonneg := Curve.le_of_forall₂ fewer (trip.counted_nonneg sound admissible payable)
  have close := Curve.sub_le_invariant_of_forall₂ curve
    (trip.counted_nonneg sound admissible payable) fewer trip.countedFound trip.keptFound k counted
  have left := trip.sub_le_left issued some.le (trip.d0_pos sound admissible) (Int.natCast_nonneg k)
    close
  have whole := Curve.invariant_nonneg (fewer.length_eq ▸ curve) keptNonneg trip.keptFound
  have below : trip.left ≤ trip.whole := burntTo_le (by rw [trip.next_supply]; omega) some.le whole
  have present : total trip.kept ≠ 0 := by
    have fewest := Curve.total_ne_zero trip.countedFound
      ((trip.d0_pos sound admissible).trans (trip.d0_lt_d2 issued some
        (trip.d0_pos sound admissible))).ne'
    have nonneg := total_nonneg (trip.counted_nonneg sound admissible payable)
    have order : total trip.counted ≤ total trip.kept := by
      rw [total_eq_sum, total_eq_sum]
      exact fewer.sum_le_sum
    omega
  exact ⟨left, Curve.level_le_weighted_of_overshoot (fewer.length_eq ▸ curve) keptNonneg present
    trip.keptFound h (by omega) kept, within⟩

end Trip

theorem exists_trip {next last : Holdings} {amount minted : Int} (issued : 0 < holdings.supply)
    (deposited : holdings.deposit (singleAmount holdings.reserves.length i amount) rates now =
      .ok (minted, next)) (withdrawn : next.withdraw minted i rates now = .ok (paid, last)) :
    Nonempty (holdings.Trip next i amount minted rates now) ∧
      next.withdrawalFor minted i rates now = .ok paid := by
  obtain ⟨inflow, computed, ending⟩ := deposit_eq_ok deposited
  obtain ⟨-, nonzero, d2, paidFor, mint, rfl⟩ := ending.resolve_right fun first =>
    absurd issued (not_lt.mpr first.1)
  obtain ⟨-, -, -, before, -⟩ := inflow_eq_ok computed
  obtain ⟨_, priced, -⟩ := withdraw_eq_ok withdrawn
  obtain ⟨-, xp, scale, found⟩ := invariant_eq_ok.mp before
  obtain ⟨-, counted, countedScale, countedFound⟩ := invariant_eq_ok.mp paidFor
  obtain ⟨payout⟩ := payout_of_withdrawalFor priced
  exact ⟨⟨⟨inflow, xp, counted, payout.xp, d2, payout.d0, computed, scale, countedScale,
    payout.scale, found, countedFound, payout.found, nonzero, mint, rfl⟩⟩, priced⟩

/-- A deposit of one coin and the withdrawal of the shares minted for it pay out less than `t` units
more than came in, if the missing units are worth what the invariants and the balance that is solved
for are rounded by. How far the invariants are rounded is bounded by what the solver can leave them
above their own equation. -/
theorem deposit_and_withdrawal_gain_bounded {next last : Holdings} {amount minted : Int}
    (sound : holdings.Sound) (admissible : holdings.Admissible rates now)
    (issued : 0 < holdings.supply)
    (payable : ∀ inflow,
      holdings.inflow (singleAmount holdings.reserves.length i amount) rates now = .ok inflow →
        holdings.Payable inflow)
    (deposited : holdings.deposit (singleAmount holdings.reserves.length i amount) rates now =
      .ok (minted, next)) (some : 0 < minted)
    (withdrawn : next.withdraw minted i rates now = .ok (paid, last)) :
    ∃ trip : holdings.Trip next i amount minted rates now,
      (∀ k h t : Nat, trip.Slack k h →
        Curve.completionLoss trip.left (trip.kept.set i (trip.lacking t)) i +
            (k + h + 1) * ((holdings.curve now).equation trip.before).slope (trip.inflow.d0 + 1) ≤
          (trip.before.getD i 0 - trip.lacking t) *
            (holdings.curve now).worth trip.before i (trip.inflow.d0 - (k + h)) →
        paid.amount < amount + t) ∧
      ∀ k h : Nat, k + h ≤ trip.inflow.d0 →
        (holdings.curve now).overshoot trip.d2 trip.counted ≤
          k * ((holdings.curve now).equation trip.counted).slope (trip.d2 - k) →
        (holdings.curve now).overshoot trip.whole trip.kept ≤
          h * ((holdings.curve now).equation trip.kept).slope (trip.whole - h) →
        trip.Slack k h := by
  obtain ⟨⟨trip⟩, priced⟩ := exists_trip issued deposited withdrawn
  have afford := payable _ trip.priced
  refine ⟨trip, fun k h t slack covered => ?_, fun k h within above above' => ?_⟩
  · by_contra takes
    exact absurd covered (not_le.mpr
      (trip.shortage_lt_of_le sound admissible issued some afford priced slack (not_lt.mp takes)))
  · exact trip.slack_of_overshoot sound admissible issued some afford within above above'

end

end Holdings

/-- A pair with little of its second token, without fees. -/
def lopsidedPair : Holdings where
  reserves := [300000000000000000000, 500000000000000000]
  supply := 242030622896023639636
  amp := .constant 20000
  precision := 100
  swapFee := 0
  adminFee := 0
  offset := false

theorem lopsidedPair_admissible (now : Time) :
    lopsidedPair.Admissible [Fixed.one, Fixed.one] now := by
  refine ⟨⟨show (1 : Int) ≤ 100 by decide, ?_⟩, by decide, ⟨by decide, by decide⟩,
    ⟨by decide, by decide⟩⟩
  simp [Holdings.curve, lopsidedPair]

theorem lopsidedPair_inflow :
    lopsidedPair.inflow (singleAmount 2 0 100000000000000000000) [Fixed.one, Fixed.one] 600 =
      .ok ⟨[400000000000000000000, 500000000000000000], 242030622896023639636,
        309038916648907697034⟩ := by
  obtain ⟨⟨balances, d0, d1⟩, computed, same⟩ := Priced.map_eq_ok.mp (show
    (lopsidedPair.inflow (singleAmount 2 0 100000000000000000000) [Fixed.one, Fixed.one] 600).map
      (fun inflow => (inflow.balances, inflow.d0, inflow.d1)) =
        .ok ([400000000000000000000, 500000000000000000], 242030622896023639636,
          309038916648907697034)
    by decide +kernel)
  obtain ⟨rfl, rfl, rfl⟩ : _ ∧ _ ∧ _ := by simpa using same
  exact computed

theorem lopsidedPair_payable (inflow : Holdings.Inflow)
    (computed : lopsidedPair.inflow (singleAmount 2 0 100000000000000000000) [Fixed.one, Fixed.one]
      600 = .ok inflow) : lopsidedPair.Payable inflow := by
  obtain rfl := Except.ok.inj (lopsidedPair_inflow.symm.trans computed)
  unfold Holdings.Payable Holdings.Overcharged
  decide

theorem lopsidedPair_deposit :
    lopsidedPair.deposit (singleAmount 2 0 100000000000000000000) [Fixed.one, Fixed.one] 600 =
      .ok (67008293752884057398, { lopsidedPair with
        reserves := [400000000000000000000, 500000000000000000]
        supply := 309038916648907697034 }) := by
  decide +kernel

theorem lopsidedPair_withdraw :
    { lopsidedPair with
        reserves := [400000000000000000000, 500000000000000000]
        supply := 309038916648907697034 }.withdraw 67008293752884057398 0
          [Fixed.one, Fixed.one] 600 =
      .ok (⟨100000000000000000001, 1⟩, { lopsidedPair with
        reserves := [299999999999999999999, 500000000000000000] }) := by
  decide +kernel

/-- The bound is attained: two missing units are worth more than what is rounded, and one more unit is
paid than was deposited. -/
theorem lopsidedPair_gain_below_two :
    lopsidedPair.deposit (singleAmount 2 0 100000000000000000000) [Fixed.one, Fixed.one] 600 =
      .ok (67008293752884057398, { lopsidedPair with
        reserves := [400000000000000000000, 500000000000000000]
        supply := 309038916648907697034 }) ∧
    { lopsidedPair with
        reserves := [400000000000000000000, 500000000000000000]
        supply := 309038916648907697034 }.withdraw 67008293752884057398 0
          [Fixed.one, Fixed.one] 600 =
      .ok (⟨100000000000000000001, 1⟩, { lopsidedPair with
        reserves := [299999999999999999999, 500000000000000000] }) ∧
    (100000000000000000001 : Int) < 100000000000000000000 + (2 : Nat) := by
  refine ⟨lopsidedPair_deposit, lopsidedPair_withdraw, ?_⟩
  obtain ⟨trip, bounded, -⟩ := Holdings.deposit_and_withdrawal_gain_bounded
    ⟨by decide, by decide⟩ (lopsidedPair_admissible 600) (by decide) lopsidedPair_payable
    lopsidedPair_deposit (by decide) lopsidedPair_withdraw
  have inflow := Except.ok.inj (trip.priced.symm.trans lopsidedPair_inflow)
  have before : trip.before = [300000000000000000000, 500000000000000000] :=
    Except.ok.inj (trip.beforeScaled.symm.trans (by decide +kernel))
  have kept : trip.kept = [400000000000000000000, 500000000000000000] := by
    have scale := trip.keptScaled
    rw [inflow] at scale
    exact Except.ok.inj (scale.symm.trans (by decide +kernel))
  have whole : trip.whole = 309038916648907697034 := by
    have found := trip.keptFound
    rw [kept] at found
    exact Except.ok.inj (found.symm.trans (by decide +kernel))
  have left : trip.left = 242030622896023639636 := by
    rw [Holdings.Trip.left, whole]
    decide +kernel
  have lacking : trip.lacking 2 = 299999999999999999998 := by
    unfold Holdings.Trip.lacking
    decide +kernel
  refine bounded 0 0 2 ⟨?_, ?_, ?_⟩ ?_
  · rw [inflow, left]
    decide
  · rw [kept, whole]
    decide +kernel
  · rw [inflow]
    decide
  · rw [inflow, before, kept, left, lacking]
    decide +kernel

theorem deposit_and_withdrawal_gain :
    ¬ ∀ (holdings next last : Holdings) (rates : List Int) (now : Time) (i : Nat)
      (amount minted : Int) (paid : Withdrawal),
      2 ≤ holdings.reserves.length → (∀ reserve ∈ holdings.reserves, 0 < reserve) →
      0 < holdings.supply → holdings.Admissible rates now → 0 < amount →
      holdings.deposit (singleAmount holdings.reserves.length i amount) rates now =
        .ok (minted, next) → 0 < minted →
      next.withdraw minted i rates now = .ok (paid, last) → paid.amount ≤ amount := by
  intro covered
  have paid := covered _ _ _ _ _ _ _ _ _ (by decide) (by decide) (by decide)
    (lopsidedPair_admissible 600) (by decide) lopsidedPair_deposit (by decide) lopsidedPair_withdraw
  exact absurd paid (by decide)

end Stable
end Amm
