import Amm.Proofs.Composable.Places
import Amm.Proofs.Composable.Solver

/-!
What a trader can gain by swapping between two tokens of a composable pool and back. Each swap is
priced on the invariant of the moment, which is rounded down, so the way back can pay more than was
given. The gain is bounded by the surplus that the balances before the trip have at the invariant of
the way back, and this invariant is low by rounding alone.
-/

namespace Amm

namespace ComposablePool

open Composable

variable {pool next : ComposablePool} {i j p q : Nat} {amountIn amountOut fee : Int}

/-- The balances that swaps are priced on: brought to eighteen decimals, without the share token. -/
def balances (pool : ComposablePool) : List Int :=
  pool.dropShare (pool.upscaled pool.reserves)

structure Priceable (pool : ComposablePool) : Prop where
  reserves : ∀ reserve ∈ pool.dropShare pool.reserves, 0 ≤ reserve
  factors : ∀ factor ∈ pool.dropShare pool.scalingFactors, 0 < factor
  amp : ampUnit ≤ pool.amp
  swapFee_nonneg : 0 ≤ pool.swapFee
  swapFee_lt : pool.swapFee < Fixed.one

theorem balances_set {reserves : List Int} {reserve factor : Int}
    (skipped : pool.skipShare i = .ok p) (other : i ≠ pool.shareIndex)
    (factorAt : pool.scalingFactors[i]? = some factor) :
    pool.dropShare (pool.upscaled (reserves.set i reserve)) =
      (pool.dropShare (pool.upscaled reserves)).set p (Fixed.mulDown reserve factor) := by
  rw [← dropShare_set skipped other]
  congr 1
  rw [upscaled, upscaled]
  refine List.ext_getElem? fun m => ?_
  have bound : i < pool.scalingFactors.length := (List.getElem?_eq_some_iff.mp factorAt).1
  by_cases same : i = m
  · subst same
    by_cases inside : i < reserves.length
    · rw [List.getElem?_set_self (by rw [List.length_zipWith]; omega), List.getElem?_zipWith,
        List.getElem?_set_self inside, factorAt]
    · rw [List.getElem?_eq_none (by simp; omega), List.getElem?_eq_none (by simp; omega)]
  · rw [List.getElem?_set_ne same, List.getElem?_zipWith, List.getElem?_zipWith,
      List.getElem?_set_ne same]

theorem balances_nonneg (priceable : pool.Priceable) : ∀ x ∈ pool.balances, 0 ≤ x := by
  intro x member
  obtain ⟨m, other, balanceAt⟩ := List.mem_eraseIdx_iff_getElem?.mp member
  rw [upscaled, List.getElem?_zipWith_eq_some] at balanceAt
  obtain ⟨reserve, factor, reserveAt, factorAt, rfl⟩ := balanceAt
  have unsigned := priceable.reserves _ (List.mem_eraseIdx_iff_getElem?.mpr ⟨m, other, reserveAt⟩)
  have positive := priceable.factors _ (List.mem_eraseIdx_iff_getElem?.mpr ⟨m, other, factorAt⟩)
  exact Int.fdiv_nonneg (mul_nonneg unsigned positive.le) Fixed.one_pos.le

theorem balances_getElem? {x : Int} (skipped : pool.skipShare i = .ok p)
    (other : i ≠ pool.shareIndex) (balanceAt : pool.balances[p]? = some x) :
    ∃ reserve factor, pool.reserves[i]? = some reserve ∧ pool.scalingFactors[i]? = some factor ∧
      x = Fixed.mulDown reserve factor := by
  rw [balances, dropShare_getElem? skipped other, upscaled, List.getElem?_zipWith_eq_some] at balanceAt
  obtain ⟨reserve, factor, reserveAt, factorAt, rfl⟩ := balanceAt
  exact ⟨reserve, factor, reserveAt, factorAt, rfl⟩

/-- A swap of token `i` for token `j`, neither of them the share token, with what it is priced on. -/
structure Leg (pool : ComposablePool) (i j : Nat) (amountIn amountOut : Int) where
  shortIn : Nat
  shortOut : Nat
  reserveIn : Int
  reserveOut : Int
  factorIn : Int
  factorOut : Int
  invariant : Int
  released : Int
  notIn : i ≠ pool.shareIndex
  notOut : j ≠ pool.shareIndex
  different : i ≠ j
  indexIn : pool.skipShare i = .ok shortIn
  indexOut : pool.skipShare j = .ok shortOut
  reserveInAt : pool.reserves[i]? = some reserveIn
  reserveOutAt : pool.reserves[j]? = some reserveOut
  factorInAt : pool.scalingFactors[i]? = some factorIn
  factorOutAt : pool.scalingFactors[j]? = some factorOut
  priced : roundedInvariant pool.amp pool.balances false = .ok invariant
  computed : outGivenIn pool.amp pool.balances shortIn shortOut
    (Fixed.mulDown (amountIn - Fixed.mulUp amountIn pool.swapFee) factorIn) invariant = .ok released
  paid : (released * Fixed.one).fdiv factorOut = amountOut

theorem exists_leg (notIn : i ≠ pool.shareIndex) (notOut : j ≠ pool.shareIndex) (different : i ≠ j)
    (swapped : pool.swapGivenIn i j amountIn = .ok (amountOut, fee)) :
    Nonempty (pool.Leg i j amountIn amountOut) := by
  simp only [swapGivenIn, upscale, downscale, Priced.bind_eq_ok, Priced.entry_eq_ok,
    ratioDown_eq_ok, Except.ok.injEq, Prod.mk.injEq] at swapped
  obtain ⟨_, ⟨factorIn, factorInAt, rfl⟩, d, priced, p, indexIn, q, indexOut, released, computed, _,
    ⟨factorOut, factorOutAt, -, rfl⟩, rfl, -⟩ := swapped
  have sold := computed
  simp only [outGivenIn, Priced.bind_eq_ok, Priced.entry_eq_ok] at sold
  obtain ⟨balanceIn, balanceInAt, _, -, balanceOut, balanceOutAt, -⟩ := sold
  rw [List.getElem?_set_ne (skipShare_ne indexIn indexOut notIn notOut different)] at balanceOutAt
  obtain ⟨reserveIn, _, reserveInAt, -, -⟩ := balances_getElem? indexIn notIn balanceInAt
  obtain ⟨reserveOut, _, reserveOutAt, -, -⟩ := balances_getElem? indexOut notOut balanceOutAt
  exact ⟨⟨p, q, reserveIn, reserveOut, factorIn, factorOut, d, released, notIn, notOut, different,
    indexIn, indexOut, reserveInAt, reserveOutAt, factorInAt, factorOutAt, priced, computed, rfl⟩⟩

namespace Leg

variable (leg : pool.Leg i j amountIn amountOut)

/-- The balance of the sold token with what the sale adds to it. -/
def filled : Int :=
  Fixed.mulDown leg.reserveIn leg.factorIn +
    Fixed.mulDown (amountIn - Fixed.mulUp amountIn pool.swapFee) leg.factorIn

/-- The balance that is solved for the bought token. -/
def left : Int :=
  Fixed.mulDown leg.reserveOut leg.factorOut - leg.released - 1

include leg

theorem short_ne : leg.shortIn ≠ leg.shortOut :=
  skipShare_ne leg.indexIn leg.indexOut leg.notIn leg.notOut leg.different

theorem balanceInAt :
    pool.balances[leg.shortIn]? = some (Fixed.mulDown leg.reserveIn leg.factorIn) := by
  rw [balances, dropShare_getElem? leg.indexIn leg.notIn, upscaled, List.getElem?_zipWith_eq_some]
  exact ⟨_, _, leg.reserveInAt, leg.factorInAt, rfl⟩

theorem balanceOutAt :
    pool.balances[leg.shortOut]? = some (Fixed.mulDown leg.reserveOut leg.factorOut) := by
  rw [balances, dropShare_getElem? leg.indexOut leg.notOut, upscaled, List.getElem?_zipWith_eq_some]
  exact ⟨_, _, leg.reserveOutAt, leg.factorOutAt, rfl⟩

theorem several : 1 < pool.balances.length := by
  have first := (List.getElem?_eq_some_iff.mp leg.balanceInAt).1
  have second := (List.getElem?_eq_some_iff.mp leg.balanceOutAt).1
  have different := leg.short_ne
  omega

theorem factorIn_pos (priceable : pool.Priceable) : 0 < leg.factorIn :=
  priceable.factors _ (List.mem_eraseIdx_iff_getElem?.mpr ⟨i, leg.notIn, leg.factorInAt⟩)

theorem factorOut_pos (priceable : pool.Priceable) : 0 < leg.factorOut :=
  priceable.factors _ (List.mem_eraseIdx_iff_getElem?.mpr ⟨j, leg.notOut, leg.factorOutAt⟩)

theorem invariant_nonneg (priceable : pool.Priceable) : 0 ≤ leg.invariant :=
  roundedInvariant_nonneg priceable.amp (Nat.zero_lt_of_lt leg.several) (balances_nonneg priceable)
    leg.priced

/-- What a sale leaves of the bought balance completes the balances to some with a surplus. -/
theorem covered (priceable : pool.Priceable) (unsigned : 0 ≤ amountIn) :
    0 ≤ leg.released ∧ 0 < leg.left ∧ (∀ x ∈ pool.balances.set leg.shortIn leg.filled, 0 < x) ∧
      0 ≤ surplus pool.amp ((pool.balances.set leg.shortIn leg.filled).set leg.shortOut leg.left)
        leg.invariant := by
  have sold : 0 ≤ Fixed.mulDown (amountIn - Fixed.mulUp amountIn pool.swapFee) leg.factorIn := by
    have fee := Fixed.mulUp_le unsigned priceable.swapFee_lt.le
    exact Int.fdiv_nonneg (mul_nonneg (by omega) (leg.factorIn_pos priceable).le) Fixed.one_pos.le
  obtain ⟨_, _, balanceInAt, balanceOutAt, kept⟩ := surplus_of_outGivenIn priceable.amp
    leg.several leg.short_ne (balances_nonneg priceable) (leg.invariant_nonneg priceable) sold
    leg.computed
  obtain rfl := Option.some.inj (leg.balanceInAt.symm.trans balanceInAt)
  obtain rfl := Option.some.inj (leg.balanceOutAt.symm.trans balanceOutAt)
  exact kept

theorem roundedDown (priceable : pool.Priceable) (unsigned : 0 ≤ amountIn) :
    RoundedDown pool.amp pool.balances leg.invariant := by
  obtain ⟨bound, balanceOut⟩ := List.getElem?_eq_some_iff.mp leg.balanceOutAt
  obtain ⟨released, left, -⟩ := leg.covered priceable unsigned
  have present : total pool.balances ≠ 0 := by
    have others : 0 ≤ total (pool.balances.eraseIdx leg.shortOut) :=
      total_nonneg fun x member => balances_nonneg priceable x (List.mem_of_mem_eraseIdx member)
    rw [total_eq_add bound, balanceOut]
    unfold Leg.left at left
    omega
  exact roundedInvariant_roundedDown priceable.amp (by omega) (balances_nonneg priceable) present
    leg.priced

theorem paid_le (priceable : pool.Priceable) :
    amountOut * leg.factorOut ≤ leg.released * Fixed.one :=
  (le_fdiv_iff (leg.factorOut_pos priceable)).mp leg.paid.ge

/-- A pool in which the swap is booked, as far as swaps read it. -/
structure Takes (next : ComposablePool) : Prop where
  reserves : next.reserves =
    (pool.reserves.modify i (· + amountIn)).set j (leg.reserveOut - amountOut)
  affordable : amountOut ≤ leg.reserveOut
  tokens : next.tokens = pool.tokens
  shareIndex : next.shareIndex = pool.shareIndex
  factors : next.scalingFactors = pool.scalingFactors
  amp : next.amp = pool.amp
  swapFee : next.swapFee = pool.swapFee

theorem takes_of_apply {update : Update} (applied : pool.apply update = .ok next)
    (found : pool.indices update.tokenIn update.tokenOut = .ok (i, j))
    (given : update.amountIn = amountIn) (paid : update.amountOut = amountOut) :
    leg.Takes next := by
  obtain ⟨_, _, reserveOut, found', reserveAt, affordable, rfl⟩ := apply_eq_ok applied
  obtain ⟨rfl, rfl⟩ := Prod.mk.inj (Except.ok.inj (found.symm.trans found'))
  obtain rfl := Option.some.inj (leg.reserveOutAt.symm.trans reserveAt)
  exact ⟨by rw [given, paid], paid ▸ affordable, rfl, rfl, rfl, rfl, rfl⟩

end Leg

namespace Leg.Takes

variable {leg : pool.Leg i j amountIn amountOut} (taken : leg.Takes next)
include taken

theorem reserves_eq : next.reserves = (pool.reserves.set i (leg.reserveIn + amountIn)).set j
    (leg.reserveOut - amountOut) := by
  rw [taken.reserves, List.modify_eq_set_getElem?, leg.reserveInAt]
  rfl

theorem balances_eq :
    next.balances =
      (pool.balances.set leg.shortIn (Fixed.mulDown (leg.reserveIn + amountIn) leg.factorIn)).set
        leg.shortOut (Fixed.mulDown (leg.reserveOut - amountOut) leg.factorOut) := by
  have same : next.balances = pool.dropShare (pool.upscaled next.reserves) := by
    rw [balances, dropShare, dropShare, upscaled, upscaled, taken.shareIndex, taken.factors]
  rw [same, taken.reserves_eq, balances_set leg.indexOut leg.notOut leg.factorOutAt,
    balances_set leg.indexIn leg.notIn leg.factorInAt, balances]

theorem priceable (priceable : pool.Priceable) (unsigned : 0 ≤ amountIn) : next.Priceable where
  reserves := by
    have reserveIn := priceable.reserves _
      (List.mem_eraseIdx_iff_getElem?.mpr ⟨i, leg.notIn, leg.reserveInAt⟩)
    have remaining := taken.affordable
    rw [dropShare, taken.shareIndex, taken.reserves_eq, ← dropShare,
      dropShare_set leg.indexOut leg.notOut, dropShare_set leg.indexIn leg.notIn]
    exact forall_set (forall_set priceable.reserves (add_nonneg reserveIn unsigned)) (by omega)
  factors := by
    rw [dropShare, taken.shareIndex, taken.factors]
    exact priceable.factors
  amp := taken.amp ▸ priceable.amp
  swapFee_nonneg := taken.swapFee ▸ priceable.swapFee_nonneg
  swapFee_lt := taken.swapFee ▸ priceable.swapFee_lt

/-- A swap leaves a unit of the bought balance beyond what its invariant needs. -/
theorem worth_le_surplus (priceable : pool.Priceable) (unsigned : 0 ≤ amountIn) :
    worth pool.amp next.balances leg.shortOut leg.invariant ≤
      surplus pool.amp next.balances leg.invariant := by
  obtain ⟨-, left, present, covered⟩ := leg.covered priceable unsigned
  have fee := Fixed.mulUp_nonneg unsigned priceable.swapFee_nonneg
  have filled : leg.filled ≤ Fixed.mulDown (leg.reserveIn + amountIn) leg.factorIn := by
    refine (fdiv_add_fdiv_le Fixed.one_pos).trans (fdiv_le_fdiv Fixed.one_pos ?_)
    rw [← add_mul]
    exact mul_le_mul_of_nonneg_right (by omega) (leg.factorIn_pos priceable).le
  have kept : leg.left ≤ Fixed.mulDown (leg.reserveOut - amountOut) leg.factorOut - 1 := by
    have paid := leg.paid_le priceable
    have whole := (le_fdiv_iff Fixed.one_pos).mp
      (le_refl (Fixed.mulDown leg.reserveOut leg.factorOut))
    refine sub_le_sub_right ((le_fdiv_iff Fixed.one_pos).mpr ?_) 1
    linarith
  have positive : ∀ x ∈ (pool.balances.set leg.shortIn leg.filled).set leg.shortOut leg.left,
      0 < x := forall_set present left
  have grown := surplus_mono priceable.amp
    (by simpa only [List.length_set] using Nat.zero_lt_of_lt leg.several) positive
    (forall₂_set (forall₂_set (List.forall₂_refl pool.balances) filled leg.shortIn) kept leg.shortOut)
    (leg.invariant_nonneg priceable)
  have bound : leg.shortOut < next.balances.length := by
    rw [taken.balances_eq, List.length_set, List.length_set]
    exact (List.getElem?_eq_some_iff.mp leg.balanceOutAt).1
  have entry : next.balances[leg.shortOut] =
      Fixed.mulDown (leg.reserveOut - amountOut) leg.factorOut := by
    rw [List.getElem_of_eq taken.balances_eq, List.getElem_set_self]
  have tangent : surplus pool.amp (next.balances.set leg.shortOut
      (Fixed.mulDown (leg.reserveOut - amountOut) leg.factorOut - 1)) leg.invariant ≤ _ :=
    surplus_set_le bound (left.trans_le kept)
      (balances_nonneg (taken.priceable priceable unsigned)) (leg.invariant_nonneg priceable)
  rw [entry, taken.balances_eq, List.set_set, ← taken.balances_eq] at tangent
  push_cast at tangent
  linarith

section
variable {returned : Int} (back : next.Leg j i amountOut returned)

/-- The way back is priced on the numbers that the first swap has left. -/
theorem back_eq : back.shortIn = leg.shortOut ∧ back.shortOut = leg.shortIn ∧
    back.factorIn = leg.factorOut ∧ back.factorOut = leg.factorIn ∧
    back.reserveIn = leg.reserveOut - amountOut ∧ back.reserveOut = leg.reserveIn + amountIn := by
  have indexIn := back.indexIn
  have indexOut := back.indexOut
  have factorInAt := back.factorInAt
  have factorOutAt := back.factorOutAt
  have reserveInAt := back.reserveInAt
  have reserveOutAt := back.reserveOutAt
  have boundIn := (List.getElem?_eq_some_iff.mp leg.reserveInAt).1
  have boundOut := (List.getElem?_eq_some_iff.mp leg.reserveOutAt).1
  rw [skipShare, taken.shareIndex, ← skipShare, leg.indexOut] at indexIn
  rw [skipShare, taken.shareIndex, ← skipShare, leg.indexIn] at indexOut
  rw [taken.factors, leg.factorOutAt] at factorInAt
  rw [taken.factors, leg.factorInAt] at factorOutAt
  rw [taken.reserves_eq, List.getElem?_set_self (by rwa [List.length_set])] at reserveInAt
  rw [taken.reserves_eq, List.getElem?_set_ne leg.different.symm, List.getElem?_set_self boundIn]
    at reserveOutAt
  exact ⟨(Except.ok.inj indexIn).symm, (Except.ok.inj indexOut).symm,
    (Option.some.inj factorInAt).symm, (Option.some.inj factorOutAt).symm,
    (Option.some.inj reserveInAt).symm, (Option.some.inj reserveOutAt).symm⟩

theorem back_filled_le (priceable : pool.Priceable) (sold : 0 ≤ amountOut) :
    back.filled ≤ Fixed.mulDown leg.reserveOut leg.factorOut := by
  obtain ⟨-, -, factorIn, -, reserveIn, -⟩ := taken.back_eq back
  have fee := Fixed.mulUp_nonneg sold (taken.swapFee ▸ priceable.swapFee_nonneg)
  refine (fdiv_add_fdiv_le Fixed.one_pos).trans (fdiv_le_fdiv Fixed.one_pos ?_)
  rw [factorIn, reserveIn, ← add_mul]
  exact mul_le_mul_of_nonneg_right (by omega) (leg.factorOut_pos priceable).le

/-- What the way back takes from the balance before the trip, against what it returns beyond the amount
given. -/
theorem gain_le (priceable : pool.Priceable) (unsigned : 0 ≤ amountIn) :
    (returned - amountIn) * leg.factorIn + Fixed.one -
        leg.reserveIn * leg.factorIn % Fixed.one ≤
      (Fixed.mulDown leg.reserveIn leg.factorIn - back.left) * Fixed.one := by
  obtain ⟨-, -, -, factorOut, -, reserveOut⟩ := taken.back_eq back
  have paid := back.paid_le (taken.priceable priceable unsigned)
  have whole : leg.reserveIn * leg.factorIn =
      Fixed.mulDown leg.reserveIn leg.factorIn * Fixed.one +
        leg.reserveIn * leg.factorIn % Fixed.one := by
    rw [Fixed.mulDown, Int.fdiv_eq_ediv_of_nonneg _ Fixed.one_pos.le, Int.ediv_mul_add_emod]
  have after := (le_fdiv_iff Fixed.one_pos).mp
    (le_refl (Fixed.mulDown (leg.reserveIn + amountIn) leg.factorIn))
  rw [factorOut] at paid
  rw [Leg.left, factorOut, reserveOut]
  linarith

/-- The way back keeps a surplus on the balances before the trip with what it leaves of the token that
was sold. -/
theorem surplus_back_nonneg (priceable : pool.Priceable) (unsigned : 0 ≤ amountIn)
    (sold : 0 ≤ amountOut) :
    0 < back.left ∧
      0 ≤ surplus pool.amp (pool.balances.set leg.shortIn back.left) back.invariant := by
  obtain ⟨-, left, present, covered⟩ := back.covered (taken.priceable priceable unsigned) sold
  obtain ⟨shortIn, shortOut, -⟩ := taken.back_eq back
  obtain ⟨_, balanceOut⟩ := List.getElem?_eq_some_iff.mp leg.balanceOutAt
  have replaced : (next.balances.set back.shortIn back.filled).set back.shortOut back.left =
      (pool.balances.set leg.shortIn back.left).set leg.shortOut back.filled := by
    rw [shortIn, shortOut, taken.balances_eq, List.set_set, List.set_comm _ _ leg.short_ne.symm,
      List.set_set]
  have restored : (pool.balances.set leg.shortIn back.left).set leg.shortOut
      (Fixed.mulDown leg.reserveOut leg.factorOut) = pool.balances.set leg.shortIn back.left := by
    rw [List.set_comm _ _ leg.short_ne, ← balanceOut, List.set_getElem_self]
  have positive : ∀ x ∈ (pool.balances.set leg.shortIn back.left).set leg.shortOut back.filled,
      0 < x := by
    rw [← replaced]
    exact forall_set present left
  have below := forall₂_set (List.forall₂_refl (pool.balances.set leg.shortIn back.left))
    (taken.back_filled_le back priceable sold) leg.shortOut
  have grown := surplus_mono priceable.amp
    (by simpa only [List.length_set] using Nat.zero_lt_of_lt leg.several) positive below
    (back.invariant_nonneg (taken.priceable priceable unsigned))
  rw [taken.amp, replaced] at covered
  rw [restored] at grown
  exact ⟨left, covered.trans grown⟩

/-- A trip there and back gains no more than the balances before it have as a surplus at the invariant
of the way back. -/
theorem gain_mul_worth_le (priceable : pool.Priceable) (unsigned : 0 ≤ amountIn)
    (sold : 0 ≤ amountOut) :
    (((returned - amountIn) * leg.factorIn + Fixed.one -
        leg.reserveIn * leg.factorIn % Fixed.one : Int) : ℚ) *
          worth pool.amp pool.balances leg.shortIn back.invariant ≤
      Fixed.one * surplus pool.amp pool.balances back.invariant := by
  obtain ⟨left, covered⟩ := taken.surplus_back_nonneg back priceable unsigned sold
  obtain ⟨bound, balanceIn⟩ := List.getElem?_eq_some_iff.mp leg.balanceInAt
  have nonneg := back.invariant_nonneg (taken.priceable priceable unsigned)
  have tangent := covered.trans (surplus_set_le bound left (balances_nonneg priceable) nonneg)
  rw [balanceIn] at tangent
  have gain : (((returned - amountIn) * leg.factorIn + Fixed.one -
      leg.reserveIn * leg.factorIn % Fixed.one : Int) : ℚ) ≤
        (Fixed.mulDown leg.reserveIn leg.factorIn - back.left) * Fixed.one := by
    exact_mod_cast taken.gain_le back priceable unsigned
  have unit : (0 : ℚ) ≤ Fixed.one := by exact_mod_cast Fixed.one_pos.le
  calc
    _ ≤ (Fixed.mulDown leg.reserveIn leg.factorIn - back.left) * Fixed.one *
          worth pool.amp pool.balances leg.shortIn back.invariant :=
      mul_le_mul_of_nonneg_right gain
        (worth_nonneg bound priceable.amp (balances_nonneg priceable) nonneg)
    _ = Fixed.one * ((Fixed.mulDown leg.reserveIn leg.factorIn - back.left) *
          worth pool.amp pool.balances leg.shortIn back.invariant) := by ring
    _ ≤ Fixed.one * surplus pool.amp pool.balances back.invariant :=
      mul_le_mul_of_nonneg_left (by linarith) unit

end

end Leg.Takes

theorem Pays.swapped {joinExit : Option JoinExit}
    (pays : pool.Pays i j amountIn amountOut joinExit) (notIn : i ≠ pool.shareIndex)
    (notOut : j ≠ pool.shareIndex) : ∃ fee, pool.swapGivenIn i j amountIn = .ok (amountOut, fee) := by
  cases pays with
  | join joined => exact absurd rfl notOut
  | exit different left => exact absurd rfl notIn
  | swap notIn notOut swapped => exact ⟨_, swapped⟩

theorem indices_comm {tokenIn tokenOut : Address} (same : next.tokens = pool.tokens)
    (found : pool.indices tokenIn tokenOut = .ok (i, j)) :
    next.indices tokenOut tokenIn = .ok (j, i) := by
  simp only [indices, same, Priced.bind_eq_ok, Priced.require_eq_ok, decide_eq_true_eq,
    Except.ok.injEq, Prod.mk.injEq] at found ⊢
  obtain ⟨_, foundIn, _, foundOut, _, different, rfl, rfl⟩ := found
  exact ⟨_, foundOut, _, foundIn, (), different.symm, rfl, rfl⟩

/-- A trip from token `i` to token `j` and back with all that was paid returns less than `k` more than
was given, if `k` and a unit of token `i` are worth more than the surplus of the balances before the
trip at the invariant of the way back. That surplus comes from rounding alone: the first swap leaves a
unit of token `j` beyond what its own invariant needs, and both invariants are solutions of their
equations up to rounding down. -/
theorem round_trip_gain_bounded (pool next : ComposablePool) (order : Order) (there back : Quote)
    (i j : Nat) (priceable : pool.Priceable)
    (found : pool.indices order.tokenIn order.tokenOut = .ok (i, j)) (notIn : i ≠ pool.shareIndex)
    (notOut : j ≠ pool.shareIndex) (unsigned : 0 ≤ order.amountIn)
    (quoted : pool.quote order = .ok there) (applied : pool.apply there.update = .ok next)
    (returned : next.quote ⟨order.tokenOut, there.amountOut, order.tokenIn⟩ = .ok back) :
    ∃ (leg : pool.Leg i j order.amountIn there.amountOut)
      (home : next.Leg j i there.amountOut back.amountOut),
      RoundedDown pool.amp pool.balances leg.invariant ∧
      RoundedDown pool.amp next.balances home.invariant ∧
      worth pool.amp next.balances leg.shortOut leg.invariant ≤
        surplus pool.amp next.balances leg.invariant ∧
      ∀ k : Int, Fixed.one * surplus pool.amp pool.balances home.invariant <
          ((k * leg.factorIn + Fixed.one - leg.reserveIn * leg.factorIn % Fixed.one : Int) : ℚ) *
            worth pool.amp pool.balances leg.shortIn home.invariant →
        back.amountOut < order.amountIn + k := by
  obtain ⟨_, _, _, _, found', sold, pays, update⟩ := quote_eq_ok quoted
  obtain ⟨rfl, rfl⟩ := Prod.mk.inj (Except.ok.inj (found.symm.trans found'))
  obtain ⟨_, swapped⟩ := pays.swapped notIn notOut
  obtain ⟨leg⟩ := exists_leg notIn notOut (indices_ne found) swapped
  have taken : leg.Takes next :=
    leg.takes_of_apply applied (by rw [update]; exact found) (by rw [update]) (by rw [update])
  obtain ⟨_, _, _, _, found', -, pays, -⟩ := quote_eq_ok returned
  obtain ⟨rfl, rfl⟩ :=
    Prod.mk.inj (Except.ok.inj ((indices_comm taken.tokens found).symm.trans found'))
  have notIn' : i ≠ next.shareIndex := taken.shareIndex ▸ notIn
  have notOut' : j ≠ next.shareIndex := taken.shareIndex ▸ notOut
  obtain ⟨_, swapped⟩ := pays.swapped notOut' notIn'
  obtain ⟨home⟩ := exists_leg notOut' notIn' (indices_ne found).symm swapped
  refine ⟨leg, home, leg.roundedDown priceable unsigned,
    taken.amp ▸ home.roundedDown (taken.priceable priceable unsigned) sold.le,
    taken.worth_le_surplus priceable unsigned, fun k short => ?_⟩
  by_contra gained
  have more : k * leg.factorIn ≤ (back.amountOut - order.amountIn) * leg.factorIn :=
    mul_le_mul_of_nonneg_right (by omega) (leg.factorIn_pos priceable).le
  have bound := (List.getElem?_eq_some_iff.mp leg.balanceInAt).1
  have weighted := mul_le_mul_of_nonneg_right
    (show ((k * leg.factorIn + Fixed.one - leg.reserveIn * leg.factorIn % Fixed.one : Int) : ℚ) ≤
      ((back.amountOut - order.amountIn) * leg.factorIn + Fixed.one -
        leg.reserveIn * leg.factorIn % Fixed.one : Int) by exact_mod_cast (by omega))
    (worth_nonneg bound priceable.amp (balances_nonneg priceable)
      (home.invariant_nonneg (taken.priceable priceable unsigned)))
  have gain := taken.gain_mul_worth_le home priceable unsigned sold.le
  exact absurd (short.trans_le (weighted.trans gain)) (lt_irrefl _)

/-- Three tokens beside the share token, the second of them scarce, without a swap fee. -/
def unevenTriple : ComposablePool where
  address := ⟨500⟩
  poolId := "0x00"
  vault := Address.zero
  version := 5
  tokens := [⟨1⟩, ⟨500⟩, ⟨2⟩, ⟨3⟩]
  reserves := [57620126038161446928384, 2596148429267413814265248164610048, 570448155204665212928,
    37980094746213375541248]
  shareIndex := 1
  scalingFactors := [Fixed.one, Fixed.one, Fixed.one, Fixed.one]
  totalShares := 2596148429269413814265248164610048
  amp := 100000
  swapFee := 0
  lastJoinExit := ⟨100000, 89986189890796201790567⟩
  rateCaches := [none, none, none, none]
  protocolFees := ⟨0, 0, [false, false, false, false], false, false⟩
  paused := false
  ratesStuck := false

/-- A large sale of the third token of the sample for the first one. -/
def largeSale : Order :=
  ⟨⟨3⟩, 911542503391111993795984, ⟨1⟩⟩

theorem unevenTriple_priceable : unevenTriple.Priceable :=
  ⟨by decide, by decide, by decide, by decide, by decide⟩

theorem unevenTriple_trip :
    ∃ there next back, unevenTriple.quote largeSale = .ok there ∧
      unevenTriple.apply there.update = .ok next ∧
      next.quote ⟨largeSale.tokenOut, there.amountOut, largeSale.tokenIn⟩ = .ok back ∧
      roundedInvariant next.amp next.balances false = .ok 89986189890796201773244 ∧
      back.amountOut = 911542503391111993809515 := by
  have computed : (do
      let there ← unevenTriple.quote largeSale
      let next ← unevenTriple.apply there.update
      let back ← next.quote ⟨largeSale.tokenOut, there.amountOut, largeSale.tokenIn⟩
      .ok (back.amountOut, roundedInvariant next.amp next.balances false) :
        Priced (Int × Priced Int)) =
      .ok (911542503391111993809515, .ok 89986189890796201773244) := by
    decide +kernel
  simp only [Priced.bind_eq_ok, Except.ok.injEq, Prod.mk.injEq] at computed
  obtain ⟨there, quoted, next, applied, back, returned, paid, invariant⟩ := computed
  exact ⟨there, next, back, quoted, applied, returned, invariant, paid⟩

/-- The trip gains 13531 units of the third token, and the bound allows 19012. -/
theorem unevenTriple_gain :
    ∃ there next back, unevenTriple.quote largeSale = .ok there ∧
      unevenTriple.apply there.update = .ok next ∧
      next.quote ⟨largeSale.tokenOut, there.amountOut, largeSale.tokenIn⟩ = .ok back ∧
      back.amountOut ≤ largeSale.amountIn + 19012 := by
  obtain ⟨there, next, back, quoted, applied, returned, invariant, -⟩ := unevenTriple_trip
  refine ⟨there, next, back, quoted, applied, returned, ?_⟩
  obtain ⟨leg, home, -, -, -, bounded⟩ := round_trip_gain_bounded unevenTriple next largeSale there
    back 3 0 unevenTriple_priceable rfl (by decide) (by decide) (by decide) quoted applied returned
  have short : leg.shortIn = 2 := (Except.ok.inj leg.indexIn).symm
  have factor : leg.factorIn = Fixed.one := (Option.some.inj leg.factorInAt).symm
  have priced := Except.ok.inj (home.priced.symm.trans invariant)
  have limited := bounded 19013
  rw [short, factor, priced, Int.mul_emod_left, sub_zero] at limited
  exact Int.lt_add_one_iff.mp (limited (by decide +kernel))

/-- A trip can return more than was given. -/
theorem round_trip_gains :
    ¬ ∀ (pool next : ComposablePool) (order : Order) (there back : Quote) (i j : Nat),
      pool.Priceable → (∀ reserve ∈ pool.dropShare pool.reserves, 0 < reserve) →
      pool.indices order.tokenIn order.tokenOut = .ok (i, j) →
      i ≠ pool.shareIndex → j ≠ pool.shareIndex → 0 ≤ order.amountIn →
      pool.quote order = .ok there → pool.apply there.update = .ok next →
      next.quote ⟨order.tokenOut, there.amountOut, order.tokenIn⟩ = .ok back →
      back.amountOut ≤ order.amountIn := by
  intro bounded
  obtain ⟨there, next, back, quoted, applied, returned, -, paid⟩ := unevenTriple_trip
  have kept := bounded _ next _ there back 3 0 unevenTriple_priceable (by decide) rfl (by decide)
    (by decide) (by decide) quoted applied returned
  rw [paid] at kept
  exact absurd kept (by decide)

end ComposablePool
end Amm
