import Amm.Proofs.Composable.Rates
import Amm.Proofs.Composable.Solver

/-!
The part of a composable pool that the protocol is owed, for the versions that measure growth for the
pool as a whole. Swap fees and yield share the growth since the last join or exit, whichever way the
rates have moved, so the part is a mix of the two fee percentages and of nothing. It stays below the
whole, and the shares minted for it are never more than the part of the supply that they join.
-/

namespace Amm

/-- Two parts of a whole, each of them charged at a rate of its own, cost no more than the whole at the
higher rate. -/
theorem Fixed.mulDown_add_mulDown_le {a b swap yield bound : Int} (first : 0 ≤ a) (second : 0 ≤ b)
    (parts : a + b ≤ Fixed.one) (low : swap ≤ bound) (high : yield ≤ bound) (unsigned : 0 ≤ bound) :
    Fixed.mulDown a swap + Fixed.mulDown b yield ≤ bound := by
  refine (fdiv_add_fdiv_le Fixed.one_pos).trans ?_
  rw [fdiv_le_iff Fixed.one_pos]
  have whole := Fixed.one_pos
  calc a * swap + b * yield
      ≤ a * bound + b * bound :=
        add_le_add (mul_le_mul_of_nonneg_left low first) (mul_le_mul_of_nonneg_left high second)
    _ = (a + b) * bound := (add_mul a b bound).symm
    _ ≤ Fixed.one * bound := mul_le_mul_of_nonneg_right parts unsigned
    _ < (bound + 1) * Fixed.one := by linarith

namespace ComposablePool

/-- Growth by swap fees and by yield that together is not more than the invariant has grown. -/
structure Deltas.Within (deltas : Deltas) (grown : Int) : Prop where
  swapFees : 0 ≤ deltas.swapFees
  yield : 0 ≤ deltas.yield
  together : deltas.swapFees + deltas.yield ≤ grown

variable {pool : ComposablePool} {balances : List Int} {deltas : Deltas} {total : Int}

/-- The invariant at old rates is cut to what lies between the last invariant and the one of now. -/
theorem poolDeltas_within (measured : pool.poolDeltas balances total = .ok (some deltas)) :
    pool.lastJoinExit.invariant < total ∧ deltas.Within (total - pool.lastJoinExit.invariant) := by
  unfold poolDeltas at measured
  dsimp only at measured
  split at measured
  · simp at measured
  · rename_i grown
    simp only [Priced.bind_eq_ok, Except.ok.injEq, Option.some.injEq] at measured
    obtain ⟨atOldRates, -, invariant, -, rfl⟩ := measured
    have low := le_max_right (min invariant total) pool.lastJoinExit.invariant
    have high : max (min invariant total) pool.lastJoinExit.invariant ≤ total :=
      max_le (min_le_right _ _) (not_le.mp grown).le
    refine ⟨not_le.mp grown, by dsimp only; omega, ?_, ?_⟩
    all_goals
      dsimp only
      split <;> omega

/-- The percentages that the protocol charges, none of them the whole. -/
structure ChargesPart (pool : ComposablePool) : Prop where
  swap : 0 ≤ pool.protocolFees.swap ∧ pool.protocolFees.swap < Fixed.one
  yield : 0 ≤ pool.protocolFees.yield ∧ pool.protocolFees.yield < Fixed.one

section
variable {part : Int}

theorem ownedPart_eq_ok (owned : pool.ownedPart deltas total = .ok part) :
    total ≠ 0 ∧ part =
      Fixed.mulDown ((deltas.swapFees * Fixed.one).fdiv total) pool.protocolFees.percentages.1 +
        Fixed.mulDown ((deltas.yield * Fixed.one).fdiv total) pool.protocolFees.percentages.2 := by
  simp only [ownedPart, Priced.bind_eq_ok, Composable.ratioDown_eq_ok, Except.ok.injEq] at owned
  obtain ⟨_, ⟨nonzero, rfl⟩, _, ⟨-, rfl⟩, rfl⟩ := owned
  exact ⟨nonzero, rfl⟩

theorem ownedPart_of_recovery (recovery : pool.protocolFees.recovery = true)
    (owned : pool.ownedPart deltas total = .ok part) : part = 0 := by
  obtain ⟨-, rfl⟩ := ownedPart_eq_ok owned
  simp [Composable.ProtocolFees.percentages, recovery, Fixed.mulDown]

theorem ownedPart_bounds (charges : pool.ChargesPart) (within : deltas.Within total)
    (positive : 0 < total) (owned : pool.ownedPart deltas total = .ok part) :
    0 ≤ part ∧ part ≤ max pool.protocolFees.swap pool.protocolFees.yield := by
  by_cases recovery : pool.protocolFees.recovery = true
  · rw [ownedPart_of_recovery recovery owned]
    exact ⟨le_rfl, le_max_of_le_left charges.swap.1⟩
  · obtain ⟨-, rfl⟩ := ownedPart_eq_ok owned
    simp only [Composable.ProtocolFees.percentages, if_neg recovery]
    have swapPart : 0 ≤ (deltas.swapFees * Fixed.one).fdiv total :=
      Int.fdiv_nonneg (mul_nonneg within.swapFees Fixed.one_pos.le) positive.le
    have yieldPart : 0 ≤ (deltas.yield * Fixed.one).fdiv total :=
      Int.fdiv_nonneg (mul_nonneg within.yield Fixed.one_pos.le) positive.le
    have parts : (deltas.swapFees * Fixed.one).fdiv total + (deltas.yield * Fixed.one).fdiv total ≤
        Fixed.one := by
      refine (fdiv_add_fdiv_le positive).trans ?_
      have scaled := mul_le_mul_of_nonneg_right within.together Fixed.one_pos.le
      rw [fdiv_le_iff positive]
      linarith
    exact ⟨add_nonneg (Fixed.mulDown_nonneg swapPart charges.swap.1)
        (Fixed.mulDown_nonneg yieldPart charges.yield.1),
      Fixed.mulDown_add_mulDown_le swapPart yieldPart parts (le_max_left _ _) (le_max_right _ _)
        (le_max_of_le_left charges.swap.1)⟩

end

section
variable {owned : Ownership} (version : 5 ≤ pool.version)
  (computed : pool.ownership balances = .ok owned)
include version computed

/-- Without growth the protocol owns nothing. Otherwise its part is one of the growth. -/
theorem ownership_cases : owned.percentage = 0 ∨ ∃ deltas,
    pool.poolDeltas balances owned.invariant = .ok (some deltas) ∧
      pool.ownedPart deltas owned.invariant = .ok owned.percentage := by
  rw [ownership, if_pos version, Priced.bind_eq_ok] at computed
  obtain ⟨total, -, computed⟩ := computed
  obtain ⟨measured, found, computed⟩ := Priced.bind_eq_ok.mp computed
  cases measured with
  | none =>
      obtain rfl := Except.ok.inj computed
      exact .inl rfl
  | some deltas =>
      obtain ⟨part, charged, same⟩ := Priced.bind_eq_ok.mp computed
      obtain rfl := Except.ok.inj same
      exact .inr ⟨deltas, found, charged⟩

end

/-- The shares that are minted for a part below the whole are that part of the supply with them in it,
rounded down. -/
theorem exists_protocolShares {supply percentage : Int} (version : 5 ≤ pool.version)
    (unsigned : 0 ≤ supply) (start : 0 ≤ percentage) (part : percentage < Fixed.one) :
    ∃ shares, pool.protocolShares supply percentage = .ok shares ∧ 0 ≤ shares ∧
      shares * Fixed.one ≤ percentage * (supply + shares) := by
  have rest : Fixed.complement percentage = Fixed.one - percentage := if_pos part
  have positive : 0 < Fixed.one - percentage := by omega
  refine ⟨(supply * percentage).fdiv (Fixed.one - percentage), ?_,
    Int.fdiv_nonneg (mul_nonneg unsigned start) positive.le, ?_⟩
  · rw [protocolShares, if_neg (by omega), rest]
    exact Priced.quotient_eq_ok.mpr ⟨positive.ne', rfl⟩
  · have floored := (le_fdiv_iff positive).mp
      (le_refl ((supply * percentage).fdiv (Fixed.one - percentage)))
    linarith

/-- The part that the protocol is owed is between nothing and the higher of the percentages that it
charges, whatever the balances are and however the rates have moved. So the shares to mint for it are
always found, for every supply, and they are not more than that part of the supply after them. -/
theorem owed_part_bounded (pool : ComposablePool) (balances : List Int) (owned : Ownership)
    (version : 5 ≤ pool.version) (last : 0 ≤ pool.lastJoinExit.invariant)
    (charges : pool.ChargesPart) (computed : pool.ownership balances = .ok owned) :
    0 ≤ owned.percentage ∧
      owned.percentage ≤ max pool.protocolFees.swap pool.protocolFees.yield ∧
      (pool.protocolFees.recovery = true → owned.percentage = 0) ∧
      ∀ supply, 0 ≤ supply → ∃ shares,
        pool.protocolShares supply owned.percentage = .ok shares ∧ 0 ≤ shares ∧
          shares * Fixed.one ≤ owned.percentage * (supply + shares) := by
  obtain ⟨low, high, none⟩ : 0 ≤ owned.percentage ∧
      owned.percentage ≤ max pool.protocolFees.swap pool.protocolFees.yield ∧
      (pool.protocolFees.recovery = true → owned.percentage = 0) := by
    rcases ownership_cases version computed with zero | ⟨deltas, measured, charged⟩
    · rw [zero]
      exact ⟨le_rfl, le_max_of_le_left charges.swap.1, fun _ => rfl⟩
    · obtain ⟨grown, within⟩ := poolDeltas_within measured
      have whole : deltas.Within owned.invariant :=
        ⟨within.swapFees, within.yield, within.together.trans (by omega)⟩
      obtain ⟨low, high⟩ := ownedPart_bounds charges whole (by omega) charged
      exact ⟨low, high, fun recovery => ownedPart_of_recovery recovery charged⟩
  exact ⟨low, high, none, fun supply unsigned => exists_protocolShares version unsigned low
    (high.trans_lt (max_lt charges.swap.2 charges.yield.2))⟩

/-- Since the last join or exit one rate has risen by a tenth and the other has fallen by a hundredth,
the invariant has grown at the old rates too, and the two percentages differ. -/
def sampleMixed : ComposablePool :=
  { sampleYielding with
    lastJoinExit := ⟨200000, 1990000000000000000000⟩
    rateCaches := [some ⟨1100000000000000000, Fixed.one⟩, none,
      some ⟨Fixed.one, 1010000000000000000⟩]
    protocolFees :=
      ⟨500000000000000000, 200000000000000000, [false, false, false], false, false⟩ }

/-- The protocol is owed a little more than one part in a hundred, though no percentage is below a
fifth: the rest of the pool has not grown. -/
theorem sampleMixed_owed_part :
    ∃ owned, sampleMixed.ownership [1100000000000000000000, 1000000000000000000000] = .ok owned ∧
      owned.percentage = 13332260335371590 ∧
      owned.percentage ≤ max sampleMixed.protocolFees.swap sampleMixed.protocolFees.yield ∧
      ∃ shares, sampleMixed.protocolShares 2000000000000000000000 owned.percentage = .ok shares ∧
        0 ≤ shares ∧
        shares * Fixed.one ≤ owned.percentage * (2000000000000000000000 + shares) := by
  have computed : sampleMixed.ownership [1100000000000000000000, 1000000000000000000000] =
      .ok ⟨13332260335371590, 2099988127744956843734⟩ := by decide +kernel
  obtain ⟨-, part, -, shares⟩ := owed_part_bounded sampleMixed _ _ (by decide) (by decide)
    ⟨by decide, by decide⟩ computed
  exact ⟨_, computed, rfl, part, shares 2000000000000000000000 (by decide)⟩

end ComposablePool
end Amm
