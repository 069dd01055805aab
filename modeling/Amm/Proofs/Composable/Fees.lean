import Amm.Proofs.Composable.Solver

/-!
The fees of joins with exact amounts and of exits for exact shares. Only the part of a deposit by which it
grows its balance more than the pool pays the fee, and only the part of a withdrawal beyond the weight of
its token. What is left after the fee is rounded down, so that the fee is a share of the taxed part rounded
up, and never more than the same share of the whole.
-/

namespace Amm

theorem Fixed.complement_nonneg (x : Int) : 0 ≤ Fixed.complement x := by
  unfold Fixed.complement
  split <;> omega

theorem Fixed.complement_le {x : Int} (unsigned : 0 ≤ x) : Fixed.complement x ≤ Fixed.one := by
  unfold Fixed.complement
  split
  · omega
  · exact Fixed.one_pos.le

namespace Composable

/-- What is left of an amount after a fee of no more than its share at a rate, rounded up. -/
structure Charged (rate whole left : Int) : Prop where
  unsigned : 0 ≤ left
  covered : left ≤ whole
  fee_le : whole - left ≤ Fixed.mulUp whole rate

theorem difference_of_le {a b : Int} (covered : b ≤ a) : difference a b = .ok (a - b) :=
  if_neg (by omega)

section
variable {swapFee : Int} (charge : 0 ≤ swapFee) (part : swapFee ≤ Fixed.one)
include charge

theorem charged_untaxed {amount : Int} (unsigned : 0 ≤ amount) : Charged swapFee amount amount where
  unsigned := unsigned
  covered := le_rfl
  fee_le := by
    rw [sub_self]
    exact Fixed.mulUp_nonneg unsigned charge

include part

/-- Of two parts only the second one is taxed. -/
theorem charged_parts {untaxed taxed : Int} (unsigned : 0 ≤ untaxed) (present : 0 ≤ taxed) :
    Charged swapFee (untaxed + taxed) (untaxed + Fixed.mulDown taxed (Fixed.one - swapFee)) := by
  have fee : untaxed + taxed - (untaxed + Fixed.mulDown taxed (Fixed.one - swapFee)) =
      Fixed.mulUp taxed swapFee := by
    rw [add_sub_add_left_eq_sub, Fixed.sub_mulDown_complement]
  refine ⟨add_nonneg unsigned (Fixed.mulDown_nonneg present (sub_nonneg.mpr part)), ?_, ?_⟩
  · rw [← sub_nonneg, fee]
    exact Fixed.mulUp_nonneg present charge
  · rw [fee]
    exact Fixed.mulUp_mono (le_add_of_nonneg_left unsigned) charge

theorem depositAfterFee_charged {mean balance amount ratio after : Int} (held : 0 ≤ balance)
    (unsigned : 0 ≤ amount)
    (computed : depositAfterFee swapFee mean balance amount ratio = .ok after) :
    Charged swapFee amount after := by
  unfold depositAfterFee at computed
  split at computed
  · simp only [Priced.bind_eq_ok, Except.ok.injEq] at computed
    obtain ⟨growth, grown, taxable, taxed, kept, rest, rfl⟩ := computed
    obtain ⟨above, rfl⟩ := difference_eq_ok grown
    obtain ⟨covered, rfl⟩ := difference_eq_ok taxed
    obtain ⟨-, rfl⟩ := difference_eq_ok rest
    have untaxed := Fixed.mulDown_nonneg held (sub_nonneg.mpr above)
    have charged := charged_parts charge part untaxed (sub_nonneg.mpr covered)
    rwa [add_sub_cancel] at charged
  · obtain rfl := Except.ok.inj computed
    exact charged_untaxed charge unsigned

end

/-! ### Joins -/

/-- The deposits of a join after their fees, in the order of the balances. -/
def depositsAfterFee (swapFee : Int) (balances amountsIn : List Int) : Priced (List Int) := do
  let pairs := balances.zip amountsIn
  let growths ← pairs.mapM fun (balance, amount) => growthOf (total balances) balance amount
  let mean := total (growths.map fun (ratio, weight) => Fixed.mulDown ratio weight)
  (pairs.zip growths).mapM fun ((balance, amount), ratio, _) =>
    depositAfterFee swapFee mean balance amount ratio

section
variable {amp supply invariant swapFee : Int} {balances amountsIn kept : List Int}

theorem sharesOut_eq (amp : Int) (balances amountsIn : List Int) (supply invariant swapFee : Int) :
    sharesOut amp balances amountsIn supply invariant swapFee = (do
      let kept ← depositsAfterFee swapFee balances amountsIn
      let pairs := balances.zip amountsIn
      let next ← Composable.invariant amp (pairs.zipWith (fun pair after => pair.1 + after) kept)
      let ratio ← ratioDown next invariant
      .ok ⟨if Fixed.one < ratio then Fixed.mulDown supply (ratio - Fixed.one) else 0,
        total (pairs.zipWith (fun pair after => pair.2 - after) kept)⟩) := by
  simp only [sharesOut, depositsAfterFee, bind_assoc]

theorem depositsAfterFee_charged (charge : 0 ≤ swapFee) (part : swapFee ≤ Fixed.one)
    (held : ∀ balance ∈ balances, 0 ≤ balance) (unsigned : ∀ amount ∈ amountsIn, 0 ≤ amount)
    (computed : depositsAfterFee swapFee balances amountsIn = .ok kept) :
    List.Forall₂ (fun pair after => Charged swapFee pair.2 after) (balances.zip amountsIn) kept := by
  obtain ⟨growths, grown, computed⟩ := Priced.bind_eq_ok.mp computed
  have aligned : (balances.zip amountsIn).length ≤ growths.length := (Priced.mapM_length grown).ge
  have signs : ∀ deposit ∈ (balances.zip amountsIn).zip growths,
      0 ≤ deposit.1.1 ∧ 0 ≤ deposit.1.2 := by
    intro deposit member
    have entries := List.of_mem_zip (List.of_mem_zip member).1
    exact ⟨held _ entries.1, unsigned _ entries.2⟩
  rw [← List.map_fst_zip aligned, List.forall₂_map_left_iff]
  refine ((List.forall₂_and_left _ _).mpr ⟨signs, Priced.mapM_forall₂ computed⟩).imp ?_
  rintro ⟨⟨balance, amount⟩, ratio, weight⟩ after ⟨sign, taken⟩
  exact depositAfterFee_charged charge part sign.1 sign.2 taken

/-- Fees that are bounded one by one are bounded as a whole. -/
theorem total_fees_bounds {pairs : List (Int × Int)}
    (each : List.Forall₂ (fun pair after => Charged swapFee pair.2 after) pairs kept) :
    0 ≤ total (pairs.zipWith (fun pair after => pair.2 - after) kept) ∧
      total (pairs.zipWith (fun pair after => pair.2 - after) kept) ≤
        total (pairs.map fun pair => Fixed.mulUp pair.2 swapFee) := by
  simp only [total_eq_sum]
  induction each with
  | nil => exact ⟨le_rfl, le_rfl⟩
  | cons charged _ ih =>
      rw [List.zipWith_cons_cons, List.map_cons, List.sum_cons, List.sum_cons]
      exact ⟨add_nonneg (sub_nonneg.mpr charged.covered) ih.1, add_le_add charged.fee_le ih.2⟩

end

/-! ### Exits -/

/-- What the balance of a token falls by as shares are burned, before any fee. -/
def reduction (amp : Int) (balances : List Int) (index : Nat) (sharesIn supply invariant : Int) :
    Priced Int := do
  let left ← difference supply sharesIn
  let ratio ← ratioUp left supply
  let rest ← balanceFor amp balances (Fixed.mulUp ratio invariant) index
  let balance ← Priced.entry balances index
  difference balance rest

/-- What is paid out of a reduction, and the fee on the part of it beyond the weight of the token. -/
def paidOut (swapFee weight reduced : Int) : Priced Outcome := do
  let taxable := Fixed.mulUp reduced (Fixed.complement weight)
  let nonTaxable ← difference reduced taxable
  let kept ← difference Fixed.one swapFee
  let afterFee := Fixed.mulDown taxable kept
  .ok ⟨nonTaxable + afterFee, taxable - afterFee⟩

theorem tokenOut_eq (amp : Int) (balances : List Int) (index : Nat)
    (sharesIn supply invariant swapFee : Int) :
    tokenOut amp balances index sharesIn supply invariant swapFee = (do
      let reduced ← reduction amp balances index sharesIn supply invariant
      let balance ← Priced.entry balances index
      let weight ← ratioDown balance (total balances)
      paidOut swapFee weight reduced) := by
  simp only [tokenOut, reduction, paidOut, bind_assoc]
  cases Priced.entry balances index with
  | error failure => simp only [Priced.error_bind]
  | ok balance => simp only [Priced.ok_bind]

section
variable {balances : List Int} {swapFee weight reduced : Int} (charge : 0 ≤ swapFee)
  (part : swapFee ≤ Fixed.one)
include charge part

/-- The taxed part is rounded up, but not above the reduction. -/
theorem exists_paidOut (unsigned : 0 ≤ reduced) (weighted : 0 ≤ weight) :
    ∃ outcome, paidOut swapFee weight reduced = .ok outcome ∧ outcome.amount + outcome.fee = reduced ∧
      Charged swapFee reduced outcome.amount := by
  have taxed := Fixed.mulUp_nonneg unsigned (Fixed.complement_nonneg weight)
  have covered := Fixed.mulUp_le unsigned (Fixed.complement_le weighted)
  unfold paidOut
  dsimp only
  generalize Fixed.mulUp reduced (Fixed.complement weight) = taxable at taxed covered ⊢
  have charged := charged_parts charge part (sub_nonneg.mpr covered) taxed
  rw [sub_add_cancel] at charged
  rw [difference_of_le covered, Priced.ok_bind, difference_of_le part, Priced.ok_bind]
  refine ⟨_, rfl, ?_, charged⟩
  dsimp only
  ring

theorem exists_tokenOut {amp sharesIn supply invariant : Int} {index : Nat}
    (positive : ∀ balance ∈ balances, 0 < balance)
    (falls : reduction amp balances index sharesIn supply invariant = .ok reduced) :
    ∃ outcome, tokenOut amp balances index sharesIn supply invariant swapFee = .ok outcome ∧
      outcome.amount + outcome.fee = reduced ∧ Charged swapFee reduced outcome.amount := by
  obtain ⟨balance, entry, unsigned⟩ :
      ∃ balance, Priced.entry balances index = .ok balance ∧ 0 ≤ reduced := by
    simp only [reduction, Priced.bind_eq_ok] at falls
    obtain ⟨_, -, _, -, rest, -, balance, entry, left⟩ := falls
    obtain ⟨covered, rfl⟩ := difference_eq_ok left
    exact ⟨balance, entry, sub_nonneg.mpr covered⟩
  obtain ⟨bound, found⟩ := List.getElem?_eq_some_iff.mp (Priced.entry_eq_ok.mp entry)
  have held : 0 < balance := found ▸ positive _ (List.getElem_mem bound)
  have whole : 0 < total balances := total_pos (List.ne_nil_of_length_pos (by omega)) positive
  have weighted : 0 ≤ (balance * Fixed.one).fdiv (total balances) :=
    Int.fdiv_nonneg (mul_nonneg held.le Fixed.one_pos.le) whole.le
  have weight : ratioDown balance (total balances) =
      .ok ((balance * Fixed.one).fdiv (total balances)) := ratioDown_eq_ok.mpr ⟨whole.ne', rfl⟩
  rw [tokenOut_eq, falls, Priced.ok_bind, entry, Priced.ok_bind, weight, Priced.ok_bind]
  exact exists_paidOut charge part unsigned weighted

end

/-- A join that succeeds takes from each deposit no more than the deposit, and mints no negative amount of
shares. Its fee is what it has taken, and not more than the share of each deposit at the fee rate, rounded
up. An exit pays the whole reduction of a balance in two parts, the amount and the fee. The fee is not more
than the share of the reduction, and the reduction is all that can be refused: what is not taxed is never
less than nothing. -/
theorem join_and_exit_fees_bounded (amp swapFee : Int) (balances : List Int)
    (positive : ∀ balance ∈ balances, 0 < balance) (charge : 0 ≤ swapFee)
    (part : swapFee ≤ Fixed.one) :
    (∀ (amountsIn : List Int) (supply invariant : Int) (outcome : Outcome),
      (∀ amount ∈ amountsIn, 0 ≤ amount) →
      sharesOut amp balances amountsIn supply invariant swapFee = .ok outcome →
      ∃ kept, depositsAfterFee swapFee balances amountsIn = .ok kept ∧
        List.Forall₂ (fun pair after => 0 ≤ after ∧ after ≤ pair.2) (balances.zip amountsIn) kept ∧
        (0 ≤ supply → 0 ≤ outcome.amount) ∧
        outcome.fee = total ((balances.zip amountsIn).zipWith (fun pair after => pair.2 - after) kept) ∧
        0 ≤ outcome.fee ∧
        outcome.fee ≤ total ((balances.zip amountsIn).map fun pair => Fixed.mulUp pair.2 swapFee)) ∧
    ∀ (index : Nat) (sharesIn supply invariant : Int),
      (∀ outcome, tokenOut amp balances index sharesIn supply invariant swapFee = .ok outcome →
        ∃ reduced, reduction amp balances index sharesIn supply invariant = .ok reduced ∧
          outcome.amount + outcome.fee = reduced ∧ 0 ≤ outcome.amount ∧ 0 ≤ outcome.fee ∧
          outcome.fee ≤ Fixed.mulUp reduced swapFee) ∧
      ∀ reduced, reduction amp balances index sharesIn supply invariant = .ok reduced →
        ∃ outcome, tokenOut amp balances index sharesIn supply invariant swapFee = .ok outcome := by
  refine ⟨?_, ?_⟩
  · intro amountsIn supply invariant outcome unsigned minted
    rw [sharesOut_eq, Priced.bind_eq_ok] at minted
    obtain ⟨kept, computed, minted⟩ := minted
    simp only [Priced.bind_eq_ok, Except.ok.injEq] at minted
    obtain ⟨_, -, ratio, -, rfl⟩ := minted
    have charged := depositsAfterFee_charged charge part (fun x member => (positive x member).le)
      unsigned computed
    refine ⟨kept, computed, charged.imp fun _ _ taken => ⟨taken.unsigned, taken.covered⟩, ?_, rfl,
      total_fees_bounds charged⟩
    intro issued
    dsimp only
    split
    · exact Fixed.mulDown_nonneg issued (by omega)
    · exact le_rfl
  · intro index sharesIn supply invariant
    refine ⟨fun outcome paid => ?_, fun reduced falls => ?_⟩
    · obtain ⟨reduced, falls, -⟩ := Priced.bind_eq_ok.mp (tokenOut_eq .. ▸ paid)
      obtain ⟨_, paid', parts, charged⟩ := exists_tokenOut charge part positive falls
      obtain rfl := Except.ok.inj (paid.symm.trans paid')
      have fee := sub_eq_of_eq_add' parts.symm
      exact ⟨reduced, falls, parts, charged.unsigned, fee ▸ sub_nonneg.mpr charged.covered,
        fee ▸ charged.fee_le⟩
    · obtain ⟨outcome, paid, -⟩ := exists_tokenOut charge part positive falls
      exact ⟨outcome, paid⟩

/-- A deposit of half a balance pays a hundredth of two thirds of it, the part beyond the mean growth. An
exit for a tenth of the shares pays a hundredth of two thirds of the reduction, the part beyond the weight
of its token. -/
theorem one_sided_join_and_exit_taxed :
    (∃ outcome kept, sharesOut 200000 [10 ^ 21, 2 * 10 ^ 21] [500000000000000000000, 0] (3 * 10 ^ 21)
        2999068031122620559438 10000000000000000 = .ok outcome ∧
      depositsAfterFee 10000000000000000 [10 ^ 21, 2 * 10 ^ 21] [500000000000000000000, 0] = .ok kept ∧
      outcome = ⟨497569192328852787000, 3333333333333333350⟩ ∧ 0 ≤ outcome.amount ∧
      outcome.fee ≤ 5000000000000000000) ∧
    ∃ outcome reduced, tokenOut 200000 [10 ^ 21, 2 * 10 ^ 21] 0 (3 * 10 ^ 20) (3 * 10 ^ 21)
        2999068031122620559438 10000000000000000 = .ok outcome ∧
      reduction 200000 [10 ^ 21, 2 * 10 ^ 21] 0 (3 * 10 ^ 20) (3 * 10 ^ 21)
        2999068031122620559438 = .ok reduced ∧
      outcome = ⟨296830399754098514635, 1992150333920124261⟩ ∧
      reduced = 298822550088018638896 ∧ outcome.fee ≤ Fixed.mulUp reduced 10000000000000000 := by
  obtain ⟨joins, exits⟩ := join_and_exit_fees_bounded 200000 10000000000000000
    [10 ^ 21, 2 * 10 ^ 21] (by decide) (by decide) (by decide)
  have minted : sharesOut 200000 [10 ^ 21, 2 * 10 ^ 21] [500000000000000000000, 0] (3 * 10 ^ 21)
      2999068031122620559438 10000000000000000 =
        .ok ⟨497569192328852787000, 3333333333333333350⟩ := by decide +kernel
  have paid : tokenOut 200000 [10 ^ 21, 2 * 10 ^ 21] 0 (3 * 10 ^ 20) (3 * 10 ^ 21)
      2999068031122620559438 10000000000000000 =
        .ok ⟨296830399754098514635, 1992150333920124261⟩ := by decide +kernel
  constructor
  · obtain ⟨kept, computed, -, amount, -, -, fee⟩ := joins _ _ _ _ (by decide) minted
    exact ⟨_, kept, minted, computed, rfl, amount (by decide), fee.trans (by decide)⟩
  · obtain ⟨reduced, falls, parts, -, -, fee⟩ := (exits 0 _ _ _).1 _ paid
    exact ⟨_, reduced, paid, falls, rfl, parts.symm, fee⟩

end Composable
end Amm
