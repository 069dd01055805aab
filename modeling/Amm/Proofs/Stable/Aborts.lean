import Amm.Proofs.Aborts
import Amm.Proofs.Stable.Swap
import Amm.Stable.Holdings

/-!
The faults of stable holdings. No index is out of range, because the scaled balances are as many as
the reserves. The solver for the invariant divides by the precision, and an amount paid out is
divided by the rate of its token; the solvers for a balance check every divisor. Seconds are counted
only for the amplification of the time.
-/

namespace Amm

theorem Ramp.value_abortsOnly {allowed : Fault → Prop} {ramp : Ramp} {now : Time}
    (time : ramp.Overflows now → allowed .timeOverflow) :
    Priced.AbortsOnly allowed (ramp.value now) := by
  rcases value_spec ramp now with ⟨overflows, aborts⟩ | ⟨-, found⟩
  · rw [aborts]
    exact .abort (time overflows)
  · rw [found]
    exact .value _

namespace Stable

variable {allowed : Fault → Prop} {rates : List Int} {now : Time} {i j : Nat}

theorem scaled_abortsOnly (balances rates : List Int) :
    Priced.AbortsOnly allowed (scaled balances rates) := by
  unfold scaled
  split
  · exact .value _
  · exact .refuse _

namespace Curve

variable {curve : Curve} {xp : List Int}

theorem invariant_abortsOnly (precision : curve.precision = 0 → allowed .divisionByZero)
    (xp : List Int) : Priced.AbortsOnly allowed (curve.invariant xp) := by
  unfold invariant
  dsimp only
  split
  · exact .value _
  · refine Newton.settle_abortsOnly (fun d => .bind ?_ fun product _ => ?_) _ _
    · refine .foldlM (fun term x _ => ?_) d
      split
      · exact .refuse _
      · exact .value _
    · exact .bind (.bareQuotient precision) fun weighted _ =>
        .bind (.bareQuotient precision) fun damping _ => .quotient

theorem solve_abortsOnly (curve : Curve) (n d : Int) (others : List Int) :
    Priced.AbortsOnly allowed (curve.solve n d others) := by
  refine .bind ?_ fun (b, c) _ => Newton.settle_abortsOnly (fun y => .quotient) _ _
  refine .bind .require fun _ _ => .bind (.foldlM (fun term x _ => ?_) d) fun term _ => .value _
  split
  · exact .refuse _
  · exact .value _

theorem balanceAfter_abortsOnly (precision : curve.precision = 0 → allowed .divisionByZero)
    (i j : Nat) (x : Int) (xp : List Int) :
    Priced.AbortsOnly allowed (curve.balanceAfter i j x xp) :=
  .bind .require fun _ _ => .bind .require fun _ _ =>
    .bind (invariant_abortsOnly precision xp) fun d _ => solve_abortsOnly curve _ d _

theorem balanceFor_abortsOnly (curve : Curve) (i : Nat) (xp : List Int) (d : Int) :
    Priced.AbortsOnly allowed (curve.balanceFor i xp d) :=
  .bind .require fun _ _ => solve_abortsOnly curve _ d _

end Curve

namespace Holdings

variable {holdings : Holdings}

theorem requirePair_eq_ok {result : Unit} (passes : holdings.requirePair i j = .ok result) :
    i ≠ j ∧ i < holdings.reserves.length ∧ j < holdings.reserves.length := by
  simpa only [requirePair, Priced.bind_eq_ok, Priced.require_eq_ok, decide_eq_true_eq,
    Bool.and_eq_true, exists_const] using passes

theorem withdrawalFor_index {shares : Int} {paid : Withdrawal}
    (computed : holdings.withdrawalFor shares i rates now = .ok paid) :
    i < holdings.reserves.length := by
  obtain ⟨_, inside, -⟩ := Priced.bind_eq_ok.mp computed
  simpa using Priced.require_eq_ok.mp inside

theorem moved_abortsOnly (deposit : Bool) (balance amount : Int) :
    Priced.AbortsOnly allowed (moved deposit balance amount) := by
  unfold moved
  extract_lets after
  split
  · exact .refuse _
  · exact .value _

theorem requirePair_abortsOnly (holdings : Holdings) (i j : Nat) :
    Priced.AbortsOnly allowed (holdings.requirePair i j) :=
  .bind .require fun _ _ => .require

theorem solver_precision {curve : Curve} (priced : holdings.solver now = .ok curve) :
    curve.precision = holdings.precision := by
  obtain ⟨-, rfl⟩ := solver_eq_ok.mp priced
  rfl

section
variable (time : holdings.amp.Overflows now → allowed .timeOverflow)
  (precision : holdings.precision = 0 → allowed .divisionByZero)
include time

omit precision in
theorem solver_abortsOnly : Priced.AbortsOnly allowed (holdings.solver now) :=
  .bind (Ramp.value_abortsOnly time) fun _ _ => .value _

include precision

theorem invariant_abortsOnly (balances rates : List Int) :
    Priced.AbortsOnly allowed (holdings.invariant balances rates now) :=
  .bind (solver_abortsOnly time) fun _ priced =>
    .bind (scaled_abortsOnly balances rates) fun xp _ =>
      Curve.invariant_abortsOnly (solver_precision priced ▸ precision) xp

theorem swapAmounts_abortsOnly (rate : rates[j]? = some 0 → allowed .divisionByZero) (i : Nat)
    (dx : Int) :
    Priced.AbortsOnly allowed (holdings.swapAmounts i j dx rates now) := by
  refine .bind (requirePair_abortsOnly holdings i j) fun _ pair => ?_
  refine .bind (scaled_abortsOnly holdings.reserves rates) fun xp scale => ?_
  obtain ⟨-, boundIn, boundOut⟩ := requirePair_eq_ok pair
  have balances : xp.length = holdings.reserves.length := scaled_length scale
  have count : rates.length = holdings.reserves.length := (scaled_eq_ok scale).1.symm
  refine .bind (.entry (balances ▸ boundIn)) fun balanceIn _ => ?_
  refine .bind (.entry (count ▸ boundIn)) fun rateIn _ => ?_
  refine .bind (solver_abortsOnly time) fun solver priced => ?_
  refine .bind (Curve.balanceAfter_abortsOnly (solver_precision priced ▸ precision) _ _ _ _)
    fun y _ => ?_
  refine .bind (.entry (balances ▸ boundOut)) fun balanceOut _ => ?_
  refine .bind (.entry (count ▸ boundOut)) fun rateOut rateAt => ?_
  have divides : rateOut = 0 → allowed .divisionByZero :=
    Priced.AbortsOnly.divides_of_entry rate rateAt
  exact .bind (.bareQuotient divides) fun out _ =>
    .bind (.bareQuotient divides) fun feeOut _ => .value _

theorem quote_abortsOnly (rate : rates[j]? = some 0 → allowed .divisionByZero) (i : Nat)
    (dx : Int) : Priced.AbortsOnly allowed (holdings.quote i j dx rates now) :=
  .bind (swapAmounts_abortsOnly time precision rate i dx) fun _ _ => .value _

theorem virtualPrice_abortsOnly (rates : List Int) :
    Priced.AbortsOnly allowed (holdings.virtualPrice rates now) :=
  .bind .require fun _ _ =>
    .bind (invariant_abortsOnly time precision holdings.reserves rates) fun _ _ => .value _

theorem sharesFor_abortsOnly (amounts : List Int) (deposit : Bool) (rates : List Int) :
    Priced.AbortsOnly allowed (holdings.sharesFor amounts deposit rates now) := by
  refine .bind .require fun _ _ => ?_
  refine .bind (invariant_abortsOnly time precision holdings.reserves rates) fun before _ => ?_
  exact .bind (.mapM fun _ _ => moved_abortsOnly _ _ _) fun balances _ =>
    .bind (invariant_abortsOnly time precision balances rates) fun after _ =>
      .bind .require fun _ _ => .value _

theorem withdrawalFor_abortsOnly (rate : rates[i]? = some 0 → allowed .divisionByZero)
    (shares : Int) :
    Priced.AbortsOnly allowed (holdings.withdrawalFor shares i rates now) := by
  refine .bind .require fun _ inside => ?_
  refine .bind .require fun _ _ => ?_
  refine .bind .require fun _ _ => ?_
  refine .bind (solver_abortsOnly time) fun solver priced => ?_
  refine .bind (scaled_abortsOnly holdings.reserves rates) fun xp scale => ?_
  have bound : i < holdings.reserves.length := by simpa using Priced.require_eq_ok.mp inside
  have balances : i < xp.length := by rwa [scaled_length scale]
  have count : i < rates.length := (scaled_eq_ok scale).1 ▸ bound
  refine .bind (Curve.invariant_abortsOnly (solver_precision priced ▸ precision) xp) fun d0 _ => ?_
  refine .bind .require fun _ _ => ?_
  refine .bind (Curve.balanceFor_abortsOnly _ i xp _) fun y _ => ?_
  refine .bind (Curve.balanceFor_abortsOnly _ i _ _) fun rest _ => ?_
  refine .bind (.entry (by rwa [List.length_mapIdx])) fun reducedBalance _ => ?_
  refine .bind (.entry balances) fun balance _ => ?_
  refine .bind (.entry count) fun rateOut rateAt => ?_
  have divides : rateOut = 0 → allowed .divisionByZero :=
    Priced.AbortsOnly.divides_of_entry rate rateAt
  exact .bind (.bareQuotient divides) fun amount _ =>
    .bind (.bareQuotient divides) fun _ _ => .value _

theorem deposit_abortsOnly (amounts rates : List Int) :
    Priced.AbortsOnly allowed (holdings.deposit amounts rates now) := by
  refine .bind ?_ fun inflow _ => ?_
  · exact .bind .require fun _ _ =>
      .bind (invariant_abortsOnly time precision _ rates) fun d0 _ =>
        .bind (invariant_abortsOnly time precision _ rates) fun d1 _ =>
          .bind .require fun _ _ => .value _
  · split
    · exact .bind .require fun _ _ =>
        .bind (invariant_abortsOnly time precision _ rates) fun d2 _ => .value _
    · exact .value _

theorem withdraw_abortsOnly (rate : rates[i]? = some 0 → allowed .divisionByZero) (shares : Int) :
    Priced.AbortsOnly allowed (holdings.withdraw shares i rates now) := by
  refine .bind (withdrawalFor_abortsOnly time precision rate shares) fun withdrawal computed => ?_
  refine .bind (.entry (withdrawalFor_index computed)) fun reserve _ => ?_
  exact .bind .require fun _ _ => .value _

end

theorem credit_abortsOnly (holdings : Holdings) (i j : Nat) (amountIn amountOut fee : Int) :
    Priced.AbortsOnly allowed (holdings.credit i j amountIn amountOut fee) := by
  refine .bind (requirePair_abortsOnly holdings i j) fun _ pair => ?_
  exact .bind (.entry (requirePair_eq_ok pair).2.2) fun _ _ => .bind .require fun _ _ => .value _

theorem book_abortsOnly (inside : j < holdings.reserves.length) (i : Nat)
    (amountIn amountOut : Int) :
    Priced.AbortsOnly allowed (holdings.book i j amountIn amountOut) :=
  .bind (.entry inside) fun _ _ => .bind .require fun _ _ => .value _

end Holdings
end Stable
end Amm
