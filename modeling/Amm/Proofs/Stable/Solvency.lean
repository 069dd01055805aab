import Amm.Proofs.Ramp
import Amm.Proofs.Stable.Curve
import Amm.Stable.Holdings

/-!
Signs of the reserves and shares of a stable pool along a run. Swaps, credits and withdrawals check
what they take. A deposit does not check its fees, which grow with the invariant and not with the
balance they are taken from. So signs are kept exactly as long as every deposit can pay its fees and
still grows the invariant.
-/

namespace Amm
namespace Stable

theorem feeUnit_pos : 0 < feeUnit := by
  decide

/-- A fee rate between nothing and the whole. -/
def IsFee (fee : Int) : Prop :=
  0 ≤ fee ∧ fee ≤ feeUnit

theorem share_nonneg {amount fee : Int} (rate : IsFee fee) (nonneg : 0 ≤ amount) :
    0 ≤ share amount fee :=
  Int.fdiv_nonneg (mul_nonneg rate.1 nonneg) feeUnit_pos.le

theorem share_le {amount fee : Int} (rate : IsFee fee) (nonneg : 0 ≤ amount) :
    share amount fee ≤ amount := by
  rw [share, fdiv_le_iff feeUnit_pos]
  have part : fee * amount ≤ feeUnit * amount := mul_le_mul_of_nonneg_right rate.2 nonneg
  have unit := feeUnit_pos
  linarith

theorem imbalanceFee_isFee {swapFee : Int} (rate : IsFee swapFee) (n : Nat) :
    IsFee (imbalanceFee swapFee n) := by
  have count : (n : Int) ≤ 4 * (((max n 2 : Nat) : Int) - 1) := by omega
  have positive : (0 : Int) < 4 * (((max n 2 : Nat) : Int) - 1) := by omega
  constructor
  · exact Int.fdiv_nonneg (mul_nonneg rate.1 (Int.natCast_nonneg n)) positive.le
  · rw [imbalanceFee, fdiv_le_iff positive]
    have whole := mul_le_mul rate.2 count (Int.natCast_nonneg n) feeUnit_pos.le
    linarith

theorem mem_zipWith_iff {α β γ : Type} {f : α → β → γ} {first : List α} {second : List β} {c : γ} :
    c ∈ first.zipWith f second ↔ ∃ pair ∈ first.zip second, f pair.1 pair.2 = c := by
  rw [← List.map_uncurry_zip_eq_zipWith, List.mem_map]
  rfl

theorem zipWith_zipWith_self {α β γ δ : Type} (f : α → β → γ) (g : β → γ → δ) (first : List α)
    (second : List β) :
    second.zipWith g (first.zipWith f second) =
      first.zipWith (fun a b => g b (f a b)) second := by
  induction first generalizing second with
  | nil => simp
  | cons a first ih =>
      cases second with
      | nil => simp
      | cons b second => simp [ih]

theorem scaled_eq_ok {balances rates xp : List Int} (computed : scaled balances rates = .ok xp) :
    balances.length = rates.length ∧
      xp = balances.zipWith (fun balance rate => (balance * rate).fdiv Fixed.one) rates := by
  unfold scaled at computed
  split at computed
  · rename_i same
    exact ⟨same, (Except.ok.inj computed).symm⟩
  · exact absurd computed (Priced.refuse_ne_ok _ _)

theorem scaled_length {balances rates xp : List Int} (computed : scaled balances rates = .ok xp) :
    xp.length = balances.length := by
  obtain ⟨same, rfl⟩ := scaled_eq_ok computed
  rw [List.length_zipWith, ← same, min_self]

theorem scaled_nonneg {balances rates xp : List Int} (unsigned : ∀ balance ∈ balances, 0 ≤ balance)
    (positive : ∀ rate ∈ rates, 0 < rate) (computed : scaled balances rates = .ok xp) :
    ∀ x ∈ xp, 0 ≤ x := by
  obtain ⟨-, rfl⟩ := scaled_eq_ok computed
  intro x member
  obtain ⟨⟨balance, rate⟩, paired, rfl⟩ := mem_zipWith_iff.mp member
  obtain ⟨inBalances, inRates⟩ := List.of_mem_zip paired
  exact Int.fdiv_nonneg (mul_nonneg (unsigned balance inBalances) (positive rate inRates).le)
    Fixed.one_pos.le

namespace Holdings

/-- A deposit takes a fee from a token that is more than the token's new balance: the balance in
proportion to the grown invariant is too far above the new one. -/
def Overcharged (fee d0 d1 old new : Int) : Prop :=
  (new + 1) * feeUnit ≤ fee * ((d1 * old).fdiv d0 - new)

theorem lt_depositCharge_iff {fee d0 d1 old new : Int} (rate : IsFee fee)
    (ideal : 0 ≤ (d1 * old).fdiv d0) (nonneg : 0 ≤ new) :
    new < depositCharge fee d0 d1 old new ↔ Overcharged fee d0 d1 old new := by
  rw [← Int.add_one_le_iff, depositCharge, share, le_fdiv_iff feeUnit_pos, Overcharged]
  by_cases above : new < (d1 * old).fdiv d0
  · rw [absDiff, if_pos above]
  · rw [absDiff, if_neg above]
    -- Below the proportional balance the fee is at most the whole distance.
    have paid : fee * (new - (d1 * old).fdiv d0) ≤ feeUnit * new :=
      (mul_le_mul_of_nonneg_right rate.2 (by omega)).trans
        (mul_le_mul_of_nonneg_left (by omega) feeUnit_pos.le)
    have credit : fee * ((d1 * old).fdiv d0 - new) ≤ 0 :=
      mul_nonpos_of_nonneg_of_nonpos rate.1 (by omega)
    have whole : 0 ≤ feeUnit * new := mul_nonneg feeUnit_pos.le nonneg
    have unit := feeUnit_pos
    constructor <;> intro charged <;> linarith

structure Sound (holdings : Holdings) : Prop where
  reserves : ∀ reserve ∈ holdings.reserves, 0 ≤ reserve
  supply : 0 ≤ holdings.supply

/-- The curve on the course of the amplification. Where the seconds that it takes are defined it is
the one that prices. -/
def curve (holdings : Holdings) (now : Time) : Curve :=
  ⟨holdings.amp.course now, holdings.precision, holdings.offset⟩

/-- Fees that are fractions, positive rates, and an amplification of at least one. -/
structure Admissible (holdings : Holdings) (rates : List Int) (now : Time) : Prop where
  curve : (holdings.curve now).Admissible holdings.reserves.length
  rates : ∀ rate ∈ rates, 0 < rate
  swapFee : IsFee holdings.swapFee
  adminFee : IsFee holdings.adminFee

variable {holdings next : Holdings} {rates amounts balances : List Int} {now : Time}

theorem solver_eq_ok {curve : Curve} :
    holdings.solver now = .ok curve ↔ ¬ holdings.amp.Overflows now ∧ holdings.curve now = curve := by
  simp only [solver, Priced.bind_eq_ok, Ramp.value_eq_ok, Except.ok.injEq, and_assoc,
    exists_and_left, exists_eq_left']
  rfl

theorem solver_avoids {cause : PoolError} : Priced.Avoids cause (holdings.solver now) :=
  .bind Ramp.value_avoids fun _ => .value _

theorem invariant_eq_ok {d : Int} :
    holdings.invariant balances rates now = .ok d ↔ ¬ holdings.amp.Overflows now ∧
      ∃ xp, scaled balances rates = .ok xp ∧ (holdings.curve now).invariant xp = .ok d := by
  simp only [invariant, Priced.bind_eq_ok, solver_eq_ok, and_assoc, exists_and_left,
    exists_eq_left']

theorem invariant_nonneg {d : Int} (admissible : holdings.Admissible rates now)
    (count : balances.length = holdings.reserves.length)
    (nonneg : ∀ balance ∈ balances, 0 ≤ balance)
    (computed : holdings.invariant balances rates now = .ok d) : 0 ≤ d := by
  obtain ⟨-, xp, scale, solved⟩ := invariant_eq_ok.mp computed
  refine Curve.invariant_nonneg ?_ (scaled_nonneg nonneg admissible.rates scale) solved
  rw [scaled_length scale, count]
  exact admissible.curve

theorem inflow_eq_ok {inflow : Inflow} (computed : holdings.inflow amounts rates now = .ok inflow) :
    amounts.length = holdings.reserves.length ∧ (∀ amount ∈ amounts, 0 ≤ amount) ∧
      inflow.balances = holdings.reserves.zipWith (· + ·) amounts ∧
      holdings.invariant holdings.reserves rates now = .ok inflow.d0 ∧ inflow.d0 < inflow.d1 := by
  simp only [Holdings.inflow, Priced.bind_eq_ok, Priced.require_eq_ok, Bool.and_eq_true,
    decide_eq_true_eq, List.all_eq_true, Except.ok.injEq] at computed
  obtain ⟨_, ⟨count, nonneg⟩, d0, before, d1, -, _, grows, rfl⟩ := computed
  exact ⟨count, nonneg, rfl, before, grows⟩

theorem deposit_eq_ok {minted : Int}
    (succeeds : holdings.deposit amounts rates now = .ok (minted, next)) :
    ∃ inflow, holdings.inflow amounts rates now = .ok inflow ∧
      ((0 < holdings.supply ∧ inflow.d0 ≠ 0 ∧ ∃ d2,
          holdings.invariant (holdings.afterFees inflow) rates now = .ok d2 ∧
          minted = (holdings.supply * (d2 - inflow.d0)).fdiv inflow.d0 ∧
          next = { holdings with
            reserves := holdings.afterAdminFees inflow
            supply := holdings.supply + minted }) ∨
        (holdings.supply ≤ 0 ∧ minted = inflow.d1 ∧
          next = { holdings with
            reserves := inflow.balances
            supply := holdings.supply + minted })) := by
  obtain ⟨inflow, computed, rest⟩ := Priced.bind_eq_ok.mp succeeds
  refine ⟨inflow, computed, ?_⟩
  split at rest
  · rename_i issued
    simp only [Priced.bind_eq_ok, Priced.require_eq_ok, decide_eq_true_eq, Except.ok.injEq,
      Prod.mk.injEq] at rest
    obtain ⟨_, nonzero, d2, paid, rfl, rfl⟩ := rest
    exact .inl ⟨issued, nonzero, d2, paid, rfl, rfl⟩
  · rename_i unissued
    simp only [Except.ok.injEq, Prod.mk.injEq] at rest
    obtain ⟨rfl, rfl⟩ := rest
    exact .inr ⟨not_lt.mp unissued, rfl, rfl⟩

section
variable {inflow : Inflow}

def chargeRate (holdings : Holdings) : Int :=
  imbalanceFee holdings.swapFee holdings.reserves.length

theorem chargeRate_isFee (admissible : holdings.Admissible rates now) :
    IsFee holdings.chargeRate :=
  imbalanceFee_isFee admissible.swapFee _

theorem afterFees_eq :
    holdings.afterFees inflow = holdings.reserves.zipWith
      (fun old new => new - depositCharge holdings.chargeRate inflow.d0 inflow.d1 old new)
      inflow.balances :=
  zipWith_zipWith_self _ _ _ _

theorem afterAdminFees_eq :
    holdings.afterAdminFees inflow = holdings.reserves.zipWith
      (fun old new => new - share
        (depositCharge holdings.chargeRate inflow.d0 inflow.d1 old new) holdings.adminFee)
      inflow.balances :=
  zipWith_zipWith_self _ _ _ _

/-- No token of a deposit is charged more than its new balance. -/
def Payable (holdings : Holdings) (inflow : Inflow) : Prop :=
  ∀ pair ∈ holdings.reserves.zip inflow.balances,
    ¬ Overcharged holdings.chargeRate inflow.d0 inflow.d1 pair.1 pair.2

theorem inflow_nonneg (sound : holdings.Sound) (admissible : holdings.Admissible rates now)
    (computed : holdings.inflow amounts rates now = .ok inflow) :
    0 ≤ inflow.d0 ∧ inflow.balances.length = holdings.reserves.length ∧
      ∀ balance ∈ inflow.balances, 0 ≤ balance := by
  obtain ⟨count, nonneg, same, before, -⟩ := inflow_eq_ok computed
  refine ⟨invariant_nonneg admissible rfl sound.reserves before, ?_, ?_⟩
  · rw [same, List.length_zipWith, count, min_self]
  · intro balance member
    rw [same] at member
    obtain ⟨⟨reserve, amount⟩, paired, rfl⟩ := mem_zipWith_iff.mp member
    obtain ⟨inReserves, inAmounts⟩ := List.of_mem_zip paired
    exact add_nonneg (sound.reserves reserve inReserves) (nonneg amount inAmounts)

theorem ideal_nonneg (sound : holdings.Sound) (admissible : holdings.Admissible rates now)
    (computed : holdings.inflow amounts rates now = .ok inflow) {old : Int}
    (member : old ∈ holdings.reserves) : 0 ≤ (inflow.d1 * old).fdiv inflow.d0 := by
  obtain ⟨start, -, -⟩ := inflow_nonneg sound admissible computed
  obtain ⟨-, -, -, -, grows⟩ := inflow_eq_ok computed
  exact Int.fdiv_nonneg (mul_nonneg (start.trans grows.le) (sound.reserves old member)) start

theorem afterFees_nonneg_iff (sound : holdings.Sound) (admissible : holdings.Admissible rates now)
    (computed : holdings.inflow amounts rates now = .ok inflow) :
    (∀ balance ∈ holdings.afterFees inflow, 0 ≤ balance) ↔ holdings.Payable inflow := by
  have each : ∀ pair ∈ holdings.reserves.zip inflow.balances,
      (0 ≤ pair.2 - depositCharge holdings.chargeRate inflow.d0 inflow.d1 pair.1 pair.2 ↔
        ¬ Overcharged holdings.chargeRate inflow.d0 inflow.d1 pair.1 pair.2) := by
    intro (old, new) paired
    obtain ⟨inReserves, inBalances⟩ := List.of_mem_zip paired
    have nonneg := (inflow_nonneg sound admissible computed).2.2 new inBalances
    rw [← lt_depositCharge_iff (chargeRate_isFee admissible)
      (ideal_nonneg sound admissible computed inReserves) nonneg, not_lt, sub_nonneg]
  rw [afterFees_eq]
  constructor
  · intro nonneg pair paired
    exact (each pair paired).mp (nonneg _ (mem_zipWith_iff.mpr ⟨pair, paired, rfl⟩))
  · intro payable balance member
    obtain ⟨pair, paired, rfl⟩ := mem_zipWith_iff.mp member
    exact (each pair paired).mpr (payable pair paired)

/-- What the admin takes is part of what is charged. -/
theorem afterAdminFees_nonneg (admissible : holdings.Admissible rates now)
    (nonneg : ∀ balance ∈ holdings.afterFees inflow, 0 ≤ balance) :
    ∀ balance ∈ holdings.afterAdminFees inflow, 0 ≤ balance := by
  rw [afterFees_eq] at nonneg
  rw [afterAdminFees_eq]
  intro balance member
  obtain ⟨pair, paired, rfl⟩ := mem_zipWith_iff.mp member
  have kept := nonneg _ (mem_zipWith_iff.mpr ⟨pair, paired, rfl⟩)
  have charged : 0 ≤ depositCharge holdings.chargeRate inflow.d0 inflow.d1 pair.1 pair.2 :=
    share_nonneg (chargeRate_isFee admissible) (absDiff_nonneg _ _)
  have part := share_le admissible.adminFee charged
  omega

end

/-- A deposit mints no negative amount and works out none from a negative balance. -/
structure MintsUnsigned (holdings : Holdings) (amounts rates : List Int) (now : Time) : Prop where
  minted : ∀ minted next, holdings.deposit amounts rates now = .ok (minted, next) → 0 ≤ minted
  balances : 0 < holdings.supply → ∀ inflow, holdings.inflow amounts rates now = .ok inflow →
    ∀ balance ∈ holdings.afterFees inflow, 0 ≤ balance

/-- A deposit can pay its fees from every token, and the balances after them have at least the
invariant from before. The first deposit pays none. -/
def Affordable (holdings : Holdings) (amounts rates : List Int) (now : Time) : Prop :=
  0 < holdings.supply → ∀ inflow, holdings.inflow amounts rates now = .ok inflow →
    holdings.Payable inflow ∧
      ∀ d2, holdings.invariant (holdings.afterFees inflow) rates now = .ok d2 → inflow.d0 ≤ d2

theorem mint_nonneg_iff {supply d0 d2 : Int} (issued : 0 < supply) (positive : 0 < d0) :
    0 ≤ (supply * (d2 - d0)).fdiv d0 ↔ d0 ≤ d2 := by
  rw [le_fdiv_iff positive, zero_mul, mul_nonneg_iff_of_pos_left issued, sub_nonneg]

/-- A deposit into sound holdings keeps every sign exactly if it can be afforded. -/
theorem deposit_unsigned_iff {minted : Int} (sound : holdings.Sound)
    (admissible : holdings.Admissible rates now)
    (succeeds : holdings.deposit amounts rates now = .ok (minted, next)) :
    next.Sound ∧ holdings.MintsUnsigned amounts rates now ↔
      holdings.Affordable amounts rates now := by
  obtain ⟨inflow, computed, ending⟩ := deposit_eq_ok succeeds
  obtain ⟨start, count, nonneg⟩ := inflow_nonneg sound admissible computed
  have fees := afterFees_nonneg_iff sound admissible computed
  rcases ending with ⟨issued, nonzero, d2, paid, mint, rfl⟩ | ⟨unissued, mint, rfl⟩
  · have grows : 0 ≤ minted ↔ inflow.d0 ≤ d2 := by
      rw [mint]
      exact mint_nonneg_iff issued (lt_of_le_of_ne start nonzero.symm)
    constructor
    · intro ⟨_, unsigned⟩ _ inflow' computed'
      obtain rfl : inflow = inflow' := Except.ok.inj (computed.symm.trans computed')
      refine ⟨fees.mp (unsigned.balances issued inflow computed), fun d2' paid' => ?_⟩
      obtain rfl : d2 = d2' := Except.ok.inj (paid.symm.trans paid')
      exact grows.mp (unsigned.minted minted _ succeeds)
    · intro affordable
      obtain ⟨payable, kept⟩ := affordable issued inflow computed
      have unsigned : 0 ≤ minted := grows.mpr (kept d2 paid)
      refine ⟨⟨?_, add_nonneg sound.supply unsigned⟩, fun minted' next' succeeds' => ?_, ?_⟩
      · exact afterAdminFees_nonneg admissible (fees.mpr payable)
      · obtain ⟨rfl, -⟩ := Prod.mk.inj (Except.ok.inj (succeeds.symm.trans succeeds'))
        exact unsigned
      · intro _ inflow' computed'
        obtain rfl : inflow = inflow' := Except.ok.inj (computed.symm.trans computed')
        exact fees.mpr payable
  · obtain ⟨-, -, -, -, grows⟩ := inflow_eq_ok computed
    have unsigned : 0 ≤ minted := mint ▸ start.trans grows.le
    refine iff_of_true ⟨⟨nonneg, add_nonneg sound.supply unsigned⟩, ?_, ?_⟩ ?_
    · intro minted' next' succeeds'
      obtain ⟨rfl, -⟩ := Prod.mk.inj (Except.ok.inj (succeeds.symm.trans succeeds'))
      exact unsigned
    · exact fun issued => absurd issued unissued.not_gt
    · exact fun issued => absurd issued unissued.not_gt

/-- Holdings after any operation: other reserves and another supply on the same terms. -/
def Continues (holdings next : Holdings) : Prop :=
  ∃ reserves supply, next = { holdings with reserves := reserves, supply := supply } ∧
    reserves.length = holdings.reserves.length

theorem Continues.admissible (continues : holdings.Continues next)
    (admissible : holdings.Admissible rates now) : next.Admissible rates now := by
  obtain ⟨reserves, supply, rfl, count⟩ := continues
  refine ⟨?_, admissible.rates, admissible.swapFee, admissible.adminFee⟩
  rw [count]
  exact admissible.curve

theorem traded_nonneg {reserves : List Int} {i j : Nat} {dx remaining : Int}
    (nonneg : ∀ reserve ∈ reserves, 0 ≤ reserve) (paid : 0 ≤ dx) (left : 0 ≤ remaining) :
    ∀ reserve ∈ (reserves.modify i (· + dx)).set j remaining, 0 ≤ reserve := by
  intro reserve member
  rcases List.mem_or_eq_of_mem_set member with member | rfl
  · obtain ⟨k, bound, rfl⟩ := List.mem_iff_getElem.mp member
    rw [List.length_modify] at bound
    have kept := nonneg reserves[k] (List.getElem_mem bound)
    rw [List.getElem_modify]
    split <;> omega
  · exact left

theorem exchange_continues {i j : Nat} {dx out : Int}
    (succeeds : holdings.exchange i j dx rates now = .ok (out, next)) :
    holdings.Continues next := by
  simp only [exchange, Priced.bind_eq_ok, Except.ok.injEq, Prod.mk.injEq] at succeeds
  obtain ⟨_, -, _, -, _, -, _, -, _, -, -, rfl⟩ := succeeds
  exact ⟨_, _, rfl, by rw [List.length_set, List.length_modify]⟩

theorem exchange_sound (sound : holdings.Sound) {i j : Nat} {dx out : Int} (paid : 0 ≤ dx)
    (succeeds : holdings.exchange i j dx rates now = .ok (out, next)) : next.Sound := by
  simp only [exchange, Priced.bind_eq_ok, Priced.require_eq_ok, decide_eq_true_eq, Except.ok.injEq,
    Prod.mk.injEq] at succeeds
  obtain ⟨amounts, -, rate, -, admin, -, reserve, -, _, left, -, rfl⟩ := succeeds
  exact ⟨traded_nonneg sound.reserves paid left, sound.supply⟩

theorem credit_continues {i j : Nat} {amountIn amountOut fee : Int}
    (succeeds : holdings.credit i j amountIn amountOut fee = .ok next) :
    holdings.Continues next := by
  simp only [credit, Priced.bind_eq_ok, Except.ok.injEq] at succeeds
  obtain ⟨_, -, _, -, _, -, rfl⟩ := succeeds
  exact ⟨_, _, rfl, by rw [List.length_set, List.length_modify]⟩

theorem credit_sound (sound : holdings.Sound) {i j : Nat} {amountIn amountOut fee : Int}
    (paid : 0 ≤ amountIn) (succeeds : holdings.credit i j amountIn amountOut fee = .ok next) :
    next.Sound := by
  simp only [credit, Priced.bind_eq_ok, Priced.require_eq_ok, decide_eq_true_eq,
    Except.ok.injEq] at succeeds
  obtain ⟨_, -, reserve, -, _, left, rfl⟩ := succeeds
  exact ⟨traded_nonneg sound.reserves paid left, sound.supply⟩

theorem withdraw_eq_ok {shares : Int} {i : Nat} {paid : Withdrawal}
    (withdrawn : holdings.withdraw shares i rates now = .ok (paid, next)) :
    ∃ reserve, holdings.withdrawalFor shares i rates now = .ok paid ∧
      holdings.reserves[i]? = some reserve ∧
      paid.amount + share paid.fee holdings.adminFee ≤ reserve ∧
      next = { holdings with
        reserves := holdings.reserves.set i
          (reserve - (paid.amount + share paid.fee holdings.adminFee))
        supply := holdings.supply - shares } := by
  simp only [withdraw, Priced.bind_eq_ok, Priced.require_eq_ok, Priced.entry_eq_ok,
    decide_eq_true_eq, Except.ok.injEq, Prod.mk.injEq] at withdrawn
  obtain ⟨_, computed, reserve, reserveAt, _, removed, rfl, rfl⟩ := withdrawn
  exact ⟨reserve, computed, reserveAt, removed, rfl⟩

theorem withdraw_continues {shares : Int} {i : Nat} {paid : Withdrawal}
    (succeeds : holdings.withdraw shares i rates now = .ok (paid, next)) :
    holdings.Continues next := by
  obtain ⟨_, -, -, -, rfl⟩ := withdraw_eq_ok succeeds
  exact ⟨_, _, rfl, List.length_set ..⟩

theorem withdraw_sound (sound : holdings.Sound) {shares : Int} {i : Nat} {paid : Withdrawal}
    (succeeds : holdings.withdraw shares i rates now = .ok (paid, next)) : next.Sound := by
  simp only [withdraw, withdrawalFor, Priced.bind_eq_ok, Priced.require_eq_ok, decide_eq_true_eq,
    Except.ok.injEq, Prod.mk.injEq] at succeeds
  obtain ⟨_, ⟨_, -, _, -, _, burnt, -⟩, reserve, -, _, removed, -, rfl⟩ := succeeds
  exact ⟨forall_set sound.reserves (sub_nonneg.mpr removed), sub_nonneg.mpr burnt⟩

theorem deposit_continues {minted : Int}
    (succeeds : holdings.deposit amounts rates now = .ok (minted, next)) :
    holdings.Continues next := by
  obtain ⟨inflow, computed, ending⟩ := deposit_eq_ok succeeds
  obtain ⟨count, -, same, -, -⟩ := inflow_eq_ok computed
  have balances : inflow.balances.length = holdings.reserves.length := by
    rw [same, List.length_zipWith, count, min_self]
  rcases ending with ⟨-, -, d2, -, -, rfl⟩ | ⟨-, -, rfl⟩
  · refine ⟨_, _, rfl, ?_⟩
    rw [afterAdminFees_eq, List.length_zipWith, balances, min_self]
  · exact ⟨_, _, rfl, balances⟩

end Holdings

/-- What can be done to a stable pool. A credit books what was quoted before. -/
inductive Action where
  | exchange (i j : Nat) (dx : Int)
  | credit (i j : Nat) (amountIn amountOut fee : Int)
  | deposit (amounts : List Int)
  | withdraw (shares : Int) (i : Nat)

namespace Action

/-- An action that brings no negative amount. -/
def Unsigned : Action → Prop
  | .exchange _ _ dx => 0 ≤ dx
  | .credit _ _ amountIn amountOut fee => 0 ≤ amountIn ∧ 0 ≤ amountOut ∧ 0 ≤ fee
  | .deposit amounts => ∀ amount ∈ amounts, 0 ≤ amount
  | .withdraw shares _ => 0 ≤ shares

end Action

structure Call where
  action : Action
  rates : List Int
  now : Time

namespace Call

def perform (call : Call) (holdings : Holdings) : Priced Holdings :=
  match call.action with
  | .exchange i j dx => do
    let (_, next) ← holdings.exchange i j dx call.rates call.now
    .ok next
  | .credit i j amountIn amountOut fee => holdings.credit i j amountIn amountOut fee
  | .deposit amounts => do
    let (_, next) ← holdings.deposit amounts call.rates call.now
    .ok next
  | .withdraw shares i => do
    let (_, next) ← holdings.withdraw shares i call.rates call.now
    .ok next

end Call

/-- A call of a run with the holdings on both sides of it. -/
structure Step where
  before : Holdings
  call : Call
  after : Holdings

/-- The steps of calls made one after another, each of which must succeed. -/
def run : List Call → Holdings → Priced (List Step)
  | [], _ => .ok []
  | call :: calls, holdings => do
    let next ← call.perform holdings
    let steps ← run calls next
    .ok (⟨holdings, call, next⟩ :: steps)

namespace Step

/-- A step that keeps every sign: no reserve and no supply is negative after it, and if it is a
deposit it mints no negative amount and works out none from a negative balance. -/
def Unsigned (step : Step) : Prop :=
  step.after.Sound ∧ ∀ amounts, step.call.action = .deposit amounts →
    step.before.MintsUnsigned amounts step.call.rates step.call.now

/-- A step that can be afforded if it is a deposit. -/
def Affordable (step : Step) : Prop :=
  ∀ amounts, step.call.action = .deposit amounts →
    step.before.Affordable amounts step.call.rates step.call.now

end Step

variable {holdings next : Holdings} {call : Call}

/-- One step of a run keeps the terms, and it keeps every sign exactly if it can be afforded. -/
theorem step_unsigned_iff (sound : holdings.Sound)
    (admissible : holdings.Admissible call.rates call.now) (unsigned : call.action.Unsigned)
    (succeeds : call.perform holdings = .ok next) :
    holdings.Continues next ∧
      (Step.Unsigned ⟨holdings, call, next⟩ ↔ Step.Affordable ⟨holdings, call, next⟩) := by
  obtain ⟨action, rates, now⟩ := call
  cases action with
  | exchange i j dx =>
      obtain ⟨⟨out, _⟩, done, same⟩ := Priced.bind_eq_ok.mp succeeds
      obtain rfl := Except.ok.inj same
      have kept := Holdings.exchange_sound sound unsigned done
      refine ⟨Holdings.exchange_continues done, ?_⟩
      exact iff_of_true ⟨kept, by simp⟩ (by simp [Step.Affordable])
  | credit i j amountIn amountOut fee =>
      have kept := Holdings.credit_sound sound unsigned.1 succeeds
      refine ⟨Holdings.credit_continues succeeds, ?_⟩
      exact iff_of_true ⟨kept, by simp⟩ (by simp [Step.Affordable])
  | withdraw shares i =>
      obtain ⟨⟨paid, _⟩, done, same⟩ := Priced.bind_eq_ok.mp succeeds
      obtain rfl := Except.ok.inj same
      have kept := Holdings.withdraw_sound sound done
      refine ⟨Holdings.withdraw_continues done, ?_⟩
      exact iff_of_true ⟨kept, by simp⟩ (by simp [Step.Affordable])
  | deposit amounts =>
      obtain ⟨⟨minted, _⟩, done, same⟩ := Priced.bind_eq_ok.mp succeeds
      obtain rfl := Except.ok.inj same
      refine ⟨Holdings.deposit_continues done, ?_⟩
      have exactly := Holdings.deposit_unsigned_iff sound admissible done
      simpa [Step.Unsigned, Step.Affordable] using exactly

/-- A run from sound holdings keeps every sign exactly if all of its deposits can be afforded.
Swaps, credits and withdrawals keep them whatever they do. -/
theorem signs_kept_iff_affordable (start : Holdings) (calls : List Call) (steps : List Step)
    (sound : start.Sound) (admissible : ∀ call ∈ calls, start.Admissible call.rates call.now)
    (unsigned : ∀ call ∈ calls, call.action.Unsigned) (runs : run calls start = .ok steps) :
    (∀ step ∈ steps, step.Unsigned) ↔ ∀ step ∈ steps, step.Affordable := by
  induction calls generalizing start steps with
  | nil =>
      obtain rfl : [] = steps := Except.ok.inj runs
      simp
  | cons call calls ih =>
      obtain ⟨next, done, rest⟩ := Priced.bind_eq_ok.mp runs
      obtain ⟨later, following, same⟩ := Priced.bind_eq_ok.mp rest
      obtain rfl := Except.ok.inj same
      obtain ⟨continues, exactly⟩ := step_unsigned_iff sound
        (admissible call List.mem_cons_self) (unsigned call List.mem_cons_self) done
      -- The terms are those of the start, but the signs hold in `next` only after a good step.
      have onward : next.Sound →
          ((∀ step ∈ later, step.Unsigned) ↔ ∀ step ∈ later, step.Affordable) := fun kept =>
        ih next later kept
          (fun other member =>
            continues.admissible (admissible other (List.mem_cons_of_mem call member)))
          (fun other member => unsigned other (List.mem_cons_of_mem call member)) following
      simp only [List.forall_mem_cons]
      constructor
      · intro ⟨first, others⟩
        exact ⟨exactly.mp first, (onward first.1).mp others⟩
      · intro ⟨first, others⟩
        have kept := exactly.mpr first
        exact ⟨kept, (onward kept.1).mpr others⟩

/-- Two tokens in balance, a small fee, and half of it for the admin. -/
def sampleHoldings : Holdings where
  reserves := [1000000000000000000000000, 1000000000000000000000000]
  supply := 2000000000000000000000000
  amp := .constant 2000
  precision := 1
  swapFee := 4000000
  adminFee := 5000000000
  offset := false

theorem sampleHoldings_sound : sampleHoldings.Sound :=
  ⟨by decide, by decide⟩

theorem sampleHoldings_admissible (now : Time) :
    sampleHoldings.Admissible [Fixed.one, Fixed.one] now := by
  refine ⟨⟨le_refl 1, ?_⟩, by decide, ⟨by decide, by decide⟩, ⟨by decide, by decide⟩⟩
  simp [Holdings.curve, sampleHoldings]

/-- A deposit into one token of a million times the pool, which cannot be afforded. -/
theorem oversized_deposit_not_affordable :
    ∃ steps, run [⟨.exchange 0 1 1000000000000000000000, [Fixed.one, Fixed.one], 600⟩,
        ⟨.deposit [1000000000000000000000000000000, 0], [Fixed.one, Fixed.one], 600⟩]
        sampleHoldings = .ok steps ∧ ¬ ∀ step ∈ steps, step.Affordable := by
  obtain ⟨steps, runs, supplies⟩ := Priced.map_eq_ok.mp (show
    (run [⟨.exchange 0 1 1000000000000000000000, [Fixed.one, Fixed.one], 600⟩,
        ⟨.deposit [1000000000000000000000000000000, 0], [Fixed.one, Fixed.one], 600⟩]
        sampleHoldings).map (fun steps => steps.any (·.after.supply < 0)) = .ok true
    by decide +kernel)
  refine ⟨steps, runs, fun affordable => ?_⟩
  have signs := (signs_kept_iff_affordable sampleHoldings _ steps sampleHoldings_sound
    (by simp [sampleHoldings_admissible]) (by simp [Action.Unsigned]) runs).mpr affordable
  obtain ⟨step, member, negative⟩ := List.any_eq_true.mp supplies
  exact absurd (signs step member).1.supply (not_le.mpr (of_decide_eq_true negative))

theorem deposit_turns_negative :
    ¬ ∀ (holdings next : Holdings) (amounts rates : List Int) (now : Time) (minted : Int),
      holdings.Sound → holdings.Admissible rates now → (∀ amount ∈ amounts, 0 ≤ amount) →
      holdings.deposit amounts rates now = .ok (minted, next) → next.Sound ∧ 0 ≤ minted := by
  intro keeps
  obtain ⟨⟨minted, next⟩, succeeds, negative⟩ := Priced.map_eq_ok.mp (show
    (sampleHoldings.deposit [1000000000000000000000000000000, 0] [Fixed.one, Fixed.one] 600).map
      (fun result => decide (result.1 < 0)) = .ok true
    by decide +kernel)
  have kept := keeps _ _ _ _ _ _ sampleHoldings_sound (sampleHoldings_admissible 600)
    (by decide) succeeds
  exact absurd kept.2 (not_le.mpr (of_decide_eq_true negative))

end Stable
end Amm
