import Amm.Proofs.Crypto.FeeRange
import Amm.Proofs.Crypto.Repeg
import Amm.Proofs.Stable.Solvency
import Mathlib.Tactic.Ring

/-!
Signs of a pool of two coins along a run. A withdrawal does not check what it takes from the
reserve, a deposit does not check what its fee leaves of the shares, and a step of the scale does
not check the price it ends at. All three are safe for what the solvers refuse: an invariant, a
balance or a scaled balance that is not positive.
-/

namespace Amm
namespace Crypto

/-- Two balances that have a coefficient are not both zero, so it is a part of one. -/
theorem reductionCoefficient_pair {a b feeGamma f : Int} (first : 0 ≤ a) (second : 0 ≤ b)
    (computed : reductionCoefficient [a, b] feeGamma = .ok f) : 0 ≤ f ∧ f ≤ Fixed.one := by
  have unsigned : ∀ balance ∈ [a, b], 0 ≤ balance := by simp [first, second]
  have present : 0 < total [a, b] := by
    refine (total_nonneg unsigned).lt_of_ne fun none => ?_
    simp [reductionCoefficient, reduceBy, ← none, Priced.bind_eq_ok, Priced.quotient_eq_ok] at computed
  obtain ⟨coefficient, reduced, nonneg, part⟩ :=
    exists_reductionCoefficient feeGamma unsigned present
  obtain rfl : coefficient = f := Except.ok.inj (reduced.symm.trans computed)
  exact ⟨nonneg, part⟩

end Crypto

namespace CryptoPool

open Crypto Stable

/-- The fee on two balances lies between the two fees of the pool. -/
theorem fee_pair {pool : CryptoPool} {a b rate : Int} (mid : IsFee pool.midFee)
    (out : IsFee pool.outFee) (first : 0 ≤ a) (second : 0 ≤ b)
    (computed : pool.fee [a, b] = .ok rate) : IsFee rate := by
  obtain ⟨f, reduced, same⟩ := Priced.bind_eq_ok.mp computed
  obtain rfl := Except.ok.inj same
  obtain ⟨unsigned, part⟩ := reductionCoefficient_pair first second reduced
  obtain ⟨low, high⟩ := mix_between pool.midFee pool.outFee unsigned part
  exact ⟨(le_min mid.1 out.1).trans low, high.trans (max_le mid.2 out.2)⟩

/-- The deviation of two amounts from their mean is part of their sum. -/
theorem deviation_pair_le {x y : Int} (first : 0 ≤ x) (second : 0 ≤ y) :
    total ([x, y].map fun amount => absDiff amount ((total [x, y]).fdiv 2)) ≤ total [x, y] := by
  simp only [total, List.map_cons, List.map_nil, List.foldl_cons, List.foldl_nil, zero_add]
  rw [Int.fdiv_eq_ediv_of_nonneg _ (by decide)]
  unfold absDiff
  split <;> split <;> omega

/-- The fee on a deposit of two coins is less than the deposit: half the swap fee on the deviation
and the flat part. -/
theorem depositFee_pair {pool : CryptoPool} {x y a b fee : Int} (pair : pool.layout = .pair)
    (mid : IsFee pool.midFee) (out : IsFee pool.outFee) (amountIn : 0 ≤ x) (amountIn' : 0 ≤ y)
    (first : 0 ≤ a) (second : 0 ≤ b) (computed : pool.depositFee [x, y] [a, b] = .ok fee) :
    fee < Crypto.feeUnit := by
  simp only [depositFee, pair, Layout.coins, Priced.bind_eq_ok, Priced.quotient_eq_ok,
    Priced.bareQuotient_eq_ok, Except.ok.injEq, Nat.cast_ofNat] at computed
  obtain ⟨rate, rated, _, ⟨-, rfl⟩, _, ⟨-, rfl⟩, part, ⟨nonzero, divided⟩, rfl⟩ := computed
  obtain ⟨unsigned, whole⟩ := fee_pair mid out first second rated
  have sum : 0 < total [x, y] :=
    lt_of_le_of_ne (total_nonneg (by simp [amountIn, amountIn'])) nonzero.symm
  have charge : 0 ≤ (rate * 2).fdiv (4 * (2 - 1)) := Int.fdiv_nonneg (by omega) (by decide)
  have half : (rate * 2).fdiv (4 * (2 - 1)) ≤ 5000000000 := by
    have unit : Stable.feeUnit = 10000000000 := rfl
    rw [fdiv_le_iff (by decide)]
    omega
  have bound : part ≤ 5000000000 := by
    rw [← divided, fdiv_le_iff sum]
    have deviation := mul_le_mul_of_nonneg_left (deviation_pair_le amountIn amountIn') charge
    have scaled := mul_le_mul_of_nonneg_right half sum.le
    linarith
  have noise : noiseFee = 100000 := by decide
  have unit : Crypto.feeUnit = 10000000000 := rfl
  omega

/-- A fee that is less than the whole leaves something of a positive amount. -/
theorem share_lt {amount fee : Int} (positive : 0 < amount) (rate : fee < Stable.feeUnit) :
    Stable.share amount fee < amount := by
  rw [Stable.share, fdiv_lt_iff feeUnit_pos, mul_comm amount]
  exact mul_lt_mul_of_pos_right rate positive

/-- A pool of two coins with positive prices and precisions, fees that are parts of the whole, and
no negative reserve or supply. -/
structure SoundPair (pool : CryptoPool) : Prop where
  pair : pool.layout = .pair
  reserveCount : pool.reserves.length = 2
  precisionCount : pool.precisions.length = 2
  shaped : pool.Shaped
  precisions : ∀ precision ∈ pool.precisions, 0 < precision
  midFee : IsFee pool.midFee
  outFee : IsFee pool.outFee
  reserves : ∀ reserve ∈ pool.reserves, 0 ≤ reserve
  supply : 0 ≤ pool.supply
  priceScale : ∀ price ∈ pool.priceScale, 0 < price

namespace SoundPair

variable {pool : CryptoPool} {balances : List Int} (sound : pool.SoundPair)
include sound

theorem scaleCount : pool.priceScale.length = 1 := by
  rw [sound.shaped.priceScale, sound.pair]
  rfl

theorem unit_pos {price : Int} (member : price ∈ withUnit pool.priceScale) : 0 < price := by
  rcases List.mem_cons.mp member with rfl | kept
  · exact Fixed.one_pos
  · exact sound.priceScale price kept

theorem scaled_length (count : balances.length = 2) : (pool.scaled balances).length = 2 := by
  simp only [scaled, valued, withUnit, List.length_zipWith, List.length_cons, count,
    sound.precisionCount, sound.scaleCount]
  rfl

theorem scaled_nonneg (nonneg : ∀ balance ∈ balances, 0 ≤ balance) :
    ∀ x ∈ pool.scaled balances, 0 ≤ x := by
  intro x member
  obtain ⟨⟨amount, price⟩, paired, rfl⟩ := mem_zipWith_iff.mp member
  obtain ⟨inAmounts, inPrices⟩ := List.of_mem_zip paired
  obtain ⟨⟨balance, precision⟩, paired', rfl⟩ := mem_zipWith_iff.mp inAmounts
  obtain ⟨inBalances, inPrecisions⟩ := List.of_mem_zip paired'
  have raw := mul_nonneg (nonneg balance inBalances) (sound.precisions precision inPrecisions).le
  exact Int.fdiv_nonneg (mul_nonneg raw (sound.unit_pos inPrices).le) Fixed.one_pos.le

/-- A larger balance has the larger value. -/
theorem scaled_pair_le {x y x' y' : Int} (first : x ≤ x') (second : y ≤ y') :
    ∃ a b a' b', pool.scaled [x, y] = [a, b] ∧ pool.scaled [x', y'] = [a', b'] ∧
      a ≤ a' ∧ b ≤ b' := by
  obtain ⟨p0, p1, precisions⟩ := List.length_eq_two.mp sound.precisionCount
  obtain ⟨price, scale⟩ := List.length_eq_one_iff.mp sound.scaleCount
  have pricePos : 0 < price := sound.priceScale price (by simp [scale])
  have p0Pos : 0 < p0 := sound.precisions p0 (by simp [precisions])
  have p1Pos : 0 < p1 := sound.precisions p1 (by simp [precisions])
  have valued : ∀ x y, pool.scaled [x, y] =
      [(x * p0 * Fixed.one).fdiv Fixed.one, (y * p1 * price).fdiv Fixed.one] := by
    intro x y
    rw [scaled, CryptoPool.valued, withUnit, precisions, scale]
    rfl
  refine ⟨_, _, _, _, valued x y, valued x' y', ?_, ?_⟩
  · exact fdiv_le_fdiv Fixed.one_pos (mul_le_mul_of_nonneg_right
      (mul_le_mul_of_nonneg_right first p0Pos.le) Fixed.one_pos.le)
  · exact fdiv_le_fdiv Fixed.one_pos (mul_le_mul_of_nonneg_right
      (mul_le_mul_of_nonneg_right second p1Pos.le) pricePos.le)

/-- The pool after an operation that has moved reserves and supply. -/
theorem moved {reserves : List Int} {supply d xcpProfit virtualPrice : Int} {ramp : AGammaRamp}
    (count : reserves.length = 2) (nonneg : ∀ reserve ∈ reserves, 0 ≤ reserve)
    (issued : 0 ≤ supply) :
    SoundPair { pool with
      reserves := reserves
      supply := supply
      d := d
      ramp := ramp
      xcpProfit := xcpProfit
      virtualPrice := virtualPrice } where
  pair := sound.pair
  reserveCount := count
  precisionCount := sound.precisionCount
  shaped := ⟨sound.shaped.priceScale, sound.shaped.priceOracle, sound.shaped.lastPrices⟩
  precisions := sound.precisions
  midFee := sound.midFee
  outFee := sound.outFee
  reserves := nonneg
  supply := issued
  priceScale := sound.priceScale

/-- A deposit leaves no negative balance and mints no negative amount of shares. -/
theorem depositFor {amounts : List Int} {deposit : Deposit} {now : Time}
    (computed : pool.depositFor amounts now = .ok deposit) :
    deposit.balances.length = 2 ∧ (∀ balance ∈ deposit.balances, 0 ≤ balance) ∧
      deposit.xp = pool.scaled deposit.balances ∧ 0 ≤ deposit.minted := by
  simp only [CryptoPool.depositFor, requireDeposit, Priced.ite_bind, Priced.bind_eq_ok,
    Priced.require_eq_ok, decide_eq_true_eq, Bool.and_eq_true, List.all_eq_true] at computed
  obtain ⟨_, ⟨_, count, nonneg, -⟩, shape, -, oldD, -, d, -, rest⟩ := computed
  obtain ⟨r0, r1, reserves⟩ := List.length_eq_two.mp sound.reserveCount
  obtain ⟨a0, a1, rfl⟩ := List.length_eq_two.mp (count.trans (by rw [sound.pair]; rfl))
  have held : 0 ≤ r0 ∧ 0 ≤ r1 := by simpa [reserves] using sound.reserves
  have paid : 0 ≤ a0 ∧ 0 ≤ a1 := by simpa using nonneg
  obtain ⟨x0, x1, y0, y1, before, after, grown, grown'⟩ :=
    sound.scaled_pair_le (show r0 ≤ r0 + a0 by omega) (show r1 ≤ r1 + a1 by omega)
  have filled : ∀ balance ∈ [r0 + a0, r1 + a1], 0 ≤ balance := by
    simp only [List.mem_cons, List.not_mem_nil, or_false, forall_eq_or_imp, forall_eq]
    omega
  have worth : 0 ≤ y0 ∧ 0 ≤ y1 := by simpa [after] using sound.scaled_nonneg filled
  have balances : pool.reserves.zipWith (· + ·) [a0, a1] = [r0 + a0, r1 + a1] := by
    rw [reserves]
    rfl
  rw [balances, reserves, after, before] at rest
  split at rest
  · simp only [Priced.bind_eq_ok, Priced.require_eq_ok, decide_eq_true_eq, Except.ok.injEq] at rest
    obtain ⟨_, -, _, positive, fee, charged, rfl⟩ := rest
    have counted : ∀ amount gain : Int, 0 ≤ gain → 0 ≤ if 0 < amount then gain else 0 := by
      intro amount gain unsigned
      split
      · exact unsigned
      · exact le_rfl
    have small : fee < Crypto.feeUnit := depositFee_pair sound.pair sound.midFee sound.outFee
      (counted a0 (y0 - x0) (by omega)) (counted a1 (y1 - x1) (by omega)) worth.1 worth.2 charged
    have kept := share_lt positive small
    exact ⟨rfl, filled, after.symm, sub_nonneg.mpr (Int.add_one_le_iff.mpr kept)⟩
  · simp only [Priced.bind_eq_ok, Priced.require_eq_ok, decide_eq_true_eq, Except.ok.injEq] at rest
    obtain ⟨minted, -, _, positive, rfl⟩ := rest
    exact ⟨rfl, filled, after.symm, positive.le⟩

/-- What is paid out for the fall of a scaled balance is covered by the reserve that it values. -/
theorem paid_le_reserve {coin : Nat} {y balance price precision reserve : Int} (left : 0 < y)
    (balanceAt : (pool.scaled pool.reserves)[coin]? = some balance)
    (priceAt : (withUnit pool.priceScale)[coin]? = some price)
    (precisionAt : pool.precisions[coin]? = some precision)
    (reserveAt : pool.reserves[coin]? = some reserve) :
    ((balance - y) * Fixed.one).fdiv (price * precision) ≤ reserve := by
  obtain ⟨amount, price', amountAt, priceAt', rfl⟩ := List.getElem?_zipWith_eq_some.mp balanceAt
  obtain ⟨reserve', precision', reserveAt', precisionAt', rfl⟩ :=
    List.getElem?_zipWith_eq_some.mp amountAt
  obtain rfl : price' = price := Option.some.inj (priceAt'.symm.trans priceAt)
  obtain rfl : precision' = precision := Option.some.inj (precisionAt'.symm.trans precisionAt)
  obtain rfl : reserve' = reserve := Option.some.inj (reserveAt'.symm.trans reserveAt)
  have divisor : 0 < price' * precision' := mul_pos (sound.unit_pos (List.mem_of_getElem? priceAt))
    (sound.precisions precision' (List.mem_of_getElem? precisionAt))
  have value := (le_fdiv_iff Fixed.one_pos).mp
    (le_refl ((reserve' * precision' * price').fdiv Fixed.one))
  have taken : 0 < y * Fixed.one := mul_pos left Fixed.one_pos
  rw [fdiv_le_iff divisor]
  linarith

end SoundPair

/-- A settled operation of a sound pair that waits to be booked. -/
structure Settlement.Sound (settlement : Settlement) : Prop where
  pool : settlement.pool.SoundPair
  count : settlement.xp.length = 2
  xp : ∀ x ∈ settlement.xp, 0 ≤ x
  known : ∀ d, settlement.knownD = some d → 0 < d

section
variable {pool next : CryptoPool} {now : Time} {settlement : Settlement}

theorem settleExchange_sound (sound : pool.SoundPair) {i j : Nat} {dx dy : Int}
    (settles : pool.settleExchange i j dx now = .ok (dy, settlement)) : settlement.Sound := by
  obtain ⟨reserveOut, d, ramp, -, paid, covered, -, frame, xp, known⟩ := settleExchange_moves settles
  have count : ((pool.reserves.modify i (· + dx)).set j (reserveOut - dy)).length = 2 := by
    rw [List.length_set, List.length_modify, sound.reserveCount]
  have nonneg : ∀ reserve ∈ (pool.reserves.modify i (· + dx)).set j (reserveOut - dy), 0 ≤ reserve :=
    Holdings.traded_nonneg sound.reserves paid.le (sub_nonneg.mpr covered)
  rw [frame] at xp
  refine ⟨frame ▸ sound.moved count nonneg sound.supply, ?_, ?_, ?_⟩
  · exact xp ▸ sound.scaled_length count
  · exact xp ▸ sound.scaled_nonneg nonneg
  · intro d given
    simp [known] at given

theorem settleWithdrawal_sound (sound : pool.SoundPair) {shares : Int} {coin : Nat}
    {paid : Stable.Withdrawal}
    (settles : pool.settleWithdrawal shares coin now = .ok (paid, settlement)) :
    settlement.Sound := by
  simp only [settleWithdrawal, Priced.bind_eq_ok, Priced.entry_eq_ok, Except.ok.injEq,
    Prod.mk.injEq] at settles
  obtain ⟨_, -, withdrawal, computed, reserve, reserveAt, -, rfl⟩ := settles
  simp only [singleWithdrawal, Priced.ite_bind, Priced.bind_eq_ok, Priced.require_eq_ok,
    Priced.entry_eq_ok, Priced.quotient_eq_ok, decide_eq_true_eq, Except.ok.injEq] at computed
  obtain ⟨_, -, _, held, shape, -, price, priceAt, precision, precisionAt, oldD, -, _, -, burnt, -, y,
    solved, balance, balanceAt, amount, ⟨-, rfl⟩, _, -, rfl⟩ := computed
  obtain ⟨positive, left⟩ := newtonY_pos solved
  have covered := sound.paid_le_reserve left balanceAt priceAt precisionAt reserveAt
  refine ⟨sound.moved ?_ ?_ (by omega), ?_, ?_, ?_⟩
  · rw [List.length_set, sound.reserveCount]
  · exact forall_set sound.reserves (sub_nonneg.mpr covered)
  · rw [List.length_set, sound.scaled_length sound.reserveCount]
  · exact forall_set (sound.scaled_nonneg sound.reserves) left.le
  · intro d given
    exact Option.some.inj given ▸ positive

theorem settleDeposit_sound (sound : pool.SoundPair) {shape : Shape} {amounts : List Int}
    {deposit : Deposit} (computed : pool.depositFor amounts now = .ok deposit)
    (settles : pool.settleDeposit shape amounts deposit now = .ok settlement) :
    settlement.Sound := by
  obtain ⟨count, nonneg, xp, minted⟩ := sound.depositFor computed
  obtain ⟨trade, -, same⟩ := Priced.bind_eq_ok.mp settles
  obtain rfl := Except.ok.inj same
  refine ⟨sound.moved count nonneg (add_nonneg sound.supply minted), ?_, ?_, ?_⟩
  · exact xp ▸ sound.scaled_length count
  · exact xp ▸ sound.scaled_nonneg nonneg
  · intro d given
    exact Option.some.inj given ▸ (Trade.depositFor_pos computed).1

theorem Operation.settle_sound (sound : pool.SoundPair) (operation : Operation)
    (settles : operation.settle pool now = .ok settlement) : settlement.Sound := by
  match operation with
  | .trade (.swap i j dx) =>
      obtain ⟨_, exchanged, same⟩ := Priced.bind_eq_ok.mp settles
      obtain rfl := Except.ok.inj same
      exact settleExchange_sound sound exchanged
  | .trade (.deposit amounts) =>
      obtain ⟨shape, -, settles⟩ := Priced.bind_eq_ok.mp settles
      obtain ⟨deposit, computed, settles⟩ := Priced.bind_eq_ok.mp settles
      exact settleDeposit_sound sound computed settles
  | .withdraw shares coin =>
      obtain ⟨_, withdrawn, same⟩ := Priced.bind_eq_ok.mp settles
      obtain rfl := Except.ok.inj same
      exact settleWithdrawal_sound sound withdrawn

/-- A step of the scale that is taken ends at a positive price, because the balances at the new
scale have an invariant. -/
theorem Settlement.Sound.adjusted_pos (waits : settlement.Sound) {oracle : List Int}
    {deviation profit : Int} {adjustment : Adjustment}
    (averaged : settlement.pool.oracleAt now = .ok oracle)
    (taken : settlement.pool.adjustment settlement.shape settlement.xp oracle deviation profit =
      .ok (some adjustment)) :
    ∀ price ∈ adjustment.priceScale, 0 < price := by
  obtain ⟨norm, balances, -, moved, rescaled, solved, -, -, -⟩ := adjustment_eq_some taken
  have count : adjustment.priceScale.length = 1 := by
    rw [movedScale_length waits.pool.shaped (oracleAt_length waits.pool.shaped averaged) moved,
      waits.pool.pair]
    rfl
  obtain ⟨x0, x1, xp⟩ := List.length_eq_two.mp waits.count
  obtain ⟨new, scale⟩ := List.length_eq_one_iff.mp count
  obtain ⟨old, oldScale⟩ := List.length_eq_one_iff.mp waits.pool.scaleCount
  have unsigned : 0 ≤ x1 := waits.xp x1 (by simp [xp])
  have priced : 0 < old := waits.pool.priceScale old (by simp [oldScale])
  simp only [CryptoPool.rescaled, xp, scale, oldScale, Priced.bind_eq_ok, Priced.quotient_eq_ok,
    List.drop_succ_cons, List.drop_zero, List.zip_cons_cons, List.zip_nil_left, List.mapM_cons,
    List.mapM_nil, Except.ok.injEq] at rescaled
  obtain ⟨_, -, others, ⟨value, ⟨-, divided⟩, rest, -, same⟩, rfl⟩ := rescaled
  obtain rfl := Except.ok.inj same
  have positive : 0 < value := newtonD_balances_pos solved value (by simp)
  have product : 1 * old ≤ x1 * new := (le_fdiv_iff priced).mp (divided ▸ positive)
  intro price member
  obtain rfl : price = new := by simpa [scale] using member
  exact pos_of_mul_pos_right (by omega) unsigned

/-- A booking leaves a sound pair with a positive invariant. -/
theorem Settlement.Sound.book (waits : settlement.Sound) (books : settlement.book now = .ok next) :
    next.SoundPair ∧ 0 < next.d := by
  obtain ⟨seen, profit, observed, -, ends⟩ := Settlement.book_eq_ok books
  have shaped := ends.shaped waits.pool.shaped observed
  have scale : ∀ price ∈ next.priceScale, 0 < price := by
    cases ends with
    | unwanted | near | refused => exact waits.pool.priceScale
    | moved deviation adjustment wants measured taken =>
        obtain ⟨averaged, -, -⟩ := Settlement.observe_eq_ok observed
        have kept : settlement.pool.layout.kept adjustment.priceScale = adjustment.priceScale := by
          rw [waits.pool.pair]
          rfl
        simp only [kept]
        exact waits.adjusted_pos averaged taken
  refine ⟨?_, ends.d_pos (Settlement.observe_d_pos waits.known observed)⟩
  obtain ⟨pair, reserveCount, precisionCount, -, precisions, midFee, outFee, reserves, supply, -⟩ :=
    waits.pool
  rw [ends.frame] at shaped scale ⊢
  exact ⟨pair, reserveCount, precisionCount, shaped, precisions, midFee, outFee, reserves, supply,
    scale⟩

/-- Every operation that succeeds leaves a sound pair with a positive invariant, also the first
deposit, which is not booked. -/
theorem Operation.perform_sound (sound : pool.SoundPair) (operation : Operation)
    (succeeds : operation.perform pool now = .ok next) : next.SoundPair ∧ 0 < next.d := by
  obtain ⟨settlement, settles, books⟩ | ⟨amounts, deposit, -, computed, rfl⟩ :=
    operation.perform_cases succeeds
  · exact (operation.settle_sound sound settles).book books
  · obtain ⟨count, nonneg, -, minted⟩ := sound.depositFor computed
    exact ⟨sound.moved count nonneg (add_nonneg sound.supply minted),
      (Trade.depositFor_pos computed).1⟩

end

/-- A pool after an operation. One that fails leaves it as it was. -/
def Operation.after (operation : Operation) (pool : CryptoPool) (now : Time) : CryptoPool :=
  match operation.perform pool now with
  | .ok next => next
  | .error _ => pool

/-- A pool after operations at their times, one after another. -/
def operate (pool : CryptoPool) (operations : List (Operation × Time)) : CryptoPool :=
  operations.foldl (fun current (operation, now) => operation.after current now) pool

theorem operate_sound {pool : CryptoPool} (sound : pool.SoundPair)
    (operations : List (Operation × Time)) : (operate pool operations).SoundPair := by
  induction operations generalizing pool with
  | nil => exact sound
  | cons dated operations ih =>
      obtain ⟨operation, now⟩ := dated
      refine ih ?_
      cases result : operation.perform pool now with
      | error failure => simpa only [Operation.after, result] using sound
      | ok next =>
          simpa only [Operation.after, result] using (operation.perform_sound sound result).1

/-- Along any run of operations on a sound pair, at any times and with any amounts, every one that
succeeds leaves no negative reserve and no negative supply, a positive price and a positive
invariant. -/
theorem pair_stays_sound (pool : CryptoPool) (sound : pool.SoundPair)
    (earlier : List (Operation × Time)) (operation : Operation) (now : Time) (next : CryptoPool)
    (succeeds : operation.perform (operate pool earlier) now = .ok next) :
    (∀ reserve ∈ next.reserves, 0 ≤ reserve) ∧ 0 ≤ next.supply ∧
      (∀ price ∈ next.priceScale, 0 < price) ∧ 0 < next.d ∧ next.SoundPair := by
  obtain ⟨left, positive⟩ := operation.perform_sound (operate_sound sound earlier) succeeds
  exact ⟨left.reserves, left.supply, left.priceScale, positive, left⟩

theorem samplePair_sound : samplePair.SoundPair where
  pair := rfl
  reserveCount := rfl
  precisionCount := rfl
  shaped := ⟨rfl, rfl, rfl⟩
  precisions := by decide
  midFee := ⟨by decide, by decide⟩
  outFee := ⟨by decide, by decide⟩
  reserves := by decide
  supply := by decide
  priceScale := by decide

/-- A trade, a withdrawal of more shares than there are and a deposit of one coin. -/
def sampleRun : List (Operation × Time) :=
  [(.trade (.swap 0 1 10000000000000000000000), 600),
    (.withdraw 80000000000000000000000 0, 700),
    (.trade (.deposit [10000000000000000000000, 0]), 800)]

/-- A withdrawal of the second coin after these moves the price and leaves a sound pair. -/
theorem samplePair_run_stays_sound :
    samplePair.SoundPair ∧
      ∃ next, (Operation.withdraw 100000000000000000000 1).perform (operate samplePair sampleRun)
          1200 = .ok next ∧
        next.priceScale = [1500657095926668205854] ∧
        (∀ reserve ∈ next.reserves, 0 ≤ reserve) ∧ 0 ≤ next.supply ∧
          (∀ price ∈ next.priceScale, 0 < price) ∧ 0 < next.d ∧ next.SoundPair := by
  obtain ⟨next, succeeds, moved⟩ := Priced.map_eq_ok.mp (show
    ((Operation.withdraw 100000000000000000000 1).perform (operate samplePair sampleRun) 1200).map
      CryptoPool.priceScale = .ok [1500657095926668205854] by decide +kernel)
  exact ⟨samplePair_sound, next, succeeds, moved,
    pair_stays_sound samplePair samplePair_sound sampleRun _ _ next succeeds⟩

end CryptoPool
end Amm
