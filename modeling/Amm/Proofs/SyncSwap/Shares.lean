import Amm.Proofs.Calls
import Amm.Proofs.Rounding

/-!
The shares of pools of two tokens with a fixed amplification. The deposit that opens such a pool
mints a thousand shares less than the invariant. The thousand is in no supply: the shares outstanding
are those that depositors hold, and as long as the pool has any of the other token, they can burn them
all.
-/

namespace Amm

namespace Call

/-- No amount of a call is below zero. -/
def Unsigned : Call → Prop
  | .quote order => 0 ≤ order.amountIn
  | .apply update => 0 ≤ update.amountIn ∧ 0 ≤ update.amountOut
  | .deposit amounts => ∀ amount ∈ amounts, 0 ≤ amount
  | .withdraw shares _ => 0 ≤ shares
  | .virtualPrice => True

/-- The shares that a call hands out, less those that it burns. -/
def sharesIssued (call : Call) (pool : Pool) (now : Time) : Int :=
  match call with
  | .deposit amounts =>
    match pool.deposit amounts now with
    | .ok (minted, _) => minted
    | .error _ => 0
  | .withdraw shares index =>
    match pool.withdraw shares index now with
    | .ok _ => -shares
    | .error _ => 0
  | .quote _ | .apply _ | .virtualPrice => 0

end Call

/-- The shares that calls hand out, one after another, less those that they burn. -/
def sharesHeld (pool : Pool) : List (Call × Time) → Int
  | [] => 0
  | (call, now) :: rest => call.sharesIssued pool now + sharesHeld (call.after pool now) rest

namespace SyncSwap

@[simp] theorem invariant_empty (a : Int) : invariant a 0 0 = .ok 0 := rfl

/-- Nothing is left of the other token when the invariant is zero. -/
theorem balanceFor_empty {a x : Int} (amplified : a ≠ 0) :
    balanceFor a x 0 = if x = 0 then Priced.refuse .denominatorZero else .ok 0 := by
  by_cases none : x = 0
  · subst none
    rfl
  · have shape : coefficients a x 0 = .ok (x, 0) := by
      simp [coefficients, Priced.quotient, Fixed.divDown, Priced.ofFixed, none, amplified]
    have step : balanceStep x 0 0 0 = .ok 0 := by
      simp [balanceStep, Priced.quotient, Fixed.divDown, Priced.ofFixed, none]
    rw [if_neg none, balanceFor, shape, Priced.ok_bind]
    exact Newton.settle_of_fixed step

end SyncSwap

namespace SyncSwapPool

variable {pool next : SyncSwapPool} {amounts : List Int} {minted shares : Int} {index : Nat}
  {paid : Stable.Withdrawal} {now : Time}

/-- Nothing but the mint of a deposit is looked at, which has to be positive. -/
theorem deposit_eq_ok (deposited : pool.deposit amounts = .ok (minted, next)) :
    ∃ amount0 amount1, amounts = [amount0, amount1] ∧ pool.mintFor amount0 amount1 = .ok minted ∧
      next = { pool with
        reserve0 := pool.reserve0 + amount0
        reserve1 := pool.reserve1 + amount1
        supply := pool.supply + minted } := by
  simp only [deposit, Priced.bind_eq_ok, Except.ok.injEq, Prod.mk.injEq] at deposited
  obtain ⟨⟨amount0, amount1⟩, paired, _, mints, rfl, rfl⟩ := deposited
  unfold amountPair at paired
  split at paired
  · obtain ⟨rfl, rfl⟩ := Prod.mk.inj (Except.ok.inj paired)
    exact ⟨_, _, rfl, mints, rfl⟩
  · exact absurd paired (Priced.refuse_ne_ok _ _)

theorem mintFor_pos {amount0 amount1 : Int} (mints : pool.mintFor amount0 amount1 = .ok minted) :
    0 < minted := by
  simp only [mintFor, Priced.ite_bind, Priced.bind_eq_ok, Priced.require_eq_ok, decide_eq_true_eq,
    Except.ok.injEq] at mints
  obtain ⟨_, -, _, -, _, -, _, -, _, positive, rfl⟩ := mints
  exact positive

/-- The first deposit mints less than the invariant that it leaves. -/
theorem deposit_below_invariant (empty : pool.supply = 0)
    (deposited : pool.deposit amounts = .ok (minted, next)) :
    next.supply = minted ∧ next.invariant = .ok (minted + minimumLiquidity) := by
  obtain ⟨amount0, amount1, -, mints, rfl⟩ := deposit_eq_ok deposited
  refine ⟨by simp [empty], ?_⟩
  simp only [mintFor, depositFees, empty, if_pos, Priced.bind_eq_ok, Priced.require_eq_ok,
    Except.ok.injEq] at mints
  obtain ⟨_, -, _, rfl, after, found, _, rfl, _, -, rfl⟩ := mints
  simp only [sub_zero] at found
  simpa [invariant, invariantOf, empty] using found

theorem withdraw_eq_ok (withdrawn : pool.withdraw shares index = .ok (paid, next)) :
    ∃ burn, pool.burnFor shares index = .ok burn ∧ shares ≤ pool.supply ∧ 0 ≤ burn.reserve0 ∧
      0 ≤ burn.reserve1 ∧ paid = burn.withdrawal ∧
      next = { pool with
        reserve0 := burn.reserve0
        reserve1 := burn.reserve1
        supply := pool.supply - shares } := by
  simp only [withdraw, Priced.bind_eq_ok, Except.ok.injEq, Prod.mk.injEq] at withdrawn
  obtain ⟨burn, burns, rfl, rfl⟩ := withdrawn
  refine ⟨burn, burns, ?_⟩
  simp only [burnFor, Priced.bind_eq_ok, Priced.require_eq_ok, decide_eq_true_eq] at burns
  obtain ⟨_, -, _, available, _, -, _, -, swapped⟩ := burns
  have signs : 0 ≤ burn.reserve0 ∧ 0 ≤ burn.reserve1 := by
    split at swapped <;>
      simp only [Priced.bind_eq_ok, Priced.require_eq_ok, Bool.and_eq_true, decide_eq_true_eq,
        Except.ok.injEq] at swapped <;>
      obtain ⟨_, -, _, rfl, _, signs, rfl⟩ := swapped <;>
      exact signs
  exact ⟨available, signs.1, signs.2, rfl, rfl⟩

/-- A fee below the whole leaves something of every amount. -/
theorem sold_eq_zero_iff {amount fee multiplier : Int} (nonneg : 0 ≤ amount) (part : fee < feeUnit)
    (positive : 0 < multiplier) :
    (amount - (amount * fee).fdiv feeUnit) * multiplier = 0 ↔ amount = 0 := by
  rw [mul_eq_zero, or_iff_left positive.ne']
  refine ⟨fun nothing => ?_, fun none => by simp [none]⟩
  by_contra some
  have less : (amount * fee).fdiv feeUnit < amount :=
    (fdiv_lt_iff (by decide)).mpr
      (mul_lt_mul_of_pos_left part (lt_of_le_of_ne nonneg (Ne.symm some)))
  omega

theorem quotient_minus_one {multiplier : Int} (positive : 0 < multiplier) :
    Priced.quotient (-1) multiplier = .ok (-1) :=
  Priced.quotient_eq_ok.mpr ⟨positive.ne', le_antisymm ((fdiv_le_iff positive).mpr (by simp))
    ((le_fdiv_iff positive).mpr (by omega))⟩

/-- A pool whose numbers are those that the contract can hold. -/
structure Sound (pool : SyncSwapPool) : Prop where
  reserve0 : 0 ≤ pool.reserve0
  reserve1 : 0 ≤ pool.reserve1
  supply : 0 ≤ pool.supply
  amp : 0 < pool.amp
  multiplier0 : 0 < pool.multiplier0
  multiplier1 : 0 < pool.multiplier1
  fee0 : pool.fee0 < feeUnit
  fee1 : pool.fee1 < feeUnit

namespace Sound

theorem reserve_nonneg (sound : pool.Sound) (index : Nat) : 0 ≤ pool.reserve index := by
  unfold reserve
  split
  · exact sound.reserve0
  · exact sound.reserve1

theorem apply {update : Update} (sound : pool.Sound) (unsigned : (Call.apply update).Unsigned)
    (applied : pool.apply update = .ok next) : next.Sound ∧ next.supply = pool.supply := by
  simp only [SyncSwapPool.apply, Priced.bind_eq_ok, Priced.require_eq_ok, decide_eq_true_eq,
    Except.ok.injEq] at applied
  obtain ⟨⟨i, j⟩, -, _, remains, rfl⟩ := applied
  have filled : 0 ≤ pool.reserve i + update.amountIn :=
    add_nonneg (sound.reserve_nonneg i) unsigned.1
  split
  · exact ⟨{ sound with reserve0 := filled, reserve1 := remains }, rfl⟩
  · exact ⟨{ sound with reserve0 := remains, reserve1 := filled }, rfl⟩

theorem deposit (sound : pool.Sound) (unsigned : (Call.deposit amounts).Unsigned)
    (deposited : pool.deposit amounts = .ok (minted, next)) :
    next.Sound ∧ next.supply = pool.supply + minted := by
  obtain ⟨amount0, amount1, rfl, mints, rfl⟩ := deposit_eq_ok deposited
  exact ⟨{ sound with
    reserve0 := add_nonneg sound.reserve0 (unsigned amount0 (by simp))
    reserve1 := add_nonneg sound.reserve1 (unsigned amount1 (by simp))
    supply := add_nonneg sound.supply (mintFor_pos mints).le }, rfl⟩

theorem withdraw (sound : pool.Sound)
    (withdrawn : pool.withdraw shares index = .ok (paid, next)) :
    next.Sound ∧ next.supply = pool.supply - shares := by
  obtain ⟨_, -, available, nonneg0, nonneg1, -, rfl⟩ := withdraw_eq_ok withdrawn
  exact ⟨{ sound with
    reserve0 := nonneg0
    reserve1 := nonneg1
    supply := sub_nonneg_of_le available }, rfl⟩

/-- A call leaves a sound pool whose supply has grown by the shares that it handed out. -/
theorem after (sound : pool.Sound) {call : Call} (unsigned : call.Unsigned) (now : Time) :
    ∃ next : SyncSwapPool, call.after (.syncSwap pool) now = .syncSwap next ∧ next.Sound ∧
      next.supply = pool.supply + call.sharesIssued (.syncSwap pool) now := by
  unfold Call.after
  cases call with
  | quote order =>
      refine ⟨pool, ?_, sound, (add_zero _).symm⟩
      simp only [Call.perform]
      cases (Pool.syncSwap pool).quote order now <;> rfl
  | virtualPrice =>
      refine ⟨pool, ?_, sound, (add_zero _).symm⟩
      simp only [Call.perform]
      cases (Pool.syncSwap pool).virtualPrice now <;> rfl
  | apply update =>
      simp only [Call.perform, Pool.apply, Call.sharesIssued]
      cases applied : pool.apply update with
      | error failure => exact ⟨pool, rfl, sound, (add_zero _).symm⟩
      | ok next =>
          obtain ⟨kept, same⟩ := sound.apply unsigned applied
          exact ⟨next, rfl, kept, same.trans (add_zero _).symm⟩
  | deposit amounts =>
      simp only [Call.perform, Pool.deposit, Call.sharesIssued]
      cases deposited : pool.deposit amounts with
      | error failure => exact ⟨pool, rfl, sound, (add_zero _).symm⟩
      | ok result =>
          obtain ⟨kept, grown⟩ := sound.deposit unsigned deposited
          exact ⟨result.2, rfl, kept, grown⟩
  | withdraw shares index =>
      simp only [Call.perform, Pool.withdraw, Call.sharesIssued]
      cases withdrawn : pool.withdraw shares index with
      | error failure => exact ⟨pool, rfl, sound, (add_zero _).symm⟩
      | ok result =>
          obtain ⟨kept, shrunk⟩ := sound.withdraw withdrawn
          exact ⟨result.2, rfl, kept, shrunk⟩

/-- The supply is what it was and the shares that depositors hold of the calls since. -/
theorem callAll (sound : pool.Sound) {calls : List (Call × Time)}
    (unsigned : ∀ call ∈ calls, call.1.Unsigned) :
    ∃ last : SyncSwapPool, Amm.callAll (.syncSwap pool) calls = .syncSwap last ∧ last.Sound ∧
      last.supply = pool.supply + sharesHeld (.syncSwap pool) calls := by
  induction calls generalizing pool with
  | nil => exact ⟨pool, rfl, sound, (add_zero _).symm⟩
  | cons dated rest ih =>
      obtain ⟨call, now⟩ := dated
      obtain ⟨first, others⟩ := List.forall_mem_cons.mp unsigned
      obtain ⟨next, moved, kept, grown⟩ := sound.after first now
      obtain ⟨last, ends, holds, total⟩ := ih kept others
      refine ⟨last, ?_, holds, ?_⟩
      · rw [callAll_cons, moved, ends]
      · rw [total, grown, sharesHeld, moved, add_assoc]

/-- A swap in an empty pool takes back the one unit that rounding leaves, whatever is sold. -/
theorem amountOutOf_empty (sound : pool.Sound) {amount : Int} (nonneg : 0 ≤ amount)
    (zeroForOne : Bool) :
    pool.amountOutOf 0 0 amount zeroForOne =
      if amount = 0 then Priced.refuse .denominatorZero
      else .ok (-1, (amount * (if zeroForOne then pool.fee0 else pool.fee1)).fdiv feeUnit) := by
  have none : pool.invariantOf 0 0 = .ok 0 := by
    simp [invariantOf]
  unfold amountOutOf
  rw [none]
  cases zeroForOne with
  | false =>
      simp only [Priced.ok_bind, zero_mul, zero_add, SyncSwap.balanceFor_empty sound.amp.ne',
        sold_eq_zero_iff nonneg sound.fee1 sound.multiplier1, Bool.false_eq_true, if_false]
      split
      · rfl
      · simp [quotient_minus_one sound.multiplier0]
  | true =>
      simp only [Priced.ok_bind, zero_mul, zero_add, SyncSwap.balanceFor_empty sound.amp.ne',
        sold_eq_zero_iff nonneg sound.fee0 sound.multiplier0, if_true]
      split
      · rfl
      · simp [quotient_minus_one sound.multiplier1]

/-- All shares at once leave one unit of the token asked for, and all of the other token. -/
theorem burnFor_supply (sound : pool.Sound) (outstanding : 0 < pool.supply) (known : index ≤ 1) :
    ∃ fee, pool.burnFor pool.supply index =
      if pool.reserve (1 - index) = 0 then Priced.refuse .denominatorZero
      else .ok {
        withdrawal := ⟨pool.reserve index - 1, fee⟩
        reserve0 := if index = 0 then 1 else pool.reserve0
        reserve1 := if index = 0 then pool.reserve1 else 1 } := by
  have whole : ∀ reserve : Int, Priced.quotient (pool.supply * reserve) pool.supply = .ok reserve :=
    fun reserve => Priced.quotient_eq_ok.mpr
      ⟨outstanding.ne', Int.mul_fdiv_cancel_left reserve outstanding.ne'⟩
  have nothing : Priced.quotient 0 pool.supply = .ok 0 := by
    simpa using whole 0
  -- Both parts are whole reserves, so the one that is not asked for is swapped in an empty pool.
  rcases Nat.le_one_iff_eq_zero_or_eq_one.mp known with rfl | rfl
  · refine ⟨(pool.reserve1 * pool.fee1).fdiv feeUnit, ?_⟩
    have swap := sound.amountOutOf_empty sound.reserve1 false
    by_cases none : pool.reserve1 = 0
    · rw [none] at swap
      simp [burnFor, Priced.require, whole, nothing, swap, reserve, none]
    · simp [burnFor, Priced.require, whole, swap, reserve, none, sound.reserve1, sub_eq_add_neg]
  · refine ⟨(pool.reserve0 * pool.fee0).fdiv feeUnit, ?_⟩
    have swap := sound.amountOutOf_empty sound.reserve0 true
    by_cases none : pool.reserve0 = 0
    · rw [none] at swap
      simp [burnFor, Priced.require, whole, nothing, swap, reserve, none]
    · simp [burnFor, Priced.require, whole, swap, reserve, none, sound.reserve0, sub_eq_add_neg]

/-- All shares can be burned at once exactly while there is any of the token that is not asked for. -/
theorem withdraw_supply (sound : pool.Sound) (outstanding : 0 < pool.supply) (known : index ≤ 1) :
    (∃ paid emptied, pool.withdraw pool.supply index = .ok (paid, emptied) ∧
        emptied.supply = 0 ∧ paid.amount = pool.reserve index - 1) ↔
      0 < pool.reserve (1 - index) := by
  obtain ⟨fee, burns⟩ := sound.burnFor_supply outstanding known
  rw [SyncSwapPool.withdraw, burns]
  constructor
  · rintro ⟨paid, emptied, withdrawn, -⟩
    refine lt_of_le_of_ne (sound.reserve_nonneg _) fun none => ?_
    rw [if_pos none.symm] at withdrawn
    exact absurd withdrawn (by simp)
  · intro some
    rw [if_neg some.ne']
    exact ⟨_, _, rfl, sub_self _, rfl⟩

/-- A pool with an invariant above zero has some of one of its tokens. -/
theorem reserve_pos (sound : pool.Sound) {d : Int} (found : pool.invariant = .ok d) (positive : 0 < d) :
    0 < pool.reserve0 ∨ 0 < pool.reserve1 := by
  by_contra none
  have none0 : pool.reserve0 = 0 := by have := sound.reserve0; omega
  have none1 : pool.reserve1 = 0 := by have := sound.reserve1; omega
  simp only [invariant, invariantOf, none0, none1, zero_mul, SyncSwap.invariant_empty,
    Except.ok.injEq] at found
  omega

end Sound

/-- A first deposit mints a thousand shares less than the invariant, and all that it mints can be burned
again. -/
structure OpensShort (minted : Int) (opened : SyncSwapPool) : Prop where
  positive : 0 < minted
  supply : opened.supply = minted
  invariant : opened.invariant = .ok (minted + minimumLiquidity)
  burnable : ∃ index paid emptied, opened.withdraw minted index = .ok (paid, emptied) ∧
    emptied.supply = 0

theorem Sound.opensShort (sound : pool.Sound) (empty : pool.supply = 0)
    (unsigned : (Call.deposit amounts).Unsigned)
    (deposited : pool.deposit amounts = .ok (minted, next)) : OpensShort minted next := by
  obtain ⟨_, _, -, mints, -⟩ := deposit_eq_ok deposited
  have positive := mintFor_pos mints
  obtain ⟨supply, found⟩ := deposit_below_invariant empty deposited
  obtain ⟨opened, -⟩ := sound.deposit unsigned deposited
  have burn : ∀ index ≤ 1, 0 < next.reserve (1 - index) →
      ∃ index paid emptied, next.withdraw minted index = .ok (paid, emptied) ∧
        emptied.supply = 0 := by
    intro index known some
    obtain ⟨paid, emptied, withdrawn, none, -⟩ :=
      (opened.withdraw_supply (supply.symm ▸ positive) known).mpr some
    exact ⟨index, paid, emptied, supply ▸ withdrawn, none⟩
  refine ⟨positive, supply, found, ?_⟩
  rcases opened.reserve_pos found (add_pos positive (by decide)) with some | some
  · exact burn 1 le_rfl some
  · exact burn 0 zero_le_one some

/-- A pool that starts without shares has, after any calls, as many shares as its depositors hold. None
are set aside: each deposit into a pool without shares mints a thousand less than the invariant, and all
shares can be burned at once exactly while there is any of the token that is not asked for. -/
theorem depositors_hold_all_shares (pool : SyncSwapPool) (sound : pool.Sound)
    (empty : pool.supply = 0) (calls : List (Call × Time))
    (unsigned : ∀ call ∈ calls, call.1.Unsigned) :
    ∃ last : SyncSwapPool, callAll (.syncSwap pool) calls = .syncSwap last ∧
      0 ≤ last.supply ∧ last.supply = sharesHeld (.syncSwap pool) calls ∧
      (last.supply = 0 → ∀ amounts minted opened, (Call.deposit amounts).Unsigned →
        last.deposit amounts = .ok (minted, opened) → OpensShort minted opened) ∧
      (0 < last.supply → ∀ index ≤ 1,
        (∃ paid emptied, last.withdraw last.supply index = .ok (paid, emptied) ∧
            emptied.supply = 0 ∧ paid.amount = last.reserve index - 1) ↔
          0 < last.reserve (1 - index)) := by
  obtain ⟨last, ends, holds, held⟩ := sound.callAll unsigned
  rw [empty, zero_add] at held
  exact ⟨last, ends, holds.supply, held,
    fun none _ _ _ unsigned deposited => holds.opensShort none unsigned deposited,
    fun outstanding _ known => holds.withdraw_supply outstanding known⟩

/-- A pool before its first deposit. -/
def sampleFresh : SyncSwapPool where
  address := ⟨600⟩
  vault := none
  tokens := [⟨1⟩, ⟨2⟩]
  reserve0 := 0
  reserve1 := 0
  supply := 0
  amp := amplification
  multiplier0 := 1
  multiplier1 := 1
  fee0 := 100
  fee1 := 100

theorem sampleFresh_sound : sampleFresh.Sound := by
  constructor <;> decide

/-- Two tokens are deposited and all shares burned for the second of them. -/
def emptying : List (Call × Time) :=
  [(.deposit [1000000000000000000, 1000000000000000000], 600),
    (.withdraw 1999999999999999000 1, 600)]

theorem emptying_unsigned : ∀ call ∈ emptying, call.1.Unsigned := by
  simp [emptying, Call.Unsigned]

theorem sampleFresh_emptied :
    callAll (.syncSwap sampleFresh) emptying =
      .syncSwap { sampleFresh with reserve0 := 1000000000000000000, reserve1 := 1 } := by
  decide +kernel

theorem sampleFresh_opens :
    sampleFresh.deposit [1000000000000000000, 1000000000000000000] =
      .ok (1999999999999999000,
        { sampleFresh with
          reserve0 := 1000000000000000000
          reserve1 := 1000000000000000000
          supply := 1999999999999999000 }) := by
  decide +kernel

/-- The sample opens a thousand shares short, and no share is left once its depositor has burned theirs. -/
theorem sampleFresh_keeps_no_shares :
    sampleFresh.Sound ∧ sampleFresh.supply = 0 ∧ (∀ call ∈ emptying, call.1.Unsigned) ∧
      (∃ opened, OpensShort 1999999999999999000 opened) ∧
      sharesHeld (.syncSwap sampleFresh) emptying = 0 := by
  obtain ⟨start, begins, -, -, opens, -⟩ :=
    depositors_hold_all_shares sampleFresh sampleFresh_sound rfl [] (by simp)
  obtain rfl := Pool.syncSwap.inj begins
  obtain ⟨last, ends, -, held, -⟩ :=
    depositors_hold_all_shares sampleFresh sampleFresh_sound rfl emptying emptying_unsigned
  rw [sampleFresh_emptied] at ends
  obtain rfl := Pool.syncSwap.inj ends
  exact ⟨sampleFresh_sound, rfl, emptying_unsigned,
    ⟨_, opens rfl _ _ _ (by simp [Call.Unsigned]) sampleFresh_opens⟩, held.symm⟩

/-- The supply after the first deposit is not the invariant, and it does not stay above a thousand. -/
theorem first_shares_not_locked :
    (¬ ∀ (pool : SyncSwapPool) (amounts : List Int) (minted : Int) (opened : SyncSwapPool),
      pool.Sound → pool.supply = 0 → (Call.deposit amounts).Unsigned →
      pool.deposit amounts = .ok (minted, opened) → opened.invariant = .ok opened.supply) ∧
    ¬ ∀ (pool opened last : SyncSwapPool) (amounts : List Int) (minted : Int)
      (calls : List (Call × Time)), pool.Sound → pool.supply = 0 →
      (Call.deposit amounts).Unsigned → pool.deposit amounts = .ok (minted, opened) →
      (∀ call ∈ calls, call.1.Unsigned) → callAll (.syncSwap opened) calls = .syncSwap last →
      minimumLiquidity ≤ last.supply := by
  have unsigned : (Call.deposit [1000000000000000000, 1000000000000000000]).Unsigned := by
    simp [Call.Unsigned]
  refine ⟨fun equal => ?_, fun locked => ?_⟩
  · have found := equal sampleFresh _ _ _ sampleFresh_sound rfl unsigned sampleFresh_opens
    exact absurd found (by decide +kernel)
  · have kept := locked sampleFresh _ { sampleFresh with reserve0 := 1000000000000000000, reserve1 := 1 }
      _ _ [(.withdraw 1999999999999999000 1, 600)] sampleFresh_sound rfl unsigned sampleFresh_opens
      (by simp [Call.Unsigned]) (by decide +kernel)
    exact absurd kept (by decide)

end SyncSwapPool
end Amm
