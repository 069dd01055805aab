import Amm.Pool
import Amm.Proofs.Composable.Moves
import Amm.Proofs.Crypto.Operation
import Amm.Proofs.Stable.BaseShares

/-!
The lists of a pool fit together: there is one reserve for each token. A snapshot is only built into
such a pool, and every operation writes into the list of reserves or adds a list of amounts that was
checked against the tokens.
-/

namespace Amm

theorem Snapshot.tokenReserves_length {snapshot : Snapshot} {reserves : List Int}
    (read : snapshot.tokenReserves = .ok reserves) : reserves.length = snapshot.tokens.length := by
  unfold tokenReserves at read
  split at read
  · rename_i enough
    obtain rfl := Except.ok.inj read
    rw [List.length_take, min_eq_left enough]
  · exact absurd read (Priced.refuse_ne_ok _ _)

namespace Stable
namespace Holdings

variable {holdings next : Holdings}

theorem Continues.count (continues : holdings.Continues next) :
    next.reserves.length = holdings.reserves.length := by
  obtain ⟨reserves, supply, rfl, count⟩ := continues
  exact count

/-- Holdings keep one reserve for each token in an operation that keeps the tokens. -/
theorem aligned_of_continues {tokens kept : List Address}
    (moved : kept = tokens ∧ holdings.Continues next)
    (aligned : holdings.reserves.length = tokens.length) : next.reserves.length = kept.length := by
  obtain ⟨rfl, continues⟩ := moved
  exact continues.count.trans aligned

theorem book_continues {i j : Nat} {amountIn amountOut : Int}
    (succeeds : holdings.book i j amountIn amountOut = .ok next) : holdings.Continues next := by
  simp only [book, Priced.bind_eq_ok, Except.ok.injEq] at succeeds
  obtain ⟨_, -, _, -, rfl⟩ := succeeds
  exact ⟨_, _, rfl, by rw [List.length_set, List.length_modify]⟩

end Holdings
end Stable

section
variable {now : Time} {amounts : List Int} {minted shares : Int} {index : Nat}
  {paid : Stable.Withdrawal} {update : Update}

namespace PlainPool

/-- A pool after any operation: other holdings on the same terms. -/
def Continues (pool next : PlainPool) : Prop :=
  ∃ holdings, pool.holdings.Continues holdings ∧ next = { pool with holdings := holdings }

variable {pool next : PlainPool}

theorem Continues.moved (continues : pool.Continues next) :
    next.tokens = pool.tokens ∧ pool.holdings.Continues next.holdings := by
  obtain ⟨_, kept, rfl⟩ := continues
  exact ⟨rfl, kept⟩

theorem deposit_eq_ok (deposited : pool.deposit amounts now = .ok (minted, next)) :
    ∃ holdings, pool.holdings.deposit amounts pool.rates now = .ok (minted, holdings) ∧
      next = { pool with holdings := holdings } := by
  simp only [deposit, Priced.bind_eq_ok, Except.ok.injEq, Prod.mk.injEq] at deposited
  obtain ⟨⟨_, holdings⟩, done, rfl, rfl⟩ := deposited
  exact ⟨holdings, done, rfl⟩

theorem deposit_continues (deposited : pool.deposit amounts now = .ok (minted, next)) :
    pool.Continues next := by
  obtain ⟨_, done, rfl⟩ := deposit_eq_ok deposited
  exact ⟨_, Stable.Holdings.deposit_continues done, rfl⟩

theorem withdraw_continues (withdrawn : pool.withdraw shares index now = .ok (paid, next)) :
    pool.Continues next := by
  simp only [withdraw, Priced.bind_eq_ok, Except.ok.injEq, Prod.mk.injEq] at withdrawn
  obtain ⟨⟨_, holdings⟩, done, -, rfl⟩ := withdrawn
  exact ⟨_, Stable.Holdings.withdraw_continues done, rfl⟩

theorem apply_continues (applied : pool.apply update now = .ok next) : pool.Continues next := by
  obtain ⟨way, -, applied⟩ := Priced.bind_eq_ok.mp applied
  cases way with
  | exchange i j =>
      simp only [Priced.bind_eq_ok, Except.ok.injEq] at applied
      obtain ⟨_, credited, rfl⟩ := applied
      exact ⟨_, Stable.Holdings.credit_continues credited, rfl⟩
  | deposit i =>
      simp only [Priced.bind_eq_ok, Except.ok.injEq] at applied
      obtain ⟨_, deposited, rfl⟩ := applied
      exact deposit_continues deposited
  | withdraw j =>
      simp only [Priced.bind_eq_ok, Except.ok.injEq] at applied
      obtain ⟨_, withdrawn, rfl⟩ := applied
      exact withdraw_continues withdrawn

end PlainPool

namespace SaddlePool

/-- Other holdings on the same terms. -/
def Continues (pool next : SaddlePool) : Prop :=
  ∃ holdings, pool.holdings.Continues holdings ∧ next = { pool with holdings := holdings }

variable {pool next : SaddlePool}

theorem Continues.moved (continues : pool.Continues next) :
    next.tokens = pool.tokens ∧ pool.holdings.Continues next.holdings := by
  obtain ⟨_, kept, rfl⟩ := continues
  exact ⟨rfl, kept⟩

theorem deposit_eq_ok (deposited : pool.deposit amounts now = .ok (minted, next)) :
    ∃ holdings, pool.holdings.deposit amounts pool.rates now = .ok (minted, holdings) ∧
      next = { pool with holdings := holdings } := by
  simp only [deposit, Priced.bind_eq_ok, Except.ok.injEq, Prod.mk.injEq] at deposited
  obtain ⟨⟨_, holdings⟩, done, rfl, rfl⟩ := deposited
  exact ⟨holdings, done, rfl⟩

theorem deposit_continues (deposited : pool.deposit amounts now = .ok (minted, next)) :
    pool.Continues next := by
  obtain ⟨_, done, rfl⟩ := deposit_eq_ok deposited
  exact ⟨_, Stable.Holdings.deposit_continues done, rfl⟩

theorem withdraw_continues (withdrawn : pool.withdraw shares index now = .ok (paid, next)) :
    pool.Continues next := by
  simp only [withdraw, Priced.bind_eq_ok, Except.ok.injEq, Prod.mk.injEq] at withdrawn
  obtain ⟨_, -, _, -, _, -, -, rfl⟩ := withdrawn
  exact ⟨_, ⟨_, _, rfl, List.length_set ..⟩, rfl⟩

theorem apply_continues (applied : pool.apply update now = .ok next) : pool.Continues next := by
  obtain ⟨way, -, applied⟩ := Priced.bind_eq_ok.mp applied
  cases way with
  | exchange i j =>
      simp only [Priced.bind_eq_ok, Except.ok.injEq] at applied
      obtain ⟨_, booked, rfl⟩ := applied
      exact ⟨_, Stable.Holdings.book_continues booked, rfl⟩
  | deposit i =>
      simp only [Priced.bind_eq_ok, Except.ok.injEq] at applied
      obtain ⟨_, deposited, rfl⟩ := applied
      exact deposit_continues deposited
  | withdraw j =>
      simp only [Priced.bind_eq_ok, Except.ok.injEq] at applied
      obtain ⟨_, withdrawn, rfl⟩ := applied
      exact withdraw_continues withdrawn

end SaddlePool

namespace LendingPool

/-- Other holdings on the same terms. -/
def Continues (pool next : LendingPool) : Prop :=
  ∃ holdings, pool.holdings.Continues holdings ∧ next = { pool with holdings := holdings }

variable {pool next : LendingPool}

theorem Continues.moved (continues : pool.Continues next) :
    next.tokens = pool.tokens ∧ pool.holdings.Continues next.holdings := by
  obtain ⟨_, kept, rfl⟩ := continues
  exact ⟨rfl, kept⟩

/-- The amounts are checked against the tokens, not the reserves. -/
theorem deposit_continues (aligned : pool.holdings.reserves.length = pool.tokens.length)
    (deposited : pool.deposit amounts now = .ok (minted, next)) :
    pool.Continues next := by
  obtain ⟨count, rfl⟩ := deposit_frame deposited
  exact ⟨_, ⟨_, _, rfl, by rw [List.length_zipWith, count, aligned, min_self]⟩, rfl⟩

theorem withdraw_continues (withdrawn : pool.withdraw shares index now = .ok (paid, next)) :
    pool.Continues next := by
  simp only [withdraw, Priced.bind_eq_ok, Except.ok.injEq, Prod.mk.injEq] at withdrawn
  obtain ⟨⟨_, holdings⟩, done, -, rfl⟩ := withdrawn
  exact ⟨_, Stable.Holdings.withdraw_continues done, rfl⟩

theorem apply_continues (applied : pool.apply update = .ok next) : pool.Continues next := by
  simp only [apply, Priced.bind_eq_ok, Except.ok.injEq] at applied
  obtain ⟨_, -, _, -, _, booked, rfl⟩ := applied
  exact ⟨_, Stable.Holdings.book_continues booked, rfl⟩

end LendingPool

namespace Metapool

variable {pool next : Metapool}

theorem deposit_eq_ok (deposited : pool.deposit amounts now = .ok (minted, next)) :
    ∃ rates holdings, pool.holdings.deposit amounts rates now = .ok (minted, holdings) ∧
      next = { pool with holdings := holdings } := by
  simp only [deposit, Priced.bind_eq_ok, Except.ok.injEq, Prod.mk.injEq] at deposited
  obtain ⟨rates, -, ⟨_, holdings⟩, done, rfl, rfl⟩ := deposited
  exact ⟨rates, holdings, done, rfl⟩

theorem deposit_continues (deposited : pool.deposit amounts now = .ok (minted, next)) :
    next.tokens = pool.tokens ∧ pool.holdings.Continues next.holdings := by
  obtain ⟨_, _, done, rfl⟩ := deposit_eq_ok deposited
  exact ⟨rfl, Stable.Holdings.deposit_continues done⟩

theorem withdraw_continues (withdrawn : pool.withdraw shares index now = .ok (paid, next)) :
    next.tokens = pool.tokens ∧ pool.holdings.Continues next.holdings := by
  simp only [withdraw, Priced.bind_eq_ok, Except.ok.injEq, Prod.mk.injEq] at withdrawn
  obtain ⟨_, -, ⟨_, holdings⟩, done, -, rfl⟩ := withdrawn
  exact ⟨rfl, Stable.Holdings.withdraw_continues done⟩

theorem apply_continues (applied : pool.apply update now = .ok next) :
    next.tokens = pool.tokens ∧ pool.holdings.Continues next.holdings := by
  simp only [apply, Priced.ite_bind, Priced.bind_eq_ok, Except.ok.injEq] at applied
  obtain ⟨pair, -, ⟨out, _⟩, swapped, rfl⟩ := applied
  split at swapped
  · obtain ⟨_, sideOut, _, _, _, _, holdings, -, -, -, -, -, exchanged, ends⟩ :=
      exchangeUnderlying_parts swapped
    have kept := Stable.Holdings.exchange_continues exchanged
    cases sideOut with
    | coin index =>
        obtain ⟨-, rfl⟩ := ends
        exact ⟨rfl, kept⟩
    | base index =>
        obtain ⟨_, -, -, same⟩ := ends
        rw [same]
        exact ⟨rfl, kept⟩
  · simp only [exchange, Priced.bind_eq_ok, Except.ok.injEq, Prod.mk.injEq] at swapped
    obtain ⟨_, -, ⟨_, holdings⟩, exchanged, -, rfl⟩ := swapped
    exact ⟨rfl, Stable.Holdings.exchange_continues exchanged⟩

end Metapool
end

namespace CryptoPool

/-- One token and one reserve for each coin of the layout. -/
structure Aligned (pool : CryptoPool) : Prop where
  tokens : pool.tokens.length = pool.layout.coins
  reserves : pool.reserves.length = pool.layout.coins

variable {pool next : CryptoPool} {now : Time}

theorem ofSnapshot_aligned {layout : Crypto.Layout} {snapshot : Snapshot}
    (built : ofSnapshot layout snapshot = .ok pool) : pool.Aligned := by
  simp only [ofSnapshot, Priced.bind_eq_ok, Priced.require_eq_ok, decide_eq_true_eq,
    Except.ok.injEq] at built
  obtain ⟨_, -, _, -, _, count, _, -, _, read, _, -, _, -, _, -, rfl⟩ := built
  exact ⟨count, (Snapshot.tokenReserves_length read).trans count⟩

theorem Settlement.book_aligned {settlement : Settlement} (waits : settlement.pool.Aligned)
    (books : settlement.book now = .ok next) : next.Aligned := by
  obtain ⟨_, _, -, -, ends⟩ := Settlement.book_eq_ok books
  rw [ends.frame]
  exact ⟨waits.tokens, waits.reserves⟩

/-- A deposit has one amount for each coin, and its balances are those of the pool with the amounts. -/
theorem depositFor_balances {amounts : List Int} {deposit : Deposit}
    (computed : pool.depositFor amounts now = .ok deposit) :
    amounts.length = pool.layout.coins ∧
      deposit.balances = pool.reserves.zipWith (· + ·) amounts ∧
      deposit.xp = pool.scaled deposit.balances := by
  obtain ⟨_, checked, computed⟩ := Priced.bind_eq_ok.mp computed
  simp only [requireDeposit, Priced.bind_eq_ok, Priced.require_eq_ok, decide_eq_true_eq] at checked
  obtain ⟨_, count, -⟩ := checked
  refine ⟨count, ?_⟩
  simp only [Priced.ite_bind, Priced.bind_eq_ok] at computed
  obtain ⟨_, -, _, -, _, -, computed⟩ := computed
  split at computed
  · simp only [Priced.bind_eq_ok, Except.ok.injEq] at computed
    obtain ⟨_, -, _, -, _, -, rfl⟩ := computed
    exact ⟨rfl, rfl⟩
  · simp only [Priced.bind_eq_ok, Except.ok.injEq] at computed
    obtain ⟨_, -, _, -, rfl⟩ := computed
    exact ⟨rfl, rfl⟩

theorem Aligned.received (aligned : pool.Aligned) {amounts : List Int} {deposit : Deposit}
    (computed : pool.depositFor amounts now = .ok deposit) :
    (pool.received deposit now).Aligned := by
  obtain ⟨count, balances, -⟩ := depositFor_balances computed
  refine ⟨aligned.tokens, ?_⟩
  change deposit.balances.length = _
  rw [balances, List.length_zipWith, aligned.reserves, count, min_self]
  rfl

theorem Operation.settle_aligned {settlement : Settlement} (aligned : pool.Aligned)
    (operation : Operation) (settles : operation.settle pool now = .ok settlement) :
    settlement.pool.Aligned := by
  match operation with
  | .trade (.swap i j dx) =>
      obtain ⟨_, exchanged, same⟩ := Priced.bind_eq_ok.mp settles
      obtain rfl := Except.ok.inj same
      obtain ⟨_, _, _, -, -, -, -, frame, -⟩ := settleExchange_moves exchanged
      rw [frame]
      exact ⟨aligned.tokens, by rw [List.length_set, List.length_modify, aligned.reserves]⟩
  | .trade (.deposit amounts) =>
      simp only [settle, Trade.settle, settleDeposit, Priced.bind_eq_ok, Except.ok.injEq] at settles
      obtain ⟨_, -, deposit, computed, _, -, rfl⟩ := settles
      exact aligned.received computed
  | .withdraw shares coin =>
      simp only [settle, settleWithdrawal, Priced.bind_eq_ok, Except.ok.injEq] at settles
      obtain ⟨_, ⟨_, -, _, -, _, -, rfl⟩, rfl⟩ := settles
      exact ⟨aligned.tokens, by rw [List.length_set, aligned.reserves]⟩

theorem Operation.perform_aligned (aligned : pool.Aligned) (operation : Operation)
    (succeeds : operation.perform pool now = .ok next) : next.Aligned := by
  obtain ⟨settlement, settles, books⟩ | ⟨amounts, deposit, -, computed, rfl⟩ :=
    operation.perform_cases succeeds
  · exact Settlement.book_aligned (operation.settle_aligned aligned settles) books
  · obtain ⟨tokens, reserves⟩ := aligned.received computed
    exact ⟨tokens, reserves⟩

end CryptoPool

namespace ComposablePool

variable {pool next : ComposablePool}

/-- A pool after any operation: as many reserves, renewed rates, and what is left for the next join or
exit. -/
def Continues (pool next : ComposablePool) : Prop :=
  ∃ reserves left, reserves.length = pool.reserves.length ∧ next = { pool with
    reserves := reserves
    rateCaches := pool.renewedCaches
    lastJoinExit := left }

theorem Continues.aligned (continues : pool.Continues next)
    (aligned : pool.reserves.length = pool.tokens.length) :
    next.reserves.length = next.tokens.length := by
  obtain ⟨_, _, count, rfl⟩ := continues
  exact count.trans aligned

theorem apply_continues {update : Update} (applied : pool.apply update = .ok next) :
    pool.Continues next := by
  obtain ⟨_, _, _, -, -, -, rfl⟩ := apply_eq_ok applied
  exact ⟨_, _, List.length_set.trans (List.length_modify ..), rfl⟩

/-- A join has one amount for each token. All of them are added to the reserves but the one of the
shares, from whose reserve the minted shares come. -/
theorem deposit_frame {amounts : List Int} {minted : Int}
    (deposited : pool.deposit amounts = .ok (minted, next)) :
    amounts.length = pool.tokens.length ∧ ∃ remaining passage, next = { pool with
      reserves := (pool.reserves.zipWith (· + ·) amounts).set pool.shareIndex remaining
      rateCaches := pool.renewedCaches
      lastJoinExit := passage } := by
  simp only [deposit, Priced.bind_eq_ok, Except.ok.injEq, Prod.mk.injEq] at deposited
  obtain ⟨_, -, passage, joined, held, -, _, -, -, rfl⟩ := deposited
  simp only [join, Priced.bind_eq_ok, Priced.require_eq_ok, Bool.and_eq_true,
    decide_eq_true_eq] at joined
  obtain ⟨_, ⟨count, -⟩, -⟩ := joined
  exact ⟨count, held - passage.amount, passage.left, rfl⟩

theorem deposit_continues {amounts : List Int} {minted : Int}
    (aligned : pool.reserves.length = pool.tokens.length)
    (deposited : pool.deposit amounts = .ok (minted, next)) : pool.Continues next := by
  obtain ⟨count, _, _, rfl⟩ := deposit_frame deposited
  exact ⟨_, _, by rw [List.length_set, List.length_zipWith, count, aligned, min_self], rfl⟩

theorem withdraw_continues {shares : Int} {index : Nat} {paid : Stable.Withdrawal}
    (withdrawn : pool.withdraw shares index = .ok (paid, next)) : pool.Continues next := by
  simp only [withdraw, Priced.bind_eq_ok, Except.ok.injEq, Prod.mk.injEq] at withdrawn
  obtain ⟨_, -, _, -, _, -, _, -, _, -, moved, committed, -, rfl⟩ := withdrawn
  obtain ⟨_, -, -, rfl⟩ := commit_eq_ok committed
  exact ⟨_, _, List.length_set.trans (List.length_modify ..), rfl⟩

end ComposablePool

namespace SyncSwapPool

variable {pool next : SyncSwapPool}

/-- The two reserves are kept apart, so that no operation changes how many there are. -/
theorem apply_tokens {update : Update} (applied : pool.apply update = .ok next) :
    next.tokens = pool.tokens := by
  simp only [apply, Priced.bind_eq_ok, Except.ok.injEq] at applied
  obtain ⟨_, -, _, -, rfl⟩ := applied
  split <;> rfl

theorem deposit_tokens {amounts : List Int} {minted : Int}
    (deposited : pool.deposit amounts = .ok (minted, next)) : next.tokens = pool.tokens := by
  simp only [deposit, Priced.bind_eq_ok, Except.ok.injEq, Prod.mk.injEq] at deposited
  obtain ⟨_, -, _, -, -, rfl⟩ := deposited
  rfl

theorem withdraw_tokens {shares : Int} {index : Nat} {paid : Stable.Withdrawal}
    (withdrawn : pool.withdraw shares index = .ok (paid, next)) : next.tokens = pool.tokens := by
  simp only [withdraw, Priced.bind_eq_ok, Except.ok.injEq, Prod.mk.injEq] at withdrawn
  obtain ⟨_, -, -, rfl⟩ := withdrawn
  rfl

end SyncSwapPool

namespace Pool

open Stable.Holdings

/-- One reserve for each token, and in a crypto pool one of both for each coin. -/
def Aligned : Pool → Prop
  | .plain pool => pool.holdings.reserves.length = pool.tokens.length
  | .lending pool => pool.holdings.reserves.length = pool.tokens.length
  | .metapool pool => pool.holdings.reserves.length = pool.tokens.length
  | .crypto pool => pool.Aligned
  | .composable pool => pool.reserves.length = pool.tokens.length
  | .saddle pool => pool.holdings.reserves.length = pool.tokens.length
  | .syncSwap pool => pool.tokens.length = 2

variable {pool next : Pool} {now : Time}

theorem Aligned.count (aligned : pool.Aligned) : pool.reserves.length = pool.tokens.length := by
  cases pool with
  | plain | lending | metapool | composable | saddle => exact aligned
  | crypto pool => exact aligned.reserves.trans aligned.tokens.symm
  | syncSwap pool => exact aligned.symm

theorem ofSnapshot_aligned {bases : BasePools} {snapshot : Snapshot}
    (built : ofSnapshot bases snapshot = .ok pool) : pool.Aligned := by
  unfold ofSnapshot at built
  split at built <;> obtain ⟨_, made, rfl⟩ := Priced.map_eq_ok.mp built
  case h_1 =>
    simp only [PlainPool.ofSnapshot, Priced.bind_eq_ok, Except.ok.injEq] at made
    obtain ⟨_, -, _, -, _, -, _, read, rfl⟩ := made
    exact Snapshot.tokenReserves_length read
  case h_2 =>
    simp only [LendingPool.ofSnapshot, Priced.bind_eq_ok, Priced.require_eq_ok, Bool.or_eq_true,
      decide_eq_true_eq, Except.ok.injEq] at made
    obtain ⟨_, -, static, -, _, counted, _, -, _, read, rfl⟩ := made
    refine (Snapshot.tokenReserves_length read).trans ?_
    change _ = (if static.underlying.isEmpty then snapshot.tokens else static.underlying).length
    split
    · rfl
    · rename_i given
      exact (counted.resolve_left given).symm
  case h_3 =>
    simp only [Metapool.ofSnapshot, Priced.bind_eq_ok, Except.ok.injEq] at made
    obtain ⟨_, -, _, -, _, -, _, -, _, read, rfl⟩ := made
    exact Snapshot.tokenReserves_length read
  case h_4 => exact CryptoPool.ofSnapshot_aligned made
  case h_5 => exact CryptoPool.ofSnapshot_aligned made
  case h_6 =>
    simp only [ComposablePool.ofSnapshot, Priced.bind_eq_ok, Except.ok.injEq] at made
    obtain ⟨_, -, _, -, _, read, _, -, _, -, _, -, rfl⟩ := made
    exact Snapshot.tokenReserves_length read
  case h_7 =>
    simp only [SaddlePool.ofSnapshot, Priced.bind_eq_ok, Except.ok.injEq] at made
    obtain ⟨_, -, _, -, _, -, _, read, rfl⟩ := made
    exact Snapshot.tokenReserves_length read
  case h_8 =>
    simp only [SyncSwapPool.ofSnapshot, Priced.bind_eq_ok, Priced.require_eq_ok, decide_eq_true_eq,
      Except.ok.injEq] at made
    obtain ⟨_, -, _, counted, _, -, _, -, _, -, rfl⟩ := made
    exact counted

theorem Aligned.apply {update : Update} (aligned : pool.Aligned)
    (applied : pool.apply update now = .ok next) : next.Aligned := by
  cases pool <;> obtain ⟨_, taken, rfl⟩ := Priced.map_eq_ok.mp applied
  case plain => exact aligned_of_continues (PlainPool.apply_continues taken).moved aligned
  case lending => exact aligned_of_continues (LendingPool.apply_continues taken).moved aligned
  case metapool => exact aligned_of_continues (Metapool.apply_continues taken) aligned
  case saddle => exact aligned_of_continues (SaddlePool.apply_continues taken).moved aligned
  case crypto =>
    simp only [CryptoPool.apply, Priced.bind_eq_ok] at taken
    obtain ⟨i, -, j, -, swapped⟩ := taken
    exact CryptoPool.Operation.perform_aligned aligned (.trade (.swap i j update.amountIn))
      (Priced.bind_eq_ok.mpr swapped)
  case composable => exact (ComposablePool.apply_continues taken).aligned aligned
  case syncSwap => exact (congrArg List.length (SyncSwapPool.apply_tokens taken)).trans aligned

theorem Aligned.deposit {amounts : List Int} {minted : Int} (aligned : pool.Aligned)
    (deposited : pool.deposit amounts now = .ok (minted, next)) : next.Aligned := by
  cases pool <;> obtain ⟨⟨_, inner⟩, taken, same⟩ := Priced.map_eq_ok.mp deposited <;>
    obtain ⟨-, rfl⟩ := Prod.mk.inj same
  case plain => exact aligned_of_continues (PlainPool.deposit_continues taken).moved aligned
  case lending => exact aligned_of_continues (LendingPool.deposit_continues aligned taken).moved aligned
  case metapool => exact aligned_of_continues (Metapool.deposit_continues taken) aligned
  case saddle => exact aligned_of_continues (SaddlePool.deposit_continues taken).moved aligned
  case crypto =>
    exact CryptoPool.Operation.perform_aligned aligned (.trade (.deposit amounts))
      (Priced.bind_eq_ok.mpr ⟨_, taken, rfl⟩)
  case composable => exact (ComposablePool.deposit_continues aligned taken).aligned aligned
  case syncSwap => exact (congrArg List.length (SyncSwapPool.deposit_tokens taken)).trans aligned

theorem Aligned.withdraw {shares : Int} {index : Nat} {paid : Stable.Withdrawal}
    (aligned : pool.Aligned) (withdrawn : pool.withdraw shares index now = .ok (paid, next)) :
    next.Aligned := by
  cases pool <;> obtain ⟨⟨_, inner⟩, taken, same⟩ := Priced.map_eq_ok.mp withdrawn <;>
    obtain ⟨-, rfl⟩ := Prod.mk.inj same
  case plain => exact aligned_of_continues (PlainPool.withdraw_continues taken).moved aligned
  case lending => exact aligned_of_continues (LendingPool.withdraw_continues taken).moved aligned
  case metapool => exact aligned_of_continues (Metapool.withdraw_continues taken) aligned
  case saddle => exact aligned_of_continues (SaddlePool.withdraw_continues taken).moved aligned
  case crypto =>
    exact CryptoPool.Operation.perform_aligned aligned (.withdraw shares index)
      (Priced.bind_eq_ok.mpr ⟨_, taken, rfl⟩)
  case composable => exact (ComposablePool.withdraw_continues taken).aligned aligned
  case syncSwap => exact (congrArg List.length (SyncSwapPool.withdraw_tokens taken)).trans aligned

/-- Pools that snapshots are built into, and those that operations make of them. -/
inductive Reached : Pool → Prop
  | built {bases : BasePools} {snapshot : Snapshot} {pool : Pool}
      (built : ofSnapshot bases snapshot = .ok pool) : Reached pool
  | applied {pool next : Pool} {update : Update} {now : Time} (reached : Reached pool)
      (applied : pool.apply update now = .ok next) : Reached next
  | deposited {pool next : Pool} {amounts : List Int} {minted : Int} {now : Time}
      (reached : Reached pool) (deposited : pool.deposit amounts now = .ok (minted, next)) :
      Reached next
  | withdrawn {pool next : Pool} {shares : Int} {index : Nat} {paid : Stable.Withdrawal}
      {now : Time} (reached : Reached pool)
      (withdrawn : pool.withdraw shares index now = .ok (paid, next)) : Reached next

theorem Reached.aligned (reached : pool.Reached) : pool.Aligned := by
  induction reached with
  | built made => exact ofSnapshot_aligned made
  | applied _ moved ih => exact ih.apply moved
  | deposited _ moved ih => exact ih.deposit moved
  | withdrawn _ moved ih => exact ih.withdraw moved

/-- What every composable pool built from a snapshot has, and every operation keeps, holds of all
composable pools. -/
theorem Reached.composable {Holds : ComposablePool → Prop} {pool : ComposablePool}
    (made : ∀ {snapshot pool}, ComposablePool.ofSnapshot snapshot = .ok pool → Holds pool)
    (kept : ∀ {pool next : ComposablePool}, pool.Continues next → Holds pool → Holds next)
    (reached : (Pool.composable pool).Reached) : Holds pool := by
  generalize same : Pool.composable pool = whole at reached
  induction reached generalizing pool with
  | built built =>
      subst same
      unfold ofSnapshot at built
      split at built <;> obtain ⟨_, inner, same⟩ := Priced.map_eq_ok.mp built <;> cases same
      exact made inner
  | @applied before _ _ _ reached applied ih =>
      subst same
      cases before <;> obtain ⟨_, inner, same⟩ := Priced.map_eq_ok.mp applied <;> cases same
      exact kept (ComposablePool.apply_continues inner) (ih rfl)
  | @deposited before _ _ _ _ reached deposited ih =>
      subst same
      cases before <;> obtain ⟨_, inner, same⟩ := Priced.map_eq_ok.mp deposited <;> cases same
      exact kept (ComposablePool.deposit_continues reached.aligned inner) (ih rfl)
  | @withdrawn before _ _ _ _ _ reached withdrawn ih =>
      subst same
      cases before <;> obtain ⟨_, inner, same⟩ := Priced.map_eq_ok.mp withdrawn <;> cases same
      exact kept (ComposablePool.withdraw_continues inner) (ih rfl)

/-- Whatever has been done to a pool, it has one reserve for each token. -/
theorem Reached.one_reserve_per_token (reached : pool.Reached) :
    pool.reserves.length = pool.tokens.length :=
  reached.aligned.count

end Pool
end Amm
