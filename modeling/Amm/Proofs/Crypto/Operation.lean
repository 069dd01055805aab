import Amm.Proofs.Crypto.Profit

/-!
The three operations on a crypto pool, at any time, also while a ramp is pending. A pool that holds
something carries out each of them in two parts: it settles the operation, which moves reserves,
supply, invariant and ramp, and books it, which moves the prices and the profit.
-/

namespace Amm
namespace CryptoPool

open Crypto

/-- A trade or a withdrawal of one coin. -/
inductive Operation where
  | trade (trade : Trade)
  | withdraw (shares : Int) (coin : Nat)

/-- The pool that the first deposit leaves. It sets the profit and the value of a share to one. -/
def opened (pool : CryptoPool) (deposit : Deposit) (now : Time) : CryptoPool :=
  { pool.received deposit now with
    d := deposit.d
    virtualPrice := Fixed.one
    xcpProfit := Fixed.one }

namespace Operation

def perform (operation : Operation) (pool : CryptoPool) (now : Time) : Priced CryptoPool :=
  match operation with
  | .trade act => act.perform pool now
  | .withdraw shares coin => do
    let (_, next) ← pool.withdraw shares coin now
    .ok next

/-- An operation as it is to be booked by a pool that holds something. -/
def settle (operation : Operation) (pool : CryptoPool) (now : Time) : Priced Settlement :=
  match operation with
  | .trade act => act.settle pool now
  | .withdraw shares coin => do
    let (_, settlement) ← pool.settleWithdrawal shares coin now
    .ok settlement

variable {pool next : CryptoPool} {now : Time} {settlement : Settlement}

/-- Until it is booked an operation moves nothing but the reserves, the supply, the invariant and the
ramp. -/
theorem settle_frame (operation : Operation) (settles : operation.settle pool now = .ok settlement) :
    ∃ reserves supply d ramp, settlement.pool =
      { pool with reserves := reserves, supply := supply, d := d, ramp := ramp } := by
  match operation with
  | .trade (.swap i j dx) =>
      simp only [settle, Trade.settle, Priced.bind_eq_ok, Except.ok.injEq] at settles
      obtain ⟨_, exchanged, rfl⟩ := settles
      obtain ⟨_, d, ramp, -, -, -, -, frame, -⟩ := settleExchange_moves exchanged
      exact ⟨_, pool.supply, d, ramp, frame⟩
  | .trade (.deposit amounts) =>
      simp only [settle, Trade.settle, settleDeposit, Priced.bind_eq_ok, Except.ok.injEq] at settles
      obtain ⟨_, -, deposit, -, _, -, rfl⟩ := settles
      exact ⟨_, _, pool.d, _, rfl⟩
  | .withdraw shares coin =>
      simp only [settle, settleWithdrawal, Priced.bind_eq_ok, Except.ok.injEq] at settles
      obtain ⟨_, ⟨_, -, _, -, _, -, rfl⟩, rfl⟩ := settles
      exact ⟨_, _, pool.d, _, rfl⟩

/-- A pool that holds something performs an operation by booking what it settles. -/
theorem perform_eq_ok (held : 0 < pool.d) (operation : Operation)
    (succeeds : operation.perform pool now = .ok next) :
    ∃ settlement, operation.settle pool now = .ok settlement ∧ settlement.book now = .ok next := by
  match operation with
  | .trade act =>
      rw [perform, Trade.perform_eq_book held] at succeeds
      exact Priced.bind_eq_ok.mp succeeds
  | .withdraw shares coin =>
      obtain ⟨⟨paid, _⟩, withdrawn, same⟩ := Priced.bind_eq_ok.mp succeeds
      obtain rfl := Except.ok.inj same
      obtain ⟨settlement, settles, books⟩ := withdraw_eq_ok.mp withdrawn
      exact ⟨settlement, Priced.bind_eq_ok.mpr ⟨(paid, settlement), settles, rfl⟩, books⟩

/-- Every operation that succeeds is settled and booked, but for the first deposit. -/
theorem perform_cases (operation : Operation) (succeeds : operation.perform pool now = .ok next) :
    (∃ settlement, operation.settle pool now = .ok settlement ∧ settlement.book now = .ok next) ∨
      ∃ amounts deposit, operation = .trade (.deposit amounts) ∧
        pool.depositFor amounts now = .ok deposit ∧ next = pool.opened deposit now := by
  match operation with
  | .trade (.swap i j dx) =>
      simp only [perform, Trade.perform, exchange, Priced.bind_eq_ok, Except.ok.injEq] at succeeds
      obtain ⟨_, ⟨⟨dy, settlement⟩, settles, _, books, rfl⟩, rfl⟩ := succeeds
      exact .inl ⟨settlement, Priced.bind_eq_ok.mpr ⟨_, settles, rfl⟩, books⟩
  | .withdraw shares coin =>
      obtain ⟨⟨paid, _⟩, withdrawn, same⟩ := Priced.bind_eq_ok.mp succeeds
      obtain rfl := Except.ok.inj same
      obtain ⟨settlement, settles, books⟩ := withdraw_eq_ok.mp withdrawn
      exact .inl ⟨settlement, Priced.bind_eq_ok.mpr ⟨_, settles, rfl⟩, books⟩
  | .trade (.deposit amounts) =>
      simp only [perform, Trade.perform, deposit, Priced.bind_eq_ok, Except.ok.injEq] at succeeds
      obtain ⟨_, ⟨shape, shaped, made, computed, rest⟩, rfl⟩ := succeeds
      split at rest
      · simp only [Priced.bind_eq_ok, Except.ok.injEq] at rest
        obtain ⟨settlement, settles, _, books, rfl⟩ := rest
        refine .inl ⟨settlement, ?_, books⟩
        simp only [settle, Trade.settle, shaped, computed, Priced.ok_bind, settles]
      · obtain rfl := Except.ok.inj rest
        exact .inr ⟨amounts, made, rfl, computed, rfl⟩

end Operation

end CryptoPool
end Amm
