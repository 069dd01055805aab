import Amm.Proofs.Composable.Supply
import Amm.Proofs.Reserves

/-!
Joins and exits of one token, which a composable pool offers twice: as a swap with its share token that
is quoted and then applied, and directly as a deposit or a withdrawal. Both ways write the reserves,
the rates and what is left for the next join or exit on their own. They agree in what is paid and in
all that is written, and the pool refuses both where it cannot pay.
-/

namespace Amm

namespace ComposablePool

variable {pool : ComposablePool} {order : Order} {quote : Quote} {i j : Nat}

theorem indices_lt {tokenIn tokenOut : Address}
    (found : pool.indices tokenIn tokenOut = .ok (i, j)) :
    i < pool.tokens.length ∧ j < pool.tokens.length := by
  simp only [indices, Priced.bind_eq_ok, Priced.ofOption_eq_ok, Except.ok.injEq,
    Prod.mk.injEq] at found
  obtain ⟨_, foundIn, _, foundOut, _, -, rfl, rfl⟩ := found
  exact ⟨(List.idxOf?_eq_some_iff.mp foundIn).1, (List.idxOf?_eq_some_iff.mp foundOut).1⟩

/-- The pool after a join or an exit that was committed. -/
def leaving (left : JoinExit) (pool : ComposablePool) : ComposablePool :=
  { pool with lastJoinExit := left }

/-- A quoted join pays the shares of the join of its one amount, and its update takes it. -/
theorem quote_of_join
    (joins : pool.indices order.tokenIn order.tokenOut = .ok (i, pool.shareIndex))
    (quoted : pool.quote order = .ok quote) :
    pool.requireTradable = .ok () ∧ ∃ passage,
      pool.join (singleAmount pool.tokens.length i order.amountIn) = .ok passage ∧
      quote.amountOut = passage.amount ∧
      pool.apply quote.update = (pool.commit i order.amountIn pool.shareIndex passage.amount).map
        (leaving passage.left) := by
  obtain ⟨_, tradable, quoted⟩ := Priced.bind_eq_ok.mp quoted
  rw [joins, Priced.ok_bind] at quoted
  dsimp only at quoted
  rw [if_pos rfl] at quoted
  obtain ⟨passage, joined, quoted⟩ := Priced.bind_eq_ok.mp quoted
  obtain ⟨fee, -, quoted⟩ := Priced.bind_eq_ok.mp quoted
  obtain ⟨-, same, update⟩ := Order.quote_eq_ok quoted
  refine ⟨tradable, passage, joined, same, ?_⟩
  rw [update, apply, joins, Priced.ok_bind]
  rfl

/-- A quoted exit pays amount and fee of the exit of its shares, and its update takes it. -/
theorem quote_of_exit
    (exits : pool.indices order.tokenIn order.tokenOut = .ok (pool.shareIndex, j))
    (quoted : pool.quote order = .ok quote) :
    pool.requireTradable = .ok () ∧ ∃ passage, pool.exit order.amountIn j = .ok passage ∧
      quote.amountOut = passage.amount ∧ quote.fee = passage.fee ∧
      pool.apply quote.update = (pool.commit pool.shareIndex order.amountIn j passage.amount).map
        (leaving passage.left) := by
  obtain ⟨_, tradable, quoted⟩ := Priced.bind_eq_ok.mp quoted
  rw [exits, Priced.ok_bind] at quoted
  dsimp only at quoted
  rw [if_neg (indices_ne exits).symm, if_pos rfl] at quoted
  obtain ⟨passage, left, quoted⟩ := Priced.bind_eq_ok.mp quoted
  obtain ⟨-, same, update⟩ := Order.quote_eq_ok quoted
  refine ⟨tradable, passage, left, same, Order.quote_fee quoted, ?_⟩
  rw [update, apply, exits, Priced.ok_bind]
  rfl

/-- A deposit of one amount is its join, committed like a swap of it for the shares. -/
theorem deposit_singleAmount {amount : Int} {passage : Passage}
    (aligned : pool.reserves.length = pool.tokens.length)
    (tradable : pool.requireTradable = .ok ())
    (joined : pool.join (singleAmount pool.tokens.length i amount) = .ok passage) :
    pool.deposit (singleAmount pool.tokens.length i amount) =
      (pool.commit i amount pool.shareIndex passage.amount).map fun next =>
        (passage.amount, next.leaving passage.left) := by
  rw [deposit, tradable, joined, Priced.ok_bind, Priced.ok_bind,
    zipWith_add_singleAmount aligned, commit]
  cases Priced.entry pool.reserves pool.shareIndex with
  | error failure => rfl
  | ok held =>
      simp only [Priced.ok_bind]
      cases Priced.require (0 ≤ held - passage.amount) .invalidUpdate <;> rfl

/-- A withdrawal is its exit, committed like a swap of the shares for it. Where the reserve does not
cover the amount, the withdrawal has a refusal of its own. -/
theorem withdraw_of_exit {shares : Int} {passage : Passage}
    (bound : j < pool.reserves.length) (aligned : pool.reserves.length = pool.tokens.length)
    (tradable : pool.requireTradable = .ok ()) (left : pool.exit shares j = .ok passage) :
    pool.withdraw shares j =
      ((pool.commit pool.shareIndex shares j passage.amount).map fun next =>
        (⟨passage.amount, passage.fee⟩, next.leaving passage.left)).mapError fun _ =>
          .refused .withdrawMoreThanAvailable := by
  have reserveAt : Priced.entry pool.reserves j = .ok pool.reserves[j] :=
    Priced.entry_eq_ok.mpr (List.getElem?_eq_getElem bound)
  simp only [withdraw, tradable, left, reserveAt, commit, Priced.require, ← aligned, bound,
    Priced.ok_bind, decide_true, if_true]
  by_cases covered : passage.amount ≤ pool.reserves[j]
  · simp only [covered, sub_nonneg, decide_true, if_true, Priced.ok_bind]
    rfl
  · simp only [covered, sub_nonneg, decide_false, Bool.false_eq_true, if_false, Priced.refuse_bind]
    rfl

/-- A join of one token comes out the same as a quoted swap for shares and as a deposit, and an exit
the same as a quoted swap of shares and as a withdrawal: in shares, amount and fee, in the pool
afterwards, and in whether they succeed at all. -/
theorem passages_agree (pool : ComposablePool)
    (aligned : pool.reserves.length = pool.tokens.length) (order : Order) (quote : Quote)
    (quoted : pool.quote order = .ok quote) :
    (∀ i, pool.indices order.tokenIn order.tokenOut = .ok (i, pool.shareIndex) →
      pool.deposit (singleAmount pool.tokens.length i order.amountIn) =
        (pool.apply quote.update).map fun next => (quote.amountOut, next)) ∧
    ∀ j, pool.indices order.tokenIn order.tokenOut = .ok (pool.shareIndex, j) →
      pool.withdraw order.amountIn j =
        ((pool.apply quote.update).map fun next =>
          (⟨quote.amountOut, quote.fee⟩, next)).mapError fun _ =>
            .refused .withdrawMoreThanAvailable := by
  refine ⟨fun i joins => ?_, fun j exits => ?_⟩
  · obtain ⟨tradable, passage, joined, same, applied⟩ := quote_of_join joins quoted
    rw [deposit_singleAmount aligned tradable joined, applied, same]
    cases pool.commit i order.amountIn pool.shareIndex passage.amount <;> rfl
  · obtain ⟨tradable, passage, left, same, fee, applied⟩ := quote_of_exit exits quoted
    have bound : j < pool.reserves.length := by
      rw [aligned]
      exact (indices_lt exits).2
    rw [withdraw_of_exit bound aligned tradable left, applied, same, fee]
    cases pool.commit pool.shareIndex order.amountIn j passage.amount <;> rfl

/-- A join of ten of the first token, and an exit of ten shares into it. -/
theorem sampleComposable_passages_agree :
    (∃ next, sampleComposable.deposit [10000000000000000000, 0, 0] =
        .ok (9753289152400393790, next) ∧
      ∃ quote, sampleComposable.quote ⟨⟨1⟩, 10000000000000000000, ⟨500⟩⟩ = .ok quote ∧
        sampleComposable.apply quote.update = .ok next) ∧
    ∃ paid next, sampleComposable.withdraw 10000000000000000000 0 = .ok (paid, next) ∧
      ∃ quote, sampleComposable.quote ⟨⟨500⟩, 10000000000000000000, ⟨1⟩⟩ = .ok quote ∧
        paid = ⟨quote.amountOut, quote.fee⟩ ∧ sampleComposable.apply quote.update = .ok next := by
  constructor
  · obtain ⟨quote, quoted, shown⟩ := Priced.bind_eq_ok.mp (show
      (sampleComposable.quote ⟨⟨1⟩, 10000000000000000000, ⟨500⟩⟩ >>= fun quote =>
        (sampleComposable.apply quote.update).map fun _ => quote.amountOut) =
          .ok 9753289152400393790
      by decide +kernel)
    obtain ⟨next, applied, paid⟩ := Priced.map_eq_ok.mp shown
    have same := (passages_agree sampleComposable rfl _ quote quoted).1 0 (by decide)
    rw [applied, paid] at same
    exact ⟨next, same, quote, quoted, applied⟩
  · obtain ⟨quote, quoted, shown⟩ := Priced.bind_eq_ok.mp (show
      (sampleComposable.quote ⟨⟨500⟩, 10000000000000000000, ⟨1⟩⟩ >>= fun quote =>
        (sampleComposable.apply quote.update).map fun _ => ()) = .ok ()
      by decide +kernel)
    obtain ⟨next, applied, -⟩ := Priced.map_eq_ok.mp shown
    have same := (passages_agree sampleComposable rfl _ quote quoted).2 0 (by decide)
    rw [applied] at same
    exact ⟨_, next, same, quote, quoted, rfl, applied⟩

end ComposablePool
end Amm
