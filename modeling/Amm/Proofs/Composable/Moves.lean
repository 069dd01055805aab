import Amm.Pool.Composable.JoinExit
import Amm.Proofs.Priced

/-!
How a composable pool moves. A quote takes one of three routes, and an update that is applied moves two
reserves and renews the rates. Every law on what a pool pays or on what it holds afterwards starts from
these two facts.
-/

namespace Amm

/-- The quote of an amount that is paid out, and the update that takes it. -/
theorem Order.quote_eq_ok {order : Order} {amountOut fee : Int} {feeToken : Address}
    {gas indexIn indexOut : Nat} {underlying : Bool} {joinExit : Option JoinExit} {quote : Quote}
    (quoted : order.quote amountOut fee feeToken gas indexIn indexOut underlying joinExit =
      .ok quote) :
    0 < amountOut ∧ quote.amountOut = amountOut ∧
      quote.update = ⟨order.tokenIn, order.amountIn, order.tokenOut, amountOut, fee, joinExit⟩ := by
  unfold Order.quote at quoted
  split at quoted
  · rename_i paid
    obtain rfl := Except.ok.inj quoted
    exact ⟨paid, rfl, rfl⟩
  · exact absurd quoted (Priced.refuse_ne_ok _ _)

theorem Order.quote_fee {order : Order} {amountOut fee : Int} {feeToken : Address}
    {gas indexIn indexOut : Nat} {underlying : Bool} {joinExit : Option JoinExit} {quote : Quote}
    (quoted : order.quote amountOut fee feeToken gas indexIn indexOut underlying joinExit =
      .ok quote) :
    quote.fee = fee := by
  unfold Order.quote at quoted
  split at quoted
  · obtain rfl := Except.ok.inj quoted
    rfl
  · exact absurd quoted (Priced.refuse_ne_ok _ _)

theorem Composable.difference_eq_ok {a b result : Int}
    (computed : Composable.difference a b = .ok result) : b ≤ a ∧ result = a - b := by
  unfold Composable.difference at computed
  split at computed
  · exact absurd computed (Priced.refuse_ne_ok _ _)
  · exact ⟨by omega, (Except.ok.inj computed).symm⟩

namespace ComposablePool

variable {pool next : ComposablePool}

theorem indices_ne {tokenIn tokenOut : Address} {i j : Nat}
    (found : pool.indices tokenIn tokenOut = .ok (i, j)) : i ≠ j := by
  simp only [indices, Priced.bind_eq_ok, Priced.require_eq_ok, decide_eq_true_eq, Except.ok.injEq,
    Prod.mk.injEq] at found
  obtain ⟨_, -, _, -, _, different, rfl, rfl⟩ := found
  exact different

/-- What the pool pays for an amount of token `i` in token `j`, and what a join or an exit leaves for
the next one. -/
inductive Pays (pool : ComposablePool) : Nat → Nat → Int → Int → Option JoinExit → Prop
  | join {i : Nat} {amountIn : Int} {passage : Passage}
      (joined : pool.join (singleAmount pool.tokens.length i amountIn) = .ok passage) :
      Pays pool i pool.shareIndex amountIn passage.amount (some passage.left)
  | exit {j : Nat} {amountIn : Int} {passage : Passage} (different : j ≠ pool.shareIndex)
      (left : pool.exit amountIn j = .ok passage) :
      Pays pool pool.shareIndex j amountIn passage.amount (some passage.left)
  | swap {i j : Nat} {amountIn out fee : Int} (notIn : i ≠ pool.shareIndex)
      (notOut : j ≠ pool.shareIndex) (swapped : pool.swapGivenIn i j amountIn = .ok (out, fee)) :
      Pays pool i j amountIn out none

theorem quote_eq_ok {order : Order} {quote : Quote} (quoted : pool.quote order = .ok quote) :
    ∃ i j fee joinExit, pool.indices order.tokenIn order.tokenOut = .ok (i, j) ∧
      0 < quote.amountOut ∧ pool.Pays i j order.amountIn quote.amountOut joinExit ∧
      quote.update =
        ⟨order.tokenIn, order.amountIn, order.tokenOut, quote.amountOut, fee, joinExit⟩ := by
  obtain ⟨_, -, quoted⟩ := Priced.bind_eq_ok.mp quoted
  obtain ⟨⟨i, j⟩, found, quoted⟩ := Priced.bind_eq_ok.mp quoted
  have different := indices_ne found
  dsimp only at quoted
  split at quoted
  · rename_i shareOut
    subst shareOut
    obtain ⟨passage, joined, quoted⟩ := Priced.bind_eq_ok.mp quoted
    obtain ⟨fee, -, quoted⟩ := Priced.bind_eq_ok.mp quoted
    obtain ⟨paid, same, update⟩ := Order.quote_eq_ok quoted
    rw [same]
    exact ⟨i, _, fee, _, found, paid, .join joined, update⟩
  · rename_i notOut
    split at quoted
    · rename_i shareIn
      subst shareIn
      obtain ⟨passage, left, quoted⟩ := Priced.bind_eq_ok.mp quoted
      obtain ⟨paid, same, update⟩ := Order.quote_eq_ok quoted
      rw [same]
      exact ⟨_, j, _, _, found, paid, .exit notOut left, update⟩
    · rename_i notIn
      obtain ⟨⟨out, fee⟩, swapped, quoted⟩ := Priced.bind_eq_ok.mp quoted
      obtain ⟨paid, same, update⟩ := Order.quote_eq_ok quoted
      rw [same]
      exact ⟨i, j, fee, _, found, paid, .swap notIn notOut swapped, update⟩

theorem commit_eq_ok {i j : Nat} {amountIn amountOut : Int}
    (committed : pool.commit i amountIn j amountOut = .ok next) :
    ∃ reserveOut, pool.reserves[j]? = some reserveOut ∧ amountOut ≤ reserveOut ∧
      next = { pool with
        reserves := (pool.reserves.modify i (· + amountIn)).set j (reserveOut - amountOut)
        rateCaches := pool.renewedCaches } := by
  simp only [commit, Priced.bind_eq_ok, Priced.entry_eq_ok, Priced.require_eq_ok,
    decide_eq_true_eq, Except.ok.injEq] at committed
  obtain ⟨reserveOut, reserveAt, _, covered, rfl⟩ := committed
  exact ⟨reserveOut, reserveAt, by omega, rfl⟩

theorem apply_eq_ok {update : Update} (applied : pool.apply update = .ok next) :
    ∃ i j reserveOut, pool.indices update.tokenIn update.tokenOut = .ok (i, j) ∧
      pool.reserves[j]? = some reserveOut ∧ update.amountOut ≤ reserveOut ∧
      next = { pool with
        reserves :=
          (pool.reserves.modify i (· + update.amountIn)).set j (reserveOut - update.amountOut)
        rateCaches := pool.renewedCaches
        lastJoinExit := update.joinExit.getD pool.lastJoinExit } := by
  simp only [apply, Priced.bind_eq_ok, Except.ok.injEq] at applied
  obtain ⟨⟨i, j⟩, found, moved, committed, rfl⟩ := applied
  obtain ⟨reserveOut, reserveAt, covered, rfl⟩ := commit_eq_ok committed
  exact ⟨i, j, reserveOut, found, reserveAt, covered, rfl⟩

end ComposablePool
end Amm
