import Amm.Proofs.Composable.Moves
import Amm.Proofs.Rounding

/-!
The virtual supply of a composable pool, the shares that the pool does not hold itself. A join or an
exit is priced on a supply with the shares that the protocol is owed, but it moves nothing except the
shares of the user. The shares owed are not minted, and what the next join or exit measures growth from
is written anew, so they are lost.
-/

namespace Amm
namespace ComposablePool

/-- The shares that the pool does not hold itself. -/
def virtualSupply (pool : ComposablePool) : Priced Int := do
  let held ← Priced.entry pool.reserves pool.shareIndex
  .ok (pool.totalShares - held)

/-- The shares that the protocol is owed since the last join or exit. -/
def owedShares (pool : ComposablePool) : Priced Int := do
  let balances := pool.upscaled pool.reserves
  let held ← Priced.entry balances pool.shareIndex
  let supply ← Composable.difference pool.totalShares held
  let ownership ← pool.ownership (pool.dropShare balances)
  pool.protocolShares supply ownership.percentage

/-- A join or an exit, by the shares that it mints for the user. An exit burns them. -/
inductive Passes (pool : ComposablePool) : Int → ComposablePool → Prop
  | swapIn {order : Order} {i : Nat} {quote : Quote} {next : ComposablePool}
      (joins : pool.indices order.tokenIn order.tokenOut = .ok (i, pool.shareIndex))
      (quoted : pool.quote order = .ok quote) (applied : pool.apply quote.update = .ok next) :
      Passes pool quote.amountOut next
  | swapOut {order : Order} {j : Nat} {quote : Quote} {next : ComposablePool}
      (exits : pool.indices order.tokenIn order.tokenOut = .ok (pool.shareIndex, j))
      (quoted : pool.quote order = .ok quote) (applied : pool.apply quote.update = .ok next) :
      Passes pool (-order.amountIn) next
  | deposit {amounts : List Int} {minted : Int} {next : ComposablePool}
      (deposited : pool.deposit amounts = .ok (minted, next)) : Passes pool minted next
  | withdraw {shares : Int} {index : Nat} {paid : Stable.Withdrawal} {next : ComposablePool}
      (withdrawn : pool.withdraw shares index = .ok (paid, next)) : Passes pool (-shares) next

variable {pool next : ComposablePool} {change : Int}

theorem virtualSupply_eq_ok {supply : Int} : pool.virtualSupply = .ok supply ↔
    ∃ held, pool.reserves[pool.shareIndex]? = some held ∧ supply = pool.totalShares - held := by
  simp only [virtualSupply, Priced.bind_eq_ok, Priced.entry_eq_ok, Except.ok.injEq]
  exact exists_congr fun held => and_congr_right fun _ => eq_comm

/-- The supply of the basis has the shares owed beside the virtual supply, which it takes with the
scaling factor of the share token. -/
theorem basis_eq_ok {basis : Basis} (computed : pool.basis (pool.upscaled pool.reserves) = .ok basis) :
    ∃ held factor owed, pool.reserves[pool.shareIndex]? = some held ∧
      pool.scalingFactors[pool.shareIndex]? = some factor ∧ pool.owedShares = .ok owed ∧
      basis.supply = pool.totalShares - Fixed.mulDown held factor + owed := by
  simp only [ComposablePool.basis, Priced.ite_bind, Priced.bind_eq_ok, Except.ok.injEq] at computed
  obtain ⟨scaled, scaledAt, supply, supplied, ownership, owns, owed, minted, _, -, rfl⟩ := computed
  have due : pool.owedShares = .ok owed := by
    simp only [owedShares, scaledAt, supplied, owns, minted, Priced.ok_bind]
  rw [Priced.entry_eq_ok, upscaled, List.getElem?_zipWith_eq_some] at scaledAt
  obtain ⟨held, factor, heldAt, factorAt, rfl⟩ := scaledAt
  obtain ⟨-, rfl⟩ := Composable.difference_eq_ok supplied
  exact ⟨held, factor, owed, heldAt, factorAt, due, rfl⟩

theorem join_starts {amounts : List Int} {passage : Passage}
    (joined : pool.join amounts = .ok passage) :
    amounts[pool.shareIndex]? = some 0 ∧
      ∃ basis, pool.basis (pool.upscaled pool.reserves) = .ok basis := by
  simp only [join, Priced.bind_eq_ok, Priced.require_eq_ok, Bool.and_eq_true,
    decide_eq_true_eq] at joined
  obtain ⟨_, ⟨-, none⟩, basis, based, -⟩ := joined
  exact ⟨none, basis, based⟩

theorem exit_starts {shares : Int} {index : Nat} {passage : Passage}
    (left : pool.exit shares index = .ok passage) :
    index ≠ pool.shareIndex ∧ ∃ basis, pool.basis (pool.upscaled pool.reserves) = .ok basis := by
  simp only [exit, Priced.bind_eq_ok, Priced.require_eq_ok, decide_eq_true_eq] at left
  obtain ⟨_, different, basis, based, -⟩ := left
  exact ⟨different, basis, based⟩

theorem Pays.starts {i j : Nat} {amountIn out : Int} {joinExit : Option JoinExit}
    (pays : pool.Pays i j amountIn out joinExit)
    (passes : i = pool.shareIndex ∨ j = pool.shareIndex) :
    ∃ basis, pool.basis (pool.upscaled pool.reserves) = .ok basis := by
  cases pays with
  | join joined => exact (join_starts joined).2
  | exit different left => exact (exit_starts left).2
  | swap notIn notOut swapped => exact absurd passes (not_or.mpr ⟨notIn, notOut⟩)

/-- Every join and every exit is priced on a basis. It moves the shares of the user between the user
and the pool, and no others. -/
theorem Passes.moves (passes : pool.Passes change next) :
    (∃ basis, pool.basis (pool.upscaled pool.reserves) = .ok basis) ∧
      next.shareIndex = pool.shareIndex ∧ next.totalShares = pool.totalShares ∧
      ∀ held, pool.reserves[pool.shareIndex]? = some held →
        next.reserves[pool.shareIndex]? = some (held - change) := by
  cases passes with
  | swapIn joins quoted applied =>
      obtain ⟨i, j, fee, joinExit, found, -, pays, update⟩ := quote_eq_ok quoted
      obtain ⟨-, rfl⟩ := Prod.mk.inj (Except.ok.inj (joins.symm.trans found))
      obtain ⟨_, j, reserveOut, found', reserveAt, -, rfl⟩ := apply_eq_ok applied
      rw [update] at found'
      obtain ⟨-, rfl⟩ := Prod.mk.inj (Except.ok.inj (joins.symm.trans found'))
      refine ⟨pays.starts (.inr rfl), rfl, rfl, fun held heldAt => ?_⟩
      obtain rfl : reserveOut = held := Option.some.inj (reserveAt.symm.trans heldAt)
      have bound : pool.shareIndex < pool.reserves.length := (List.getElem?_eq_some_iff.mp heldAt).1
      rw [List.getElem?_set_self (by simpa using bound), update]
  | swapOut exits quoted applied =>
      obtain ⟨_, _, fee, joinExit, found, -, pays, update⟩ := quote_eq_ok quoted
      obtain ⟨rfl, rfl⟩ := Prod.mk.inj (Except.ok.inj (exits.symm.trans found))
      obtain ⟨_, _, reserveOut, found', -, -, rfl⟩ := apply_eq_ok applied
      rw [update] at found'
      obtain ⟨rfl, rfl⟩ := Prod.mk.inj (Except.ok.inj (exits.symm.trans found'))
      refine ⟨pays.starts (.inl rfl), rfl, rfl, fun held heldAt => ?_⟩
      rw [List.getElem?_set_ne (indices_ne exits).symm, List.getElem?_modify_eq, heldAt, update]
      simp
  | deposit deposited =>
      simp only [ComposablePool.deposit, Priced.bind_eq_ok, Priced.entry_eq_ok,
        Except.ok.injEq, Prod.mk.injEq] at deposited
      obtain ⟨_, -, passage, joined, held, heldAt, _, -, rfl, rfl⟩ := deposited
      obtain ⟨none, based⟩ := join_starts joined
      refine ⟨based, rfl, rfl, fun held' heldAt' => ?_⟩
      obtain rfl : held = held' := Option.some.inj (heldAt.symm.trans heldAt')
      have bound := (List.getElem?_eq_some_iff.mp heldAt).1
      have boundIn := (List.getElem?_eq_some_iff.mp none).1
      rw [List.getElem?_set_self (by simpa using ⟨bound, boundIn⟩)]
  | withdraw withdrawn =>
      simp only [ComposablePool.withdraw, Priced.bind_eq_ok, Except.ok.injEq,
        Prod.mk.injEq] at withdrawn
      obtain ⟨_, -, _, -, passage, left, _, -, _, -, moved, committed, -, rfl⟩ := withdrawn
      obtain ⟨different, based⟩ := exit_starts left
      obtain ⟨reserveOut, -, -, rfl⟩ := commit_eq_ok committed
      refine ⟨based, rfl, rfl, fun held heldAt => ?_⟩
      rw [List.getElem?_set_ne different, List.getElem?_modify_eq, heldAt]
      simp

/-- A join or an exit leaves the shares owed to the protocol unminted: the virtual supply moves by the
shares of the user alone, while the supply that these were priced on has the shares owed as well. So
the virtual supply afterwards is the priced supply moved by the shares of the user exactly if none were
owed, up to what the scaling factor of the share token takes off the shares held. -/
theorem owed_shares_are_lost (pool next : ComposablePool) (change : Int)
    (passes : pool.Passes change next) :
    ∃ basis owed held factor supply, pool.basis (pool.upscaled pool.reserves) = .ok basis ∧
      pool.owedShares = .ok owed ∧ pool.reserves[pool.shareIndex]? = some held ∧
      pool.scalingFactors[pool.shareIndex]? = some factor ∧ pool.virtualSupply = .ok supply ∧
      basis.supply = supply + (held - Fixed.mulDown held factor) + owed ∧
      next.virtualSupply = .ok (supply + change) ∧
      (next.virtualSupply = .ok (basis.supply + change) ↔
        owed = Fixed.mulDown held factor - held) ∧
      (factor = Fixed.one → Fixed.mulDown held factor = held) := by
  obtain ⟨⟨basis, based⟩, sameIndex, sameTotal, moved⟩ := passes.moves
  obtain ⟨held, factor, owed, heldAt, factorAt, due, priced⟩ := basis_eq_ok based
  have before : pool.virtualSupply = .ok (pool.totalShares - held) :=
    virtualSupply_eq_ok.mpr ⟨held, heldAt, rfl⟩
  have after : next.virtualSupply = .ok (pool.totalShares - held + change) := by
    refine virtualSupply_eq_ok.mpr ⟨held - change, ?_, ?_⟩
    · rw [sameIndex]
      exact moved held heldAt
    · rw [sameTotal]
      omega
  refine ⟨basis, owed, held, factor, _, based, due, heldAt, factorAt, before, ?_, after, ?_, ?_⟩
  · rw [priced]
    omega
  · rw [after, priced, Except.ok.injEq]
    omega
  · rintro rfl
    exact Int.mul_fdiv_cancel held Fixed.one_pos.ne'

/-- Two tokens beside the share token. The invariant has grown by a twentieth since the last join or
exit, and the protocol charges half of what swap fees have earned. -/
def sampleComposable : ComposablePool where
  address := ⟨500⟩
  poolId := "0x00"
  vault := Address.zero
  version := 5
  tokens := [⟨1⟩, ⟨500⟩, ⟨2⟩]
  reserves := [1100000000000000000000, 2596148429267413814265248164610048, 1000000000000000000000]
  shareIndex := 1
  scalingFactors := [Fixed.one, Fixed.one, Fixed.one]
  totalShares := 2596148429269413814265248164610048
  amp := 200000
  swapFee := 100000000000000
  lastJoinExit := ⟨200000, 2000000000000000000000⟩
  rateCaches := [none, none, none]
  protocolFees := ⟨500000000000000000, 0, [false, false, false], false, false⟩
  paused := false
  ratesStuck := false

theorem sampleComposable_deposit :
    ∃ next, sampleComposable.deposit [10000000000000000000, 0, 0] =
        .ok (9753289152400393790, next) ∧
      next.virtualSupply = .ok 2009753289152400393790 := by
  obtain ⟨⟨_, next⟩, deposited, shown⟩ := Priced.map_eq_ok.mp (show
    (sampleComposable.deposit [10000000000000000000, 0, 0]).map
      (fun result => (result.1, result.2.virtualSupply)) =
        .ok (9753289152400393790, .ok 2009753289152400393790)
    by decide +kernel)
  obtain ⟨rfl, supply⟩ := Prod.mk.inj shown
  exact ⟨next, deposited, supply⟩

/-- A deposit into the sample loses nearly 49 shares that were owed, out of two thousand. -/
theorem sampleComposable_loses_shares :
    ∃ next basis, sampleComposable.Passes 9753289152400393790 next ∧
      sampleComposable.basis (sampleComposable.upscaled sampleComposable.reserves) = .ok basis ∧
      sampleComposable.owedShares = .ok 48774837696884514308 ∧
      next.virtualSupply = .ok (basis.supply + 9753289152400393790 - 48774837696884514308) := by
  obtain ⟨next, deposited, -⟩ := sampleComposable_deposit
  have due : sampleComposable.owedShares = .ok 48774837696884514308 := by decide +kernel
  obtain ⟨basis, owed, held, factor, supply, based, due', heldAt, factorAt, -, priced, after, -,
    unit⟩ := owed_shares_are_lost sampleComposable next _ (.deposit deposited)
  obtain rfl : 48774837696884514308 = owed := Except.ok.inj (due.symm.trans due')
  obtain rfl : Fixed.one = factor := Option.some.inj factorAt
  refine ⟨next, basis, .deposit deposited, based, due, ?_⟩
  rw [after, priced, unit rfl]
  congr 1
  omega

theorem joins_lose_owed_shares :
    ¬ ∀ (pool next : ComposablePool) (basis : Basis) (change : Int),
      pool.scalingFactors[pool.shareIndex]? = some Fixed.one →
      pool.basis (pool.upscaled pool.reserves) = .ok basis → pool.Passes change next →
      next.virtualSupply = .ok (basis.supply + change) := by
  intro kept
  obtain ⟨next, deposited, supply⟩ := sampleComposable_deposit
  obtain ⟨basis, based, priced⟩ := Priced.map_eq_ok.mp (show
    (sampleComposable.basis (sampleComposable.upscaled sampleComposable.reserves)).map
      Basis.supply = .ok 2048774837696884514308
    by decide +kernel)
  have same := kept sampleComposable next basis _ rfl based (.deposit deposited)
  rw [supply, priced] at same
  exact absurd (Except.ok.inj same) (by decide)

end ComposablePool
end Amm
