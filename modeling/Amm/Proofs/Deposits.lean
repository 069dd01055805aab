import Amm.Proofs.Aligned
import Amm.Proofs.Composable.Supply
import Amm.Proofs.Stable.Solvency
import Amm.Proofs.SyncSwap.Shares

/-!
What deposits take out of a pool. All kinds but two refuse an amount below zero, so that a deposit
adds to every reserve what it brings. A composable pool and a pool of two tokens with a fixed
amplification take such amounts as they come: a deposit there can bring one token and carry another
one away, even more of it than there is.
-/

namespace Amm

/-- A reserve with the amount that a deposit brings for its token. -/
theorem credited_getElem? {reserves amounts after : List Int} {k : Nat} {reserve : Int}
    (credits : after = reserves.zipWith (· + ·) amounts) (count : amounts.length = reserves.length)
    (held : reserves[k]? = some reserve) : after[k]? = some (reserve + amounts.getD k 0) := by
  obtain ⟨bound, -⟩ := List.getElem?_eq_some_iff.mp held
  rw [← count] at bound
  rw [credits, List.getElem?_zipWith, held, List.getD_eq_getElem?_getD, List.getElem?_eq_getElem bound]
  rfl

namespace Stable.Holdings

variable {holdings next : Holdings} {amounts rates : List Int} {minted : Int} {now : Time}

theorem deposit_unsigned (deposited : holdings.deposit amounts rates now = .ok (minted, next)) :
    ∀ amount ∈ amounts, 0 ≤ amount := by
  obtain ⟨_, computed, -⟩ := deposit_eq_ok deposited
  exact (inflow_eq_ok computed).2.1

/-- Without an admin part of the fees all balances stay in the pool. -/
theorem afterAdminFees_of_whole {inflow : Inflow} (whole : holdings.adminFee = 0)
    (count : inflow.balances.length ≤ holdings.reserves.length) :
    holdings.afterAdminFees inflow = inflow.balances := by
  have kept : ∀ old new, new - share (depositCharge holdings.chargeRate inflow.d0 inflow.d1 old new)
      0 = new := by
    intro old new
    simp [share]
  rw [afterAdminFees_eq, whole]
  simp only [kept]
  rw [← List.map_uncurry_zip_eq_zipWith]
  exact List.map_snd_zip count

/-- Without an admin part of the fees each reserve grows by the amount brought for it. -/
theorem deposit_credits (whole : holdings.adminFee = 0)
    (deposited : holdings.deposit amounts rates now = .ok (minted, next)) :
    next.adminFee = 0 ∧ ∀ (k : Nat) (reserve : Int), holdings.reserves[k]? = some reserve →
      next.reserves[k]? = some (reserve + amounts.getD k 0) := by
  obtain ⟨inflow, computed, outcome⟩ := deposit_eq_ok deposited
  obtain ⟨count, -, balances, -⟩ := inflow_eq_ok computed
  have kept : next.adminFee = 0 ∧ next.reserves = inflow.balances := by
    rcases outcome with ⟨-, -, _, -, -, rfl⟩ | ⟨-, -, rfl⟩
    · refine ⟨whole, afterAdminFees_of_whole whole ?_⟩
      rw [balances, List.length_zipWith]
      exact min_le_left _ _
    · exact ⟨whole, rfl⟩
  exact ⟨kept.1, fun k reserve held => credited_getElem? (kept.2.trans balances) count held⟩

end Stable.Holdings

namespace CryptoPool

theorem requireDeposit_eq_ok {pool : CryptoPool} {amounts : List Int} {done : Unit}
    (passes : pool.requireDeposit amounts = .ok done) :
    amounts.length = pool.layout.coins ∧ ∀ amount ∈ amounts, 0 ≤ amount := by
  simp only [requireDeposit, Priced.bind_eq_ok, Priced.require_eq_ok, Bool.and_eq_true,
    List.all_eq_true, decide_eq_true_eq] at passes
  obtain ⟨_, count, unsigned, -⟩ := passes
  exact ⟨count, unsigned⟩

/-- A deposit brings no negative amount, and it is in the reserves whether it is booked or opens the
pool. -/
theorem deposit_credits {pool next : CryptoPool} {amounts : List Int} {minted : Int} {now : Time}
    (deposited : pool.deposit amounts now = .ok (minted, next)) :
    amounts.length = pool.layout.coins ∧ (∀ amount ∈ amounts, 0 ≤ amount) ∧
      next.reserves = pool.reserves.zipWith (· + ·) amounts := by
  simp only [deposit, Priced.bind_eq_ok] at deposited
  obtain ⟨shape, -, deposit, computed, rest⟩ := deposited
  obtain ⟨_, checked, -⟩ := Priced.bind_eq_ok.mp computed
  obtain ⟨count, unsigned⟩ := requireDeposit_eq_ok checked
  refine ⟨count, unsigned, ?_⟩
  rw [← (depositFor_balances computed).2.1]
  split at rest
  · simp only [settleDeposit, Priced.bind_eq_ok, Except.ok.injEq, Prod.mk.injEq] at rest
    obtain ⟨_, ⟨_, -, rfl⟩, _, books, -, rfl⟩ := rest
    obtain ⟨_, _, -, -, ends⟩ := Settlement.book_eq_ok books
    exact ends.reserves_eq
  · obtain ⟨-, rfl⟩ := Prod.mk.inj (Except.ok.inj rest)
    rfl

end CryptoPool

theorem LendingPool.deposit_unsigned {pool next : LendingPool} {amounts : List Int} {minted : Int}
    {now : Time} (deposited : pool.deposit amounts now = .ok (minted, next)) :
    ∀ amount ∈ amounts, 0 ≤ amount := by
  obtain ⟨_, passes, -⟩ := Priced.bind_eq_ok.mp deposited
  simp only [Priced.require_eq_ok, Bool.and_eq_true, List.all_eq_true, decide_eq_true_eq] at passes
  exact passes.2

namespace Pool

/-- Whether a pool looks at the signs of the amounts of a deposit. -/
def ChecksSigns : Pool → Prop
  | .plain _ | .lending _ | .metapool _ | .crypto _ | .saddle _ => True
  | .composable _ | .syncSwap _ => False

/-- Whether all of a deposit stays in the pool. Some stable pools keep a part of the fees for the
admin, which is not among the reserves. -/
def CreditsInFull : Pool → Prop
  | .plain pool => pool.holdings.adminFee = 0
  | .metapool pool => pool.holdings.adminFee = 0
  | .saddle pool => pool.holdings.adminFee = 0
  | .lending _ | .crypto _ | .composable _ | .syncSwap _ => True

/-- Where a pool holds shares of its own. -/
def shareIndex? : Pool → Option Nat
  | .composable pool => some pool.shareIndex
  | .plain _ | .lending _ | .metapool _ | .crypto _ | .saddle _ | .syncSwap _ => none

section
variable {pool next : Pool} {amounts : List Int} {minted : Int} {now : Time}

theorem ChecksSigns.deposit (checks : pool.ChecksSigns)
    (deposited : pool.deposit amounts now = .ok (minted, next)) :
    next.ChecksSigns ∧ ∀ amount ∈ amounts, 0 ≤ amount := by
  cases pool <;> obtain ⟨⟨_, inner⟩, taken, same⟩ := Priced.map_eq_ok.mp deposited <;>
    obtain ⟨rfl, rfl⟩ := Prod.mk.inj same
  case plain =>
    obtain ⟨_, held, -⟩ := PlainPool.deposit_eq_ok taken
    exact ⟨checks, Stable.Holdings.deposit_unsigned held⟩
  case metapool =>
    obtain ⟨_, _, held, -⟩ := Metapool.deposit_eq_ok taken
    exact ⟨checks, Stable.Holdings.deposit_unsigned held⟩
  case saddle =>
    obtain ⟨_, held, -⟩ := SaddlePool.deposit_eq_ok taken
    exact ⟨checks, Stable.Holdings.deposit_unsigned held⟩
  case lending => exact ⟨checks, LendingPool.deposit_unsigned taken⟩
  case crypto => exact ⟨checks, (CryptoPool.deposit_credits taken).2.1⟩
  case composable => exact checks.elim
  case syncSwap => exact checks.elim

/-- A deposit that stays in the pool adds its amounts to the reserves, whatever their signs. -/
theorem CreditsInFull.deposit (full : pool.CreditsInFull) (aligned : pool.Aligned)
    (deposited : pool.deposit amounts now = .ok (minted, next)) :
    next.CreditsInFull ∧ next.shareIndex? = pool.shareIndex? ∧
      ∀ k reserve, pool.shareIndex? ≠ some k → pool.reserves[k]? = some reserve →
        next.reserves[k]? = some (reserve + amounts.getD k 0) := by
  cases pool <;> obtain ⟨⟨_, inner⟩, taken, same⟩ := Priced.map_eq_ok.mp deposited <;>
    obtain ⟨rfl, rfl⟩ := Prod.mk.inj same
  case plain =>
    obtain ⟨_, held, rfl⟩ := PlainPool.deposit_eq_ok taken
    obtain ⟨whole, credits⟩ := Stable.Holdings.deposit_credits full held
    exact ⟨whole, rfl, fun k reserve _ held => credits k reserve held⟩
  case metapool =>
    obtain ⟨_, _, held, rfl⟩ := Metapool.deposit_eq_ok taken
    obtain ⟨whole, credits⟩ := Stable.Holdings.deposit_credits full held
    exact ⟨whole, rfl, fun k reserve _ held => credits k reserve held⟩
  case saddle =>
    obtain ⟨_, held, rfl⟩ := SaddlePool.deposit_eq_ok taken
    obtain ⟨whole, credits⟩ := Stable.Holdings.deposit_credits full held
    exact ⟨whole, rfl, fun k reserve _ held => credits k reserve held⟩
  case lending =>
    obtain ⟨count, rfl⟩ := LendingPool.deposit_frame taken
    exact ⟨trivial, rfl, fun k reserve _ held =>
      credited_getElem? rfl (count.trans (Eq.symm aligned)) held⟩
  case crypto =>
    obtain ⟨count, -, credits⟩ := CryptoPool.deposit_credits taken
    exact ⟨trivial, rfl, fun k reserve _ held =>
      credited_getElem? credits (count.trans aligned.reserves.symm) held⟩
  case composable =>
    obtain ⟨count, _, _, rfl⟩ := ComposablePool.deposit_frame taken
    -- The own shares are set after the amounts are added, so the index of another token is passed.
    refine ⟨trivial, rfl, fun k reserve other held => ?_⟩
    have differs : ∀ {index}, some index ≠ some k → index ≠ k := fun differs same =>
      differs (congrArg some same)
    exact (List.getElem?_set_ne (differs other)).trans
      (credited_getElem? rfl (count.trans (Eq.symm aligned)) held)
  case syncSwap =>
    obtain ⟨amount0, amount1, rfl, -, rfl⟩ := SyncSwapPool.deposit_eq_ok taken
    have count : ∀ reserve0 reserve1 : Int,
        [amount0, amount1].length = [reserve0, reserve1].length := fun _ _ => rfl
    exact ⟨trivial, rfl, fun k reserve _ held => credited_getElem? rfl (count _ _) held⟩

end

/-- A pool after deposits at their times, one after another. One that fails leaves it as it was. -/
def depositAll : Pool → List (List Int × Time) → Pool
  | pool, [] => pool
  | pool, (amounts, now) :: rest =>
    match pool.deposit amounts now with
    | .ok (_, next) => next.depositAll rest
    | .error _ => pool.depositAll rest

/-- The amounts of the deposits that succeed, one after another. -/
def taken : Pool → List (List Int × Time) → List (List Int)
  | _, [] => []
  | pool, (amounts, now) :: rest =>
    match pool.deposit amounts now with
    | .ok (_, next) => amounts :: next.taken rest
    | .error _ => pool.taken rest

variable {pool : Pool}

theorem ChecksSigns.taken (checks : pool.ChecksSigns) (deposits : List (List Int × Time)) :
    ∀ amounts ∈ pool.taken deposits, ∀ amount ∈ amounts, 0 ≤ amount := by
  induction deposits generalizing pool with
  | nil => simp [Pool.taken]
  | cons dated rest ih =>
      obtain ⟨amounts, now⟩ := dated
      unfold Pool.taken
      split
      · rename_i next deposited
        obtain ⟨kept, unsigned⟩ := checks.deposit deposited
        exact List.forall_mem_cons.mpr ⟨unsigned, ih kept⟩
      · exact ih checks

/-- A reserve ends at what it was and all that was brought for its token. -/
theorem CreditsInFull.depositAll (full : pool.CreditsInFull) (aligned : pool.Aligned)
    (deposits : List (List Int × Time)) {k : Nat} {reserve : Int} (other : pool.shareIndex? ≠ some k)
    (held : pool.reserves[k]? = some reserve) :
    (pool.depositAll deposits).reserves[k]? =
      some (reserve + ((pool.taken deposits).map fun amounts => amounts.getD k 0).sum) := by
  induction deposits generalizing pool reserve with
  | nil => simpa [Pool.depositAll, Pool.taken] using held
  | cons dated rest ih =>
      obtain ⟨amounts, now⟩ := dated
      unfold Pool.depositAll Pool.taken
      split
      · rename_i next deposited
        obtain ⟨kept, sameIndex, credits⟩ := full.deposit aligned deposited
        rw [ih kept (aligned.deposit deposited) (sameIndex ▸ other) (credits k reserve other held),
          List.map_cons, List.sum_cons, add_assoc]
      · exact ih full aligned other held

/-- Along any run of deposits a pool that looks at the signs takes no negative amount, and a pool that
keeps nothing for the admin ends with what it had and the amounts that it took, of whatever sign. No
deposits take a token out of a pool of both sorts. Composable pools and those of two tokens with a
fixed amplification are only of the second sort. -/
theorem deposits_credit_what_they_take (pool : Pool) (deposits : List (List Int × Time)) :
    (pool.ChecksSigns → ∀ amounts ∈ pool.taken deposits, ∀ amount ∈ amounts, 0 ≤ amount) ∧
    (pool.Aligned → pool.CreditsInFull → ∀ (k : Nat) (reserve : Int), pool.shareIndex? ≠ some k →
      pool.reserves[k]? = some reserve →
      (pool.depositAll deposits).reserves[k]? =
        some (reserve + ((pool.taken deposits).map fun amounts => amounts.getD k 0).sum)) ∧
    (pool.Aligned → pool.ChecksSigns → pool.CreditsInFull → ∀ (k : Nat) (reserve : Int),
      pool.reserves[k]? = some reserve →
      ∃ last : Int, (pool.depositAll deposits).reserves[k]? = some last ∧ reserve ≤ last) := by
  refine ⟨fun checks => checks.taken deposits,
    fun aligned full k reserve => full.depositAll aligned deposits,
    fun aligned checks full k reserve held => ?_⟩
  have other : pool.shareIndex? ≠ some k := by
    cases pool with
    | composable => exact checks.elim
    | plain | lending | metapool | crypto | saddle | syncSwap => exact (Option.some_ne_none k).symm
  refine ⟨_, full.depositAll aligned deposits other held, le_add_of_nonneg_right ?_⟩
  refine List.sum_nonneg fun amount member => ?_
  obtain ⟨amounts, brought, rfl⟩ := List.mem_map.mp member
  rw [List.getD_eq_getElem?_getD]
  cases found : amounts[k]? with
  | none => exact le_rfl
  | some amount => exact checks.taken deposits amounts brought amount (List.mem_of_getElem? found)

open SyncSwapPool (sampleFresh)
open ComposablePool (sampleComposable)

/-- A deposit of two tokens, and one that brings the first of them and carries the second away. -/
def mixedDeposits : List (List Int × Time) :=
  [([1000000000000000000000000, 1000000000000000000000000], 600),
    ([3000000000000000000000000, -1100000000000000000000000], 600)]

theorem sampleFresh_taken : (Pool.syncSwap sampleFresh).taken mixedDeposits =
    [[1000000000000000000000000, 1000000000000000000000000],
      [3000000000000000000000000, -1100000000000000000000000]] := by
  decide +kernel

/-- The same deposits into two pools. One refuses the second of them and keeps what it had, the other
is overdrawn by a tenth of what it held of the second token. -/
theorem mixedDeposits_overdraw_one :
    (Pool.crypto CryptoPool.samplePair).Aligned ∧ (Pool.syncSwap sampleFresh).Aligned ∧
      (∃ last : Int, ((Pool.crypto CryptoPool.samplePair).depositAll mixedDeposits).reserves[1]? =
        some last ∧ 2000000000000000000000 ≤ last) ∧
      ((Pool.syncSwap sampleFresh).depositAll mixedDeposits).reserves[1]? =
        some (-100000000000000000000000) := by
  have crypto : (Pool.crypto CryptoPool.samplePair).Aligned := ⟨rfl, rfl⟩
  have two : (Pool.syncSwap sampleFresh).Aligned := rfl
  refine ⟨crypto, two, ?_, ?_⟩
  · exact (deposits_credit_what_they_take _ mixedDeposits).2.2 crypto trivial trivial 1 _ rfl
  · rw [(deposits_credit_what_they_take _ mixedDeposits).2.1 two trivial 1 0 (by simp [shareIndex?])
      rfl, sampleFresh_taken]
    rfl

/-- The sample of two tokens after a first deposit. -/
def sampleOpened : SyncSwapPool :=
  { sampleFresh with
    reserve0 := 1000000000000000000000000
    reserve1 := 1000000000000000000000000
    supply := 1999999999999999999999000 }

theorem sampleOpened_sound : sampleOpened.Sound := by
  constructor <;> decide

/-- Composable pools and those of two tokens with a fixed amplification take a negative amount, and more
of a token than they hold. -/
theorem mixed_deposits_accepted :
    (¬ ∀ (pool next : SyncSwapPool) (amounts : List Int) (minted : Int), pool.Sound →
      pool.deposit amounts = .ok (minted, next) → ∀ amount ∈ amounts, 0 ≤ amount) ∧
    (¬ ∀ (pool next : ComposablePool) (amounts : List Int) (minted : Int),
      pool.deposit amounts = .ok (minted, next) → ∀ amount ∈ amounts, 0 ≤ amount) ∧
    ¬ ∀ (pool : Pool) (deposits : List (List Int × Time)), pool.Aligned →
      (∀ reserve ∈ pool.reserves, 0 ≤ reserve) →
      ∀ last ∈ (pool.depositAll deposits).reserves, 0 ≤ last := by
  refine ⟨fun unsigned => ?_, fun unsigned => ?_, fun kept => ?_⟩
  · obtain ⟨⟨_, next⟩, deposited, -⟩ := Priced.map_eq_ok.mp (show
      (sampleOpened.deposit [3000000000000000000000000, -1100000000000000000000000]).map Prod.fst =
        .ok 1918724475759792610712258
      by decide +kernel)
    exact absurd (unsigned _ _ _ _ sampleOpened_sound deposited (-1100000000000000000000000) (by simp))
      (by decide)
  · obtain ⟨⟨_, next⟩, deposited, -⟩ := Priced.map_eq_ok.mp (show
      (sampleComposable.deposit [5000000000000000000000, 0, -1100000000000000000000]).map Prod.fst =
        .ok 4066028847756900201337
      by decide +kernel)
    exact absurd (unsigned _ _ _ _ deposited (-1100000000000000000000) (by simp)) (by decide)
  · have overdrawn : ((Pool.syncSwap sampleFresh).depositAll mixedDeposits).reserves =
        [4000000000000000000000000, -100000000000000000000000] := by
      decide +kernel
    have last := kept (.syncSwap sampleFresh) mixedDeposits rfl
      (by simp [Pool.reserves, SyncSwapPool.reserves, sampleFresh]) (-100000000000000000000000)
      (by simp [overdrawn])
    exact absurd last (by decide)

end Pool

end Amm
