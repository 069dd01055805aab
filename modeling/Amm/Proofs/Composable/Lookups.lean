import Amm.Proofs.Composable.Exemptions

/-!
Operations of a composable pool that look every token up under its registered index. Swaps, joins, exits
and the balances at old rates are priced on lists without the share token, so the pool goes back and forth
between two indices of a token. All of them come out as if it did not, wherever the share token is
registered.
-/

namespace Amm
namespace ComposablePool

/-- The registered indices of the tokens other than the share token, in their order. -/
def others (pool : ComposablePool) : List Nat :=
  (List.range pool.tokens.length).filter (· ≠ pool.shareIndex)

/-- The values of the other tokens in a registered list, each looked up under its registered index. -/
def ofOthers {α : Type} (pool : ComposablePool) (values : List α) : List α :=
  pool.others.filterMap (values[·]?)

/-- The place of a token among the others. -/
def place (pool : ComposablePool) (index : Nat) : Nat :=
  pool.others.idxOf index

/-- A swap that looks both tokens up under their registered indices. The amount is added to the balance
of the first, and the second pays what it then holds too much. -/
def swapByIndex (pool : ComposablePool) (indexIn indexOut : Nat) (amountIn : Int) :
    Priced (Int × Int) := do
  let fee := Fixed.mulUp amountIn pool.swapFee
  let amount ← pool.upscale (amountIn - fee) indexIn
  let held := pool.upscaled pool.reserves
  let invariant ← Composable.roundedInvariant pool.amp (pool.ofOthers held) false
  let balanceIn ← Priced.entry held indexIn
  let after := held.set indexIn (balanceIn + amount)
  let rest ← Composable.balanceFor pool.amp (pool.ofOthers after) invariant (pool.place indexOut)
  let balanceOut ← Priced.entry after indexOut
  let released ← Composable.difference balanceOut rest
  let out ← Composable.difference released 1
  let amountOut ← pool.downscale out indexOut
  .ok (amountOut, fee)

/-- A join in which every amount meets the balance under its own registered index. -/
def joinByIndex (pool : ComposablePool) (amounts : List Int) : Priced Passage := do
  Priced.require
    (amounts.length = pool.tokens.length && amounts[pool.shareIndex]? = some 0) .invalidAmount
  let held := pool.upscaled pool.reserves
  let sent := pool.upscaled amounts
  let basis ← pool.basis held
  let outcome ← Composable.sharesOut pool.amp (pool.ofOthers held) (pool.ofOthers sent) basis.supply
    basis.invariant pool.swapFee
  let shares ← pool.downscale outcome.amount pool.shareIndex
  let left ← pool.after (pool.ofOthers (held.zipWith (· + ·) sent))
  .ok ⟨shares, outcome.fee, left⟩

/-- An exit that looks the token paid out up under its registered index. -/
def exitByIndex (pool : ComposablePool) (shares : Int) (indexOut : Nat) : Priced Passage := do
  Priced.require (indexOut ≠ pool.shareIndex) .tokenFromEqualsTokenTo
  let held := pool.upscaled pool.reserves
  let basis ← pool.basis held
  let sharesIn ← pool.upscale shares pool.shareIndex
  let outcome ← Composable.tokenOut pool.amp (pool.ofOthers held) (pool.place indexOut) sharesIn
    basis.supply basis.invariant pool.swapFee
  let amount ← pool.downscale outcome.amount indexOut
  let fee ← pool.downscale outcome.fee indexOut
  let left ← pool.after (pool.ofOthers (held.modify indexOut (· - outcome.amount)))
  .ok ⟨amount, fee, left⟩

/-- The balance of a token under its registered index, at the old rate under the same index if the token
is to be adjusted and has a rate. -/
def adjustedByIndex (pool : ComposablePool) (balances : List Int) (adjust : Nat → Bool)
    (index : Nat) : Priced Int := do
  let balance ← Priced.entry balances index
  match ← Priced.entry pool.rateCaches index with
  | some cache => if adjust index then cache.adjust balance else .ok balance
  | none => .ok balance

variable {pool next : ComposablePool} {i k : Nat}

/-- Leaving the share token out of the indices by its value is leaving it out by its place. -/
theorem others_eq (inside : pool.shareIndex < pool.tokens.length) :
    pool.others = pool.dropShare (List.range pool.tokens.length) := by
  have distinct := List.nodup_range (n := pool.tokens.length)
  have found : (List.range pool.tokens.length).idxOf pool.shareIndex = pool.shareIndex := by
    have same := distinct.idxOf_getElem pool.shareIndex (by rwa [List.length_range])
    rwa [List.getElem_range] at same
  rw [dropShare, ← List.erase_eq_eraseIdx_of_idxOf found, distinct.erase_eq_filter, others]
  exact List.filter_congr fun index _ => by simp [bne, beq_eq_decide]

section
variable (inside : pool.shareIndex < pool.tokens.length)
include inside

/-- The other tokens in their order are the tokens that the places of a short list are registered as. -/
theorem others_getElem? (k : Nat) :
    pool.others[k]? = if k < pool.tokens.length - 1 then some (pool.registered k) else none := by
  rw [others_eq inside, dropShare_registered]
  by_cases bound : k < pool.tokens.length - 1
  · rw [if_pos bound, List.getElem?_range ((registered_lt_iff inside).mpr bound)]
  · rw [if_neg bound, List.getElem?_eq_none]
    rw [List.length_range, ← not_lt, registered_lt_iff inside]
    exact bound

theorem skipShare_eq_place (listed : i < pool.tokens.length) (other : i ≠ pool.shareIndex) :
    pool.skipShare i = .ok (pool.place i) := by
  obtain ⟨k, skipped⟩ := exists_skipShare other
  have same := registered_skipShare skipped other
  have bound := (registered_lt_iff inside).mp (same ▸ listed)
  have found := others_getElem? inside k
  rw [if_pos bound, same, List.getElem?_eq_some_iff] at found
  obtain ⟨short, rfl⟩ := found
  have distinct : pool.others.Nodup := List.nodup_range.filter _
  rw [skipped, place, distinct.idxOf_getElem k short]

theorem ofOthers_eq {α : Type} {values : List α} (each : values.length = pool.tokens.length) :
    pool.ofOthers values = pool.dropShare values := by
  have found : (List.range pool.tokens.length).map (values[·]?) = values.map some := by
    refine List.ext_getElem (by simp [each]) fun k short _ => ?_
    rw [List.getElem_map, List.getElem_map, List.getElem_range, List.getElem?_eq_getElem]
  -- Looked up whole, the list has no gaps, so that nothing but the share token is left out.
  calc pool.ofOthers values
      = (pool.dropShare ((List.range pool.tokens.length).map (values[·]?))).filterMap id := by
        rw [ofOthers, others_eq inside, dropShare, dropShare, List.eraseIdx_map, List.filterMap_map]
        rfl
    _ = pool.dropShare values := by
        rw [found, dropShare, List.eraseIdx_map, List.filterMap_map]
        exact List.filterMap_some

end

theorem basis_balances {registeredBalances : List Int} {basis : Basis}
    (computed : pool.basis registeredBalances = .ok basis) :
    basis.balances = pool.dropShare registeredBalances := by
  simp only [ComposablePool.basis, Priced.ite_bind, Priced.bind_eq_ok, Except.ok.injEq] at computed
  obtain ⟨_, -, _, -, _, -, _, -, _, -, rfl⟩ := computed
  rfl

/-- One entry in each registered list for each token, the share token among them. -/
structure Uniform (pool : ComposablePool) : Prop where
  share : pool.shareIndex < pool.tokens.length
  reserves : pool.reserves.length = pool.tokens.length
  factors : pool.scalingFactors.length = pool.tokens.length
  rates : pool.rateCaches.length = pool.tokens.length

section
variable (uniform : pool.Uniform)
include uniform

theorem length_upscaled {amounts : List Int} (each : amounts.length = pool.tokens.length) :
    (pool.upscaled amounts).length = pool.tokens.length := by
  rw [upscaled, List.length_zipWith, each, uniform.factors, min_self]

theorem adjustedBalances_by_index {balances : List Int} {adjust : Nat → Bool}
    (each : balances.length = pool.tokens.length) :
    pool.adjustedBalances (pool.dropShare balances) adjust =
      pool.others.mapM (pool.adjustedByIndex balances adjust) := by
  have steps : (pool.dropShare balances).zipIdx.map (pool.adjustedAt adjust) =
      pool.others.map (pool.adjustedByIndex balances adjust) := by
    refine List.ext_getElem? fun k => ?_
    rw [List.getElem?_map, List.getElem?_map, List.getElem?_zipIdx, dropShare_registered,
      others_getElem? uniform.share, zero_add]
    by_cases bound : k < pool.tokens.length - 1
    · have listed := (registered_lt_iff uniform.share).mpr bound
      have found := List.getElem?_eq_getElem (each ▸ listed)
      rw [if_pos bound, found, Option.map_some, Option.map_some, Option.map_some, adjustedByIndex,
        Priced.entry_eq_ok.mpr found, Priced.ok_bind]
      rfl
    · rw [if_neg bound, List.getElem?_eq_none]
      · rfl
      · rw [each, ← not_lt, registered_lt_iff uniform.share]
        exact bound
  calc pool.adjustedBalances (pool.dropShare balances) adjust
      = ((pool.dropShare balances).zipIdx.map (pool.adjustedAt adjust)).mapM id := by
        rw [adjustedBalances_eq, List.mapM_map]
        rfl
    _ = pool.others.mapM (pool.adjustedByIndex balances adjust) := by
        rw [steps, List.mapM_map]
        rfl

theorem swapGivenIn_by_index {j : Nat} {amountIn : Int} (listedIn : i < pool.tokens.length)
    (listedOut : j < pool.tokens.length) (notIn : i ≠ pool.shareIndex) (notOut : j ≠ pool.shareIndex) :
    pool.swapGivenIn i j amountIn = pool.swapByIndex i j amountIn := by
  have skippedIn := skipShare_eq_place uniform.share listedIn notIn
  have skippedOut := skipShare_eq_place uniform.share listedOut notOut
  have each := length_upscaled uniform uniform.reserves
  have eachAfter (value : Int) :
      ((pool.upscaled pool.reserves).set i value).length = pool.tokens.length :=
    List.length_set.trans each
  simp only [swapGivenIn, swapByIndex, Composable.outGivenIn, skippedIn, skippedOut, Priced.ok_bind,
    ← dropShare_set skippedIn notIn, entry_dropShare skippedIn notIn, entry_dropShare skippedOut notOut,
    ofOthers_eq uniform.share each, ofOthers_eq uniform.share (eachAfter _), bind_assoc]

theorem join_by_index (amounts : List Int) : pool.join amounts = pool.joinByIndex amounts := by
  have held := length_upscaled uniform uniform.reserves
  unfold join joinByIndex
  by_cases count : amounts.length = pool.tokens.length
  · have sent := length_upscaled uniform count
    have filled : ((pool.upscaled pool.reserves).zipWith (· + ·) (pool.upscaled amounts)).length =
        pool.tokens.length := by
      rw [List.length_zipWith, held, sent, min_self]
    cases based : pool.basis (pool.upscaled pool.reserves) with
    | error failure => simp only [based, Priced.error_bind]
    | ok basis =>
        simp only [based, Priced.ok_bind, basis_balances based, ofOthers_eq uniform.share held,
          ofOthers_eq uniform.share sent, ofOthers_eq uniform.share filled, dropShare_zipWith]
  · simp only [Priced.require, count, decide_false, Bool.false_and, Bool.false_eq_true, if_false,
      Priced.refuse_bind]

theorem exit_by_index {shares : Int} (listed : i < pool.tokens.length) :
    pool.exit shares i = pool.exitByIndex shares i := by
  have held := length_upscaled uniform uniform.reserves
  unfold exit exitByIndex
  by_cases other : i = pool.shareIndex
  · simp only [Priced.require, other, ne_eq, not_true_eq_false, decide_false, Bool.false_eq_true,
      if_false, Priced.refuse_bind]
  · have skipped := skipShare_eq_place uniform.share listed other
    have emptied (change : Int → Int) :
        ((pool.upscaled pool.reserves).modify i change).length = pool.tokens.length :=
      (List.length_modify ..).trans held
    cases based : pool.basis (pool.upscaled pool.reserves) with
    | error failure => simp only [based, Priced.error_bind]
    | ok basis =>
        simp only [based, Priced.ok_bind, basis_balances based, skipped, ofOthers_eq uniform.share held,
          ofOthers_eq uniform.share (emptied _), dropShare_modify skipped other]

end

theorem ofSnapshot_uniform {snapshot : Snapshot} (built : ofSnapshot snapshot = .ok pool) :
    pool.Uniform := by
  simp only [ofSnapshot, Priced.bind_eq_ok, Priced.require_eq_ok, decide_eq_true_eq,
    Except.ok.injEq] at built
  obtain ⟨_, -, _, -, _, read, _, inside, _, count, rateCaches, found, rfl⟩ := built
  refine ⟨inside, Snapshot.tokenReserves_length read, count, ?_⟩
  exact (Priced.mapM_length found).trans (List.length_range ..)

theorem Uniform.continues (uniform : pool.Uniform) (continues : pool.Continues next) :
    next.Uniform := by
  obtain ⟨_, _, count, rfl⟩ := continues
  exact ⟨uniform.share, count.trans uniform.reserves, uniform.factors,
    List.length_map .. |>.trans uniform.rates⟩

/-- The registered lists of every composable pool have one entry for each token, the share token among
them, whatever has been done to it. Wherever the share token is registered among however many tokens, a
registered index and a place in the short lists lead to each other, and the entry at the place is the
entry under the index. So balances at old rates take balance, rates and choice of one token each, and
swaps, joins and exits are those that look every token up under its registered index. -/
theorem tokens_read_under_own_index :
    (∀ pool : ComposablePool, (Pool.composable pool).Reached → pool.Uniform) ∧
    (∀ pool : ComposablePool, pool.shareIndex < pool.tokens.length →
      (∀ i < pool.tokens.length, i ≠ pool.shareIndex →
        ∃ k < pool.tokens.length - 1, pool.skipShare i = .ok k ∧ pool.registered k = i ∧
          k = pool.place i) ∧
      (∀ k < pool.tokens.length - 1, pool.registered k < pool.tokens.length ∧
        pool.registered k ≠ pool.shareIndex ∧ pool.skipShare (pool.registered k) = .ok k) ∧
      ∀ (α : Type) (values : List α), values.length = pool.tokens.length →
        (pool.dropShare values).length = pool.tokens.length - 1 ∧
        pool.dropShare values = pool.ofOthers values ∧
        ∀ i k, i ≠ pool.shareIndex → pool.skipShare i = .ok k →
          (pool.dropShare values)[k]? = values[i]?) ∧
    ∀ pool : ComposablePool, pool.Uniform →
      (∀ balances adjust, balances.length = pool.tokens.length →
        pool.adjustedBalances (pool.dropShare balances) adjust =
          pool.others.mapM (pool.adjustedByIndex balances adjust)) ∧
      (∀ i j amountIn, i < pool.tokens.length → j < pool.tokens.length → i ≠ pool.shareIndex →
        j ≠ pool.shareIndex → pool.swapGivenIn i j amountIn = pool.swapByIndex i j amountIn) ∧
      (∀ amounts, pool.join amounts = pool.joinByIndex amounts) ∧
      ∀ shares i, i < pool.tokens.length → pool.exit shares i = pool.exitByIndex shares i := by
  refine ⟨?_, ?_, ?_⟩
  · intro pool reached
    exact reached.composable ofSnapshot_uniform fun continues uniform => uniform.continues continues
  · intro pool inside
    refine ⟨?_, ?_, ?_⟩
    · intro i listed other
      have skipped := skipShare_eq_place inside listed other
      have same := registered_skipShare skipped other
      exact ⟨_, (registered_lt_iff inside).mp (same.symm ▸ listed), skipped, same, rfl⟩
    · intro k bound
      exact ⟨(registered_lt_iff inside).mpr bound, registered_ne k, skipShare_registered k⟩
    · intro α values each
      refine ⟨?_, (ofOthers_eq inside each).symm, ?_⟩
      · rw [length_dropShare (each.symm ▸ inside), each]
      · intro i k other skipped
        exact dropShare_getElem? skipped other
  · intro pool uniform
    refine ⟨?_, ?_, join_by_index uniform, ?_⟩
    · intro balances adjust each
      exact adjustedBalances_by_index uniform each
    · intro i j amountIn listedIn listedOut notIn notOut
      exact swapGivenIn_by_index uniform listedIn listedOut notIn notOut
    · intro shares i listed
      exact exit_by_index uniform listed

/-- The pool with a risen rate, with its share token registered first. -/
def sampleShareFirst : ComposablePool :=
  { sampleYielding with
    tokens := [⟨500⟩, ⟨1⟩, ⟨2⟩]
    reserves := [2596148429267413814265248164610048, 1000000000000000000000, 1000000000000000000000]
    shareIndex := 0
    scalingFactors := [Fixed.one, 1100000000000000000, Fixed.one]
    rateCaches := [none, some ⟨1100000000000000000, Fixed.one⟩, none] }

/-- The first of the other tokens has the risen rate, and its swap pays as in the pool whose share token
is registered second. -/
theorem sampleShareFirst_reads_tokens :
    sampleShareFirst.Uniform ∧ sampleShareFirst.skipShare 1 = .ok 0 ∧
      sampleShareFirst.registered 0 = 1 ∧
      (sampleShareFirst.dropShare (sampleShareFirst.upscaled sampleShareFirst.reserves))[0]? =
        some 1100000000000000000000 ∧
      sampleShareFirst.adjustedBalances
          (sampleShareFirst.dropShare (sampleShareFirst.upscaled sampleShareFirst.reserves))
          (fun _ => true) = .ok [1000000000000000000000, 1000000000000000000000] ∧
      sampleShareFirst.swapGivenIn 1 2 1000000000000000000 =
        .ok (1099360815546370650, 100000000000000) := by
  have uniform : sampleShareFirst.Uniform := ⟨by decide, rfl, rfl, rfl⟩
  obtain ⟨-, shifts, lookups⟩ := tokens_read_under_own_index
  obtain ⟨there, -, lists⟩ := shifts sampleShareFirst uniform.share
  obtain ⟨rates, swaps, -, -⟩ := lookups sampleShareFirst uniform
  obtain ⟨k, -, skipped, back, rfl⟩ := there 1 (by decide) (by decide)
  have entry := (lists _ (sampleShareFirst.upscaled sampleShareFirst.reserves) rfl).2.2 1 _ (by decide)
    skipped
  refine ⟨uniform, skipped, back, entry, ?_, ?_⟩
  · rw [rates _ _ rfl]
    decide +kernel
  · rw [swaps 1 2 _ (by decide) (by decide) (by decide) (by decide)]
    decide +kernel

end ComposablePool
end Amm
