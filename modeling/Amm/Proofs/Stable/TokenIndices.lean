import Amm.Proofs.Stable.Underlying

/-!
How a metapool finds the tokens of a trade. Its coins have indices of their own, and the underlying tokens
have others: both lists start with the local coins, but where the coins end with the share token of the
base pool, the underlying tokens go on with what that pool holds. A pair is looked for among the coins,
or else among the underlying tokens, and the indices found are those of its two tokens in that list.
-/

namespace Amm
namespace Metapool

/-- The tokens that indices count. -/
def listed (pool : Metapool) (underlying : Bool) : List Address :=
  if underlying then pool.underlyingTokens else pool.tokens

/-- The share token of the pool and the one of its base pool, in either order. -/
def SharePair (pool : Metapool) (tokenIn tokenOut : Address) : Prop :=
  tokenIn = pool.shareToken ∧ tokenOut = pool.base.shareToken ∨
    tokenIn = pool.base.shareToken ∧ tokenOut = pool.shareToken

/-- Both tokens of a pair are among those that indices count. -/
def ListsBoth (pool : Metapool) (underlying : Bool) (tokenIn tokenOut : Address) : Prop :=
  tokenIn ∈ pool.listed underlying ∧ tokenOut ∈ pool.listed underlying

/-- What becomes of a pair of tokens. -/
inductive Resolution (pool : Metapool) (tokenIn tokenOut : Address) : Priced Pair → Prop
  | shares (against : pool.SharePair tokenIn tokenOut) :
      Resolution pool tokenIn tokenOut (Priced.refuse .lpToBaseLpNotSupported)
  | coins {i j : Nat} (other : ¬ pool.SharePair tokenIn tokenOut)
      (entryIn : pool.tokens[i]? = some tokenIn) (entryOut : pool.tokens[j]? = some tokenOut) :
      Resolution pool tokenIn tokenOut (.ok ⟨i, j, false⟩)
  | underlying {i j : Nat} (other : ¬ pool.SharePair tokenIn tokenOut)
      (missing : ¬ pool.ListsBoth false tokenIn tokenOut)
      (entryIn : pool.underlyingTokens[i]? = some tokenIn)
      (entryOut : pool.underlyingTokens[j]? = some tokenOut) :
      Resolution pool tokenIn tokenOut (.ok ⟨i, j, true⟩)
  | unknown (other : ¬ pool.SharePair tokenIn tokenOut)
      (missing : ¬ pool.ListsBoth false tokenIn tokenOut)
      (absent : ¬ pool.ListsBoth true tokenIn tokenOut) :
      Resolution pool tokenIn tokenOut (Priced.refuse .tokenNotFound)

theorem listsBoth_of_entries {pool : Metapool} {underlying : Bool} {tokenIn tokenOut : Address}
    {i j : Nat} (entryIn : (pool.listed underlying)[i]? = some tokenIn)
    (entryOut : (pool.listed underlying)[j]? = some tokenOut) :
    pool.ListsBoth underlying tokenIn tokenOut :=
  ⟨List.mem_of_getElem? entryIn, List.mem_of_getElem? entryOut⟩

namespace Resolution

variable {pool : Metapool} {tokenIn tokenOut : Address} {outcome : Priced Pair}

theorem entries {found : Pair} (resolved : Resolution pool tokenIn tokenOut (.ok found)) :
    (pool.listed found.underlying)[found.indexIn]? = some tokenIn ∧
      (pool.listed found.underlying)[found.indexOut]? = some tokenOut ∧
      (found.underlying = false ↔ pool.ListsBoth false tokenIn tokenOut) := by
  cases resolved with
  | coins other entryIn entryOut =>
      exact ⟨entryIn, entryOut, iff_of_true rfl (listsBoth_of_entries entryIn entryOut)⟩
  | underlying other missing entryIn entryOut =>
      exact ⟨entryIn, entryOut, iff_of_false Bool.false_ne_true.symm missing⟩

theorem shares_iff (resolved : Resolution pool tokenIn tokenOut outcome) :
    outcome = Priced.refuse .lpToBaseLpNotSupported ↔ pool.SharePair tokenIn tokenOut := by
  cases resolved with
  | shares against => exact iff_of_true rfl against
  | coins other => exact iff_of_false (Priced.refuse_ne_ok _ _).symm other
  | underlying other => exact iff_of_false (Priced.refuse_ne_ok _ _).symm other
  | unknown other => exact iff_of_false (by simp [Priced.refuse]) other

theorem unknown_iff (resolved : Resolution pool tokenIn tokenOut outcome) :
    outcome = Priced.refuse .tokenNotFound ↔
      ¬ pool.SharePair tokenIn tokenOut ∧ ∀ underlying, ¬ pool.ListsBoth underlying tokenIn tokenOut := by
  cases resolved with
  | shares against => exact iff_of_false (by simp [Priced.refuse]) fun refused => refused.1 against
  | coins other entryIn entryOut =>
      exact iff_of_false (Priced.refuse_ne_ok _ _).symm fun refused =>
        refused.2 false (listsBoth_of_entries entryIn entryOut)
  | underlying other missing entryIn entryOut =>
      exact iff_of_false (Priced.refuse_ne_ok _ _).symm fun refused =>
        refused.2 true (listsBoth_of_entries entryIn entryOut)
  | unknown other missing absent =>
      exact iff_of_true rfl ⟨other, Bool.forall_bool.mpr ⟨missing, absent⟩⟩

theorem exists_found (resolved : Resolution pool tokenIn tokenOut outcome) {underlying : Bool}
    (other : ¬ pool.SharePair tokenIn tokenOut) (both : pool.ListsBoth underlying tokenIn tokenOut) :
    ∃ found, outcome = .ok found := by
  cases resolved with
  | shares against => exact absurd against other
  | coins => exact ⟨_, rfl⟩
  | underlying => exact ⟨_, rfl⟩
  | unknown _ missing absent =>
      cases underlying with
      | false => exact absurd both missing
      | true => exact absurd both absent

end Resolution

section
variable {tokens : List Address} {token tokenIn tokenOut : Address} {i : Nat}

theorem getElem?_of_idxOf? (found : tokens.idxOf? token = some i) : tokens[i]? = some token := by
  obtain ⟨bound, entry, -⟩ := List.idxOf?_eq_some_iff.mp found
  exact List.getElem?_eq_some_iff.mpr ⟨bound, entry⟩

theorem not_both_of_idxOf? (notFound : ∀ i j, tokens.idxOf? tokenIn = some i →
    tokens.idxOf? tokenOut = some j → False) : ¬ (tokenIn ∈ tokens ∧ tokenOut ∈ tokens) := by
  rintro ⟨heldIn, heldOut⟩
  obtain ⟨i, foundIn⟩ := Option.isSome_iff_exists.mp (List.isSome_idxOf?.mpr heldIn)
  obtain ⟨j, foundOut⟩ := Option.isSome_iff_exists.mp (List.isSome_idxOf?.mpr heldOut)
  exact notFound i j foundIn foundOut

end

theorem pair_resolution (pool : Metapool) (tokenIn tokenOut : Address) :
    Resolution pool tokenIn tokenOut (pool.pair tokenIn tokenOut) := by
  unfold pair
  dsimp only
  by_cases against : pool.SharePair tokenIn tokenOut
  · have refused : (tokenIn = pool.shareToken && tokenOut = pool.base.shareToken
        || tokenIn = pool.base.shareToken && tokenOut = pool.shareToken) = true := by
      simpa [SharePair] using against
    rw [refused]
    exact .shares against
  have passed : (tokenIn = pool.shareToken && tokenOut = pool.base.shareToken
      || tokenIn = pool.base.shareToken && tokenOut = pool.shareToken) = false :=
    Bool.eq_false_iff.mpr (by simpa [SharePair] using against)
  simp only [passed, Bool.not_false, Priced.require, if_true, Priced.ok_bind]
  split
  · rename_i foundIn foundOut
    exact .coins against (getElem?_of_idxOf? foundIn) (getElem?_of_idxOf? foundOut)
  · rename_i notCoins
    have missing := not_both_of_idxOf? notCoins
    split
    · rename_i foundIn foundOut
      exact .underlying against missing (getElem?_of_idxOf? foundIn) (getElem?_of_idxOf? foundOut)
    · rename_i notUnderlying
      exact .unknown against missing (not_both_of_idxOf? notUnderlying)

section
variable {pool : Metapool} {i k : Nat}

/-- All coins but the last one are local, so they open the list of the underlying tokens. -/
theorem locals_length (pool : Metapool) : (pool.tokens.take pool.baseCoin).length = pool.baseCoin := by
  rw [List.length_take]
  exact min_eq_left (Nat.sub_le pool.tokens.length 1)

theorem underlyingTokens_local (isLocal : i < pool.baseCoin) :
    pool.underlyingTokens[i]? = pool.tokens[i]? := by
  have inside : i < (pool.tokens.take pool.baseCoin).length := isLocal.trans_eq pool.locals_length.symm
  rw [underlyingTokens, List.getElem?_append_left inside, List.getElem?_take, if_pos isLocal]

theorem underlyingTokens_base (pool : Metapool) (k : Nat) :
    pool.underlyingTokens[pool.underlyingIndex k]? = pool.base.tokens[k]? := by
  have later : (pool.tokens.take pool.baseCoin).length ≤ pool.baseCoin + k :=
    pool.locals_length.trans_le (Nat.le_add_right _ _)
  rw [underlyingTokens, underlyingIndex, List.getElem?_append_right later, pool.locals_length,
    Nat.add_sub_cancel_left]

theorem side_of_coin (isLocal : i < pool.baseCoin) : pool.side i = .ok (.coin i) := by
  have inside : i < pool.underlyingTokens.length := by
    rw [underlyingTokens, List.length_append, pool.locals_length]
    exact Nat.lt_add_right _ isLocal
  rw [side, Priced.require_bind, if_pos inside, if_pos isLocal]

theorem side_of_base (held : k < pool.base.tokens.length) :
    pool.side (pool.underlyingIndex k) = .ok (.base k) := by
  have inside : pool.underlyingIndex k < pool.underlyingTokens.length := by
    obtain ⟨bound, -⟩ := List.getElem?_eq_some_iff.mp
      ((underlyingTokens_base pool k).trans (List.getElem?_eq_getElem held))
    exact bound
  rw [side, Priced.require_bind, if_pos inside, underlyingIndex, if_neg (by omega),
    Nat.add_sub_cancel_left]

end

/-- A pair that is found is found by its tokens: the indices are those of the two tokens in the list they
are said to count, which is the list of the coins if that has both. A pair is refused as one of shares, or
for a token that is not found, and not otherwise. The index of a base token points at it, and the index of
a local coin at the coin, on either side of a trade. -/
theorem indices_name_tokens (pool : Metapool) (tokenIn tokenOut : Address) :
    (∀ found, pool.pair tokenIn tokenOut = .ok found →
      (pool.listed found.underlying)[found.indexIn]? = some tokenIn ∧
        (pool.listed found.underlying)[found.indexOut]? = some tokenOut ∧
        (found.underlying = false ↔ pool.ListsBoth false tokenIn tokenOut)) ∧
    (pool.pair tokenIn tokenOut = Priced.refuse .lpToBaseLpNotSupported ↔
      pool.SharePair tokenIn tokenOut) ∧
    (pool.pair tokenIn tokenOut = Priced.refuse .tokenNotFound ↔
      ¬ pool.SharePair tokenIn tokenOut ∧ ∀ underlying, ¬ pool.ListsBoth underlying tokenIn tokenOut) ∧
    (¬ pool.SharePair tokenIn tokenOut → ∀ underlying, pool.ListsBoth underlying tokenIn tokenOut →
      ∃ found, pool.pair tokenIn tokenOut = .ok found) ∧
    (∀ k < pool.base.tokens.length,
      pool.underlyingTokens[pool.underlyingIndex k]? = pool.base.tokens[k]? ∧
        pool.side (pool.underlyingIndex k) = .ok (.base k)) ∧
    ∀ i < pool.baseCoin, pool.underlyingTokens[i]? = pool.tokens[i]? ∧ pool.side i = .ok (.coin i) := by
  have resolved := pool.pair_resolution tokenIn tokenOut
  exact ⟨fun _ paired => (paired ▸ resolved).entries, resolved.shares_iff, resolved.unknown_iff,
    fun other _ both => resolved.exists_found other both,
    fun k held => ⟨underlyingTokens_base pool k, side_of_base held⟩,
    fun _ isLocal => ⟨underlyingTokens_local isLocal, side_of_coin isLocal⟩⟩

/-- In the sample a local coin and the second base token are found among the underlying tokens, with the
share token of the base pool among the coins. That one against the share token of the pool is refused as
such, and a base token against it is not found. -/
theorem sample_pairs_found :
    (∃ found, (sampleMetapool Fixed.one).pair ⟨50⟩ ⟨2⟩ = .ok found ∧ found = ⟨0, 2, true⟩ ∧
      ((sampleMetapool Fixed.one).listed true)[2]? = some ⟨2⟩) ∧
    (∃ found, (sampleMetapool Fixed.one).pair ⟨101⟩ ⟨50⟩ = .ok found ∧ found = ⟨1, 0, false⟩ ∧
      (sampleMetapool Fixed.one).ListsBoth false ⟨101⟩ ⟨50⟩) ∧
    (sampleMetapool Fixed.one).pair ⟨60⟩ ⟨101⟩ = Priced.refuse .lpToBaseLpNotSupported ∧
    (sampleMetapool Fixed.one).pair ⟨60⟩ ⟨1⟩ = Priced.refuse .tokenNotFound ∧
    (sampleMetapool Fixed.one).side ((sampleMetapool Fixed.one).underlyingIndex 1) = .ok (.base 1) ∧
    (sampleMetapool Fixed.one).side 0 = .ok (.coin 0) := by
  have across : (sampleMetapool Fixed.one).pair ⟨50⟩ ⟨2⟩ = .ok ⟨0, 2, true⟩ := by decide
  have direct : (sampleMetapool Fixed.one).pair ⟨101⟩ ⟨50⟩ = .ok ⟨1, 0, false⟩ := by decide
  obtain ⟨found, -, -, -, base, coin⟩ := indices_name_tokens (sampleMetapool Fixed.one) ⟨50⟩ ⟨2⟩
  refine ⟨⟨_, across, rfl, (found _ across).2.1⟩, ⟨_, direct, rfl, ?_⟩, ?_, ?_, (base 1 (by decide)).2,
    (coin 0 (by decide)).2⟩
  · exact ((indices_name_tokens (sampleMetapool Fixed.one) ⟨101⟩ ⟨50⟩).1 _ direct).2.2.mp rfl
  · exact (indices_name_tokens (sampleMetapool Fixed.one) ⟨60⟩ ⟨101⟩).2.1.mpr (.inl ⟨rfl, rfl⟩)
  · refine (indices_name_tokens (sampleMetapool Fixed.one) ⟨60⟩ ⟨1⟩).2.2.1.mpr ⟨?_, ?_⟩
    · simp [SharePair, sampleMetapool, sampleBase, BasePool.shareToken]
    · simp [ListsBoth, listed, underlyingTokens, baseCoin, sampleMetapool, sampleBase, BasePool.tokens]

end Metapool
end Amm
