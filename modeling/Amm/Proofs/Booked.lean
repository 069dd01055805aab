import Amm.Proofs.Aligned
import Amm.Proofs.Composable.Supply

/-!
What a quoted swap does to the reserves of a pool that takes it. Some kinds of pools book the quoted
numbers, some work out the admin part of the fee from them, and some carry out the swap again. In
every kind the quoted amounts are what moves, with the admin part beside the amount paid out.
-/

namespace Amm

namespace Stable

/-- Fees of a pool that are parts of the whole. -/
structure Holdings.FeesBounded (holdings : Holdings) : Prop where
  swapFee : IsFee holdings.swapFee
  adminFee : IsFee holdings.adminFee

namespace SwapAmounts

variable {dy swapFee adminFee rate : Int}

/-- Something is paid out only on the positive side of the rate, so the fee has the sign of the
rate. -/
theorem ofDifference_signs (swap : IsFee swapFee) (paid : 0 < (ofDifference dy swapFee rate).out) :
    0 ≤ share dy swapFee ∧ 0 ≤ rate ∨ share dy swapFee ≤ 0 ∧ rate ≤ 0 := by
  rcases le_total 0 dy with gain | loss
  · refine .inl ⟨share_nonneg swap gain, not_lt.mp fun negative => ?_⟩
    have part := share_le swap gain
    have unpaid : (ofDifference dy swapFee rate).out ≤ 0 :=
      Int.fdiv_nonpos_of_nonneg_of_nonpos (mul_nonneg (by omega) Fixed.one_pos.le) negative.le
    omega
  · refine .inr ⟨share_nonpos swap loss, not_lt.mp fun positive => ?_⟩
    have part := le_share swap loss
    have unpaid : (ofDifference dy swapFee rate).out ≤ 0 := by
      rw [ofDifference, fdiv_le_iff positive]
      have kept : (dy - share dy swapFee) * Fixed.one ≤ 0 :=
        mul_nonpos_of_nonpos_of_nonneg (by omega) Fixed.one_pos.le
      linarith
    omega

theorem ofDifference_fee_nonneg (swap : IsFee swapFee)
    (paid : 0 < (ofDifference dy swapFee rate).out) : 0 ≤ (ofDifference dy swapFee rate).fee := by
  rcases ofDifference_signs swap paid with ⟨charged, positive⟩ | ⟨charged, negative⟩
  · exact Int.fdiv_nonneg (mul_nonneg charged Fixed.one_pos.le) positive
  · exact Int.fdiv_nonneg_of_nonpos_of_nonpos
      (mul_nonpos_of_nonpos_of_nonneg charged Fixed.one_pos.le) negative

theorem ofDifference_adminPart_nonneg (swap : IsFee swapFee) (admin : IsFee adminFee)
    (paid : 0 < (ofDifference dy swapFee rate).out) :
    0 ≤ (ofDifference dy swapFee rate).adminPart adminFee rate := by
  rcases ofDifference_signs swap paid with ⟨charged, positive⟩ | ⟨charged, negative⟩
  · exact Int.fdiv_nonneg (mul_nonneg (share_nonneg admin charged) Fixed.one_pos.le) positive
  · exact Int.fdiv_nonneg_of_nonpos_of_nonpos
      (mul_nonpos_of_nonpos_of_nonneg (share_nonpos admin charged) Fixed.one_pos.le) negative

end SwapAmounts

namespace Holdings

variable {holdings next : Holdings} {i j : Nat} {amountIn amountOut fee : Int}

/-- The admin part of a fee that is not given: of the fee on the whole amount paid out. -/
def bookedShare (holdings : Holdings) (amountOut : Int) : Int :=
  share (share amountOut holdings.swapFee) holdings.adminFee

theorem FeesBounded.bookedShare_nonneg (fees : holdings.FeesBounded) (paid : 0 < amountOut) :
    0 ≤ holdings.bookedShare amountOut :=
  share_nonneg fees.adminFee (share_nonneg fees.swapFee paid.le)

theorem FeesBounded.swapAmounts_nonneg {dx rate : Int} {rates : List Int} {now : Time}
    {amounts : SwapAmounts} (fees : holdings.FeesBounded)
    (computed : holdings.swapAmounts i j dx rates now = .ok amounts) (paid : 0 < amounts.out)
    (rateAt : rates[j]? = some rate) :
    0 ≤ share amounts.fee holdings.adminFee ∧ 0 ≤ amounts.adminPart holdings.adminFee rate := by
  obtain ⟨_, _, _, _, _, rate', -, -, -, -, -, rateAt', -, -, rfl⟩ := swapAmounts_eq_ok computed
  obtain rfl : rate = rate' := Option.some.inj (rateAt.symm.trans rateAt')
  exact ⟨share_nonneg fees.adminFee (SwapAmounts.ofDifference_fee_nonneg fees.swapFee paid),
    SwapAmounts.ofDifference_adminPart_nonneg fees.swapFee fees.adminFee paid⟩

theorem credit_trades (succeeds : holdings.credit i j amountIn amountOut fee = .ok next) :
    Trades holdings.reserves next.reserves i j amountIn
      (amountOut + share fee holdings.adminFee) := by
  simp only [credit, requirePair, Priced.bind_eq_ok, Priced.require_eq_ok, Priced.entry_eq_ok,
    Bool.and_eq_true, decide_eq_true_eq, Except.ok.injEq] at succeeds
  obtain ⟨_, ⟨_, different, bound, -⟩, reserve, reserveAt, _, -, rfl⟩ := succeeds
  rw [sub_sub]
  exact trades_of_set different bound reserveAt

theorem book_trades (different : i ≠ j) (bound : i < holdings.reserves.length)
    (succeeds : holdings.book i j amountIn amountOut = .ok next) :
    Trades holdings.reserves next.reserves i j amountIn
      (amountOut + holdings.bookedShare amountOut) := by
  simp only [book, Priced.bind_eq_ok, Priced.entry_eq_ok, Except.ok.injEq] at succeeds
  obtain ⟨reserve, reserveAt, _, -, rfl⟩ := succeeds
  rw [sub_sub]
  exact trades_of_set different bound reserveAt

end Holdings

end Stable

theorem route_between {tokens : List Address} {shareToken tokenIn tokenOut : Address} {i j : Nat}
    (sold : tokens.idxOf? tokenIn = some i) (bought : tokens.idxOf? tokenOut = some j) :
    route tokens shareToken tokenIn tokenOut = .ok (.exchange i j) := by
  simp only [route, sold, bought]

/-- A token has one index. -/
theorem index_ne {tokens : List Address} {tokenIn tokenOut : Address} {i j : Nat}
    (different : tokenIn ≠ tokenOut) (sold : tokens.idxOf? tokenIn = some i)
    (bought : tokens.idxOf? tokenOut = some j) : i ≠ j := by
  rintro rfl
  obtain ⟨_, foundIn, -⟩ := List.idxOf?_eq_some_iff.mp sold
  obtain ⟨_, foundOut, -⟩ := List.idxOf?_eq_some_iff.mp bought
  exact different (foundIn.symm.trans foundOut)

theorem index_lt {tokens : List Address} {token : Address} {i : Nat}
    (found : tokens.idxOf? token = some i) : i < tokens.length :=
  (List.idxOf?_eq_some_iff.mp found).1

section
variable {order : Order} {quote : Quote} {now : Time} {i j : Nat}

/-- What a plain pool quotes for a swap between two of its tokens is worked out on its holdings. -/
theorem PlainPool.quote_eq_ok {pool : PlainPool} (sold : pool.tokens.idxOf? order.tokenIn = some i)
    (bought : pool.tokens.idxOf? order.tokenOut = some j)
    (quoted : pool.quote order now = .ok quote) :
    ∃ amounts, pool.holdings.swapAmounts i j order.amountIn pool.rates now = .ok amounts ∧
      0 < amounts.out ∧ quote.amountOut = amounts.out ∧
      quote.update =
        ⟨order.tokenIn, order.amountIn, order.tokenOut, amounts.out, amounts.fee, none⟩ := by
  simp only [PlainPool.quote, route_between sold bought, quoteExchange, Stable.Holdings.quote,
    Priced.ok_bind, Priced.bind_eq_ok, Except.ok.injEq] at quoted
  obtain ⟨_, ⟨amounts, computed, rfl⟩, quoted⟩ := quoted
  exact ⟨amounts, computed, Order.quote_eq_ok quoted⟩

/-- A plain pool credits a swap between two of its tokens as it was quoted. -/
theorem PlainPool.apply_eq {pool : PlainPool} {update : Update}
    (sold : pool.tokens.idxOf? update.tokenIn = some i)
    (bought : pool.tokens.idxOf? update.tokenOut = some j) :
    pool.apply update now =
      pool.holdings.credit i j update.amountIn update.amountOut update.fee >>= fun holdings =>
        .ok { pool with holdings } := by
  simp only [apply, route_between sold bought, Priced.ok_bind]

/-- A plain pool books the quoted fee. -/
theorem PlainPool.books {pool next : PlainPool} (fees : pool.holdings.FeesBounded)
    (sold : pool.tokens.idxOf? order.tokenIn = some i)
    (bought : pool.tokens.idxOf? order.tokenOut = some j)
    (quoted : pool.quote order now = .ok quote) (applied : pool.apply quote.update now = .ok next) :
    0 ≤ Stable.share quote.update.fee pool.holdings.adminFee ∧
      Trades pool.holdings.reserves next.holdings.reserves i j order.amountIn
        (quote.amountOut + Stable.share quote.update.fee pool.holdings.adminFee) := by
  obtain ⟨amounts, computed, paid, same, update⟩ := quote_eq_ok sold bought quoted
  rw [update] at applied ⊢
  rw [apply_eq sold bought, Priced.bind_eq_ok] at applied
  obtain ⟨holdings, credited, booked⟩ := applied
  obtain rfl := Except.ok.inj booked
  obtain ⟨_, _, _, _, _, rate, -, -, -, -, -, rateAt, -⟩ :=
    Stable.Holdings.swapAmounts_eq_ok computed
  rw [same]
  exact ⟨(fees.swapAmounts_nonneg computed paid rateAt).1, Stable.Holdings.credit_trades credited⟩

/-- A quote reads the balance of the token sold. -/
theorem LendingPool.quoteExchange_lt {pool : LendingPool} {dx : Int} {amounts : Int × Int}
    (quoted : pool.quoteExchange i j dx now = .ok amounts) : i < pool.holdings.reserves.length := by
  simp only [quoteExchange, Priced.bind_eq_ok, Priced.entry_eq_ok] at quoted
  obtain ⟨_, -, xp, scale, _, balanceAt, -⟩ := quoted
  rw [← Stable.scaled_length scale]
  exact (List.getElem?_eq_some_iff.mp balanceAt).1

theorem LendingPool.books {pool next : LendingPool} (fees : pool.holdings.FeesBounded)
    (sold : pool.tokens.idxOf? order.tokenIn = some i)
    (bought : pool.tokens.idxOf? order.tokenOut = some j) (different : i ≠ j)
    (quoted : pool.quote order now = .ok quote) (applied : pool.apply quote.update = .ok next) :
    0 ≤ pool.holdings.bookedShare quote.update.amountOut ∧
      Trades pool.holdings.reserves next.holdings.reserves i j order.amountIn
        (quote.amountOut + pool.holdings.bookedShare quote.update.amountOut) := by
  simp only [LendingPool.quote, LendingPool.indices, sold, bought, Priced.ok_bind,
    Priced.bind_eq_ok] at quoted
  obtain ⟨_, priced, quoted⟩ := quoted
  obtain ⟨paid, same, update⟩ := Order.quote_eq_ok quoted
  rw [update] at applied ⊢
  simp only [LendingPool.apply, LendingPool.indices, sold, bought, Priced.ok_bind,
    Priced.bind_eq_ok, Except.ok.injEq] at applied
  obtain ⟨_, -, holdings, booked, rfl⟩ := applied
  rw [same]
  exact ⟨fees.bookedShare_nonneg paid,
    Stable.Holdings.book_trades different (quoteExchange_lt priced) booked⟩

theorem SaddlePool.books {pool next : SaddlePool} (fees : pool.holdings.FeesBounded)
    (sold : pool.tokens.idxOf? order.tokenIn = some i)
    (bought : pool.tokens.idxOf? order.tokenOut = some j)
    (quoted : pool.quote order now = .ok quote) (applied : pool.apply quote.update now = .ok next) :
    0 ≤ pool.holdings.bookedShare quote.update.amountOut ∧
      Trades pool.holdings.reserves next.holdings.reserves i j order.amountIn
        (quote.amountOut + pool.holdings.bookedShare quote.update.amountOut) := by
  simp only [SaddlePool.quote, route_between sold bought, SaddlePool.quoteExchange,
    Stable.Holdings.quote, Priced.ok_bind, Priced.bind_eq_ok] at quoted
  obtain ⟨_, ⟨amounts, computed, -⟩, quoted⟩ := quoted
  obtain ⟨paid, same, update⟩ := Order.quote_eq_ok quoted
  rw [update] at applied ⊢
  simp only [SaddlePool.apply, route_between sold bought, Priced.ok_bind, Priced.bind_eq_ok,
    Except.ok.injEq] at applied
  obtain ⟨holdings, booked, rfl⟩ := applied
  obtain ⟨different, bound, -⟩ := Stable.Holdings.swapAmounts_pair computed
  rw [same]
  exact ⟨fees.bookedShare_nonneg paid, Stable.Holdings.book_trades different bound booked⟩

/-- A metapool carries out the swap again, at the rates that it was quoted at. -/
theorem Metapool.books {pool next : Metapool} (fees : pool.holdings.FeesBounded)
    (sold : pool.tokens.idxOf? order.tokenIn = some i)
    (bought : pool.tokens.idxOf? order.tokenOut = some j)
    (quoted : pool.quote order now = .ok quote) (applied : pool.apply quote.update now = .ok next) :
    ∃ admin, pool.adminPart i j quote.update.amountIn now = .ok admin ∧ 0 ≤ admin ∧
      Trades pool.holdings.reserves next.holdings.reserves i j order.amountIn
        (quote.amountOut + admin) := by
  have found : ∀ pair, pool.pair order.tokenIn order.tokenOut = .ok pair → pair = ⟨i, j, false⟩ := by
    intro pair paired
    simp only [Metapool.pair, sold, bought, Priced.bind_eq_ok, Except.ok.injEq] at paired
    obtain ⟨_, -, rfl⟩ := paired
    rfl
  simp only [Metapool.quote, Priced.bind_eq_ok] at quoted
  obtain ⟨pair, paired, quoted⟩ := quoted
  obtain rfl := found pair paired
  simp only [Bool.false_eq_true, if_false, Metapool.quoteExchange, Stable.Holdings.quote,
    Priced.bind_eq_ok, Except.ok.injEq] at quoted
  obtain ⟨_, ⟨rates, rated, amounts, computed, rfl⟩, quoted⟩ := quoted
  obtain ⟨paid, same, update⟩ := Order.quote_eq_ok quoted
  rw [update] at applied ⊢
  simp only [Metapool.apply, paired, Bool.false_eq_true, if_false, Metapool.exchange, rated,
    Priced.ok_bind, Priced.bind_eq_ok, Except.ok.injEq] at applied
  obtain ⟨_, ⟨⟨out, holdings⟩, swapped, rfl⟩, rfl⟩ := applied
  obtain ⟨amounts', rate, computed', rateAt, rfl, -, trades⟩ :=
    Stable.Holdings.exchange_trades swapped
  obtain rfl : amounts = amounts' := Except.ok.inj (computed.symm.trans computed')
  rw [same]
  refine ⟨amounts.adminPart pool.holdings.adminFee rate, ?_,
    (fees.swapAmounts_nonneg computed paid rateAt).2, trades⟩
  simp only [adminPart, rated, computed, Priced.entry_eq_ok.mpr rateAt, Priced.ok_bind]

/-- Without a ramp a crypto pool carries out the swap at the invariant that it was quoted at. -/
theorem CryptoPool.books {pool next : CryptoPool} (settled : pool.ramp.futureTime = 0)
    (precisions : ∀ precision ∈ pool.precisions, 0 < precision)
    (scale : ∀ price ∈ pool.priceScale, 0 < price)
    (aligned : pool.reserves.length = pool.tokens.length)
    (sold : pool.tokens.idxOf? order.tokenIn = some i)
    (bought : pool.tokens.idxOf? order.tokenOut = some j)
    (quoted : pool.quote order now = .ok quote) (applied : pool.apply quote.update now = .ok next) :
    Trades pool.reserves next.reserves i j order.amountIn quote.amountOut := by
  simp only [CryptoPool.quote, sold, bought, Priced.ofOption, Priced.ok_bind,
    Priced.bind_eq_ok] at quoted
  obtain ⟨⟨out, fee⟩, computed, quoted⟩ := quoted
  obtain ⟨-, same, update⟩ := Order.quote_eq_ok quoted
  rw [update] at applied
  simp only [CryptoPool.apply, sold, bought, Priced.ofOption, Priced.ok_bind, CryptoPool.exchange,
    Priced.bind_eq_ok, Except.ok.injEq] at applied
  obtain ⟨_, ⟨⟨dy, settlement⟩, settles, _, books, rfl⟩, rfl⟩ := applied
  obtain ⟨_, computed'⟩ := settleExchange_quoted settled precisions scale settles
  obtain ⟨rfl, -⟩ := Prod.mk.inj (Except.ok.inj (computed.symm.trans computed'))
  obtain ⟨reserveOut, _, _, different, -, -, reserveAt, moved, -⟩ := settleExchange_moves settles
  obtain ⟨_, _, -, -, ends⟩ := Settlement.book_eq_ok books
  rw [same, ends.reserves_eq, moved]
  exact trades_of_set different (aligned ▸ index_lt sold) reserveAt

theorem ComposablePool.books {pool next : ComposablePool}
    (aligned : pool.reserves.length = pool.tokens.length)
    (sold : pool.tokens.idxOf? order.tokenIn = some i)
    (bought : pool.tokens.idxOf? order.tokenOut = some j)
    (quoted : pool.quote order = .ok quote) (applied : pool.apply quote.update = .ok next) :
    Trades pool.reserves next.reserves i j order.amountIn quote.amountOut := by
  obtain ⟨_, _, _, _, -, -, -, update⟩ := quote_eq_ok quoted
  obtain ⟨i', j', reserveOut, found, reserveAt, -, rfl⟩ := apply_eq_ok applied
  have different := indices_ne found
  rw [update] at found ⊢
  simp only [indices, sold, bought, Priced.ofOption, Priced.ok_bind, Priced.bind_eq_ok,
    Except.ok.injEq, Prod.mk.injEq] at found
  obtain ⟨_, -, rfl, rfl⟩ := found
  exact trades_of_set different (aligned ▸ index_lt sold) reserveAt

theorem SyncSwapPool.books {pool next : SyncSwapPool} (aligned : pool.tokens.length = 2)
    (sold : pool.tokens.idxOf? order.tokenIn = some i)
    (bought : pool.tokens.idxOf? order.tokenOut = some j) (different : i ≠ j)
    (quoted : pool.quote order = .ok quote) (applied : pool.apply quote.update = .ok next) :
    Trades pool.reserves next.reserves i j order.amountIn quote.amountOut := by
  simp only [SyncSwapPool.quote, Priced.bind_eq_ok] at quoted
  obtain ⟨_, -, _, -, _, -, quoted⟩ := quoted
  obtain ⟨-, same, update⟩ := Order.quote_eq_ok quoted
  rw [update] at applied
  simp only [SyncSwapPool.apply, indices, sold, bought, Priced.ofOption, Priced.ok_bind,
    Priced.bind_eq_ok, Except.ok.injEq] at applied
  obtain ⟨_, ⟨_, -, rfl⟩, _, -, rfl⟩ := applied
  have boundIn : i < 2 := aligned ▸ index_lt sold
  have boundOut : j < 2 := aligned ▸ index_lt bought
  rw [same]
  obtain ⟨rfl, rfl⟩ | ⟨rfl, rfl⟩ : i = 0 ∧ j = 1 ∨ i = 1 ∧ j = 0 := by omega
  · exact trades_of_set different Nat.zero_lt_two rfl
  · exact trades_of_set different Nat.one_lt_two rfl

end

namespace Pool

/-- The part of the fee of a swap that leaves the pool with the amount paid out. Crypto pools,
composable pools and pools of the SyncSwap kind keep the whole fee. -/
def adminShare (pool : Pool) (i j : Nat) (update : Update) (now : Time) : Priced Int :=
  match pool with
  | .plain pool => .ok (Stable.share update.fee pool.holdings.adminFee)
  | .lending pool => .ok (pool.holdings.bookedShare update.amountOut)
  | .saddle pool => .ok (pool.holdings.bookedShare update.amountOut)
  | .metapool pool => pool.adminPart i j update.amountIn now
  | .crypto _ | .composable _ | .syncSwap _ => .ok 0

/-- What swaps of a pool need to be booked as they are quoted: fees that are parts of the whole, or
one reserve for each token where a quote does not check that the token sold has one, as it has in
every pool that can be reached. A crypto pool has no ramp and positive prices and precisions. -/
def Bookable (pool : Pool) : Prop :=
  match pool with
  | .plain pool => pool.holdings.FeesBounded
  | .lending pool => pool.holdings.FeesBounded
  | .saddle pool => pool.holdings.FeesBounded
  | .metapool pool => pool.holdings.FeesBounded
  | .crypto pool => pool.reserves.length = pool.tokens.length ∧ pool.ramp.futureTime = 0 ∧
      (∀ precision ∈ pool.precisions, 0 < precision) ∧ ∀ price ∈ pool.priceScale, 0 < price
  | .composable pool => pool.reserves.length = pool.tokens.length
  | .syncSwap pool => pool.reserves.length = pool.tokens.length

/-- A pool that takes a swap it has quoted gains the quoted amount of the token sold, loses the
quoted amount of the token bought and the admin part of the fee, and nothing else. -/
theorem swaps_booked_as_quoted (pool next : Pool) (bookable : pool.Bookable) (order : Order)
    (quote : Quote) (now : Time) (i j : Nat) (different : order.tokenIn ≠ order.tokenOut)
    (sold : pool.tokenIndex? order.tokenIn = some i)
    (bought : pool.tokenIndex? order.tokenOut = some j)
    (quoted : pool.quote order now = .ok quote) (applied : pool.apply quote.update now = .ok next) :
    i ≠ j ∧ ∃ admin, pool.adminShare i j quote.update now = .ok admin ∧ 0 ≤ admin ∧
      Trades pool.reserves next.reserves i j order.amountIn (quote.amountOut + admin) := by
  have apart : i ≠ j := index_ne different sold bought
  refine ⟨apart, ?_⟩
  cases pool with
  | plain pool =>
      obtain ⟨_, taken, rfl⟩ := Priced.map_eq_ok.mp applied
      obtain ⟨unsigned, trades⟩ := PlainPool.books bookable sold bought quoted taken
      exact ⟨_, rfl, unsigned, trades⟩
  | lending pool =>
      obtain ⟨_, taken, rfl⟩ := Priced.map_eq_ok.mp applied
      obtain ⟨unsigned, trades⟩ := LendingPool.books bookable sold bought apart quoted taken
      exact ⟨_, rfl, unsigned, trades⟩
  | saddle pool =>
      obtain ⟨_, taken, rfl⟩ := Priced.map_eq_ok.mp applied
      obtain ⟨unsigned, trades⟩ := SaddlePool.books bookable sold bought quoted taken
      exact ⟨_, rfl, unsigned, trades⟩
  | metapool pool =>
      obtain ⟨_, taken, rfl⟩ := Priced.map_eq_ok.mp applied
      exact Metapool.books bookable sold bought quoted taken
  | crypto pool =>
      obtain ⟨_, taken, rfl⟩ := Priced.map_eq_ok.mp applied
      obtain ⟨aligned, settled, precisions, scale⟩ := bookable
      refine ⟨0, rfl, le_rfl, ?_⟩
      rw [add_zero]
      exact CryptoPool.books settled precisions scale aligned sold bought quoted taken
  | composable pool =>
      obtain ⟨_, taken, rfl⟩ := Priced.map_eq_ok.mp applied
      refine ⟨0, rfl, le_rfl, ?_⟩
      rw [add_zero]
      exact ComposablePool.books bookable sold bought quoted taken
  | syncSwap pool =>
      obtain ⟨_, taken, rfl⟩ := Priced.map_eq_ok.mp applied
      refine ⟨0, rfl, le_rfl, ?_⟩
      rw [add_zero]
      exact SyncSwapPool.books bookable.symm sold bought apart quoted taken

/-- Two coins of a metapool, where the admin part of the fee leaves as well, two coins of a crypto
pool, and a join of a composable pool. -/
theorem swaps_booked_in_samples :
    (∃ quote next,
      (metapool (Metapool.sampleMetapool Fixed.one)).quote ⟨⟨50⟩, 1000000000000000000000, ⟨101⟩⟩
        600 = .ok quote ∧
      quote.amountOut = 973348109496242929860 ∧
      (metapool (Metapool.sampleMetapool Fixed.one)).apply quote.update 600 = .ok next ∧
      Trades [5000000000000000000000000, 4000000000000000000000000] next.reserves 0 1
        1000000000000000000000 (973348109496242929860 + 194747520907611630)) ∧
    (∃ quote next,
      (crypto CryptoPool.samplePair).quote ⟨⟨1⟩, 10000000000000000000000, ⟨2⟩⟩ 600 = .ok quote ∧
      quote.amountOut = 6647544726980631404 ∧
      (crypto CryptoPool.samplePair).apply quote.update 600 = .ok next ∧
      Trades [3000000000000000000000000, 2000000000000000000000] next.reserves 0 1
        10000000000000000000000 6647544726980631404) ∧
    ∃ quote next,
      (composable ComposablePool.sampleComposable).quote ⟨⟨1⟩, 10000000000000000000, ⟨500⟩⟩ 600 =
        .ok quote ∧
      quote.amountOut = 9753289152400393790 ∧
      (composable ComposablePool.sampleComposable).apply quote.update 600 = .ok next ∧
      Trades [1100000000000000000000, 2596148429267413814265248164610048, 1000000000000000000000]
        next.reserves 0 1 10000000000000000000 9753289152400393790 := by
  refine ⟨?_, ?_, ?_⟩
  · let pool := metapool (Metapool.sampleMetapool Fixed.one)
    let order : Order := ⟨⟨50⟩, 1000000000000000000000, ⟨101⟩⟩
    obtain ⟨quote, quoted, rest⟩ := Priced.bind_eq_ok.mp (show
      (pool.quote order 600 >>= fun quote => (pool.apply quote.update 600).map fun _ =>
        (quote.amountOut, pool.adminShare 0 1 quote.update 600)) =
          .ok (973348109496242929860, .ok 194747520907611630)
      by decide +kernel)
    obtain ⟨next, applied, shown⟩ := Priced.map_eq_ok.mp rest
    obtain ⟨out, share⟩ := Prod.mk.inj shown
    obtain ⟨-, admin, taken, -, trades⟩ := swaps_booked_as_quoted pool next
      ⟨⟨by decide, by decide⟩, ⟨by decide, by decide⟩⟩ order quote 600 0 1 (by decide)
      (by decide) (by decide) quoted applied
    obtain rfl : admin = 194747520907611630 := Except.ok.inj (taken.symm.trans share)
    exact ⟨quote, next, quoted, out, applied, out ▸ trades⟩
  · let pool := crypto CryptoPool.samplePair
    let order : Order := ⟨⟨1⟩, 10000000000000000000000, ⟨2⟩⟩
    obtain ⟨quote, quoted, rest⟩ := Priced.bind_eq_ok.mp (show
      (pool.quote order 600 >>= fun quote => (pool.apply quote.update 600).map fun _ =>
        quote.amountOut) = .ok 6647544726980631404
      by decide +kernel)
    obtain ⟨next, applied, out⟩ := Priced.map_eq_ok.mp rest
    obtain ⟨-, admin, taken, -, trades⟩ := swaps_booked_as_quoted pool next
      ⟨rfl, rfl, by decide, by decide⟩ order quote 600 0 1 (by decide) (by decide) (by decide)
      quoted applied
    obtain rfl : 0 = admin := Except.ok.inj taken
    rw [out, add_zero] at trades
    exact ⟨quote, next, quoted, out, applied, trades⟩
  · let pool := composable ComposablePool.sampleComposable
    let order : Order := ⟨⟨1⟩, 10000000000000000000, ⟨500⟩⟩
    obtain ⟨quote, quoted, rest⟩ := Priced.bind_eq_ok.mp (show
      (pool.quote order 600 >>= fun quote => (pool.apply quote.update 600).map fun _ =>
        quote.amountOut) = .ok 9753289152400393790
      by decide +kernel)
    obtain ⟨next, applied, out⟩ := Priced.map_eq_ok.mp rest
    obtain ⟨-, admin, taken, -, trades⟩ := swaps_booked_as_quoted pool next rfl order
      quote 600 0 1 (by decide) (by decide) (by decide) quoted applied
    obtain rfl : 0 = admin := Except.ok.inj taken
    rw [out, add_zero] at trades
    exact ⟨quote, next, quoted, out, applied, trades⟩

end Pool
end Amm
