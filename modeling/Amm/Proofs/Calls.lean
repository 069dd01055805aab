import Amm.Proofs.Booked
import Amm.Proofs.Stable.OffPeg

/-!
The calls of stable pools, one after another, and the faults that they can end in. A plain, lending or
saddle pool that a snapshot is built into never reads past the end of a list. It divides without a
check by its precision, by the rate of the token that it pays out and, in a lending pool, by the
divisor of the dynamic fee, and it counts seconds for its amplification; while these divisors are not
zero and the seconds are defined no call ends in a fault.
-/

namespace Amm

/-- What can be asked of a pool. -/
inductive Call where
  | quote (order : Order)
  | apply (update : Update)
  | deposit (amounts : List Int)
  | withdraw (shares : Int) (index : Nat)
  | virtualPrice

namespace Call

/-- The pool after a call. A quote and a price leave it as it is. -/
def perform (call : Call) (pool : Pool) (now : Time) : Priced Pool :=
  match call with
  | .quote order => (fun _ => pool) <$> pool.quote order now
  | .apply update => pool.apply update now
  | .deposit amounts => Prod.snd <$> pool.deposit amounts now
  | .withdraw shares index => Prod.snd <$> pool.withdraw shares index now
  | .virtualPrice => (fun _ => pool) <$> pool.virtualPrice now

/-- A pool after a call. One that fails leaves it as it was. -/
def after (call : Call) (pool : Pool) (now : Time) : Pool :=
  match call.perform pool now with
  | .ok next => next
  | .error _ => pool

/-- A call that gives a result or an error of the domain. -/
def Answers (call : Call) (pool : Pool) (now : Time) : Prop :=
  (∃ next, call.perform pool now = .ok next) ∨
    ∃ cause, call.perform pool now = Priced.refuse cause

theorem not_answers {call : Call} {pool : Pool} {now : Time} {fault : Fault}
    (aborts : call.perform pool now = Priced.abort fault) : ¬ call.Answers pool now := by
  rintro (⟨_, done⟩ | ⟨_, done⟩)
  · exact absurd (done.symm.trans aborts) (by simp [Priced.abort])
  · exact absurd (done.symm.trans aborts) (by simp [Priced.refuse, Priced.abort])

/-- The index of the token that a call pays out of the pool at a rate. A swap that is applied between
two tokens pays what was quoted before. -/
def paidOut (tokens : List Address) : Call → Option Nat
  | .quote order => tokens.idxOf? order.tokenOut
  | .apply update => if update.tokenIn ∈ tokens then none else tokens.idxOf? update.tokenOut
  | .withdraw _ index => some index
  | .deposit _ | .virtualPrice => none

/-- The token that a call pays out has the rate zero. -/
def PaysAtZero (call : Call) (tokens : List Address) (rates : List Int) : Prop :=
  ∃ index, call.paidOut tokens = some index ∧ rates[index]? = some 0

end Call

/-- A pool after calls at their times, one after another. -/
def callAll (pool : Pool) (calls : List (Call × Time)) : Pool :=
  calls.foldl (fun current (call, now) => call.after current now) pool

@[simp] theorem callAll_cons (pool : Pool) (call : Call) (now : Time) (calls : List (Call × Time)) :
    callAll pool ((call, now) :: calls) = callAll (call.after pool now) calls := rfl

/-- The pairs of balances that the dynamic fees of a call compare. -/
def LendingPool.compared (pool : LendingPool) (call : Call) (now : Time) :
    Priced (List (Int × Int)) :=
  match call with
  | .quote order => do
    let (i, j) ← pool.indices order.tokenIn order.tokenOut
    let pair ← pool.comparedInSwap i j order.amountIn now
    .ok [pair]
  | .deposit amounts => pool.comparedInDeposit amounts now
  | .apply _ | .withdraw _ _ | .virtualPrice => .ok []

/-- A call compares balances for which the dynamic fee divides by zero. -/
def LendingPool.FeeFails (pool : LendingPool) (call : Call) (now : Time) : Prop :=
  ∃ pairs first second, pool.compared call now = .ok pairs ∧ (first, second) ∈ pairs ∧
    FeeUndefined pool.offPegMultiplier first second

/-- The rates that bring the balances of a stable pool to one scale. -/
def Pool.rates : Pool → List Int
  | .plain pool => pool.rates
  | .lending pool => pool.rates
  | .saddle pool => pool.rates
  | .metapool _ | .crypto _ | .composable _ | .syncSwap _ => []

/-- The divisors of a call that are zero and that no one checks. -/
inductive ZeroDivisor (call : Call) (now : Time) : Pool → Prop
  | precision {pool : PlainPool} (zero : pool.holdings.precision = 0) :
      ZeroDivisor call now (.plain pool)
  | rate {pool : Pool} (zero : call.PaysAtZero pool.tokens pool.rates) : ZeroDivisor call now pool
  | dynamicFee {pool : LendingPool} (fails : pool.FeeFails call now) :
      ZeroDivisor call now (.lending pool)

/-- The amplification of a stable pool is not defined at a time. -/
def Pool.Overflows (now : Time) : Pool → Prop
  | .plain pool => pool.holdings.amp.Overflows now
  | .lending pool => pool.holdings.amp.Overflows now
  | .saddle pool => pool.holdings.amp.Overflows now
  | .metapool _ | .crypto _ | .composable _ | .syncSwap _ => False

/-- What a route says of the indices of its tokens. -/
theorem route_eq_ok {tokens : List Address} {shareToken tokenIn tokenOut : Address} {way : Route}
    (found : route tokens shareToken tokenIn tokenOut = .ok way) :
    match way with
    | .exchange i j => tokens.idxOf? tokenIn = some i ∧ tokens.idxOf? tokenOut = some j
    | .deposit i => tokens.idxOf? tokenIn = some i
    | .withdraw j => tokenIn ∉ tokens ∧ tokens.idxOf? tokenOut = some j := by
  cases sold : tokens.idxOf? tokenIn <;> cases bought : tokens.idxOf? tokenOut <;>
    simp only [route, sold, bought] at found
  case some.some => obtain rfl := Except.ok.inj found; exact ⟨rfl, rfl⟩
  case none.none => exact absurd found (Priced.refuse_ne_ok _ _)
  case some.none =>
    split at found
    · obtain rfl := Except.ok.inj found
      rfl
    · exact absurd found (Priced.refuse_ne_ok _ _)
  case none.some =>
    split at found
    · obtain rfl := Except.ok.inj found
      exact ⟨List.idxOf?_eq_none_iff.mp sold, rfl⟩
    · exact absurd found (Priced.refuse_ne_ok _ _)

section
variable {allowed : Fault → Prop} {now : Time}

namespace PlainPool

variable {pool : PlainPool} (time : pool.holdings.amp.Overflows now → allowed .timeOverflow)
  (precision : pool.holdings.precision = 0 → allowed .divisionByZero)
include time precision

theorem quote_abortsOnly {order : Order}
    (rate : (Call.quote order).PaysAtZero pool.tokens pool.rates → allowed .divisionByZero) :
    Priced.AbortsOnly allowed (pool.quote order now) := by
  refine .bind (route_abortsOnly _ _ _ _) fun way found => ?_
  have ends := route_eq_ok found
  cases way with
  | exchange i j =>
      have divides : pool.rates[j]? = some 0 → allowed .divisionByZero :=
        fun zero => rate ⟨j, ends.2, zero⟩
      exact .bind (Stable.Holdings.quote_abortsOnly time precision divides i _) fun _ _ =>
        order.quote_abortsOnly _ _ _ _ _ _ _ _
  | deposit i =>
      exact .bind (Stable.Holdings.sharesFor_abortsOnly time precision _ _ _) fun _ _ =>
        order.quote_abortsOnly _ _ _ _ _ _ _ _
  | withdraw j =>
      have divides : pool.rates[j]? = some 0 → allowed .divisionByZero :=
        fun zero => rate ⟨j, ends.2, zero⟩
      exact .bind (Stable.Holdings.withdrawalFor_abortsOnly time precision divides _)
        fun _ _ => order.quote_abortsOnly _ _ _ _ _ _ _ _

theorem deposit_abortsOnly (amounts : List Int) :
    Priced.AbortsOnly allowed (pool.deposit amounts now) :=
  .bind (Stable.Holdings.deposit_abortsOnly time precision amounts _) fun _ _ => .value _

theorem withdraw_abortsOnly {index : Nat} (shares : Int)
    (rate : pool.rates[index]? = some 0 → allowed .divisionByZero) :
    Priced.AbortsOnly allowed (pool.withdraw shares index now) :=
  .bind (Stable.Holdings.withdraw_abortsOnly time precision rate shares) fun _ _ => .value _

theorem apply_abortsOnly {update : Update}
    (rate : (Call.apply update).PaysAtZero pool.tokens pool.rates → allowed .divisionByZero) :
    Priced.AbortsOnly allowed (pool.apply update now) := by
  refine .bind (route_abortsOnly _ _ _ _) fun way found => ?_
  have ends := route_eq_ok found
  cases way with
  | exchange i j => exact .bind (Stable.Holdings.credit_abortsOnly _ _ _ _ _ _) fun _ _ => .value _
  | deposit i => exact .bind (deposit_abortsOnly time precision _) fun _ _ => .value _
  | withdraw j =>
      have paid : (Call.apply update).paidOut pool.tokens = some j :=
        (if_neg ends.1).trans ends.2
      exact .bind (withdraw_abortsOnly time precision _ fun zero => rate ⟨j, paid, zero⟩)
        fun _ _ => .value _

end PlainPool

namespace SaddlePool

variable {pool next : SaddlePool}

/-- A saddle pool as a snapshot gives it and operations leave it. -/
structure Shaped (pool : SaddlePool) : Prop where
  reserves : pool.holdings.reserves.length = pool.tokens.length
  precision : pool.holdings.precision = precision

theorem shaped_of_ofSnapshot {snapshot : Snapshot} (built : ofSnapshot snapshot = .ok pool)
    (aligned : (Pool.saddle pool).Aligned) : pool.Shaped := by
  simp only [ofSnapshot, Priced.bind_eq_ok, Except.ok.injEq] at built
  obtain ⟨_, -, _, -, _, -, _, -, rfl⟩ := built
  exact ⟨aligned, rfl⟩

namespace Shaped

variable (shaped : pool.Shaped)
include shaped

theorem of_continues (continues : pool.Continues next) : next.Shaped := by
  obtain ⟨_, ⟨_, _, rfl, count⟩, rfl⟩ := continues
  exact ⟨count.trans shaped.reserves, shaped.precision⟩

theorem precision_ne : pool.holdings.precision ≠ 0 := by
  rw [shaped.precision]
  decide

variable (time : pool.holdings.amp.Overflows now → allowed .timeOverflow)
include time

theorem withdrawalFor_abortsOnly {index : Nat} (shares : Int)
    (rate : pool.rates[index]? = some 0 → allowed .divisionByZero) :
    Priced.AbortsOnly allowed (pool.withdrawalFor shares index now) :=
  .bind (Stable.Holdings.withdrawalFor_abortsOnly time
    (fun zero => absurd zero shaped.precision_ne) rate shares) fun _ _ => .value _

theorem quote_abortsOnly {order : Order}
    (rate : (Call.quote order).PaysAtZero pool.tokens pool.rates → allowed .divisionByZero) :
    Priced.AbortsOnly allowed (pool.quote order now) := by
  have precision : pool.holdings.precision = 0 → allowed .divisionByZero :=
    fun zero => absurd zero shaped.precision_ne
  refine .bind (route_abortsOnly _ _ _ _) fun way found => ?_
  have ends := route_eq_ok found
  cases way with
  | exchange i j =>
      have divides : pool.rates[j]? = some 0 → allowed .divisionByZero :=
        fun zero => rate ⟨j, ends.2, zero⟩
      exact .bind (Stable.Holdings.quote_abortsOnly time precision divides i _) fun _ _ =>
        order.quote_abortsOnly _ _ _ _ _ _ _ _
  | deposit i =>
      refine .bind (.bind (Stable.Holdings.sharesFor_abortsOnly time precision _ _ _) fun _ _ => ?_)
        fun _ _ => order.quote_abortsOnly _ _ _ _ _ _ _ _
      exact .value _
  | withdraw j =>
      have divides : pool.rates[j]? = some 0 → allowed .divisionByZero :=
        fun zero => rate ⟨j, ends.2, zero⟩
      exact .bind (shaped.withdrawalFor_abortsOnly time _ divides) fun _ _ =>
        order.quote_abortsOnly _ _ _ _ _ _ _ _

theorem deposit_abortsOnly (amounts : List Int) :
    Priced.AbortsOnly allowed (pool.deposit amounts now) :=
  .bind (Stable.Holdings.deposit_abortsOnly time (fun zero => absurd zero shaped.precision_ne)
    amounts _) fun _ _ => .value _

theorem withdraw_abortsOnly {index : Nat} (shares : Int)
    (rate : pool.rates[index]? = some 0 → allowed .divisionByZero) :
    Priced.AbortsOnly allowed (pool.withdraw shares index now) := by
  refine .bind (shaped.withdrawalFor_abortsOnly time shares rate) fun withdrawal computed => ?_
  obtain ⟨_, computed, -⟩ := Priced.bind_eq_ok.mp computed
  exact .bind (.entry (Stable.Holdings.withdrawalFor_index computed)) fun _ _ =>
    .bind .require fun _ _ => .value _

theorem apply_abortsOnly {update : Update}
    (rate : (Call.apply update).PaysAtZero pool.tokens pool.rates → allowed .divisionByZero) :
    Priced.AbortsOnly allowed (pool.apply update now) := by
  refine .bind (route_abortsOnly _ _ _ _) fun way found => ?_
  have ends := route_eq_ok found
  cases way with
  | exchange i j =>
      have inside : j < pool.holdings.reserves.length := shaped.reserves ▸ index_lt ends.2
      exact .bind (Stable.Holdings.book_abortsOnly inside _ _ _) fun _ _ => .value _
  | deposit i => exact .bind (shaped.deposit_abortsOnly time _) fun _ _ => .value _
  | withdraw j =>
      have paid : (Call.apply update).paidOut pool.tokens = some j :=
        (if_neg ends.1).trans ends.2
      exact .bind (shaped.withdraw_abortsOnly time _ fun zero => rate ⟨j, paid, zero⟩)
        fun _ _ => .value _

end Shaped

end SaddlePool

namespace LendingPool

variable {pool next : LendingPool}

theorem indices_eq_ok {tokenIn tokenOut : Address} {i j : Nat}
    (found : pool.indices tokenIn tokenOut = .ok (i, j)) :
    pool.tokens.idxOf? tokenIn = some i ∧ pool.tokens.idxOf? tokenOut = some j := by
  unfold indices at found
  split at found
  · rename_i sold bought
    obtain ⟨rfl, rfl⟩ := Prod.mk.inj (Except.ok.inj found)
    exact ⟨sold, bought⟩
  · exact absurd found (Priced.refuse_ne_ok _ _)

theorem indices_abortsOnly (tokenIn tokenOut : Address) :
    Priced.AbortsOnly allowed (pool.indices tokenIn tokenOut) := by
  unfold indices
  split
  · exact .value _
  · exact .refuse _

/-- A lending pool as a snapshot gives it and operations leave it. -/
structure Shaped (pool : LendingPool) : Prop where
  reserves : pool.holdings.reserves.length = pool.tokens.length
  multipliers : pool.multipliers.length = pool.tokens.length
  rates : pool.rates = Stable.ratesOf pool.multipliers
  precision : pool.holdings.precision = precision

/-- The underlying tokens are as many as the tokens or take their place. -/
theorem shaped_of_ofSnapshot {snapshot : Snapshot} (built : ofSnapshot snapshot = .ok pool)
    (aligned : (Pool.lending pool).Aligned) : pool.Shaped := by
  simp only [ofSnapshot, Priced.bind_eq_ok, Except.ok.injEq] at built
  obtain ⟨_, -, static, -, _, -, rates, given, reserves, read, rfl⟩ := built
  simp only [Stable.ratesFor] at given
  split at given
  · rename_i count
    have aligned : reserves.length = _ := aligned
    exact ⟨aligned, count.trans ((Snapshot.tokenReserves_length read).symm.trans aligned),
      (Except.ok.inj given).symm, rfl⟩
  · exact absurd given (Priced.refuse_ne_ok _ _)

namespace Shaped

variable (shaped : pool.Shaped)
include shaped

theorem of_continues (continues : pool.Continues next) : next.Shaped := by
  obtain ⟨_, ⟨_, _, rfl, count⟩, rfl⟩ := continues
  exact ⟨count.trans shaped.reserves, shaped.multipliers, shaped.rates, shaped.precision⟩

theorem precision_ne : pool.holdings.precision ≠ 0 := by
  rw [shaped.precision]
  decide

theorem rate_zero {index : Nat} (zero : pool.multipliers[index]? = some 0) :
    pool.rates[index]? = some 0 := by
  rw [shaped.rates, Stable.ratesOf, List.getElem?_map, zero]
  rfl

theorem apply_abortsOnly (update : Update) : Priced.AbortsOnly allowed (pool.apply update) := by
  refine .bind (indices_abortsOnly _ _) fun (i, j) found => ?_
  have inside : j < pool.holdings.reserves.length :=
    shaped.reserves ▸ index_lt (indices_eq_ok found).2
  exact .bind .require fun _ _ =>
    .bind (Stable.Holdings.book_abortsOnly inside _ _ _) fun _ _ => .value _

variable (time : pool.holdings.amp.Overflows now → allowed .timeOverflow)
include time

theorem quote_abortsOnly {order : Order}
    (rate : (Call.quote order).PaysAtZero pool.tokens pool.rates → allowed .divisionByZero)
    (fee : pool.FeeFails (.quote order) now → allowed .divisionByZero) :
    Priced.AbortsOnly allowed (pool.quote order now) := by
  refine .bind (indices_abortsOnly _ _) fun (i, j) found => ?_
  refine .bind ?_ fun _ _ => order.quote_abortsOnly _ _ _ _ _ _ _ _
  refine quoteExchange_abortsOnly shaped.reserves shaped.multipliers time
    (fun zero => absurd zero shaped.precision_ne) (fun zero => ?_)
    fun first second compared undefined => ?_
  · exact rate ⟨j, (indices_eq_ok found).2, shaped.rate_zero zero⟩
  · refine fee ⟨[(first, second)], first, second, ?_, by simp, undefined⟩
    simp only [LendingPool.compared, found, compared, Priced.ok_bind]

theorem deposit_abortsOnly {amounts : List Int}
    (fee : pool.FeeFails (.deposit amounts) now → allowed .divisionByZero) :
    Priced.AbortsOnly allowed (pool.deposit amounts now) := by
  refine LendingPool.deposit_abortsOnly time (fun zero => absurd zero shaped.precision_ne) ?_
  intro pairs first second compared member undefined
  exact fee ⟨pairs, first, second, compared, member, undefined⟩

theorem withdraw_abortsOnly {index : Nat} (shares : Int)
    (rate : pool.rates[index]? = some 0 → allowed .divisionByZero) :
    Priced.AbortsOnly allowed (pool.withdraw shares index now) :=
  .bind (Stable.Holdings.withdraw_abortsOnly time (fun zero => absurd zero shaped.precision_ne) rate
    shares) fun _ _ => .value _

end Shaped

end LendingPool

end

namespace Pool

/-- The stable pools that price on their own reserves, each as a snapshot gives it and calls leave
it. A plain pool checks every index against its reserves. -/
inductive StableShape : Pool → Prop
  | plain {pool : PlainPool} : StableShape (.plain pool)
  | lending {pool : LendingPool} (shaped : pool.Shaped) : StableShape (.lending pool)
  | saddle {pool : SaddlePool} (shaped : pool.Shaped) : StableShape (.saddle pool)

/-- No divisor that the snapshot gives is zero, and a lending pool charges its flat fee only. -/
inductive Guarded : Pool → Prop
  | plain {pool : PlainPool} (precision : pool.holdings.precision ≠ 0) (rates : 0 ∉ pool.rates) :
      Guarded (.plain pool)
  | lending {pool : LendingPool} (rates : 0 ∉ pool.rates)
      (flat : pool.offPegMultiplier ≤ Stable.feeUnit) : Guarded (.lending pool)
  | saddle {pool : SaddlePool} (rates : 0 ∉ pool.rates) : Guarded (.saddle pool)

/-- A pool with other holdings on the same terms. -/
inductive Continues : Pool → Pool → Prop
  | plain {pool next : PlainPool} (moved : pool.Continues next) :
      Continues (.plain pool) (.plain next)
  | lending {pool next : LendingPool} (moved : pool.Continues next) :
      Continues (.lending pool) (.lending next)
  | saddle {pool next : SaddlePool} (moved : pool.Continues next) :
      Continues (.saddle pool) (.saddle next)

variable {pool next : Pool} {call : Call} {now : Time}

theorem StableShape.of_continues (shape : pool.StableShape) (continues : pool.Continues next) :
    next.StableShape := by
  cases continues with
  | plain moved => exact .plain
  | lending moved =>
      cases shape with
      | lending shaped => exact .lending (shaped.of_continues moved)
  | saddle moved =>
      cases shape with
      | saddle shaped => exact .saddle (shaped.of_continues moved)

theorem Guarded.of_continues (guarded : pool.Guarded) (continues : pool.Continues next) :
    next.Guarded := by
  cases continues with
  | plain moved =>
      obtain ⟨_, ⟨_, _, rfl, -⟩, rfl⟩ := moved
      cases guarded with
      | plain precision rates => exact .plain precision rates
  | lending moved =>
      obtain ⟨_, -, rfl⟩ := moved
      cases guarded with
      | lending rates flat => exact .lending rates flat
  | saddle moved =>
      obtain ⟨_, -, rfl⟩ := moved
      cases guarded with
      | saddle rates => exact .saddle rates

theorem Continues.overflows_iff (continues : pool.Continues next) :
    next.Overflows now ↔ pool.Overflows now := by
  cases continues with
  | plain moved | lending moved | saddle moved =>
      obtain ⟨_, ⟨_, _, rfl, -⟩, rfl⟩ := moved
      exact Iff.rfl

theorem Guarded.no_zeroDivisor (guarded : pool.Guarded) : ¬ ZeroDivisor call now pool := by
  intro divisor
  cases divisor with
  | precision zero =>
      cases guarded with
      | plain precision _ => exact precision zero
  | rate zero =>
      obtain ⟨index, -, zero⟩ := zero
      cases guarded with
      | plain _ rates | lending rates _ | saddle rates => exact rates (List.mem_of_getElem? zero)
  | dynamicFee fails =>
      obtain ⟨_, _, _, -, -, undefined⟩ := fails
      cases guarded with
      | lending _ flat => exact absurd undefined.rises (not_lt.mpr flat)

/-- A snapshot of one of the three kinds that is accepted gives a pool whose lists fit together. -/
theorem stableShape_of_ofSnapshot {bases : BasePools} {snapshot : Snapshot}
    (kind : snapshot.kind = .plain ∨ snapshot.kind = .lending ∨ snapshot.kind = .saddle)
    (accepted : ofSnapshot bases snapshot = .ok pool) : pool.StableShape := by
  have aligned := ofSnapshot_aligned accepted
  rcases kind with kind | kind | kind <;>
    simp only [ofSnapshot, kind] at accepted <;>
    obtain ⟨made, built, rfl⟩ := Priced.map_eq_ok.mp accepted
  case inl => exact .plain
  case inr.inl => exact .lending (LendingPool.shaped_of_ofSnapshot built aligned)
  case inr.inr => exact .saddle (SaddlePool.shaped_of_ofSnapshot built aligned)

/-- A fault that a call may end in: a division by a divisor that is zero, or seconds that are not
defined. -/
def Faulty (pool : Pool) (call : Call) (now : Time) (fault : Fault) : Prop :=
  fault = .divisionByZero ∧ ZeroDivisor call now pool ∨ fault = .timeOverflow ∧ pool.Overflows now

theorem StableShape.perform_abortsOnly (shape : pool.StableShape) (call : Call) (now : Time) :
    Priced.AbortsOnly (pool.Faulty call now) (call.perform pool now) := by
  have time : pool.Overflows now → pool.Faulty call now .timeOverflow := fun far => .inr ⟨rfl, far⟩
  have rate : call.PaysAtZero pool.tokens pool.rates → pool.Faulty call now .divisionByZero :=
    fun zero => .inl ⟨rfl, .rate zero⟩
  cases shape with
  | @plain pool =>
      have precision : pool.holdings.precision = 0 →
          Faulty (.plain pool) call now .divisionByZero :=
        fun zero => .inl ⟨rfl, .precision zero⟩
      cases call with
      | quote order => exact .map _ (PlainPool.quote_abortsOnly time precision rate)
      | apply update => exact .map _ (PlainPool.apply_abortsOnly time precision rate)
      | deposit amounts =>
          exact .map _ (.map _ (PlainPool.deposit_abortsOnly time precision amounts))
      | withdraw shares index =>
          exact .map _ (.map _ (PlainPool.withdraw_abortsOnly time precision shares fun zero =>
            rate ⟨index, rfl, zero⟩))
      | virtualPrice => exact .map _ (Stable.Holdings.virtualPrice_abortsOnly time precision _)
  | @lending pool shaped =>
      have fee : pool.FeeFails call now → Faulty (.lending pool) call now .divisionByZero :=
        fun fails => .inl ⟨rfl, .dynamicFee fails⟩
      cases call with
      | quote order => exact .map _ (shaped.quote_abortsOnly time rate fee)
      | apply update => exact .map _ (shaped.apply_abortsOnly update)
      | deposit amounts => exact .map _ (.map _ (shaped.deposit_abortsOnly time fee))
      | withdraw shares index =>
          exact .map _ (.map _ (shaped.withdraw_abortsOnly time shares fun zero =>
            rate ⟨index, rfl, zero⟩))
      | virtualPrice =>
          exact .map _ (Stable.Holdings.virtualPrice_abortsOnly time
            (fun zero => absurd zero shaped.precision_ne) _)
  | saddle shaped =>
      cases call with
      | quote order => exact .map _ (shaped.quote_abortsOnly time rate)
      | apply update => exact .map _ (shaped.apply_abortsOnly time rate)
      | deposit amounts => exact .map _ (.map _ (shaped.deposit_abortsOnly time amounts))
      | withdraw shares index =>
          exact .map _ (.map _ (shaped.withdraw_abortsOnly time shares fun zero =>
            rate ⟨index, rfl, zero⟩))
      | virtualPrice =>
          exact .map _ (Stable.Holdings.virtualPrice_abortsOnly time
            (fun zero => absurd zero shaped.precision_ne) _)

/-- A call that succeeds leaves other holdings on the same terms, or the pool itself. -/
theorem StableShape.perform_continues (shape : pool.StableShape)
    (done : call.perform pool now = .ok next) : next = pool ∨ pool.Continues next := by
  cases call with
  | quote order =>
      obtain ⟨_, -, rfl⟩ := Priced.map_eq_ok.mp done
      exact .inl rfl
  | virtualPrice =>
      obtain ⟨_, -, rfl⟩ := Priced.map_eq_ok.mp done
      exact .inl rfl
  | apply update =>
      right
      cases shape <;> obtain ⟨_, applied, rfl⟩ := Priced.map_eq_ok.mp done
      case plain => exact .plain (PlainPool.apply_continues applied)
      case lending => exact .lending (LendingPool.apply_continues applied)
      case saddle => exact .saddle (SaddlePool.apply_continues applied)
  | deposit amounts =>
      right
      obtain ⟨_, deposited, rfl⟩ := Priced.map_eq_ok.mp done
      cases shape <;> obtain ⟨_, added, rfl⟩ := Priced.map_eq_ok.mp deposited
      case plain => exact .plain (PlainPool.deposit_continues added)
      case lending shaped _ => exact .lending (LendingPool.deposit_continues shaped.reserves added)
      case saddle => exact .saddle (SaddlePool.deposit_continues added)
  | withdraw shares index =>
      right
      obtain ⟨_, withdrawn, rfl⟩ := Priced.map_eq_ok.mp done
      cases shape <;> obtain ⟨_, removed, rfl⟩ := Priced.map_eq_ok.mp withdrawn
      case plain => exact .plain (PlainPool.withdraw_continues removed)
      case lending => exact .lending (LendingPool.withdraw_continues removed)
      case saddle => exact .saddle (SaddlePool.withdraw_continues removed)

theorem StableShape.after (shape : pool.StableShape) (call : Call) (now : Time) :
    call.after pool now = pool ∨ pool.Continues (call.after pool now) := by
  unfold Call.after
  split
  · rename_i done
    exact shape.perform_continues done
  · exact .inl rfl

/-- Calls keep the shape of a pool, its divisors and its ramp. -/
theorem StableShape.of_callAll (shape : pool.StableShape) (calls : List (Call × Time)) :
    (callAll pool calls).StableShape ∧ (pool.Guarded → (callAll pool calls).Guarded) ∧
      ((callAll pool calls).Overflows now ↔ pool.Overflows now) := by
  induction calls generalizing pool with
  | nil => exact ⟨shape, id, Iff.rfl⟩
  | cons call calls ih =>
      obtain ⟨call, now⟩ := call
      rw [callAll_cons]
      rcases shape.after call now with same | continues
      · rw [same]
        exact ih shape
      · obtain ⟨shaped, guarded, overflows⟩ := ih (shape.of_continues continues)
        exact ⟨shaped, fun guards => guarded (guards.of_continues continues),
          overflows.trans continues.overflows_iff⟩

/-- A plain, lending or saddle pool that a snapshot is built into answers every call, whatever calls
came before, unless the call divides by a divisor that is zero and that no one checks, or comes at a
time for which the seconds of the ramp are not defined. While the divisors of the snapshot are not
zero and the fee is flat it answers all calls at all other times. -/
theorem stable_calls_answer_or_fault (bases : BasePools) (snapshot : Snapshot)
    (pool : Pool)
    (kind : snapshot.kind = .plain ∨ snapshot.kind = .lending ∨ snapshot.kind = .saddle)
    (accepted : ofSnapshot bases snapshot = .ok pool) (earlier : List (Call × Time)) (call : Call)
    (now : Time) :
    (call.Answers (callAll pool earlier) now ∨
      call.perform (callAll pool earlier) now = Priced.abort .divisionByZero ∧
        ZeroDivisor call now (callAll pool earlier) ∨
      call.perform (callAll pool earlier) now = Priced.abort .timeOverflow ∧ pool.Overflows now) ∧
    (pool.Guarded → ¬ pool.Overflows now → call.Answers (callAll pool earlier) now) := by
  obtain ⟨shape, keeps, overflows⟩ := (stableShape_of_ofSnapshot kind accepted).of_callAll earlier
  have outcome : call.Answers (callAll pool earlier) now ∨
      call.perform (callAll pool earlier) now = Priced.abort .divisionByZero ∧
        ZeroDivisor call now (callAll pool earlier) ∨
      call.perform (callAll pool earlier) now = Priced.abort .timeOverflow ∧
        pool.Overflows now := by
    rcases (shape.perform_abortsOnly call now).answers with done | refused | ⟨fault, aborts, faulty⟩
    · exact .inl (.inl done)
    · exact .inl (.inr refused)
    · rcases faulty with ⟨rfl, divisor⟩ | ⟨rfl, far⟩
      · exact .inr (.inl ⟨aborts, divisor⟩)
      · exact .inr (.inr ⟨aborts, overflows.mp far⟩)
  refine ⟨outcome, fun guarded near => outcome.resolve_right ?_⟩
  rintro (⟨-, divisor⟩ | ⟨-, far⟩)
  · exact (keeps guarded).no_zeroDivisor divisor
  · exact near far

/-- Two tokens, the second of which has the given multiplier, and a ramp between two times that stays
at one amplification. -/
def pairSnapshot (multiplier : Int) (start finish : Time) : Snapshot where
  address := ⟨100⟩
  kind := .plain
  tokens := [⟨1⟩, ⟨2⟩]
  reserves := [10 ^ 24, 10 ^ 12, 2 * 10 ^ 24]
  extra := .object [("initialA", .integer 200), ("futureA", .integer 200),
    ("initialATime", .integer start.toInt), ("futureATime", .integer finish.toInt),
    ("swapFee", .integer 4000000), ("adminFee", .integer 5000000000)]
  staticExtra := .object [("lpToken", .string "0x0000000000000000000000000000000000000065"),
    ("precisionMultipliers", .array [.integer 1, .integer multiplier])]

def pairOf (multiplier : Int) (start finish : Time) : PlainPool where
  address := ⟨100⟩
  shareToken := ⟨101⟩
  tokens := [⟨1⟩, ⟨2⟩]
  rates := [10 ^ 18, multiplier * 10 ^ 18]
  holdings := ⟨[10 ^ 24, 10 ^ 12], 2 * 10 ^ 24, ⟨200, 200, start, finish⟩, 1, 4000000, 5000000000,
    true⟩

def pairOrder : Order :=
  ⟨⟨1⟩, 10 ^ 18, ⟨2⟩⟩

theorem quote_divides_by_rate_zero :
    (Call.quote pairOrder).perform (.plain (pairOf 0 0 0)) 600 = Priced.abort .divisionByZero := by
  decide +kernel

theorem quote_counts_too_far :
    (Call.quote pairOrder).perform
      (.plain (pairOf (10 ^ 12) Int64.minValue Int64.maxValue)) 600 = Priced.abort .timeOverflow := by
  decide +kernel

/-- A pool answers after a deposit and a withdrawal; one whose second token has the multiplier zero
divides by the rate of it, and one with a ramp over all times does not find its amplification. -/
theorem pair_answers_unless_rate_zero :
    (Call.quote pairOrder).Answers (callAll (.plain (pairOf (10 ^ 12) 0 0))
      [(.deposit [10 ^ 20, 0], 600), (.withdraw (10 ^ 20) 1, 700)]) 800 ∧
    ZeroDivisor (.quote pairOrder) 600 (.plain (pairOf 0 0 0)) ∧
    Overflows 600 (.plain (pairOf (10 ^ 12) Int64.minValue Int64.maxValue)) := by
  refine ⟨?_, ?_, ?_⟩
  · refine (stable_calls_answer_or_fault [] (pairSnapshot (10 ^ 12) 0 0)
      (.plain (pairOf (10 ^ 12) 0 0)) (.inl rfl) (by decide +kernel) _ _ _).2 (.plain ?_ ?_) ?_
    · decide
    · decide
    · exact fun overflows => absurd overflows.1 (by decide)
  · rcases (stable_calls_answer_or_fault [] (pairSnapshot 0 0 0) (.plain (pairOf 0 0 0))
      (.inl rfl) (by decide +kernel) [] (.quote pairOrder) 600).1 with done | ⟨-, zero⟩ | ⟨far, -⟩
    · exact absurd done (Call.not_answers quote_divides_by_rate_zero)
    · exact zero
    · exact absurd (quote_divides_by_rate_zero.symm.trans far) (by decide)
  · rcases (stable_calls_answer_or_fault []
      (pairSnapshot (10 ^ 12) Int64.minValue Int64.maxValue)
      (.plain (pairOf (10 ^ 12) Int64.minValue Int64.maxValue)) (.inl rfl) (by decide +kernel) []
      (.quote pairOrder) 600).1 with done | ⟨zero, -⟩ | ⟨-, overflows⟩
    · exact absurd done (Call.not_answers quote_counts_too_far)
    · exact absurd (quote_counts_too_far.symm.trans zero) (by decide)
    · exact overflows

/-- The multiplier zero is accepted, and a quote for the token that has it is a division by zero. -/
theorem zero_multiplier_quote_aborts :
    ¬ ∀ (bases : BasePools) (snapshot : Snapshot) (pool : Pool),
      snapshot.kind = .plain ∨ snapshot.kind = .lending ∨ snapshot.kind = .saddle →
      ofSnapshot bases snapshot = .ok pool →
      ∀ (earlier : List (Call × Time)) (call : Call) (now : Time),
        call.Answers (callAll pool earlier) now := by
  intro answers
  exact Call.not_answers quote_divides_by_rate_zero
    (answers [] (pairSnapshot 0 0 0) (.plain (pairOf 0 0 0)) (.inl rfl) (by decide +kernel) []
      (.quote pairOrder) 600)

end Pool

end Amm
