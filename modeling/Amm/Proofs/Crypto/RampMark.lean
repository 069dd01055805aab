import Amm.Proofs.Crypto.Ramping
import Amm.Proofs.Crypto.Solvency

/-!
The future time of a ramp as operations leave it. An operation before the end of the ramp keeps it.
At or after the end an operation first marks the ramp as ended and then clears the mark, but a mark
is cleared only where the shares had a price before.
-/

namespace Amm

namespace Crypto
namespace AGammaRamp

def cleared (ramp : AGammaRamp) : AGammaRamp :=
  { ramp with futureTime := 0 }

/-- The ramp that a successful operation leaves to a pool whose shares have a price. -/
def passed (ramp : AGammaRamp) (now : Time) : AGammaRamp :=
  if now < ramp.futureTime then ramp else ramp.cleared

theorem cleared_of_settled {ramp : AGammaRamp} (settled : ramp.futureTime = 0) :
    ramp.cleared = ramp := by
  rw [cleared, ← settled]

theorem cleared_passed (ramp : AGammaRamp) (now : Time) :
    ramp.cleared.passed now = ramp.cleared := by
  unfold passed
  split <;> rfl

theorem passed_nonneg {ramp : AGammaRamp} (unsigned : 0 ≤ ramp.futureTime) (now : Time) :
    0 ≤ (ramp.passed now).futureTime := by
  unfold passed
  split
  · exact unsigned
  · exact le_rfl

theorem clearMark_markEnded (ramp : AGammaRamp) : ramp.markEnded.clearMark = ramp.cleared := rfl

theorem clearMark_of_ne {ramp : AGammaRamp} (unmarked : ramp.futureTime ≠ 1) :
    ramp.clearMark = ramp :=
  if_neg unmarked

theorem foldl_passed_cleared (ramp : AGammaRamp) (times : List Time) :
    times.foldl passed ramp.cleared = ramp.cleared := by
  induction times with
  | nil => rfl
  | cons now times ih => rw [List.foldl_cons, cleared_passed, ih]

/-- Of several times one at or after the end clears the ramp for all later ones. -/
theorem foldl_passed_of_ended {ramp : AGammaRamp} {times : List Time} {now : Time}
    (among : now ∈ times) (ended : ramp.futureTime ≤ now) :
    times.foldl passed ramp = ramp.cleared := by
  induction times with
  | nil => simp at among
  | cons first times ih =>
      rw [List.foldl_cons]
      rcases lt_or_ge first ramp.futureTime with pending | late
      · have kept : ramp.passed first = ramp := if_pos pending
        have later : now ∈ times := by
          rcases List.mem_cons.mp among with rfl | later
          · exact absurd pending ended.not_gt
          · exact later
        rw [kept, ih later]
      · have cleared : ramp.passed first = ramp.cleared := if_neg late.not_gt
        rw [cleared, foldl_passed_cleared]

theorem foldl_passed_of_settled {ramp : AGammaRamp} (settled : ramp.futureTime = 0)
    (times : List Time) : times.foldl passed ramp = ramp := by
  have stays := foldl_passed_cleared ramp times
  rwa [cleared_of_settled settled] at stays

end AGammaRamp
end Crypto

namespace CryptoPool

open Crypto

namespace Operation

variable {pool next : CryptoPool} {now : Time} {settlement : Settlement}

/-- Until it is booked an operation leaves the ramp as it was or marked as ended, and only one at or
after the end marks it. -/
theorem settle_ramp (operation : Operation) (settles : operation.settle pool now = .ok settlement) :
    (settlement.pool.ramp = pool.ramp ∧
      (now < pool.ramp.futureTime ∨ pool.ramp.futureTime ≤ 0)) ∨
    (settlement.pool.ramp = pool.ramp.markEnded ∧ pool.ramp.futureTime ≤ now) := by
  match operation with
  | .trade (.swap i j dx) =>
      simp only [settle, Trade.settle, settleExchange, Priced.bind_eq_ok, Except.ok.injEq] at settles
      obtain ⟨_, ⟨_, -, _, -, shape, -, _, -, _, -, ramped, computed, _, -, _, -, _, -, _, -, _, -, _, -, _,
        -, _, -, _, -, _, -, rfl⟩, rfl⟩ := settles
      unfold rampedFor at computed
      split at computed
      · simp only [Priced.bind_eq_ok, Except.ok.injEq] at computed
        obtain ⟨d, -, rfl⟩ := computed
        by_cases ended : pool.ramp.futureTime ≤ now
        · exact .inr ⟨if_pos ended, ended⟩
        · exact .inl ⟨if_neg ended, .inl (not_le.mp ended)⟩
      · rename_i settled
        obtain rfl := Except.ok.inj computed
        exact .inl ⟨rfl, .inr (by simpa [AGammaRamp.isRamping] using settled)⟩
  | .trade (.deposit amounts) =>
      simp only [settle, Trade.settle, settleDeposit, Priced.bind_eq_ok, Except.ok.injEq] at settles
      obtain ⟨_, -, deposit, -, _, -, rfl⟩ := settles
      by_cases ended : pool.ramp.futureTime ≤ now
      · by_cases ramping : 0 < pool.ramp.futureTime
        · exact .inr ⟨by simp [received, AGammaRamp.isRamping, ramping, ended], ended⟩
        · exact .inl ⟨by simp [received, AGammaRamp.isRamping, ramping], .inr (not_lt.mp ramping)⟩
      · exact .inl ⟨by simp [received, ended], .inl (not_le.mp ended)⟩
  | .withdraw shares coin =>
      simp only [settle, settleWithdrawal, Priced.bind_eq_ok, Except.ok.injEq] at settles
      obtain ⟨_, ⟨_, -, _, -, _, -, rfl⟩, rfl⟩ := settles
      by_cases ended : pool.ramp.futureTime ≤ now
      · exact .inr ⟨if_pos ended, ended⟩
      · exact .inl ⟨if_neg ended, .inl (not_le.mp ended)⟩

/-- The invariant that comes with an operation is positive. -/
theorem settle_known (operation : Operation) (settles : operation.settle pool now = .ok settlement) :
    ∀ d, settlement.knownD = some d → 0 < d := by
  intro d given
  match operation with
  | .trade (.swap i j dx) =>
      simp only [settle, Trade.settle, Priced.bind_eq_ok, Except.ok.injEq] at settles
      obtain ⟨_, exchanged, rfl⟩ := settles
      obtain ⟨_, _, _, -, -, -, -, -, -, unknown⟩ := settleExchange_moves exchanged
      simp [unknown] at given
  | .trade (.deposit amounts) =>
      simp only [settle, Trade.settle, settleDeposit, Priced.bind_eq_ok, Except.ok.injEq] at settles
      obtain ⟨_, -, deposit, computed, _, -, rfl⟩ := settles
      exact Option.some.inj given ▸ (Trade.depositFor_pos computed).1
  | .withdraw shares coin =>
      simp only [settle, settleWithdrawal, Priced.bind_eq_ok, Except.ok.injEq] at settles
      obtain ⟨_, ⟨_, -, withdrawal, computed, _, -, rfl⟩, rfl⟩ := settles
      simp only [singleWithdrawal, Priced.ite_bind, Priced.bind_eq_ok, Except.ok.injEq] at computed
      obtain ⟨_, -, _, -, shape, -, _, -, _, -, oldD, -, _, -, burnt, -, y, solved, _, -, _, -, _, -,
        rfl⟩ := computed
      exact Option.some.inj given ▸ (newtonY_pos solved).1

/-- A pool that holds something still does after an operation. -/
theorem perform_held (held : 0 < pool.d) (operation : Operation)
    (succeeds : operation.perform pool now = .ok next) : 0 < next.d := by
  obtain ⟨settlement, settles, books⟩ := perform_eq_ok held operation succeeds
  obtain ⟨seen, profit, observed, -, ends⟩ := Settlement.book_eq_ok books
  exact ends.d_pos (Settlement.observe_d_pos (operation.settle_known settles) observed)

/-- Booking clears a mark where the shares had a price. -/
theorem perform_ramp_eq_ok (held : 0 < pool.d) (operation : Operation)
    (succeeds : operation.perform pool now = .ok next) :
    ∃ settlement, operation.settle pool now = .ok settlement ∧
      next.ramp =
        if 0 < pool.virtualPrice then settlement.pool.ramp.clearMark else settlement.pool.ramp := by
  obtain ⟨settlement, settles, books⟩ := perform_eq_ok held operation succeeds
  obtain ⟨seen, profit, -, -, ends⟩ := Settlement.book_eq_ok books
  obtain ⟨reserves, supply, d, ramp, frame⟩ := operation.settle_frame settles
  have price : settlement.pool.virtualPrice = pool.virtualPrice := by rw [frame]
  refine ⟨settlement, settles, ?_⟩
  rw [ends.ramp_eq, ← price]
  rfl

theorem perform_ramp_pending (held : 0 < pool.d) (dated : 1 ≤ now)
    (pending : now < pool.ramp.futureTime) (operation : Operation)
    (succeeds : operation.perform pool now = .ok next) : next.ramp = pool.ramp := by
  obtain ⟨settlement, settles, booked⟩ := perform_ramp_eq_ok held operation succeeds
  rcases operation.settle_ramp settles with ⟨kept, -⟩ | ⟨-, ended⟩
  · have unmarked : pool.ramp.futureTime ≠ 1 := (dated.trans_lt pending).ne'
    rw [booked, kept, AGammaRamp.clearMark_of_ne unmarked, ite_self]
  · exact absurd pending (not_lt.mpr ended)

theorem perform_ramp (held : 0 < pool.d) (priced : 0 < pool.virtualPrice)
    (unsigned : 0 ≤ pool.ramp.futureTime) (dated : 1 ≤ now) (operation : Operation)
    (succeeds : operation.perform pool now = .ok next) : next.ramp = pool.ramp.passed now := by
  by_cases pending : now < pool.ramp.futureTime
  · rw [perform_ramp_pending held dated pending operation succeeds]
    exact (if_pos pending).symm
  · have ended : pool.ramp.passed now = pool.ramp.cleared := if_neg pending
    obtain ⟨settlement, settles, booked⟩ := perform_ramp_eq_ok held operation succeeds
    rw [booked, if_pos priced, ended]
    rcases operation.settle_ramp settles with ⟨kept, early | settled⟩ | ⟨marked, -⟩
    · exact absurd early pending
    · have settled : pool.ramp.futureTime = 0 := le_antisymm settled unsigned
      rw [kept, AGammaRamp.cleared_of_settled settled]
      exact AGammaRamp.clearMark_of_ne (by simp [settled])
    · rw [marked, AGammaRamp.clearMark_markEnded]

end Operation

/-- The times of the operations of a run that succeed. -/
def successes (pool : CryptoPool) : List (Operation × Time) → List Time
  | [] => []
  | (operation, now) :: operations =>
    match operation.perform pool now with
    | .ok next => now :: successes next operations
    | .error _ => successes pool operations

/-- Before every operation of a run the shares have a price on record. -/
def StaysPriced (pool : CryptoPool) : List (Operation × Time) → Prop
  | [] => True
  | (operation, now) :: operations =>
    0 < pool.virtualPrice ∧ StaysPriced (operation.after pool now) operations

section
variable {pool : CryptoPool} {operations : List (Operation × Time)}

theorem operate_ramp_pending (held : 0 < pool.d) (dated : ∀ step ∈ operations, 1 ≤ step.2)
    (pending : ∀ now ∈ successes pool operations, now < pool.ramp.futureTime) :
    (operate pool operations).ramp = pool.ramp := by
  induction operations generalizing pool with
  | nil => rfl
  | cons step operations ih =>
      obtain ⟨operation, now⟩ := step
      obtain ⟨first, rest⟩ := List.forall_mem_cons.mp dated
      cases result : operation.perform pool now with
      | error failure =>
          simp only [successes, result] at pending
          simpa only [operate, List.foldl_cons, Operation.after, result] using
            ih held rest pending
      | ok next =>
          simp only [successes, result, List.forall_mem_cons] at pending
          have kept := operation.perform_ramp_pending held first pending.1 result
          have later := ih (operation.perform_held held result) rest (by simpa [kept] using pending.2)
          simpa only [operate, List.foldl_cons, Operation.after, result, kept] using later

/-- Along a run of a pool whose shares keep a price the ramp passes the times of the operations that
succeed, one after another. -/
theorem operate_ramp (held : 0 < pool.d) (unsigned : 0 ≤ pool.ramp.futureTime)
    (dated : ∀ step ∈ operations, 1 ≤ step.2) (priced : StaysPriced pool operations) :
    (operate pool operations).ramp =
      (successes pool operations).foldl AGammaRamp.passed pool.ramp := by
  induction operations generalizing pool with
  | nil => rfl
  | cons step operations ih =>
      obtain ⟨operation, now⟩ := step
      obtain ⟨first, rest⟩ := List.forall_mem_cons.mp dated
      obtain ⟨price, staying⟩ := priced
      cases result : operation.perform pool now with
      | error failure =>
          simp only [Operation.after, result] at staying
          simpa only [operate, List.foldl_cons, Operation.after, successes, result] using
            ih held unsigned rest staying
      | ok next =>
          simp only [Operation.after, result] at staying
          have passed := operation.perform_ramp held price unsigned first result
          have unsigned' : 0 ≤ next.ramp.futureTime := by
            rw [passed]
            exact AGammaRamp.passed_nonneg unsigned now
          have later := ih (operation.perform_held held result) unsigned' rest staying
          simpa only [operate, List.foldl_cons, Operation.after, successes, result, passed] using later

end

/-- What operations do to the ramp of a pool that holds something. Each success before the end keeps
it. While the shares have a price, the first success at or after the end clears it, and it stays
cleared. -/
theorem ramp_kept_until_end_then_cleared (pool : CryptoPool) (held : 0 < pool.d)
    (unsigned : 0 ≤ pool.ramp.futureTime) :
    (∀ (operation : Operation) now next, 0 < pool.virtualPrice → 1 ≤ now →
      operation.perform pool now = .ok next →
      next.ramp =
        if now < pool.ramp.futureTime then pool.ramp else { pool.ramp with futureTime := 0 }) ∧
    ∀ operations : List (Operation × Time), (∀ step ∈ operations, 1 ≤ step.2) →
      ((∀ now ∈ successes pool operations, now < pool.ramp.futureTime) →
        (operate pool operations).ramp = pool.ramp) ∧
      (StaysPriced pool operations →
        ((∃ now ∈ successes pool operations, pool.ramp.futureTime ≤ now) →
          (operate pool operations).ramp = { pool.ramp with futureTime := 0 }) ∧
        (pool.ramp.futureTime = 0 → (operate pool operations).ramp = pool.ramp)) := by
  refine ⟨?_, ?_⟩
  · intro operation now next priced dated succeeds
    exact operation.perform_ramp held priced unsigned dated succeeds
  · intro operations dated
    refine ⟨operate_ramp_pending held dated, fun priced => ?_⟩
    have ran := operate_ramp held unsigned dated priced
    constructor
    · intro ⟨now, succeeded, ended⟩
      rw [ran, AGammaRamp.foldl_passed_of_ended succeeded ended]
      rfl
    · intro settled
      rw [ran, AGammaRamp.foldl_passed_of_settled settled]

/-- Two swaps, halfway through the ramp of a pair and at its end. -/
def rampingRun : List (Operation × Time) :=
  [(.trade (.swap 0 1 10000000000000000000000), 600),
    (.trade (.swap 0 1 10000000000000000000000), 1200)]

theorem rampingPair_cleared :
    0 < rampingPair.d ∧ 0 ≤ rampingPair.ramp.futureTime ∧
      (operate rampingPair (rampingRun.take 1)).ramp = rampingPair.ramp ∧
      StaysPriced rampingPair rampingRun ∧ successes rampingPair rampingRun = [600, 1200] ∧
      (operate rampingPair rampingRun).ramp = { rampingPair.ramp with futureTime := 0 } := by
  have held : 0 < rampingPair.d := by decide
  have unsigned : 0 ≤ rampingPair.ramp.futureTime := by decide
  have first : successes rampingPair (rampingRun.take 1) = [600] := by decide +kernel
  have both : successes rampingPair rampingRun = [600, 1200] := by decide +kernel
  have priced : StaysPriced rampingPair rampingRun := ⟨by decide, by decide +kernel, trivial⟩
  obtain ⟨-, runs⟩ := ramp_kept_until_end_then_cleared rampingPair held unsigned
  refine ⟨held, unsigned, ?_, priced, both, ?_⟩
  · apply (runs (rampingRun.take 1) (by decide)).1
    rw [first]
    intro now succeeded
    obtain rfl := List.mem_singleton.mp succeeded
    decide
  · refine ((runs rampingRun (by decide)).2 priced).1 ⟨1200, ?_, by decide⟩
    rw [both]
    decide

/-- The pair with so many shares that one of them is worth nothing. -/
def dilutedPair : CryptoPool :=
  { rampingPair with supply := 10 ^ 60 }

/-- The swap before the end of the ramp rounds the value of a share down to zero, and the swap at the
end does not clear its mark. -/
theorem worthless_shares_keep_mark :
    ¬ ∀ (pool : CryptoPool) (operations : List (Operation × Time)),
      0 < pool.virtualPrice → 0 < pool.d → 0 ≤ pool.ramp.futureTime →
      (∀ step ∈ operations, 1 ≤ step.2) → operations.Pairwise (fun step later => step.2 ≤ later.2) →
      (∃ now ∈ successes pool operations, pool.ramp.futureTime ≤ now) →
      (operate pool operations).ramp.futureTime = 0 := by
  intro clears
  have succeeds : successes dilutedPair rampingRun = [600, 1200] := by decide +kernel
  have marked : (operate dilutedPair rampingRun).ramp.futureTime = 1 := by decide +kernel
  have cleared := clears dilutedPair rampingRun (by decide) (by decide) (by decide) (by decide)
    (by simp [rampingRun]) ⟨1200, by simp [succeeds], by decide⟩
  rw [marked] at cleared
  exact absurd cleared (by decide)

end CryptoPool
end Amm
