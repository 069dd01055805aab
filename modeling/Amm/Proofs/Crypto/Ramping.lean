import Amm.Proofs.Crypto.Views

/-!
What a crypto pool quotes for a swap while a ramp is pending, against what the swap pays. A swap finds
the invariant anew for the shape of the moment and pays what the pool would quote at that invariant.
The quote takes the invariant of the last operation, whatever the shape was then.
-/

namespace Amm
namespace CryptoPool

open Crypto

/-- The pool at the invariant that its balances have for the shape of the moment. -/
def resolved (pool : CryptoPool) (now : Time) : Priced CryptoPool := do
  let shape ← pool.ramp.shape now
  let d ← newtonD shape (pool.scaled pool.reserves)
  .ok (pool.withInvariant d)

/-- The scaled balance of coin `j` that keeps the invariant of the pool once `dx` of coin `i` has come
in. -/
def keptBalance (pool : CryptoPool) (i j : Nat) (dx : Int) (now : Time) : Priced Int := do
  let shape ← pool.ramp.shape now
  newtonY shape (pool.scaled (pool.reserves.modify i (· + dx))) pool.d j

section
variable {pool next : CryptoPool} {i j : Nat} {dx dy d : Int} {now : Time}

/-- A quote depends on the invariant through the kept balance alone. -/
theorem quoteExchange_congr
    (same : pool.keptBalance i j dx now = (pool.withInvariant d).keptBalance i j dx now) :
    pool.quoteExchange i j dx now = (pool.withInvariant d).quoteExchange i j dx now := by
  cases shaped : pool.ramp.shape now with
  | error failure => simp only [quoteExchange, withInvariant_requirePair, withInvariant_ramp, shaped,
      Priced.error_bind]
  | ok shape =>
      have solved : newtonY shape (pool.scaled (pool.reserves.modify i (· + dx))) pool.d j =
          newtonY shape (pool.scaled (pool.reserves.modify i (· + dx))) d j := by
        simpa only [keptBalance, withInvariant_ramp, withInvariant_scaled, withInvariant_reserves,
          withInvariant_d, shaped, Priced.ok_bind] using same
      simp only [quoteExchange, withInvariant_requirePair, withInvariant_ramp, withInvariant_reserves,
        withInvariant_scaled, withInvariant_d, withInvariant_priceScale, withInvariant_precisions,
        withInvariant_layout, withInvariant_fee, shaped, Priced.ok_bind]
      unfold Priced.modify
      split
      · simp only [solved, Priced.ok_bind]
      · rfl

theorem resolved_of_rampedFor {shape : Shape} {ramped : CryptoPool}
    (pending : 0 < pool.ramp.futureTime) (shaped : pool.ramp.shape now = .ok shape)
    (computed : pool.rampedFor shape now = .ok ramped) :
    pool.resolved now = .ok (pool.withInvariant ramped.d) := by
  have ramping : pool.ramp.isRamping = true := by simpa [AGammaRamp.isRamping] using pending
  rw [rampedFor, if_pos ramping, Priced.bind_eq_ok] at computed
  obtain ⟨d, solved, same⟩ := computed
  obtain rfl := Except.ok.inj same
  simp only [resolved, shaped, solved, Priced.ok_bind]

theorem settleExchange_of_exchange (executed : pool.exchange i j dx now = .ok (dy, next)) :
    ∃ settlement, pool.settleExchange i j dx now = .ok (dy, settlement) := by
  simp only [exchange, Priced.bind_eq_ok, Except.ok.injEq, Prod.mk.injEq] at executed
  obtain ⟨⟨_, settlement⟩, settles, _, -, rfl, -⟩ := executed
  exact ⟨settlement, settles⟩

end

/-- While a ramp is pending a swap pays the quote of the pool at the invariant for the shape of the
moment, not the quote of the pool. The two agree whenever both invariants leave the same balance of
the coin bought, as they do when they are equal. -/
theorem swap_pays_resolved_quote (pool next : CryptoPool) (i j : Nat) (dx dy : Int) (now : Time)
    (pending : 0 < pool.ramp.futureTime) (divides : pool.DividesOnce)
    (executed : pool.exchange i j dx now = .ok (dy, next)) :
    ∃ resolved fee, pool.resolved now = .ok resolved ∧
      resolved.quoteExchange i j dx now = .ok (dy, fee) ∧
      (pool.keptBalance i j dx now = resolved.keptBalance i j dx now →
        pool.quoteExchange i j dx now = .ok (dy, fee)) := by
  obtain ⟨settlement, settles⟩ := settleExchange_of_exchange executed
  obtain ⟨shape, ramped, fee, shaped, computed, quoted⟩ := settleExchange_ramped divides settles
  refine ⟨_, fee, resolved_of_rampedFor pending shaped computed, quoted, fun same => ?_⟩
  rw [quoteExchange_congr same]
  exact quoted

/-- Two coins with the invariant of the first shape, halfway through a ramp that doubles the
amplification. -/
def rampingPair : CryptoPool :=
  { samplePair with
    reserves := [3300000000000000000000000, 1800000000000000000000]
    d := 5974229682356672394337328
    ramp := ⟨400000 * Lanes.size + 145000000000000, 800000 * Lanes.size + 145000000000000, 0, 1200⟩ }

theorem rampingPair_quoted : ∃ fee, rampingPair.quoteExchange 0 1 10000000000000000000000 600 =
    .ok (5857847738324481357, fee) := by
  obtain ⟨⟨_, fee⟩, quoted, rfl⟩ := Priced.map_eq_ok.mp (show
    (rampingPair.quoteExchange 0 1 10000000000000000000000 600).map Prod.fst =
      .ok 5857847738324481357
    by decide +kernel)
  exact ⟨fee, quoted⟩

theorem rampingPair_executed : ∃ next, rampingPair.exchange 0 1 10000000000000000000000 600 =
    .ok (5483969057687651340, next) := by
  obtain ⟨⟨_, next⟩, executed, rfl⟩ := Priced.map_eq_ok.mp (show
    (rampingPair.exchange 0 1 10000000000000000000000 600).map Prod.fst = .ok 5483969057687651340
    by decide +kernel)
  exact ⟨next, executed⟩

/-- The swap pays six hundredths less than the pool quotes. It is what the pool would quote at the
invariant for the shape of the moment. -/
theorem rampingPair_pays_resolved_quote :
    0 < rampingPair.ramp.futureTime ∧ rampingPair.DividesOnce ∧
      ∃ next resolved fee, rampingPair.exchange 0 1 10000000000000000000000 600 =
          .ok (5483969057687651340, next) ∧
        rampingPair.resolved 600 = .ok resolved ∧
        resolved.quoteExchange 0 1 10000000000000000000000 600 = .ok (5483969057687651340, fee) := by
  have divides : rampingPair.DividesOnce := fun _ => ⟨by decide, by decide⟩
  obtain ⟨next, executed⟩ := rampingPair_executed
  obtain ⟨resolved, fee, solved, quoted, -⟩ := swap_pays_resolved_quote rampingPair next 0 1 _ _ 600
    (by decide) divides executed
  exact ⟨by decide, divides, next, resolved, fee, executed, solved, quoted⟩

theorem ramping_swap_misses_quote :
    ¬ ∀ (pool next : CryptoPool) (i j : Nat) (dx out fee dy : Int) (now : Time),
      0 < pool.ramp.futureTime → (∀ precision ∈ pool.precisions, 0 < precision) →
      (∀ price ∈ pool.priceScale, 0 < price) →
      pool.quoteExchange i j dx now = .ok (out, fee) →
      pool.exchange i j dx now = .ok (dy, next) → dy = out := by
  intro agree
  obtain ⟨fee, quoted⟩ := rampingPair_quoted
  obtain ⟨next, executed⟩ := rampingPair_executed
  exact absurd (agree rampingPair next 0 1 _ _ fee _ 600 (by decide) (by decide) (by decide) quoted
    executed) (by decide)

end CryptoPool
end Amm
