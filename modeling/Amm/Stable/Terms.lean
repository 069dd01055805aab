import Amm.Json.Record
import Amm.Ramp
import Amm.Failure

/-!
The terms of a stable pool as a snapshot gives them: the ramp of the amplification, the fees, and
the multipliers that bring the tokens to eighteen decimals.
-/

namespace Amm
namespace Stable

structure Terms where
  amp : Ramp
  swapFee : Int
  adminFee : Int

namespace Terms

def names : List String :=
  ["initialA", "futureA", "initialATime", "futureATime", "swapFee", "adminFee"]

def ofRecord? (record : Json.Record) : Option Terms := do
  let initial ← record.required "initialA" Json.amount?
  let future ← record.required "futureA" Json.amount?
  let initialTime ← record.withDefault "initialATime" Json.time? 0
  let futureTime ← record.withDefault "futureATime" Json.time? 0
  let swapFee ← record.required "swapFee" Json.amount?
  let adminFee ← record.withDefault "adminFee" Json.amount? 0
  some ⟨⟨initial, future, initialTime, futureTime⟩, swapFee, adminFee⟩

def ofJson? (value : Json) : Option Terms :=
  (value.record? names).bind ofRecord?

/-- Reads terms among which stands one more amount, zero when it is left out. -/
def withAmount? (name : String) (value : Json) : Option (Terms × Int) := do
  let record ← value.openRecord? (names ++ [name])
  let terms ← ofRecord? record
  let amount ← record.withDefault name Json.amount? 0
  some (terms, amount)

end Terms

def ratesOf (multipliers : List Int) : List Int :=
  multipliers.map (· * Fixed.one)

def ratesFor (multipliers : List Int) (tokens : Nat) : Priced (List Int) :=
  if multipliers.length = tokens then .ok (ratesOf multipliers)
  else Priced.refuse .balancesMustMatchMultipliers

end Stable
end Amm
