import Amm.Failure

/-!
Times in seconds. They are kept in 64 bits, and so is the number of seconds between two of them: two
times can be so far apart that it is not defined.
-/

namespace Amm

/-- Seconds since the start of 1970. -/
abbrev Time :=
  Int64

namespace Time

/-- A number of seconds that 64 bits hold. -/
def InRange (seconds : Int) : Prop :=
  Int64.minValue.toInt ≤ seconds ∧ seconds ≤ Int64.maxValue.toInt

instance : DecidablePred InRange := fun _ =>
  inferInstanceAs (Decidable (_ ∧ _))

def ofInt? (seconds : Int) : Option Time :=
  if fits : InRange seconds then some (Int64.ofIntLE seconds fits.1 fits.2) else none

/-- The seconds from `start` to `now`. -/
def since (now start : Time) : Priced Int :=
  let seconds := now.toInt - start.toInt
  if InRange seconds then .ok seconds else Priced.abort .timeOverflow

end Time
end Amm
