import Amm.Time

/-!
Scheduled linear moves of a pool parameter. Only the end points are kept; the value in force is
found for the time of each call.
-/

namespace Amm

/-- A parameter that moves from `initial` to `future` between two times. -/
structure Ramp where
  initial : Int
  future : Int
  initialTime : Time
  futureTime : Time
  deriving DecidableEq, Repr

namespace Ramp

/-- A parameter that does not move. -/
def constant (value : Int) : Ramp :=
  ⟨value, value, 0, 0⟩

/-- The value after `elapsed` of `window`. The distance covered so far is rounded down in both
directions. -/
def reached (ramp : Ramp) (window elapsed : Int) : Int :=
  if ramp.initial < ramp.future then
    ramp.initial + ((ramp.future - ramp.initial) * elapsed).fdiv window
  else
    ramp.initial - ((ramp.initial - ramp.future) * elapsed).fdiv window

/-- The value in force at a time. -/
def value (ramp : Ramp) (now : Time) : Priced Int :=
  if ramp.futureTime ≤ now then .ok ramp.future
  else do
    let window ← ramp.futureTime.since ramp.initialTime
    if window = 0 then .ok ramp.initial
    else do
      let elapsed ← now.since ramp.initialTime
      .ok (ramp.reached window elapsed)

def isActive (ramp : Ramp) (now : Time) : Bool :=
  now < ramp.futureTime && ramp.initial ≠ ramp.future

end Ramp
end Amm
