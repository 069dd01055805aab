import Amm.Crypto.Lanes
import Amm.Time

/-!
The ramp of the two shape parameters of a crypto pool, which are kept in one word: gamma in the
lowest lane and the amplification above it. The future time is also a flag. While it is not zero
the invariant is found anew for each trade; the value 1 marks a ramp that has ended and whose next
trade is still free of the loss check.
-/

namespace Amm
namespace Crypto

structure AGammaRamp where
  initial : Int
  future : Int
  initialTime : Time
  futureTime : Time
  deriving DecidableEq, Repr

/-- The shape of the invariant at one time. -/
structure Shape where
  ann : Int
  gamma : Int
  deriving DecidableEq, Repr

def Shape.ofWord (word : Int) : Shape :=
  ⟨word / Lanes.size, word % Lanes.size⟩

namespace AGammaRamp

/-- The point between two values after `elapsed` of `window`, rounded down. -/
def between (first last window elapsed : Int) : Priced Int :=
  Priced.quotient (first * (window - elapsed) + last * elapsed) window

def shape (ramp : AGammaRamp) (now : Time) : Priced Shape :=
  let last := Shape.ofWord ramp.future
  if now < ramp.futureTime then do
    let first := Shape.ofWord ramp.initial
    let window ← ramp.futureTime.since ramp.initialTime
    let elapsed ← now.since ramp.initialTime
    let ann ← between first.ann last.ann window elapsed
    let gamma ← between first.gamma last.gamma window elapsed
    .ok ⟨ann, gamma⟩
  else .ok last

def isRamping (ramp : AGammaRamp) : Bool :=
  0 < ramp.futureTime

def markEnded (ramp : AGammaRamp) : AGammaRamp :=
  { ramp with futureTime := 1 }

def clearMark (ramp : AGammaRamp) : AGammaRamp :=
  if ramp.futureTime = 1 then { ramp with futureTime := 0 } else ramp

end AGammaRamp
end Crypto
end Amm
