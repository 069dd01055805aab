/-!
Arithmetic on unbounded integers read against eighteen decimals: the integer `one` stands for 1.
Each rounding direction is a function of its own. A function named down rounds toward minus
infinity, a function named up toward plus infinity, for every sign of its operands.
-/

namespace Amm

def pow10 (exponent : Nat) : Int :=
  Int.ofNat (Nat.pow 10 exponent)

/-- Moves an amount from one number of decimals to another, rounding down where places are lost. -/
def rescale (amount : Int) (source target : Nat) : Int :=
  if source < target then amount * pow10 (target - source)
  else if source = target then amount
  else amount.fdiv (pow10 (source - target))

def absDiff (a b : Int) : Int :=
  if b < a then a - b else b - a

def withinOne (a b : Int) : Bool :=
  absDiff a b ≤ 1

def total (amounts : List Int) : Int :=
  amounts.foldl (· + ·) 0

namespace Fixed

/-- The only way a fixed-point operation can fail. -/
inductive Error where
  | divisionByZero
  deriving DecidableEq, Repr

def Error.message : Error → String
  | .divisionByZero => "division by zero"

/-- The integer that stands for 1. -/
def one : Int :=
  1000000000000000000

def mulDown (a b : Int) : Int :=
  (a * b).fdiv one

def mulUp (a b : Int) : Int :=
  if a * b = 0 then 0 else (a * b - 1).fdiv one + 1

/-- The quotient of two plain integers, rounded down. -/
def divDown (a b : Int) : Except Error Int :=
  if b = 0 then .error .divisionByZero else .ok (a.fdiv b)

/-- The quotient of two plain integers, rounded up. -/
def divUp (a b : Int) : Except Error Int :=
  if b = 0 then .error .divisionByZero
  else if a = 0 then .ok 0
  else .ok ((a - 1).fdiv b + 1)

/-- The quotient of two plain integers, rounded as asked. -/
def div (a b : Int) (roundUp : Bool) : Except Error Int :=
  if roundUp then divUp a b else divDown a b

/-- The quotient of two fixed-point numbers, rounded down. -/
def divDownFixed (a b : Int) : Except Error Int :=
  if b = 0 then .error .divisionByZero
  else if a = 0 then .ok 0
  else .ok ((a * one).fdiv b)

/-- The quotient of two fixed-point numbers, rounded up. -/
def divUpFixed (a b : Int) : Except Error Int :=
  if b = 0 then .error .divisionByZero
  else if a = 0 then .ok 0
  else .ok ((a * one - 1).fdiv b + 1)

def complement (x : Int) : Int :=
  if x < one then one - x else 0

end Fixed

end Amm
