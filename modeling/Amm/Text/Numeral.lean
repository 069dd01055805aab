/-!
Integers in positional notation: one optional sign, a digit, then digits and underscores. An
underscore separates digits and adds nothing to the value.
-/

namespace Amm
namespace Text

/-- The value of a digit: 0 to 9, then letters of either case from 10 on. -/
def digitValue? (c : Char) : Option Nat :=
  if '0' ≤ c ∧ c ≤ '9' then some (c.toNat - 48)
  else if 'a' ≤ c ∧ c ≤ 'z' then some (c.toNat - 87)
  else if 'A' ≤ c ∧ c ≤ 'Z' then some (c.toNat - 55)
  else none

def digit? (radix : Nat) (c : Char) : Option Nat :=
  (digitValue? c).filter (· < radix)

def continueNumeral? (radix : Nat) : (value : Nat) → List Char → Option Nat
  | value, [] => some value
  | value, c :: rest =>
    if c = '_' then continueNumeral? radix value rest
    else match digit? radix c with
      | some digit => continueNumeral? radix (value * radix + digit) rest
      | none => none

/-- Reads a number without a sign. Its first character is a digit. -/
def natural? (radix : Nat) : List Char → Option Nat
  | [] => none
  | c :: rest => (digit? radix c).bind fun digit => continueNumeral? radix digit rest

/-- Reads a number with at most one sign. -/
def integer? (radix : Nat) : List Char → Option Int
  | [] => none
  | c :: rest =>
    if c = '-' then (natural? radix rest).map fun value => -(value : Int)
    else if c = '+' then (natural? radix rest).map fun value => (value : Int)
    else (natural? radix (c :: rest)).map fun value => (value : Int)

end Text
end Amm
