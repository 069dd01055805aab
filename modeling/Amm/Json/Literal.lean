import Amm.Binary64

/-!
Numbers as JSON writes them.
-/

namespace Amm
namespace Json

/-- A number as it is written: sign, digits, decimal places and exponent. -/
structure Literal where
  negative : Bool
  whole : List Char
  places : Option (List Char)
  exponent : Option Int

def digitsValue (digits : List Char) : Nat :=
  digits.foldl (fun value c => value * 10 + (c.toNat - '0'.toNat)) 0

/-- Appends digits to a value while the result fits sixty-four bits: the value, and the digits that
are left. -/
def appendDigits (value : Nat) : List Char → Nat × List Char
  | [] => (value, [])
  | c :: rest =>
    let next := value * 10 + (c.toNat - '0'.toNat)
    if next < UInt64.size then appendDigits next rest else (value, c :: rest)

namespace Literal

/-- Reads an exponent: an optional sign and at least one digit. -/
def exponent? (text : List Char) : Option Int :=
  let (negative, digits) := match text with
    | '-' :: rest => (true, rest)
    | '+' :: rest => (false, rest)
    | rest => (false, rest)
  if digits.isEmpty || !digits.all Char.isDigit then none
  else some (if negative then -(digitsValue digits : Int) else digitsValue digits)

/-- Reads the whole of a text as a number. The digits start with a zero only if it is alone. -/
def parse? (text : List Char) : Option Literal :=
  let (negative, unsigned) := match text with
    | '-' :: rest => (true, rest)
    | rest => (false, rest)
  let whole := unsigned.takeWhile Char.isDigit
  let afterWhole := unsigned.dropWhile Char.isDigit
  let (places, afterPlaces) := match afterWhole with
    | '.' :: rest => (some (rest.takeWhile Char.isDigit), rest.dropWhile Char.isDigit)
    | rest => (none, rest)
  if whole.isEmpty || (whole.head? = some '0' && whole.length ≠ 1) || places = some [] then none
  else match afterPlaces with
    | [] => some ⟨negative, whole, places, none⟩
    | c :: rest =>
      if c = 'e' || c = 'E' then
        (exponent? rest).map fun exponent => ⟨negative, whole, places, some exponent⟩
      else none

/-- Whether the number is in the range of binary floating-point numbers of sixty-four bits. Its
digits count as far as they fit sixty-four bits, first those before the point and then those after
it; the places of the others only move the point. -/
def isFinite (literal : Literal) : Bool :=
  let places := literal.places.getD []
  let (whole, wholeRest) := appendDigits 0 literal.whole
  let (significand, placesRest) := appendDigits whole places
  let shift : Int := wholeRest.length - (places.length - placesRest.length : Nat)
  Binary64.holdsProduct significand (shift + literal.exponent.getD 0)

end Literal

/-- Whether a text is a number in the range of floating-point numbers. -/
def isFiniteNumber (text : String) : Bool :=
  match Literal.parse? text.toList with
  | some literal => literal.isFinite
  | none => false

end Json
end Amm
