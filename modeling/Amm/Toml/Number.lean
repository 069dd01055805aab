import Amm.Binary64
import Amm.Text.Numeral

/-!
Numbers as TOML writes them: integers of sixty-four bits in four radices, and floating-point
numbers, of which only form and range are checked.
-/

namespace Amm
namespace Toml

/-- Underscores stand between digits only. -/
def separatesDigits : List Char → Bool
  | [] => true
  | ['_'] => false
  | '_' :: '_' :: _ => false
  | _ :: rest => separatesDigits rest

/-- Reads a number in the given radix. Its digits do not begin with an underscore. -/
def digits? (radix : Nat) (text : List Char) : Option Nat :=
  if separatesDigits text then Text.natural? radix text else none

/-- Reads an integer without a sign. A decimal one has no zeros in front. -/
def unsigned? : List Char → Option Nat
  | ['0'] => some 0
  | '0' :: _ => none
  | text => digits? 10 text

def integer? (word : List Char) : Option Int := do
  let value : Int ← match word with
    | '0' :: 'x' :: rest => (digits? 16 rest).map Int.ofNat
    | '0' :: 'o' :: rest => (digits? 8 rest).map Int.ofNat
    | '0' :: 'b' :: rest => (digits? 2 rest).map Int.ofNat
    | '-' :: rest => (unsigned? rest).map fun value => -(value : Int)
    | '+' :: rest => (unsigned? rest).map Int.ofNat
    | rest => (unsigned? rest).map Int.ofNat
  if Int64.minValue.toInt ≤ value ∧ value ≤ Int64.maxValue.toInt then some value else none

def splitDigits (text : List Char) : List Char × List Char :=
  text.span fun c => c.isDigit || c = '_'

def exponent? : List Char → Option Int
  | [] => none
  | c :: rest =>
    if c = 'e' || c = 'E' then
      match rest with
      | '-' :: digits => (digits? 10 digits).map fun value => -(value : Int)
      | '+' :: digits => (digits? 10 digits).map Int.ofNat
      | digits => (digits? 10 digits).map Int.ofNat
    else none

/-- Reads a number without a sign that has places, an exponent or both: its digits, and the power of
ten that they count. -/
def scaled? (text : List Char) : Option (Nat × Int) := do
  let (wholeText, rest) := splitDigits text
  let whole ← unsigned? wholeText
  match rest with
  | '.' :: rest =>
    let (placesText, rest) := splitDigits rest
    let places ← digits? 10 placesText
    let count := (placesText.filter Char.isDigit).length
    let exponent ← if rest.isEmpty then some 0 else exponent? rest
    some (whole * Nat.pow 10 count + places, exponent - count)
  | rest => (exponent? rest).map fun exponent => (whole, exponent)

/-- Whether a word without a sign is a floating-point number, in range if it has to be, or stands for
infinity or for no number. -/
def isUnsignedFloat (bounded : Bool) (word : List Char) : Bool :=
  word = ['i', 'n', 'f'] || word = ['n', 'a', 'n'] ||
    (scaled? word).any fun (significand, power) =>
      !bounded || Binary64.holdsDecimal significand power

/-- Whether a word is a floating-point number. Only a negative number may be out of range. -/
def isFloat : List Char → Bool
  | '-' :: rest => isUnsignedFloat false rest
  | '+' :: rest => isUnsignedFloat true rest
  | word => isUnsignedFloat true word

end Toml
end Amm
