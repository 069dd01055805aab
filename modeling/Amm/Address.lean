import Amm.Text.Numeral

/-!
Pool and token addresses: twenty bytes, written as forty hexadecimal digits.
-/

namespace Amm

/-- The number that forty hexadecimal digits spell. -/
structure Address where
  value : Nat
  deriving DecidableEq, Repr, Inhabited

namespace Address

def width : Nat :=
  40

def zero : Address :=
  ⟨0⟩

/-- The number that digits spell, the first one being the most significant. -/
def ofDigits (digits : List Nat) : Nat :=
  digits.foldl (fun value digit => 16 * value + digit) 0

def isGap (c : Char) : Bool :=
  c = ' ' || c = '\t' || c = '\n' || c = '\r'

/-- Reads forty characters with or without a leading 0x. Two digits make a byte, whatever gaps there
are in between. A last digit without a partner is dropped, and zero bytes follow those spelled. -/
def parse? (text : String) : Option Address :=
  let body := match text.toList with
    | '0' :: 'x' :: rest => rest
    | all => all
  if body.length = width then
    ((body.filter fun c => !isGap c).mapM (Text.digit? 16)).map fun digits =>
      let paired := digits.take (digits.length / 2 * 2)
      ⟨ofDigits (paired ++ List.replicate (width - paired.length) 0)⟩
  else none

/-- The low digits of a number in lower case, most significant first. -/
def digits (value : Nat) : (count : Nat) → List Char
  | 0 => []
  | count + 1 => digits (value / 16) count ++ [Nat.digitChar (value % 16)]

/-- The written form: 0x and forty digits in lower case. -/
def toText (address : Address) : String :=
  String.ofList ('0' :: 'x' :: digits address.value width)

end Address

end Amm
