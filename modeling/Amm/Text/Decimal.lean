import Amm.Text.Blank
import Amm.Text.Numeral
import Amm.Text.Quoted

/-!
Amounts as text. An amount is a decimal integer, or a hexadecimal one after 0x, with white space
around it; it is written in decimal.
-/

namespace Amm
namespace Text

/-- Why a text is not an amount. -/
inductive AmountError where
  | empty
  | malformed (text : String)
  deriving DecidableEq, Repr

def AmountError.message : AmountError → String
  | .empty => "empty decimal string"
  | .malformed text => s!"failed to decode {quoted text} as an integer"

/-- The integer that a text without surrounding white space spells. -/
def amountDigits? : List Char → Option Int
  | '0' :: 'x' :: rest => integer? 16 rest
  | text => integer? 10 text

def readAmount (text : String) : Except AmountError Int :=
  let trimmed := trim text.toList
  if trimmed.isEmpty then .error .empty
  else match amountDigits? trimmed with
    | some value => .ok value
    | none => .error (.malformed text)

/-- Writes an amount: an optional minus sign and decimal digits. -/
def writeAmount (amount : Int) : String :=
  toString amount

end Text
end Amm
