import Amm.Text.Standing

/-!
Text between double quotes in which every character can be told: a quote and a backslash follow a
backslash, some controls have a letter, and a character that does not stand for itself is given by
its code point in lower case hexadecimal.
-/

namespace Amm
namespace Text

/-- The code point in hexadecimal, without leading zeros. -/
def codePoint (c : Char) : List Char :=
  Nat.toDigits 16 c.toNat

def escaped (c : Char) : List Char :=
  if c = '\x00' then ['\\', '0']
  else if c = '\t' then ['\\', 't']
  else if c = '\n' then ['\\', 'n']
  else if c = '\r' then ['\\', 'r']
  else if c = '"' || c = '\\' then ['\\', c]
  else if standsAlone c then [c]
  else ['\\', 'u', '\x7b'] ++ codePoint c ++ ['\x7d']

def quoted (text : String) : String :=
  String.ofList ('"' :: text.toList.flatMap escaped ++ ['"'])

end Text
end Amm
