/-!
Dates and times of day as TOML writes them: a date, a time, or a date and a time with an optional
distance from universal time. Only form and ranges are checked.
-/

namespace Amm
namespace Toml

/-- Reads a number of exactly `count` digits, whose digits before them have the given value. The
answer has the text that follows. -/
def fixedDigits? : (count : Nat) → (value : Nat) → List Char → Option (Nat × List Char)
  | 0, value, rest => some (value, rest)
  | _ + 1, _, [] => none
  | count + 1, value, c :: rest =>
    if c.isDigit then fixedDigits? count (value * 10 + (c.toNat - '0'.toNat)) rest else none

def pairWithin? (least greatest : Nat) (text : List Char) : Option (Nat × List Char) :=
  (fixedDigits? 2 0 text).filter fun read => least ≤ read.1 && read.1 ≤ greatest

def after? (mark : Char) : List Char → Option (List Char)
  | [] => none
  | c :: rest => if c = mark then some rest else none

def isLeapYear (year : Nat) : Bool :=
  year % 4 = 0 && (year % 100 ≠ 0 || year % 400 = 0)

def daysIn (year month : Nat) : Nat :=
  if month = 2 then (if isLeapYear year then 29 else 28)
  else if month = 4 || month = 6 || month = 9 || month = 11 then 30
  else 31

def afterDate? (text : List Char) : Option (List Char) := do
  let (year, text) ← fixedDigits? 4 0 text
  let text ← after? '-' text
  let (month, text) ← pairWithin? 1 12 text
  let text ← after? '-' text
  let (day, text) ← pairWithin? 1 31 text
  if day ≤ daysIn year month then some text else none

def afterClock? (text : List Char) : Option (List Char) := do
  let (_, text) ← pairWithin? 0 23 text
  let text ← after? ':' text
  let (_, text) ← pairWithin? 0 59 text
  some text

def afterFraction (text : List Char) : List Char :=
  match text with
  | '.' :: c :: rest => if c.isDigit then rest.dropWhile Char.isDigit else text
  | _ => text

/-- Passes over a time of day. There may be a second more than sixty at the end of a minute. -/
def afterTime? (text : List Char) : Option (List Char) := do
  let text ← afterClock? text
  let text ← after? ':' text
  let (_, text) ← pairWithin? 0 60 text
  some (afterFraction text)

def isOffset : List Char → Bool
  | [] => true
  | c :: rest =>
    if c = 'Z' || c = 'z' then rest.isEmpty
    else (c = '+' || c = '-') && afterClock? rest = some []

def isDate (text : List Char) : Bool :=
  afterDate? text = some []

/-- Whether a text is a date, a time, or both with a letter or a space between them. -/
def isMoment (text : List Char) : Bool :=
  match afterDate? text with
  | none => afterTime? text = some []
  | some [] => true
  | some (c :: rest) => (c = 'T' || c = 't' || c = ' ') && (afterTime? rest).any isOffset

end Toml
end Amm
