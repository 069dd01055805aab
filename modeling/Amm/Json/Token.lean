import Amm.Json.Literal
import Amm.Text.Numeral

/-!
The tokens of JSON text. The text is scanned one character at a time; where it stops being JSON the
last token says so.
-/

namespace Amm
namespace Json

inductive Token where
  | openBracket
  | closeBracket
  | openBrace
  | closeBrace
  | comma
  | colon
  | null
  | bool (value : Bool)
  | integer (value : Int)
  | fraction (text : String)
  | string (value : String)
  /-- A string whose escapes spell no text. -/
  | illegible
  | malformed
  deriving DecidableEq, Repr

def numberToken (literal : Literal) (text : List Char) : Token :=
  let value := digitsValue literal.whole
  let isWhole := literal.places.isNone && literal.exponent.isNone
  if isWhole && !literal.negative && value < UInt64.size then .integer value
  else if isWhole && literal.negative && 0 < value && Int64.minValue.toInt ≤ -(value : Int) then
    .integer (-(value : Int))
  else .fraction (String.ofList text)

def wordToken (word : List Char) : Token :=
  if word = ['n', 'u', 'l', 'l'] then .null
  else if word = ['t', 'r', 'u', 'e'] then .bool true
  else if word = ['f', 'a', 'l', 's', 'e'] then .bool false
  else match Literal.parse? word with
    | some literal => numberToken literal word
    | none => .malformed

def isHighHalf (unit : Nat) : Bool :=
  0xd800 ≤ unit && unit < 0xdc00

def isLowHalf (unit : Nat) : Bool :=
  0xdc00 ≤ unit && unit < 0xe000

/-- A piece of a string: a character, or the number of a code unit of sixteen bits. -/
inductive Piece where
  | char (value : Char)
  | unit (value : Nat)

/-- The characters that pieces spell, in front of those that follow. The pieces are in reverse. The
two halves of a character outside the first plane count only next to each other. -/
def spell? (following : List Char) : List Piece → Option (List Char)
  | [] => some following
  | .char value :: before => spell? (value :: following) before
  | .unit value :: before =>
    if isHighHalf value then none
    else if isLowHalf value then
      match before with
      | .unit high :: before =>
        if isHighHalf high then
          let code := 0x10000 + (high - 0xd800) * 0x400 + (value - 0xdc00)
          spell? (Char.ofNat code :: following) before
        else none
      | _ => none
    else spell? (Char.ofNat value :: following) before

/-- The token of a string, from its pieces in reverse. -/
def stringToken (pieces : List Piece) : Token :=
  match spell? [] pieces with
  | some characters => .string (String.ofList characters)
  | none => .illegible

/-- Where the scan stands. The characters or pieces read so far are kept in reverse. -/
inductive Scan where
  | between
  | word (done : List Char)
  | text (done : List Piece)
  | escape (done : List Piece)
  | codeUnit (done : List Piece) (digits value : Nat)
  | broken

def isWordChar (c : Char) : Bool :=
  c.isAlphanum || c = '-' || c = '+' || c = '.'

def Scan.start (c : Char) : List Token × Scan :=
  if c = ' ' || c = '\t' || c = '\n' || c = '\r' then ([], .between)
  else if c = '[' then ([.openBracket], .between)
  else if c = ']' then ([.closeBracket], .between)
  else if c = '\x7b' then ([.openBrace], .between)
  else if c = '\x7d' then ([.closeBrace], .between)
  else if c = ',' then ([.comma], .between)
  else if c = ':' then ([.colon], .between)
  else if c = '"' then ([], .text [])
  else if isWordChar c then ([], .word [c])
  else ([.malformed], .broken)

def escapedChar? (c : Char) : Option Char :=
  if c = '"' || c = '\\' || c = '/' then some c
  else if c = 'b' then some '\x08'
  else if c = 'f' then some '\x0c'
  else if c = 'n' then some '\n'
  else if c = 'r' then some '\r'
  else if c = 't' then some '\t'
  else none

/-- The tokens that a character completes, and where the scan stands after it. -/
def Scan.step : Scan → Char → List Token × Scan
  | .between, c => Scan.start c
  | .word done, c =>
    if isWordChar c then ([], .word (c :: done))
    else
      let (tokens, next) := Scan.start c
      (wordToken done.reverse :: tokens, next)
  | .text done, c =>
    if c = '"' then ([stringToken done], .between)
    else if c = '\\' then ([], .escape done)
    else if c.toNat < 0x20 then ([.malformed], .broken)
    else ([], .text (.char c :: done))
  | .escape done, c =>
    if c = 'u' then ([], .codeUnit done 0 0)
    else match escapedChar? c with
      | some char => ([], .text (.char char :: done))
      | none => ([.malformed], .broken)
  | .codeUnit done digits value, c =>
    match Text.digit? 16 c with
    | none => ([.malformed], .broken)
    | some digit =>
      if digits = 3 then ([], .text (.unit (value * 16 + digit) :: done))
      else ([], .codeUnit done (digits + 1) (value * 16 + digit))
  | .broken, _ => ([], .broken)

def Scan.finish : Scan → List Token
  | .between => []
  | .word done => [wordToken done.reverse]
  | .broken => []
  | _ => [.malformed]

/-- Continues a scan; the tokens found so far are in reverse. -/
def tokensFrom (scan : Scan) (done : List Token) : List Char → List Token
  | [] => done.reverse ++ scan.finish
  | c :: rest =>
    let (tokens, next) := scan.step c
    tokensFrom next (tokens.reverse ++ done) rest

def tokens (text : List Char) : List Token :=
  tokensFrom .between [] text

end Json
end Amm
