import Amm.Text.Numeral
import Amm.Toml.Calendar

/-!
The tokens of a TOML text. Comments leave no token. A carriage return counts only as the first half
of a line end. Where the text stops being TOML the last token says so.
-/

namespace Amm
namespace Toml

inductive Token where
  | blank
  | newline
  | openBracket
  | closeBracket
  | openBrace
  | closeBrace
  | comma
  | equals
  /-- Text in quotes; a key cannot be text that may span lines. -/
  | text (value : String) (spansLines : Bool)
  /-- A run of letters, digits, signs, underscores, points and colons. A date and a time with one
  space between them are one word. -/
  | word (letters : List Char)
  | malformed
  deriving DecidableEq, Repr

/-- Where the scan stands. The characters of a token are kept in reverse. -/
inductive Scan where
  | between
  | word (done : List Char)
  /-- After a date and a space. -/
  | date (done : List Char)
  | comment
  /-- After one or two quotes that may open long text. -/
  | opened (quote : Char) (count : Nat)
  | text (quote : Char) (done : List Char)
  | longStart (quote : Char)
  /-- In long text, after a number of quotes that may end it. -/
  | long (quote : Char) (done : List Char) (pending : Nat)
  | escape (isLong : Bool) (done : List Char)
  | code (isLong : Bool) (done : List Char) (due value : Nat)
  /-- After a backslash at the end of a line of long text. -/
  | gap (done : List Char) (passedLine : Bool)
  | broken

def isWordChar (c : Char) : Bool :=
  c.isAlphanum || c = '_' || c = '-' || c = '+' || c = '.' || c = ':'

/-- Characters that no text and no comment holds. -/
def isControl (c : Char) : Bool :=
  (c.toNat < 0x20 && c ≠ '\t') || c.toNat = 0x7f

def Scan.fail : List Token × Scan :=
  ([.malformed], .broken)

def Scan.start (c : Char) : List Token × Scan :=
  if c = ' ' || c = '\t' then ([.blank], .between)
  else if c = '\n' then ([.newline], .between)
  else if c = '#' then ([], .comment)
  else if c = '[' then ([.openBracket], .between)
  else if c = ']' then ([.closeBracket], .between)
  else if c = '\x7b' then ([.openBrace], .between)
  else if c = '\x7d' then ([.closeBrace], .between)
  else if c = ',' then ([.comma], .between)
  else if c = '=' then ([.equals], .between)
  else if c = '"' || c = '\'' then ([], .opened c 1)
  else if isWordChar c then ([], .word [c])
  else Scan.fail

def Scan.inText (quote : Char) (done : List Char) (c : Char) : List Token × Scan :=
  if c = quote then ([.text (String.ofList done.reverse) false], .between)
  else if c = '\\' && quote = '"' then ([], .escape false done)
  else if isControl c then Scan.fail
  else ([], .text quote (c :: done))

def Scan.inLong (quote : Char) (done : List Char) (c : Char) : List Token × Scan :=
  if c = '\\' && quote = '"' then ([], .escape true done)
  else if isControl c && c ≠ '\n' then Scan.fail
  else ([], .long quote (c :: done) 0)

/-- Goes back to the text around an escape. -/
def Scan.resume (isLong : Bool) (done : List Char) : Scan :=
  if isLong then .long '"' done 0 else .text '"' done

/-- The long text that ends with more quotes than it needs: those before the last three are its
own. -/
def longText (quote : Char) (done : List Char) (quotes : Nat) : Token :=
  .text (String.ofList (List.replicate (quotes - 3) quote ++ done).reverse) true

def escapedChar? (c : Char) : Option Char :=
  if c = '"' || c = '\\' then some c
  else if c = 'b' then some '\x08'
  else if c = 't' then some '\t'
  else if c = 'n' then some '\n'
  else if c = 'f' then some '\x0c'
  else if c = 'r' then some '\r'
  else none

/-- The tokens that a character completes, and where the scan stands after it. -/
def Scan.step : Scan → Char → List Token × Scan
  | .between, c => Scan.start c
  | .word done, c =>
    if isWordChar c then ([], .word (c :: done))
    else if c = ' ' && isDate done.reverse then ([], .date done)
    else
      let (tokens, next) := Scan.start c
      (.word done.reverse :: tokens, next)
  | .date done, c =>
    if c.isDigit then ([], .word (c :: ' ' :: done))
    else
      let (tokens, next) := Scan.start c
      (.word done.reverse :: .blank :: tokens, next)
  | .comment, c =>
    if c = '\n' then ([.newline], .between)
    else if isControl c then Scan.fail
    else ([], .comment)
  | .opened quote count, c =>
    if c = quote then (if count = 1 then ([], .opened quote 2) else ([], .longStart quote))
    else if count = 1 then Scan.inText quote [] c
    else
      let (tokens, next) := Scan.start c
      (.text "" false :: tokens, next)
  | .text quote done, c => Scan.inText quote done c
  | .longStart quote, c =>
    if c = '\n' then ([], .long quote [] 0)
    else if c = quote then ([], .long quote [] 1)
    else Scan.inLong quote [] c
  | .long quote done pending, c =>
    if c = quote then
      if pending = 4 then ([longText quote done 5], .between)
      else ([], .long quote done (pending + 1))
    else if 3 ≤ pending then
      let (tokens, next) := Scan.start c
      (longText quote done pending :: tokens, next)
    else Scan.inLong quote (List.replicate pending quote ++ done) c
  | .escape isLong done, c =>
    if c = 'u' then ([], .code isLong done 4 0)
    else if c = 'U' then ([], .code isLong done 8 0)
    else match escapedChar? c with
      | some char => ([], Scan.resume isLong (char :: done))
      | none =>
        if isLong && c = '\n' then ([], .gap done true)
        else if isLong && (c = ' ' || c = '\t') then ([], .gap done false)
        else Scan.fail
  | .code isLong done due value, c =>
    match Text.digit? 16 c with
    | none => Scan.fail
    | some digit =>
      let value := value * 16 + digit
      if due ≠ 1 then ([], .code isLong done (due - 1) value)
      else if value.isValidChar then ([], Scan.resume isLong (Char.ofNat value :: done))
      else Scan.fail
  | .gap done passedLine, c =>
    if c = '\n' then ([], .gap done true)
    else if c = ' ' || c = '\t' then ([], .gap done passedLine)
    else if !passedLine then Scan.fail
    else if c = '"' then ([], .long '"' done 1)
    else Scan.inLong '"' done c
  | .broken, _ => ([], .broken)

def Scan.finish : Scan → List Token
  | .between => []
  | .word done => [.word done.reverse]
  | .date done => [.word done.reverse, .blank]
  | .comment => []
  | .opened _ 2 => [.text "" false]
  | .long quote done pending => if 3 ≤ pending then [longText quote done pending] else [.malformed]
  | .broken => []
  | _ => [.malformed]

/-- The text with every carriage return dropped that stands before a line feed. -/
def plainLines : List Char → List Char
  | '\r' :: '\n' :: rest => '\n' :: plainLines rest
  | c :: rest => c :: plainLines rest
  | [] => []

/-- Continues a scan; the tokens found so far are in reverse. -/
def tokensFrom (scan : Scan) (done : List Token) : List Char → List Token
  | [] => done.reverse ++ scan.finish
  | c :: rest =>
    let (tokens, next) := scan.step c
    tokensFrom next (tokens.reverse ++ done) rest

/-- The tokens of a text, after a byte order mark if there is one. -/
def tokens (text : List Char) : List Token :=
  match text with
  | '\ufeff' :: rest => tokensFrom .between [] (plainLines rest)
  | text => tokensFrom .between [] (plainLines text)

end Toml
end Amm
