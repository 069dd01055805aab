import Amm.Json.Basic
import Amm.Json.Token

/-!
Reading JSON values from tokens. The containers that are still open are kept in a list, so the
depth of the text does not matter.
-/

namespace Amm
namespace Json

/-- An open container with what it holds so far, in reverse. -/
inductive Container where
  | items (done : List Json)
  | members (done : List (String × Json)) (name : String)
  /-- An object with a name that cannot be read. -/
  | nameless

/-- What may come next. -/
inductive Due where
  | value
  | valueOrEnd
  | name
  | nameOrEnd
  | colon
  | separator

def Token.scalar? : Token → Option Json
  | .null => some .null
  | .bool value => some (.bool value)
  | .integer value => some (.integer value)
  | .fraction text => some (.fraction text)
  | .string value => some (.string value)
  | .illegible => some .unreadable
  | _ => none

/-- Puts a finished value into the innermost container; none is open when the answer is none. -/
def settleInto (value : Json) : List Container → Option (List Container)
  | [] => none
  | .items done :: outer => some (.items (value :: done) :: outer)
  | .members done name :: outer => some (.members ((name, value) :: done) name :: outer)
  | .nameless :: outer => some (.nameless :: outer)

def close? : Token → List Container → Option (Json × List Container)
  | .closeBracket, .items done :: outer => some (.array done.reverse, outer)
  | .closeBrace, .members done _ :: outer => some (.object done.reverse, outer)
  | .closeBrace, .nameless :: outer => some (.unreadable, outer)
  | _, _ => none

/-- The state after a token: the outermost value, or what is due in which containers. -/
inductive Progress where
  | finished (value : Json)
  | unfinished (due : Due) (containers : List Container)

def finish (value : Json) (outer : List Container) : Progress :=
  match settleInto value outer with
  | none => .finished value
  | some outer => .unfinished .separator outer

/-- Begins a value: a container opens, or a scalar is complete at once. -/
def beginValue (containers : List Container) : Token → Option Progress
  | .openBracket => some (.unfinished .valueOrEnd (.items [] :: containers))
  | .openBrace => some (.unfinished .nameOrEnd (.members [] "" :: containers))
  | token => token.scalar?.map fun value => finish value containers

def beginMember : List Container → Token → Option Progress
  | .members done _ :: outer, .string name => some (.unfinished .colon (.members done name :: outer))
  | .members _ _ :: outer, .illegible => some (.unfinished .colon (.nameless :: outer))
  | .nameless :: outer, .string _ => some (.unfinished .colon (.nameless :: outer))
  | .nameless :: outer, .illegible => some (.unfinished .colon (.nameless :: outer))
  | _, _ => none

def afterComma : List Container → Progress
  | .items done :: outer => .unfinished .value (.items done :: outer)
  | containers => .unfinished .name containers

/-- Takes in one token; the answer is none where the token is out of place. -/
def advance (due : Due) (containers : List Container) (token : Token) : Option Progress :=
  match due with
  | .value => beginValue containers token
  | .name => beginMember containers token
  | .colon => if token = .colon then some (.unfinished .value containers) else none
  | .valueOrEnd =>
    match close? token containers with
    | some (value, outer) => some (finish value outer)
    | none => beginValue containers token
  | .nameOrEnd =>
    match close? token containers with
    | some (value, outer) => some (finish value outer)
    | none => beginMember containers token
  | .separator =>
    match close? token containers with
    | some (value, outer) => some (finish value outer)
    | none => if token = .comma then some (afterComma containers) else none

/-- Reads on to the end of the outermost value. The answer has the tokens that follow it. -/
def readFrom : Due → List Container → List Token → Option (Json × List Token)
  | _, _, [] => none
  | due, containers, token :: rest =>
    match advance due containers token with
    | none => none
    | some (.finished value) => some (value, rest)
    | some (.unfinished due containers) => readFrom due containers rest

/-- Reads the value that a text starts with, and the tokens after it. -/
def readValue (text : String) : Option (Json × List Token) :=
  readFrom .value [] (tokens text.toList)

def parse? (text : String) : Option Json :=
  match readValue text with
  | some (value, []) => some value
  | _ => none

end Json
end Amm
