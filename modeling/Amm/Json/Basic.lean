import Amm.Json.Literal

/-!
JSON values. An object keeps its members in the order of the text, repeated names included, because
a reader may have to refuse them. A number without fraction and exponent that fits sixty-four bits
is an integer; of any other number only the text is kept. Of a value that may be passed over but
cannot be read only the place is kept.
-/

namespace Amm

inductive Json where
  | null
  | bool (value : Bool)
  | integer (value : Int)
  | fraction (text : String)
  | string (value : String)
  | array (items : List Json)
  | object (members : List (String × Json))
  /-- A string whose escapes spell no text, an object with such a name, or a value of another format
  that has no counterpart here. -/
  | unreadable
  deriving Repr, Inhabited

namespace Json

mutual

/-- Whether a value has at most `room` containers inside one another, all its numbers are in the
range of floating-point numbers, and all of it can be read. -/
def fits (room : Nat) : Json → Bool
  | .fraction text => isFiniteNumber text
  | .array items => 0 < room && itemsFit (room - 1) items
  | .object members => 0 < room && membersFit (room - 1) members
  | .unreadable => false
  | _ => true

def itemsFit (room : Nat) : List Json → Bool
  | [] => true
  | item :: rest => fits room item && itemsFit room rest

def membersFit (room : Nat) : List (String × Json) → Bool
  | [] => true
  | (_, value) :: rest => fits room value && membersFit room rest

end

/-- Puts a member in place of the one of the same name, or at the end. -/
def putMember (name : String) (value : Json) : List (String × Json) → List (String × Json)
  | [] => [(name, value)]
  | member :: rest =>
    if member.1 = name then (name, value) :: rest else member :: putMember name value rest

mutual

/-- The value in which each object keeps only the last member of a name. -/
def settled : Json → Json
  | .array items => .array (settledItems items)
  | .object members => .object (settledMembers [] members)
  | value => value

def settledItems : List Json → List Json
  | [] => []
  | item :: rest => settled item :: settledItems rest

def settledMembers (done : List (String × Json)) : List (String × Json) → List (String × Json)
  | [] => done
  | (name, value) :: rest => settledMembers (putMember name (settled value) done) rest

end

def member? (name : String) : Json → Option Json
  | .object members => members.lookup name
  | _ => none

end Json
end Amm
