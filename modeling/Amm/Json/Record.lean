import Amm.Json.Reader
import Amm.Text.Decimal
import Amm.Time

/-!
Records in JSON. A record is an object whose members are known by name, or an array that holds the
members in their order. Unknown members are passed over; a known one may not be repeated.
-/

namespace Amm
namespace Json

/-- The members of a record that are present. -/
structure Record where
  members : List (String × Json)
  /-- Written as an array: a member can only be left out at the end. -/
  positional : Bool

def Record.ofMembers? (names : List String) (members : List (String × Json)) : Option Record :=
  let known := members.filter fun member => names.contains member.1
  if (known.map Prod.fst).Nodup then some ⟨known, false⟩ else none

/-- A record with the given members in their order. -/
def record? (names : List String) : Json → Option Record
  | .array items => if items.length ≤ names.length then some ⟨names.zip items, true⟩ else none
  | .object members => Record.ofMembers? names members
  | _ => none

/-- A record that is written as an object only. -/
def keyedRecord? (names : List String) : Json → Option Record
  | .object members => Record.ofMembers? names members
  | _ => none

/-- A record whose object has no unknown members. Items of an array after the last member are passed
over. -/
def closedRecord? (names : List String) : Json → Option Record
  | .object members =>
    if members.all fun member => names.contains member.1 then Record.ofMembers? names members
    else none
  | .array items => some ⟨names.zip items, true⟩
  | _ => none

/-- How many containers may stand inside one another where a value is kept. -/
def nestingLimit : Nat :=
  127

/-- A record that is written as an object and shares it with others. All of the object is kept until
every record has taken its members, so all of it has to be fit to be kept. -/
def openRecord? (names : List String) (value : Json) : Option Record :=
  if value.fits nestingLimit then value.keyedRecord? names else none

namespace Record

def required {α : Type} (record : Record) (name : String) (decode : Json → Option α) : Option α :=
  (record.members.lookup name).bind decode

def withDefault {α : Type} (record : Record) (name : String) (decode : Json → Option α)
    (default : α) : Option α :=
  match record.members.lookup name with
  | some value => decode value
  | none => some default

end Record

/-- An amount: text, or an integer. -/
def amount? : Json → Option Int
  | .integer value => some value
  | .string text => (Text.readAmount text).toOption
  | _ => none

def integerIn? (least greatest : Int) : Json → Option Int
  | .integer value => if least ≤ value ∧ value ≤ greatest then some value else none
  | _ => none

def time? : Json → Option Time
  | .integer seconds => Time.ofInt? seconds
  | _ => none

def count? (limit : Int) (value : Json) : Option Nat :=
  (integerIn? 0 (limit - 1) value).map Int.toNat

def bool? : Json → Option Bool
  | .bool value => some value
  | _ => none

def string? : Json → Option String
  | .string value => some value
  | _ => none

def address? : Json → Option Address
  | .string text => Address.parse? text
  | _ => none

def list? {α : Type} (decode : Json → Option α) : Json → Option (List α)
  | .array items => items.mapM decode
  | _ => none

/-- A value that may be null. -/
def nullable? {α : Type} (decode : Json → Option α) : Json → Option (Option α)
  | .null => some none
  | value => (decode value).map some

/-- A table from names to values. The last entry of a name counts. -/
def table? {α : Type} (decode : Json → Option α) : Json → Option (List (String × α))
  | .object members =>
    (members.mapM fun member => (decode member.2).map (Prod.mk member.1)).map List.reverse
  | _ => none

end Json
end Amm
