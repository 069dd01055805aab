import Amm.Failure
import Amm.Json.Record
import Amm.Kind

/-!
Descriptions of pools: address, kind, tokens and reserves, and two payloads whose form depends on
the kind. A payload is a JSON value or a string that holds JSON text.
-/

namespace Amm

structure Snapshot where
  address : Address
  kind : Kind
  tokens : List Address
  reserves : List Int
  extra : Json
  staticExtra : Json
  deriving Repr

namespace Snapshot

/-- A kind: its name, or an object that maps the name to null. -/
def kind? : Json → Option Kind
  | .string name => Kind.ofName? name
  | .object [(name, .null)] => Kind.ofName? name
  | _ => none

/-- A token: its address, or an object with the address. -/
def token? (value : Json) : Option Address :=
  match value with
  | .string _ => Json.address? value
  | _ => do
    let record ← value.keyedRecord? ["address"]
    record.required "address" Json.address?

/-- A value inside a snapshot that itself is `level` containers deep. -/
def keep? (level : Nat) (value : Json) : Option Json :=
  if value.fits (Json.nestingLimit - level) then some value.settled else none

/-- Reads a snapshot that is `level` containers deep, its own one included. -/
def ofJson? (level : Nat) (value : Json) : Option Snapshot := do
  let record ←
    value.record? ["address", "type", "tokens", "reserves", "extra", "staticExtra"]
  let address ← record.required "address" Json.address?
  let kind ← record.required "type" kind?
  let tokens ← record.required "tokens" fun tokens =>
    if tokens.fits (Json.nestingLimit - level) then Json.list? token? tokens else none
  let reserves ← record.required "reserves" (Json.list? Json.amount?)
  let extra ← record.withDefault "extra" (keep? level) .null
  let staticExtra ← record.withDefault "staticExtra" (keep? level) .null
  some ⟨address, kind, tokens, reserves, extra, staticExtra⟩

def parse? (text : String) : Option Snapshot :=
  (Json.parse? text).bind (ofJson? 1)

def parseList? (text : String) : Option (List Snapshot) :=
  (Json.parse? text).bind (Json.list? (ofJson? 2))

def amountsJson (amounts : List Int) : Json :=
  .array (amounts.map fun amount => .string (Text.writeAmount amount))

/-- Writes a snapshot. Payloads are written as they were found. -/
def toJson (snapshot : Snapshot) : Json :=
  .object [
    ("address", .string snapshot.address.toText),
    ("type", .string snapshot.kind.name),
    ("tokens", .array (snapshot.tokens.map fun token => .string token.toText)),
    ("reserves", amountsJson snapshot.reserves),
    ("extra", snapshot.extra),
    ("staticExtra", snapshot.staticExtra)]

/-- The reserves of the tokens. Further entries do not belong to a token. -/
def tokenReserves (snapshot : Snapshot) : Priced (List Int) :=
  if snapshot.tokens.length ≤ snapshot.reserves.length then
    .ok (snapshot.reserves.take snapshot.tokens.length)
  else
    Priced.refuse (.invalidSnapshot
      (.reserveCount snapshot.reserves.length snapshot.tokens.length))

def supply? (snapshot : Snapshot) : Option Int :=
  snapshot.reserves[snapshot.tokens.length]?

/-- The value of a payload. An absent payload is an object without members. -/
def payload? (payload : Json) : Option Json :=
  match payload with
  | .string text => Json.parse? text
  | .null => some (.object [])
  | value => some value

def decodeExtra {α : Type} (snapshot : Snapshot) (decode : Json → Option α) : Priced α :=
  Priced.ofOption ((payload? snapshot.extra).bind decode) (.invalidSnapshot .undecodableExtra)

/-- Decodes the payload that stays the same for the life of the pool. -/
def decodeStaticExtra {α : Type} (snapshot : Snapshot) (decode : Json → Option α) : Priced α :=
  Priced.ofOption ((payload? snapshot.staticExtra).bind decode)
    (.invalidSnapshot .undecodableStaticExtra)

end Snapshot
end Amm
