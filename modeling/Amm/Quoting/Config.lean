import Amm.Json.Record
import Amm.Ramp
import Amm.Toml.Reader

/-!
What a quoting run is asked to do: the files with the snapshots, the time, whether quotes are
applied, and the swaps to quote.
-/

namespace Amm
namespace Quoting

/-- One swap to quote. -/
structure Request where
  pool : Address
  tokenIn : Address
  tokenOut : Address
  amountIn : Int
  deriving DecidableEq, Repr

structure Config where
  /-- The paths of the snapshot files. -/
  snapshots : List String
  /-- The time of the quotes; the time of the run if there is none. -/
  timestamp : Option Time
  apply : Bool
  quotes : List Request
  deriving DecidableEq, Repr

/-- Why a run has no configuration. -/
inductive ConfigError where
  | unreadable (path : String)
  | malformed (path : String)
  deriving DecidableEq, Repr

def ConfigError.message : ConfigError → String
  | .unreadable path => s!"reading config file {path}"
  | .malformed path => s!"parsing config file {path}"

def Request.ofJson? (value : Json) : Option Request := do
  let record ← value.closedRecord? ["pool", "token-in", "token-out", "amount-in"]
  let pool ← record.required "pool" Json.address?
  let tokenIn ← record.required "token-in" Json.address?
  let tokenOut ← record.required "token-out" Json.address?
  let amountIn ← record.required "amount-in" Json.amount?
  some ⟨pool, tokenIn, tokenOut, amountIn⟩

namespace Config

def ofJson? (value : Json) : Option Config := do
  let record ← value.closedRecord? ["snapshots", "timestamp", "apply", "quote"]
  let snapshots ← record.required "snapshots" (Json.list? Json.string?)
  let timestamp ← record.withDefault "timestamp" (fun value => (Json.time? value).map some) none
  let apply ← record.withDefault "apply" Json.bool? false
  let quotes ← record.withDefault "quote" (Json.list? Request.ofJson?) []
  some ⟨snapshots, timestamp, apply, quotes⟩

/-- The part of a path before its last name, without the slashes that end it. The directory of a
file at the root is the root. -/
def directory (path : String) : String :=
  let before := path.toList.reverse.dropWhile (· ≠ '/')
  let name := before.dropWhile (· = '/')
  if name.isEmpty && !before.isEmpty then "/" else String.ofList name.reverse

/-- A path as seen from a directory. An absolute path stays as it is. -/
def resolve (directory path : String) : String :=
  if path.startsWith "/" then path
  else if directory.isEmpty || directory.endsWith "/" then directory ++ path
  else directory ++ "/" ++ path

/-- Reads the configuration at a path from its contents. Snapshot files are found from its
directory. -/
def load (path : String) (contents : Option String) : Except ConfigError Config :=
  match contents with
  | none => .error (.unreadable path)
  | some text =>
    match (Toml.parse? text).bind ofJson? with
    | none => .error (.malformed path)
    | some config =>
      .ok { config with snapshots := config.snapshots.map (resolve (directory path)) }

end Config
end Quoting
end Amm
