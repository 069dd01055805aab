import Amm.Json.Printer
import Amm.Pool
import Amm.Quoting.Config

/-!
A quoting run: one line for each request, in the order of the requests. A swap that cannot be quoted
is reported in its line; a quote that cannot be applied ends the run.
-/

namespace Amm
namespace Quoting

/-- Why a run ended before its last request. -/
inductive RunError where
  | unreadable (path : String)
  | undecodable (path : String)
  | notApplied (pool : Address) (cause : PoolError)
  | aborted (fault : Fault)
  deriving DecidableEq, Repr

def RunError.message : RunError → String
  | .unreadable path => s!"reading snapshots {path}"
  | .undecodable path => s!"decoding snapshots {path}"
  | .notApplied pool _ => s!"applying swap to {pool.toText}"
  | .aborted _ => "aborted"

/-- The answer to one request: a quote, or the text that says why there is none. -/
structure Line where
  request : Request
  outcome : Except String Quote

namespace Line

/-- A text, or null. -/
def textJson : Option String → Json
  | some text => .string text
  | none => .null

def toJson (line : Line) : Json :=
  let quote := line.outcome.toOption
  .object [
    ("pool", .string line.request.pool.toText),
    ("tokenIn", .string line.request.tokenIn.toText),
    ("tokenOut", .string line.request.tokenOut.toText),
    ("amountIn", .string (Text.writeAmount line.request.amountIn)),
    ("amountOut", textJson (quote.map fun quote => Text.writeAmount quote.amountOut)),
    ("feeToken", textJson (quote.map fun quote => quote.feeToken.toText)),
    ("fee", textJson (quote.map fun quote => Text.writeAmount quote.fee)),
    ("gas", match quote with
      | some quote => .integer quote.gas
      | none => .null),
    ("error", match line.outcome with
      | .ok _ => .null
      | .error text => .string text)]

def text (line : Line) : String :=
  line.toJson.text

end Line

/-- The lines of a run, and what ended it early. -/
structure Report where
  lines : List Line
  failure : Option RunError

/-- Reads the snapshots of all files, in order. -/
def readSnapshots (files : String → Option String) : List String → Except RunError (List Snapshot)
  | [] => .ok []
  | path :: rest =>
    match files path with
    | none => .error (.unreadable path)
    | some text =>
      match Snapshot.parseList? text with
      | none => .error (.undecodable path)
      | some snapshots => do
        let others ← readSnapshots files rest
        .ok (snapshots ++ others)

/-- The pools of a run by address. -/
abbrev Pools :=
  List (Address × Pool)

/-- Puts a pool in the place of the one with its address, or at the end. -/
def Pools.put (pools : Pools) (address : Address) (pool : Pool) : Pools :=
  match pools with
  | [] => [(address, pool)]
  | entry :: rest =>
    if entry.1 = address then (address, pool) :: rest else entry :: Pools.put rest address pool

/-- The pools of a list. Of two pools with one address the later one counts. -/
def Pools.ofList (pools : List Pool) : Pools :=
  pools.foldl (fun table pool => table.put pool.address pool) []

/-- What is said of a request to a pool that is not there. -/
def unknownPool : String :=
  "unknown pool"

def serve (apply : Bool) (now : Time) (pools : Pools) (request : Request) :
    Except RunError (Line × Pools) :=
  match pools.lookup request.pool with
  | none => .ok (⟨request, .error unknownPool⟩, pools)
  | some pool =>
    match pool.quote ⟨request.tokenIn, request.amountIn, request.tokenOut⟩ now with
    | .error (.aborted fault) => .error (.aborted fault)
    | .error (.refused cause) => .ok (⟨request, .error cause.message⟩, pools)
    | .ok quote =>
      if apply then
        match pool.apply quote.update now with
        | .error (.aborted fault) => .error (.aborted fault)
        | .error (.refused cause) => .error (.notApplied request.pool cause)
        | .ok next => .ok (⟨request, .ok quote⟩, pools.put request.pool next)
      else .ok (⟨request, .ok quote⟩, pools)

def serveAll (apply : Bool) (now : Time) : Pools → List Request → Report
  | _, [] => ⟨[], none⟩
  | pools, request :: rest =>
    match serve apply now pools request with
    | .error failure => ⟨[], some failure⟩
    | .ok (line, next) =>
      let report := serveAll apply now next rest
      { report with lines := line :: report.lines }

/-- A whole run. `files` gives the contents of the snapshot files, `clock` the time of the run. -/
def run (config : Config) (files : String → Option String) (clock : Time) : Report :=
  match readSnapshots files config.snapshots with
  | .error failure => ⟨[], some failure⟩
  | .ok snapshots =>
    serveAll config.apply (config.timestamp.getD clock)
      (Pools.ofList (Pool.ofSnapshots snapshots)) config.quotes

end Quoting
end Amm
