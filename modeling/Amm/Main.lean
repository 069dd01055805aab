import Amm.Quoting.Arguments
import Amm.Quoting.Report
import Std.Time.DateTime.Timestamp

/-!
The quoting program: reads the configuration that the command line names, quotes its swaps and
prints one line for each.
-/

namespace Amm

def readFile? (path : String) : IO (Option String) := do
  try
    let contents ← IO.FS.readFile path
    return some contents
  catch _ =>
    return none

def usage : String :=
  "Usage: quoter --config <CONFIG> [--log-filter <LOG_FILTER>] [--log-json] [--apply]"

/-- Runs a configuration and prints the lines. The answer is the exit code. -/
def quoteAll (config : Quoting.Config) : IO UInt32 := do
  let clock ← Std.Time.Timestamp.now
  let files ← config.snapshots.mapM fun path => do
    let contents ← readFile? path
    return (path, contents)
  let some now := config.timestamp <|> Time.ofInt? clock.toSecondsSinceUnixEpoch.val
    | IO.eprintln "timestamp out of range"
      return 1
  let report := Quoting.run config (fun path => (files.lookup path).join) now
  for line in report.lines do
    IO.println line.text
  match report.failure with
  | none => return 0
  | some failure =>
    IO.eprintln failure.message
    return 1

def start (arguments : Quoting.Arguments) : IO UInt32 := do
  let contents ← readFile? arguments.config
  match Quoting.Config.load arguments.config contents with
  | .error failure =>
    IO.eprintln failure.message
    return 1
  | .ok config => quoteAll { config with apply := config.apply || arguments.apply }

end Amm

def main (args : List String) : IO UInt32 := do
  match Amm.Quoting.Arguments.parse ("quoter" :: args) with
  | .ok arguments => Amm.start arguments
  | .error .displayHelp =>
    IO.println Amm.usage
    return 0
  | .error .displayVersion =>
    IO.println "quoter 0.1.0"
    return 0
  | .error _ =>
    IO.eprintln Amm.usage
    return 2
