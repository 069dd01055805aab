/-!
The command line of the quoting program.
-/

namespace Amm
namespace Quoting

structure Arguments where
  /-- The path of the configuration. -/
  config : String
  logFilter : String
  logJson : Bool
  /-- Applies every quote, whatever the configuration says. -/
  apply : Bool
  deriving DecidableEq, Repr

/-- Why there are no arguments. Help and version end the reading as well. -/
inductive ArgumentError where
  | missingRequired
  | unknownArgument
  | invalidValue
  | conflict
  | tooManyValues
  | displayHelp
  | displayVersion
  deriving DecidableEq, Repr

namespace Arguments

def defaultLogFilter : String :=
  "warn,quoter=info,pricing=info"

def display (arguments : Arguments) : String :=
  s!"config: {arguments.config}\nlog_filter: {arguments.logFilter}\n" ++
    s!"log_json: {arguments.logJson}\napply: {arguments.apply}\n"

/-- The options, each with a long name. The first two take a value. -/
inductive Opt where
  | config
  | logFilter
  | logJson
  | apply
  | help
  | version
  deriving DecidableEq, Repr

def Opt.ofName? (name : String) : Option Opt :=
  if name = "config" then some .config
  else if name = "log-filter" then some .logFilter
  else if name = "log-json" then some .logJson
  else if name = "apply" then some .apply
  else if name = "help" then some .help
  else if name = "version" then some .version
  else none

def Opt.takesValue (opt : Opt) : Bool :=
  opt = .config || opt = .logFilter

/-- What has been read so far. An option that waits for its value, or whose value has just been
read, is settled when the next option or the end is reached. -/
structure Reading where
  config : Option String
  logFilter : Option String
  logJson : Bool
  apply : Bool
  pending : Option (Opt × Option String)
  onlyValues : Bool

def Reading.start : Reading :=
  ⟨none, none, false, false, none, false⟩

/-- Stores a value. An option is given once, and the configuration has a name. -/
def Reading.store (reading : Reading) (opt : Opt) (value : String) :
    Except ArgumentError Reading :=
  match opt with
  | .config =>
    if reading.config.isSome then .error .conflict
    else if value.isEmpty then .error .invalidValue
    else .ok { reading with config := some value }
  | .logFilter =>
    if reading.logFilter.isSome then .error .conflict
    else .ok { reading with logFilter := some value }
  | _ => .ok reading

def Reading.settle (reading : Reading) : Except ArgumentError Reading :=
  match reading.pending with
  | none => .ok reading
  | some (_, none) => .error .invalidValue
  | some (opt, some value) => { reading with pending := none }.store opt value

/-- Takes in an option that has no value attached. -/
def Reading.takeOpt (reading : Reading) (opt : Opt) : Except ArgumentError Reading := do
  let reading ← reading.settle
  match opt with
  | .logJson => if reading.logJson then .error .conflict else .ok { reading with logJson := true }
  | .apply => if reading.apply then .error .conflict else .ok { reading with apply := true }
  | .help => .error .displayHelp
  | .version => .error .displayVersion
  | opt => .ok { reading with pending := some (opt, none) }

def Reading.takeLong (reading : Reading) (text : List Char) : Except ArgumentError Reading :=
  let name := String.ofList (text.takeWhile (· ≠ '='))
  match Opt.ofName? name, text.dropWhile (· ≠ '=') with
  | none, _ => .error .unknownArgument
  | some opt, [] => reading.takeOpt opt
  | some opt, _ :: value =>
    if opt.takesValue then do
      let reading ← reading.settle
      reading.store opt (String.ofList value)
    else .error .tooManyValues

/-- Takes in an argument that is no option: the value of the option before it, or one too many. -/
def Reading.takeValue (reading : Reading) (text : List Char) : Except ArgumentError Reading :=
  match reading.pending with
  | some (opt, none) =>
    if reading.onlyValues then .error .unknownArgument
    else .ok { reading with pending := some (opt, some (String.ofList text)) }
  | _ => .error .unknownArgument

/-- Takes in one argument. After two dashes alone there are no more options. -/
def Reading.take (reading : Reading) (argument : String) : Except ArgumentError Reading :=
  match argument.toList with
  | '-' :: '-' :: rest =>
    if reading.onlyValues then reading.takeValue argument.toList
    else if rest.isEmpty then .ok { reading with onlyValues := true }
    else reading.takeLong rest
  | '-' :: c :: _ =>
    if reading.onlyValues then reading.takeValue argument.toList
    else if c = 'h' then reading.takeOpt .help
    else if c = 'V' then reading.takeOpt .version
    else .error .unknownArgument
  | text => reading.takeValue text

def parse (arguments : List String) : Except ArgumentError Arguments := do
  let reading ← (arguments.drop 1).foldlM Reading.take Reading.start
  let reading ← reading.settle
  match reading.config with
  | none => .error .missingRequired
  | some config =>
    .ok ⟨config, reading.logFilter.getD defaultLogFilter, reading.logJson, reading.apply⟩

end Arguments
end Quoting
end Amm
