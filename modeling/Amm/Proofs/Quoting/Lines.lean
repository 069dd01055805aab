import Amm.Proofs.Priced
import Amm.Quoting.Report

/-!
The lines that a quoting run writes. Requests are served one after another, each from the pools that
the requests before it have left. A pool that is not there and a swap that is refused have lines of
their own. A run that ends early has answered the requests before the one that it ends at, and that
one has no line: its quote aborts, or it is quoted and cannot be applied.
-/

namespace Amm
namespace Quoting

def Request.order (request : Request) : Order :=
  ⟨request.tokenIn, request.amountIn, request.tokenOut⟩

section
variable (apply : Bool) (now : Time)

/-- How a request is answered: the line, and the pools after it. -/
inductive Served (pools : Pools) (request : Request) : Line → Pools → Prop
  | unknown (absent : pools.lookup request.pool = none) :
      Served pools request ⟨request, .error unknownPool⟩ pools
  | refused (pool : Pool) (cause : PoolError) (found : pools.lookup request.pool = some pool)
      (answer : pool.quote request.order now = Priced.refuse cause) :
      Served pools request ⟨request, .error cause.message⟩ pools
  | quoted (pool : Pool) (quote : Quote) (found : pools.lookup request.pool = some pool)
      (answer : pool.quote request.order now = .ok quote) (reads : apply = false) :
      Served pools request ⟨request, .ok quote⟩ pools
  | applied (pool next : Pool) (quote : Quote) (found : pools.lookup request.pool = some pool)
      (answer : pool.quote request.order now = .ok quote) (books : apply = true)
      (booked : pool.apply quote.update now = .ok next) :
      Served pools request ⟨request, .ok quote⟩ (pools.put request.pool next)

/-- Why a request ends the run instead. -/
inductive Stopped (pools : Pools) (request : Request) : RunError → Prop
  | unquoted (pool : Pool) (fault : Fault) (found : pools.lookup request.pool = some pool)
      (answer : pool.quote request.order now = Priced.abort fault) :
      Stopped pools request (.aborted fault)
  | notApplied (pool : Pool) (quote : Quote) (cause : PoolError)
      (found : pools.lookup request.pool = some pool)
      (answer : pool.quote request.order now = .ok quote) (books : apply = true)
      (booking : pool.apply quote.update now = Priced.refuse cause) :
      Stopped pools request (.notApplied request.pool cause)
  | unapplied (pool : Pool) (quote : Quote) (fault : Fault)
      (found : pools.lookup request.pool = some pool)
      (answer : pool.quote request.order now = .ok quote) (books : apply = true)
      (booking : pool.apply quote.update now = Priced.abort fault) :
      Stopped pools request (.aborted fault)

/-- Requests answered in order, each from the pools that the one before it left. -/
inductive ServedAll : Pools → List Request → List Line → Pools → Prop
  | nil (pools : Pools) : ServedAll pools [] [] pools
  | cons {pools next left : Pools} {request : Request} {requests : List Request} {line : Line}
      {lines : List Line} (first : Served apply now pools request line next)
      (rest : ServedAll next requests lines left) :
      ServedAll pools (request :: requests) (line :: lines) left

variable {apply now} {pools left : Pools} {request : Request} {requests : List Request} {line : Line}

/-- Every request is answered or ends the run. -/
theorem served_or_stopped (apply : Bool) (now : Time) (pools : Pools) (request : Request) :
    (∃ line next, Served apply now pools request line next) ∨
      ∃ failure, Stopped apply now pools request failure := by
  cases found : pools.lookup request.pool with
  | none => exact .inl ⟨_, _, .unknown found⟩
  | some pool =>
      cases answer : pool.quote request.order now with
      | error failure =>
          cases failure with
          | refused cause => exact .inl ⟨_, _, .refused pool cause found answer⟩
          | aborted fault => exact .inr ⟨_, .unquoted pool fault found answer⟩
      | ok quote =>
          cases apply with
          | false => exact .inl ⟨_, _, .quoted pool quote found answer rfl⟩
          | true =>
              cases booking : pool.apply quote.update now with
              | ok next => exact .inl ⟨_, _, .applied pool next quote found answer rfl booking⟩
              | error failure =>
                  cases failure with
                  | refused cause =>
                      exact .inr ⟨_, .notApplied pool quote cause found answer rfl booking⟩
                  | aborted fault =>
                      exact .inr ⟨_, .unapplied pool quote fault found answer rfl booking⟩

theorem Served.serve_eq {next : Pools} (served : Served apply now pools request line next) :
    serve apply now pools request = .ok (line, next) := by
  cases served with
  | unknown absent => simp only [serve, absent]
  | refused pool cause found answer =>
      rw [Request.order] at answer
      simp only [serve, found, answer, Priced.refuse]
  | quoted pool quote found answer reads =>
      rw [Request.order] at answer
      simp only [serve, found, answer, reads, Bool.false_eq_true, if_false]
  | applied pool next quote found answer books booked =>
      rw [Request.order] at answer
      simp only [serve, found, answer, books, booked, if_true]

theorem Stopped.serve_eq {failure : RunError} (stopped : Stopped apply now pools request failure) :
    serve apply now pools request = .error failure := by
  cases stopped with
  | unquoted pool fault found answer =>
      rw [Request.order] at answer
      simp only [serve, found, answer, Priced.abort]
  | notApplied pool quote cause found answer books booking =>
      rw [Request.order] at answer
      simp only [serve, found, answer, books, booking, if_true, Priced.refuse]
  | unapplied pool quote fault found answer books booking =>
      rw [Request.order] at answer
      simp only [serve, found, answer, books, booking, if_true, Priced.abort]

theorem Served.line_request {next : Pools} (served : Served apply now pools request line next) :
    line.request = request := by
  cases served <;> rfl

theorem ServedAll.lines_requests {lines : List Line}
    (served : ServedAll apply now pools requests lines left) :
    lines.map Line.request = requests := by
  induction served with
  | nil => rfl
  | cons first rest ih => rw [List.map_cons, first.line_request, ih]

/-- A run over a list answers the requests up to the first one that ends it. -/
theorem serveAll_answers (apply : Bool) (now : Time) (pools : Pools) (requests : List Request) :
    ∃ answered others left, requests = answered ++ others ∧
      ServedAll apply now pools answered (serveAll apply now pools requests).lines left ∧
      ((others = [] ∧ (serveAll apply now pools requests).failure = none) ∨
        ∃ request later failure, others = request :: later ∧
          (serveAll apply now pools requests).failure = some failure ∧
          Stopped apply now left request failure) := by
  induction requests generalizing pools with
  | nil => exact ⟨[], [], pools, rfl, .nil pools, .inl ⟨rfl, rfl⟩⟩
  | cons request requests ih =>
      rcases served_or_stopped apply now pools request with
        ⟨line, next, served⟩ | ⟨failure, stopped⟩
      · obtain ⟨answered, others, left, rfl, rest, ends⟩ := ih next
        simp only [serveAll, served.serve_eq]
        exact ⟨request :: answered, others, left, rfl, .cons served rest, ends⟩
      · simp only [serveAll, stopped.serve_eq]
        exact ⟨[], request :: requests, pools, rfl, .nil pools,
          .inr ⟨request, requests, failure, rfl, rfl, stopped⟩⟩

end

theorem run_eq_serveAll {config : Config} {files : String → Option String} {now : Time}
    {snapshots : List Snapshot} (clock : Time)
    (readable : readSnapshots files config.snapshots = .ok snapshots)
    (dated : config.timestamp = some now) :
    run config files clock =
      serveAll config.apply now (Pools.ofList (Pool.ofSnapshots snapshots)) config.quotes := by
  simp only [run, readable, dated, Option.getD_some]

/-- What a run with readable snapshots and a fixed time writes: the lines of its first requests, each
answered from the pools that the ones before it left. Either these are all requests, or the next one
ended the run and has no line. -/
theorem run_answers_until_stopped (config : Config) (files : String → Option String)
    (clock now : Time) (snapshots : List Snapshot)
    (readable : readSnapshots files config.snapshots = .ok snapshots)
    (dated : config.timestamp = some now) :
    ∃ answered others left, config.quotes = answered ++ others ∧
      (run config files clock).lines.map Line.request = answered ∧
      ServedAll config.apply now (Pools.ofList (Pool.ofSnapshots snapshots)) answered
        (run config files clock).lines left ∧
      ((others = [] ∧ (run config files clock).failure = none) ∨
        ∃ request later failure, others = request :: later ∧
          (run config files clock).failure = some failure ∧
          Stopped config.apply now left request failure) := by
  obtain ⟨answered, others, left, split, served, ends⟩ := serveAll_answers config.apply now
    (Pools.ofList (Pool.ofSnapshots snapshots)) config.quotes
  rw [run_eq_serveAll clock readable dated]
  exact ⟨answered, others, left, split, served.lines_requests, served, ends⟩

/-- The quoted text of an address below 256. -/
def addressText (digits : String) : List Char :=
  "\"0x".toList ++ List.replicate 38 '0' ++ digits.toList ++ ['"']

/-- A pool of the tokens 1 and 2, and a metapool that holds its share token. -/
def sampleText : List Char :=
  List.flatten [
    "[\x7b\"address\":".toList, addressText "64", ",\"type\":\"curve-base\"".toList,
    ",\"tokens\":[".toList, addressText "01", [','], addressText "02", [']'],
    ",\"reserves\":[1000000,1000000,2000000]".toList,
    ",\"extra\":\x7b\"initialA\":200,\"futureA\":200,".toList, "\"swapFee\":4000000\x7d".toList,
    ",\"staticExtra\":\x7b\"lpToken\":".toList, addressText "65",
    ",\"precisionMultipliers\":[1,1]\x7d\x7d,".toList,
    "\x7b\"address\":".toList, addressText "c8", ",\"type\":\"curve-meta\"".toList,
    ",\"tokens\":[".toList, addressText "32", [','], addressText "65", [']'],
    ",\"reserves\":[1000000,1000000,2000000]".toList,
    ",\"extra\":\x7b\"initialA\":200,\"futureA\":200,".toList, "\"swapFee\":4000000\x7d".toList,
    ",\"staticExtra\":\x7b\"lpToken\":".toList, addressText "3c",
    ",\"basePool\":".toList, addressText "64",
    ",\"rateMultiplier\":1000000000000000000".toList, ",\"aPrecision\":1\x7d\x7d]".toList]

def sampleFiles (path : String) : Option String :=
  if path = "pools.json" then some (String.ofList sampleText) else none

def sampleConfig (quotes : List Request) : Config :=
  ⟨["pools.json"], some 1700000000, true, quotes⟩

def samplePlain : PlainPool where
  address := ⟨100⟩
  shareToken := ⟨101⟩
  tokens := [⟨1⟩, ⟨2⟩]
  rates := [Fixed.one, Fixed.one]
  holdings := ⟨[1000000, 1000000], 2000000, ⟨200, 200, 0, 0⟩, 1, 4000000, 0, true⟩

def sampleMetapool : Metapool where
  address := ⟨200⟩
  shareToken := ⟨60⟩
  tokens := [⟨50⟩, ⟨101⟩]
  rateMultiplier := Fixed.one
  holdings := ⟨[1000000, 1000000], 2000000, ⟨200, 200, 0, 0⟩, 1, 4000000, 0, false⟩
  base := .plain samplePlain

def samplePools : Pools :=
  [(⟨100⟩, .plain samplePlain), (⟨200⟩, .metapool sampleMetapool)]

theorem readSnapshots_single {files : String → Option String} {path text : String}
    {snapshots : List Snapshot} (found : files path = some text)
    (parsed : Snapshot.parseList? text = some snapshots) :
    readSnapshots files [path] = .ok snapshots := by
  simp only [readSnapshots, found, parsed, bind, Except.bind, List.append_nil]

theorem sampleFiles_read : ∃ snapshots, readSnapshots sampleFiles ["pools.json"] = .ok snapshots ∧
    Pools.ofList (Pool.ofSnapshots snapshots) = samplePools := by
  have read : (Snapshot.parseList? (String.ofList sampleText)).map (fun snapshots =>
      Pools.ofList (Pool.ofSnapshots snapshots)) = some samplePools := by
    rw [Snapshot.parseList?, Json.parse?, Json.readValue, String.toList_ofList]
    decide +kernel
  obtain ⟨snapshots, parsed, built⟩ := Option.map_eq_some_iff.mp read
  exact ⟨snapshots, readSnapshots_single (if_pos rfl) parsed, built⟩

theorem run_sample (quotes : List Request) :
    run (sampleConfig quotes) sampleFiles 0 = serveAll true 1700000000 samplePools quotes := by
  obtain ⟨snapshots, readable, built⟩ := sampleFiles_read
  rw [← built]
  exact run_eq_serveAll 0 readable rfl

/-- A swap that the metapool quotes and cannot apply, and a swap of the base pool after it. -/
def unappliedRequests : List Request :=
  [⟨⟨200⟩, ⟨1⟩, ⟨2⟩, 1000⟩, ⟨⟨100⟩, ⟨1⟩, ⟨2⟩, 1000⟩]

/-- A pool that is not there, a token that is not there, and a swap that is applied, before these. -/
def sampleRequests : List Request :=
  [⟨⟨7⟩, ⟨1⟩, ⟨2⟩, 1000⟩, ⟨⟨200⟩, ⟨1⟩, ⟨9⟩, 1000⟩, ⟨⟨100⟩, ⟨1⟩, ⟨2⟩, 1000⟩] ++ unappliedRequests

theorem sample_run_answers_three :
    ∃ left, ServedAll true 1700000000 samplePools (sampleRequests.take 3)
        (run (sampleConfig sampleRequests) sampleFiles 0).lines left ∧
      (run (sampleConfig sampleRequests) sampleFiles 0).failure =
        some (.notApplied ⟨200⟩ .basePoolExchangeNotSupported) ∧
      Stopped true 1700000000 left ⟨⟨200⟩, ⟨1⟩, ⟨2⟩, 1000⟩
        (.notApplied ⟨200⟩ .basePoolExchangeNotSupported) := by
  obtain ⟨snapshots, readable, built⟩ := sampleFiles_read
  obtain ⟨answered, others, left, split, requests, served, ends⟩ := run_answers_until_stopped
    (sampleConfig sampleRequests) sampleFiles 0 1700000000 snapshots readable rfl
  have lines : (run (sampleConfig sampleRequests) sampleFiles 0).lines.map Line.request =
      sampleRequests.take 3 := by
    rw [run_sample]
    decide +kernel
  have failed : (run (sampleConfig sampleRequests) sampleFiles 0).failure =
      some (.notApplied ⟨200⟩ .basePoolExchangeNotSupported) := by
    rw [run_sample]
    decide +kernel
  obtain rfl : sampleRequests.take 3 = answered := lines.symm.trans requests
  obtain rfl : unappliedRequests = others := List.append_cancel_left split
  rw [built] at served
  rcases ends with ⟨none, -⟩ | ⟨request, later, failure, next, failure', stopped⟩
  · exact absurd none (by decide)
  · obtain ⟨rfl, -⟩ := List.cons.inj next
    obtain rfl := Option.some.inj (failed.symm.trans failure')
    exact ⟨left, served, failed, stopped⟩

/-- A swap between two tokens of the base pool is quoted by it and refused by the metapool, so neither
it nor the request after it has a line. -/
theorem unapplied_quote_ends_run :
    ¬ ∀ (config : Config) (files : String → Option String) (clock now : Time)
      (snapshots : List Snapshot), readSnapshots files config.snapshots = .ok snapshots →
      config.timestamp = some now →
      (run config files clock).lines.map Line.request = config.quotes := by
  intro answers
  obtain ⟨snapshots, readable, -⟩ := sampleFiles_read
  have answered := answers (sampleConfig unappliedRequests) sampleFiles 0 1700000000 snapshots
    readable rfl
  have silent : (run (sampleConfig unappliedRequests) sampleFiles 0).lines.length = 0 := by
    rw [run_sample]
    decide +kernel
  have spoken := congrArg List.length answered
  rw [List.length_map, silent] at spoken
  exact absurd spoken (by decide)

end Quoting
end Amm
