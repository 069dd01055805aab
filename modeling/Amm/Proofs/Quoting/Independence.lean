import Amm.Proofs.Quoting.Lines

/-!
Pools of a quoting run do not interfere. A request reads and writes the entry of its own pool, and a
metapool has a base pool of its own, so the requests to one address are answered as if no others were
made. Without booking each request is answered from the pools as they were built.
-/

namespace Amm
namespace Quoting

namespace Pools

theorem lookup_put_self (pools : Pools) (address : Address) (pool : Pool) :
    (pools.put address pool).lookup address = some pool := by
  induction pools with
  | nil => simp [Pools.put]
  | cons entry rest ih =>
      obtain ⟨key, held⟩ := entry
      by_cases same : key = address
      · simp [Pools.put, same]
      · have passed : (address == key) = false := beq_eq_false_iff_ne.mpr (Ne.symm same)
        simp [Pools.put, same, List.lookup_cons, passed, ih]

theorem lookup_put_ne {address other : Address} (differs : other ≠ address) (pools : Pools)
    (pool : Pool) : (pools.put address pool).lookup other = pools.lookup other := by
  have passed : (other == address) = false := beq_eq_false_iff_ne.mpr differs
  induction pools with
  | nil => simp [Pools.put, List.lookup_cons, passed]
  | cons entry rest ih =>
      obtain ⟨key, held⟩ := entry
      by_cases same : key = address
      · simp [Pools.put, same, List.lookup_cons, passed]
      · simp [Pools.put, same, List.lookup_cons, ih]

end Pools

/-- The requests to one pool. -/
def requestsTo (address : Address) (requests : List Request) : List Request :=
  requests.filter fun request => request.pool = address

/-- The lines for one pool. -/
def linesFor (address : Address) (lines : List Line) : List Line :=
  lines.filter fun line => line.request.pool = address

/-- The line for a request that is answered from the pools as they are. -/
def lineOf (now : Time) (pools : Pools) (request : Request) : Line :=
  match serve false now pools request with
  | .ok (line, _) => line
  | .error failure => ⟨request, .error failure.message⟩

section
variable {apply : Bool} {now : Time} {pools pools' next left : Pools} {request : Request}
  {requests : List Request} {line : Line} {lines : List Line} {address : Address}

/-- A request leaves the other pools as they are. -/
theorem Served.elsewhere (served : Served apply now pools request line next)
    (other : request.pool ≠ address) : next.lookup address = pools.lookup address := by
  cases served with
  | unknown | refused | quoted => rfl
  | applied => exact Pools.lookup_put_ne other.symm _ _

/-- A request is answered in the same way wherever its own pool is the same, which stays the same. -/
theorem Served.transfer (served : Served apply now pools request line next)
    (same : pools'.lookup request.pool = pools.lookup request.pool) :
    ∃ next', Served apply now pools' request line next' ∧
      next'.lookup request.pool = next.lookup request.pool := by
  cases served with
  | unknown absent => exact ⟨pools', .unknown (same.trans absent), same⟩
  | refused pool cause found answer =>
      exact ⟨pools', .refused pool cause (same.trans found) answer, same⟩
  | quoted pool quote found answer reads =>
      exact ⟨pools', .quoted pool quote (same.trans found) answer reads, same⟩
  | applied pool next quote found answer books booked =>
      refine ⟨_, .applied pool next quote (same.trans found) answer books booked, ?_⟩
      rw [Pools.lookup_put_self, Pools.lookup_put_self]

theorem Served.unique {other : Line} {after : Pools} (served : Served apply now pools request line next)
    (again : Served apply now pools request other after) : line = other ∧ next = after :=
  Prod.mk.inj (Except.ok.inj (served.serve_eq.symm.trans again.serve_eq))

theorem ServedAll.unique {others : List Line} {after : Pools}
    (served : ServedAll apply now pools requests lines left)
    (again : ServedAll apply now pools requests others after) : lines = others ∧ left = after := by
  induction served generalizing others with
  | nil => cases again; exact ⟨rfl, rfl⟩
  | cons first rest ih =>
      cases again with
      | cons first' rest' =>
          obtain ⟨rfl, rfl⟩ := first.unique first'
          obtain ⟨rfl, rfl⟩ := ih rest'
          exact ⟨rfl, rfl⟩

/-- The requests to one pool get the same lines when they are the only ones. -/
theorem ServedAll.only (served : ServedAll apply now pools requests lines left) (address : Address)
    (same : pools'.lookup address = pools.lookup address) :
    ∃ left', ServedAll apply now pools' (requestsTo address requests) (linesFor address lines) left' ∧
      left'.lookup address = left.lookup address := by
  induction served generalizing pools' with
  | nil => exact ⟨pools', .nil pools', same⟩
  | @cons pools next left request requests line lines first rest ih =>
      by_cases here : request.pool = address
      · subst here
        obtain ⟨next', first', kept⟩ := first.transfer same
        obtain ⟨left', rest', ends⟩ := ih kept
        refine ⟨left', ?_, ends⟩
        simpa [requestsTo, linesFor, first.line_request] using ServedAll.cons first' rest'
      · -- The request and its line drop out, and the entry at the address is still the same.
        obtain ⟨left', rest', ends⟩ := ih (same.trans (first.elsewhere here).symm)
        refine ⟨left', ?_, ends⟩
        simpa [requestsTo, linesFor, first.line_request, here] using rest'

theorem ServedAll.serveAll_eq (served : ServedAll apply now pools requests lines left) :
    serveAll apply now pools requests = ⟨lines, none⟩ := by
  induction served with
  | nil => rfl
  | cons first rest ih => simp only [serveAll, first.serve_eq, ih]

/-- A run that nothing ended early has answered all its requests. -/
theorem served_of_succeeds (succeeds : (serveAll apply now pools requests).failure = none) :
    ∃ left, ServedAll apply now pools requests (serveAll apply now pools requests).lines left := by
  obtain ⟨answered, others, left, split, served, ends⟩ := serveAll_answers apply now pools requests
  rcases ends with ⟨rfl, -⟩ | ⟨_, _, failure, -, failed, -⟩
  · rw [List.append_nil] at split
    exact ⟨left, split ▸ served⟩
  · exact absurd (succeeds.symm.trans failed) (by simp)

/-- Without booking the pools stay as they are. -/
theorem Served.reads (served : Served false now pools request line next) :
    next = pools ∧ line = lineOf now pools request := by
  refine ⟨?_, by simp only [lineOf, served.serve_eq]⟩
  cases served with
  | unknown | refused | quoted => rfl
  | applied _ _ _ _ _ books => exact absurd books (by decide)

/-- Without booking requests are answered exactly if each of them is answered from the pools at the
start. -/
theorem servedAll_reads_iff : ServedAll false now pools requests lines left ↔
    left = pools ∧ lines = requests.map (lineOf now pools) ∧
      ∀ request ∈ requests, Served false now pools request (lineOf now pools request) pools := by
  constructor
  · intro served
    induction requests generalizing lines with
    | nil =>
        cases served
        exact ⟨rfl, rfl, by simp⟩
    | cons request requests ih =>
        cases served with
        | cons first rest =>
            obtain ⟨rfl, rfl⟩ := first.reads
            obtain ⟨rfl, rfl, each⟩ := ih rest
            exact ⟨rfl, rfl, List.forall_mem_cons.mpr ⟨first, each⟩⟩
  · rintro ⟨rfl, rfl, each⟩
    induction requests with
    | nil => exact .nil left
    | cons request requests ih =>
        obtain ⟨first, rest⟩ := List.forall_mem_cons.mp each
        exact .cons first (ih rest)

end

/-- What requests to other pools do to the lines for one pool: nothing. Two runs over the same snapshots
at one time, both with or both without booking, that reach their ends give the same lines to the same
requests to an address, whatever else is asked in between. Without booking each line is the answer of the
pools as they were built, so the same requests in another order get the same lines in that order. -/
theorem pools_do_not_interfere (config config' : Config) (files files' : String → Option String)
    (clock clock' now : Time)
    (same : readSnapshots files config.snapshots = readSnapshots files' config'.snapshots)
    (dated : config.timestamp = some now) (dated' : config'.timestamp = some now)
    (mode : config.apply = config'.apply) (succeeds : (run config files clock).failure = none) :
    ((run config' files' clock').failure = none → ∀ address,
      requestsTo address config.quotes = requestsTo address config'.quotes →
      linesFor address (run config files clock).lines =
        linesFor address (run config' files' clock').lines) ∧
    (config.apply = false → ∃ snapshots, readSnapshots files config.snapshots = .ok snapshots ∧
      let fresh := Pools.ofList (Pool.ofSnapshots snapshots)
      (∀ request ∈ config.quotes, Served false now fresh request (lineOf now fresh request) fresh) ∧
      (run config files clock).lines = config.quotes.map (lineOf now fresh) ∧
      (config.quotes.Perm config'.quotes → (run config' files' clock').failure = none ∧
        (run config' files' clock').lines = config'.quotes.map (lineOf now fresh) ∧
        (run config files clock).lines.Perm (run config' files' clock').lines)) := by
  cases readable : readSnapshots files config.snapshots with
  | error failure => simp [run, readable] at succeeds
  | ok snapshots =>
      have readable' := same.symm.trans readable
      rw [run_eq_serveAll clock readable dated] at succeeds ⊢
      rw [run_eq_serveAll clock' readable' dated', ← mode]
      obtain ⟨left, served⟩ := served_of_succeeds succeeds
      refine ⟨fun succeeds' address asked => ?_, fun reads => ⟨snapshots, rfl, ?_⟩⟩
      · obtain ⟨left', served'⟩ := served_of_succeeds succeeds'
        obtain ⟨_, only, -⟩ := served.only address rfl
        obtain ⟨_, only', -⟩ := served'.only address rfl
        rw [asked] at only
        exact (only.unique only').1
      · rw [reads] at served ⊢
        obtain ⟨-, lines, each⟩ := servedAll_reads_iff.mp served
        refine ⟨each, lines, fun permuted => ?_⟩
        have again := (servedAll_reads_iff.mpr
          ⟨rfl, rfl, fun request member => each request (permuted.mem_iff.mpr member)⟩).serveAll_eq
        rw [again, lines]
        exact ⟨rfl, rfl, permuted.map _⟩

/-- A swap that the metapool makes through its base pool, between two swaps of the base pool itself. -/
def interleavedRequests : List Request :=
  [⟨⟨100⟩, ⟨1⟩, ⟨2⟩, 100000⟩, ⟨⟨200⟩, ⟨50⟩, ⟨2⟩, 100000⟩, ⟨⟨100⟩, ⟨2⟩, ⟨1⟩, 5000⟩]

/-- The swaps of the base pool alone. -/
def separateRequests : List Request :=
  [⟨⟨100⟩, ⟨1⟩, ⟨2⟩, 100000⟩, ⟨⟨100⟩, ⟨2⟩, ⟨1⟩, 5000⟩]

/-- The sample without booking. -/
def readingConfig (quotes : List Request) : Config :=
  ⟨["pools.json"], some 1700000000, false, quotes⟩

theorem run_reading (quotes : List Request) : run (readingConfig quotes) sampleFiles 0 =
    serveAll false 1700000000 samplePools quotes := by
  obtain ⟨snapshots, readable, built⟩ := sampleFiles_read
  rw [← built]
  exact run_eq_serveAll 0 readable rfl

/-- With booking the base pool answers as if the metapool were not asked, and without booking the
requests get the same lines in another order. -/
theorem base_pool_answers_alone :
    linesFor ⟨100⟩ (run (sampleConfig interleavedRequests) sampleFiles 0).lines =
        linesFor ⟨100⟩ (run (sampleConfig separateRequests) sampleFiles 0).lines ∧
      (run (readingConfig interleavedRequests) sampleFiles 0).lines.Perm
        (run (readingConfig interleavedRequests.reverse) sampleFiles 0).lines := by
  have succeeds : (run (sampleConfig interleavedRequests) sampleFiles 0).failure = none := by
    rw [run_sample]
    decide +kernel
  have succeeds' : (run (sampleConfig separateRequests) sampleFiles 0).failure = none := by
    rw [run_sample]
    decide +kernel
  have reads : (run (readingConfig interleavedRequests) sampleFiles 0).failure = none := by
    rw [run_reading]
    decide +kernel
  constructor
  · exact (pools_do_not_interfere (sampleConfig interleavedRequests) (sampleConfig separateRequests)
      sampleFiles sampleFiles 0 0 1700000000 rfl rfl rfl rfl succeeds).1 succeeds' ⟨100⟩ rfl
  · obtain ⟨_, -, -, -, permutes⟩ := (pools_do_not_interfere (readingConfig interleavedRequests)
      (readingConfig interleavedRequests.reverse) sampleFiles sampleFiles 0 0 1700000000 rfl rfl rfl rfl
      reads).2 rfl
    exact (permutes (List.reverse_perm _).symm).2.2

end Quoting
end Amm
