import Amm.Pool
import Amm.Proofs.Priced
import Mathlib.Data.List.Induction
import Mathlib.Data.List.Nodup
import Mathlib.Data.List.Perm.Basic

/-!
The pools that a list of snapshots builds. A snapshot is built into a pool of its own address, and of
the rest of the list it sees only which base pools there are, so with one snapshot for each address
the order of the list decides nothing but the order of the pools. A snapshot that is not built is as
good as absent.
-/

namespace Amm

theorem Priced.toOption_eq_some {α : Type} {step : Priced α} {value : α} :
    step.toOption = some value ↔ step = .ok value := by
  cases step <;> simp [Except.toOption]

theorem Priced.ok_of_map {α β : Type} {step : Priced α} {part : α → β} {result : β}
    (mapped : part <$> step = .ok result) : ∃ value, step = .ok value ∧ part value = result :=
  Priced.map_eq_ok.mp mapped

theorem PlainPool.ofSnapshot_address {snapshot : Snapshot} {pool : PlainPool}
    (built : ofSnapshot snapshot = .ok pool) : pool.address = snapshot.address := by
  simp only [ofSnapshot, Priced.bind_eq_ok, Except.ok.injEq] at built
  obtain ⟨_, -, _, -, _, -, _, -, rfl⟩ := built
  rfl

theorem LendingPool.ofSnapshot_address {snapshot : Snapshot} {pool : LendingPool}
    (built : ofSnapshot snapshot = .ok pool) : pool.address = snapshot.address := by
  simp only [ofSnapshot, Priced.bind_eq_ok, Except.ok.injEq] at built
  obtain ⟨_, -, _, -, _, -, _, -, _, -, rfl⟩ := built
  rfl

theorem Metapool.ofSnapshot_address {bases : BasePools} {snapshot : Snapshot} {pool : Metapool}
    (built : ofSnapshot bases snapshot = .ok pool) : pool.address = snapshot.address := by
  simp only [ofSnapshot, Priced.bind_eq_ok, Except.ok.injEq] at built
  obtain ⟨_, -, _, -, _, -, _, -, _, -, rfl⟩ := built
  rfl

theorem CryptoPool.ofSnapshot_address {layout : Crypto.Layout} {snapshot : Snapshot}
    {pool : CryptoPool} (built : ofSnapshot layout snapshot = .ok pool) :
    pool.address = snapshot.address := by
  simp only [ofSnapshot, Priced.bind_eq_ok, Except.ok.injEq] at built
  obtain ⟨_, -, _, -, _, -, _, -, _, -, _, -, _, -, _, -, rfl⟩ := built
  rfl

theorem ComposablePool.ofSnapshot_address {snapshot : Snapshot} {pool : ComposablePool}
    (built : ofSnapshot snapshot = .ok pool) : pool.address = snapshot.address := by
  simp only [ofSnapshot, Priced.bind_eq_ok, Except.ok.injEq] at built
  obtain ⟨_, -, _, -, _, -, _, -, _, -, _, -, rfl⟩ := built
  rfl

theorem SaddlePool.ofSnapshot_address {snapshot : Snapshot} {pool : SaddlePool}
    (built : ofSnapshot snapshot = .ok pool) : pool.address = snapshot.address := by
  simp only [ofSnapshot, Priced.bind_eq_ok, Except.ok.injEq] at built
  obtain ⟨_, -, _, -, _, -, _, -, rfl⟩ := built
  rfl

theorem SyncSwapPool.ofSnapshot_address {snapshot : Snapshot} {pool : SyncSwapPool}
    (built : ofSnapshot snapshot = .ok pool) : pool.address = snapshot.address := by
  simp only [ofSnapshot, Priced.bind_eq_ok, Except.ok.injEq] at built
  obtain ⟨_, -, _, -, _, -, _, -, _, -, rfl⟩ := built
  rfl

namespace BasePool

variable {snapshot : Snapshot} {base : BasePool}

theorem ofSnapshot?_address (built : ofSnapshot? snapshot = some (.ok base)) :
    base.address = snapshot.address := by
  unfold ofSnapshot? at built
  split at built
  · obtain ⟨_, made, rfl⟩ := Priced.ok_of_map (Option.some.inj built)
    exact PlainPool.ofSnapshot_address made
  · obtain ⟨_, made, rfl⟩ := Priced.ok_of_map (Option.some.inj built)
    exact LendingPool.ofSnapshot_address made
  · exact absurd built (by simp)

/-- A snapshot that adds a base pool is built into a pool itself, whatever base pools there are. -/
theorem ofSnapshot?_builds (built : ofSnapshot? snapshot = some (.ok base)) (bases : BasePools) :
    ∃ pool, Pool.ofSnapshot bases snapshot = .ok pool := by
  unfold ofSnapshot? at built
  unfold Pool.ofSnapshot
  split at built
  · obtain ⟨plain, made, -⟩ := Priced.ok_of_map (Option.some.inj built)
    simp only [*]
    exact ⟨.plain plain, rfl⟩
  · obtain ⟨lending, made, -⟩ := Priced.ok_of_map (Option.some.inj built)
    simp only [*]
    exact ⟨.lending lending, rfl⟩
  · exact absurd built (by simp)

end BasePool

namespace BasePools

/-- The base pools at hand are those that the snapshots of a list build, each at its address. -/
def Offers (bases : BasePools) (snapshots : List Snapshot) : Prop :=
  ∀ address base, bases.find? address = some base ↔
    ∃ snapshot ∈ snapshots, snapshot.address = address ∧
      BasePool.ofSnapshot? snapshot = some (.ok base)

variable {bases bases' : BasePools} {snapshots snapshots' : List Snapshot}

theorem find?_insert (bases : BasePools) (base : BasePool) (address : Address) :
    (bases.insert base).find? address =
      if base.address = address then some base else bases.find? address := by
  rw [find?, insert, List.lookup_cons]
  by_cases here : base.address = address
  · simp [here]
  · have passed : (address == base.address) = false := beq_eq_false_iff_ne.mpr (Ne.symm here)
    rw [passed, if_neg here]
    rfl

/-- The base pools at hand once a snapshot has been read. -/
def read (bases : BasePools) (snapshot : Snapshot) : BasePools :=
  match BasePool.ofSnapshot? snapshot with
  | some (.ok base) => bases.insert base
  | _ => bases

theorem ofSnapshots_eq (snapshots : List Snapshot) :
    ofSnapshots snapshots = snapshots.foldl read [] :=
  rfl

theorem read_builds {snapshot : Snapshot} {base : BasePool}
    (built : BasePool.ofSnapshot? snapshot = some (.ok base)) (bases : BasePools) :
    bases.read snapshot = bases.insert base := by
  simp only [read, built]

theorem read_fails {snapshot : Snapshot}
    (fails : ∀ base, BasePool.ofSnapshot? snapshot ≠ some (.ok base)) (bases : BasePools) :
    bases.read snapshot = bases := by
  unfold read
  split
  · rename_i base built
    exact absurd built (fails base)
  · rfl

/-- With one snapshot for each address no base pool hides another one. -/
theorem ofSnapshots_offers (distinct : (snapshots.map Snapshot.address).Nodup) :
    (ofSnapshots snapshots).Offers snapshots := by
  induction snapshots using List.reverseRecOn with
  | nil => simp [Offers, ofSnapshots, find?]
  | append_singleton snapshots snapshot ih =>
      rw [List.map_append, List.map_singleton, List.nodup_append] at distinct
      obtain ⟨earlier, -, fresh⟩ := distinct
      have offers := ih earlier
      intro address base
      simp only [List.mem_append, List.mem_singleton, or_and_right, exists_or, exists_eq_left]
      rw [← offers address base, ofSnapshots_eq, List.foldl_append, ← ofSnapshots_eq]
      simp only [List.foldl_cons, List.foldl_nil]
      by_cases builds : ∃ added, BasePool.ofSnapshot? snapshot = some (.ok added)
      · obtain ⟨added, made⟩ := builds
        rw [read_builds made, find?_insert, BasePool.ofSnapshot?_address made, made]
        by_cases here : snapshot.address = address
        · -- No earlier snapshot has this address.
          have none : (ofSnapshots snapshots).find? address ≠ some base := fun found => by
            obtain ⟨other, member, same, -⟩ := (offers address base).mp found
            exact fresh _ (List.mem_map_of_mem member) _ (List.mem_singleton_self _)
              (same.trans here.symm)
          simp [here, none]
        · simp [here]
      · have fails := not_exists.mp builds
        rw [read_fails fails]
        simp [fails base]

theorem Offers.find?_eq (offers : bases.Offers snapshots) (offers' : bases'.Offers snapshots')
    (same : ∀ snapshot base, BasePool.ofSnapshot? snapshot = some (.ok base) →
      (snapshot ∈ snapshots ↔ snapshot ∈ snapshots')) (address : Address) :
    bases.find? address = bases'.find? address := by
  refine Option.ext fun base => ?_
  rw [offers address base, offers' address base]
  refine exists_congr fun snapshot => ?_
  rw [and_congr_left fun found => same snapshot base found.2]

/-- A snapshot that adds no base pool may stand anywhere in the list or be left out. -/
theorem ofSnapshots_without {failing : Snapshot} (earlier later : List Snapshot)
    (adds : ∀ base, BasePool.ofSnapshot? failing ≠ some (.ok base)) :
    ofSnapshots (earlier ++ failing :: later) = ofSnapshots (earlier ++ later) := by
  rw [ofSnapshots_eq, ofSnapshots_eq, List.foldl_append, List.foldl_append, List.foldl_cons,
    read_fails adds]

end BasePools

namespace Pool

variable {bases bases' : BasePools} {snapshot : Snapshot} {snapshots : List Snapshot} {pool : Pool}

theorem ofSnapshot_address (built : ofSnapshot bases snapshot = .ok pool) :
    pool.address = snapshot.address := by
  unfold ofSnapshot at built
  split at built <;> obtain ⟨_, made, rfl⟩ := Priced.ok_of_map built
  case h_1 => exact PlainPool.ofSnapshot_address made
  case h_2 => exact LendingPool.ofSnapshot_address made
  case h_3 => exact Metapool.ofSnapshot_address made
  case h_4 => exact CryptoPool.ofSnapshot_address made
  case h_5 => exact CryptoPool.ofSnapshot_address made
  case h_6 => exact ComposablePool.ofSnapshot_address made
  case h_7 => exact SaddlePool.ofSnapshot_address made
  case h_8 => exact SyncSwapPool.ofSnapshot_address made

/-- Of the base pools only those matter that are found. -/
theorem ofSnapshot_congr (same : ∀ address, bases.find? address = bases'.find? address)
    (snapshot : Snapshot) : ofSnapshot bases snapshot = ofSnapshot bases' snapshot := by
  unfold ofSnapshot Metapool.ofSnapshot
  simp only [same]

theorem mem_ofSnapshots : pool ∈ ofSnapshots snapshots ↔
    ∃ snapshot ∈ snapshots, ofSnapshot (BasePools.ofSnapshots snapshots) snapshot = .ok pool := by
  simp only [ofSnapshots, List.mem_filterMap, Priced.toOption_eq_some]

/-- With one snapshot for each address the pool at the address of a snapshot is the one that it is
built into. -/
theorem mem_ofSnapshots_address (distinct : (snapshots.map Snapshot.address).Nodup)
    (member : snapshot ∈ snapshots) :
    pool ∈ ofSnapshots snapshots ∧ pool.address = snapshot.address ↔
      ofSnapshot (BasePools.ofSnapshots snapshots) snapshot = .ok pool := by
  rw [mem_ofSnapshots]
  constructor
  · rintro ⟨⟨found, listed, built⟩, same⟩
    have named := ofSnapshot_address built
    obtain rfl : found = snapshot :=
      List.inj_on_of_nodup_map distinct listed member (named.symm.trans same)
    exact built
  · exact fun built => ⟨⟨snapshot, member, built⟩, ofSnapshot_address built⟩

theorem find?_ofSnapshots (distinct : (snapshots.map Snapshot.address).Nodup)
    (member : snapshot ∈ snapshots) :
    (ofSnapshots snapshots).find? (fun pool => pool.address = snapshot.address) =
      (ofSnapshot (BasePools.ofSnapshots snapshots) snapshot).toOption := by
  cases found : (ofSnapshots snapshots).find? fun pool => pool.address = snapshot.address with
  | some pool =>
      have listed := List.mem_of_find?_eq_some found
      have named : pool.address = snapshot.address := by simpa using List.find?_some found
      rw [(mem_ofSnapshots_address distinct member).mp ⟨listed, named⟩]
      rfl
  | none =>
      cases built : ofSnapshot (BasePools.ofSnapshots snapshots) snapshot with
      | error failure => rfl
      | ok pool =>
          obtain ⟨listed, named⟩ := (mem_ofSnapshots_address distinct member).mpr built
          simpa [named] using List.find?_eq_none.mp found pool listed

/-- A snapshot that is not built adds nothing wherever it stands in the list. -/
theorem ofSnapshots_without {failing : Snapshot} (earlier later : List Snapshot)
    (adds : ∀ base, BasePool.ofSnapshot? failing ≠ some (.ok base))
    (fails : ∀ pool, ofSnapshot (BasePools.ofSnapshots (earlier ++ later)) failing ≠ .ok pool) :
    ofSnapshots (earlier ++ failing :: later) = ofSnapshots (earlier ++ later) := by
  have unbuilt : (ofSnapshot (BasePools.ofSnapshots (earlier ++ later)) failing).toOption = none := by
    refine Option.eq_none_iff_forall_ne_some.mpr fun pool built => fails pool ?_
    exact Priced.toOption_eq_some.mp built
  simp only [ofSnapshots, BasePools.ofSnapshots_without earlier later adds, List.filterMap_append,
    List.filterMap_cons, unbuilt]

/-- With one snapshot for each address the pools do not depend on the order of the snapshots, but for
their own order: a permuted list has at each place the pool that the list has for the address there.
A snapshot has a pool exactly if it is built with the base pools that the list offers, and one that is
not built can be left out of the list or put anywhere into it. -/
theorem ofSnapshots_order_free (snapshots : List Snapshot)
    (distinct : (snapshots.map Snapshot.address).Nodup) :
    (∀ permuted, snapshots.Perm permuted → ofSnapshots permuted = permuted.filterMap fun snapshot =>
      (ofSnapshots snapshots).find? fun pool => pool.address = snapshot.address) ∧
    (BasePools.ofSnapshots snapshots).Offers snapshots ∧
    ∀ bases : BasePools, bases.Offers snapshots →
      (∀ snapshot ∈ snapshots, ∀ pool,
        pool ∈ ofSnapshots snapshots ∧ pool.address = snapshot.address ↔
          ofSnapshot bases snapshot = .ok pool) ∧
      ∀ earlier failing later, (∀ pool, ofSnapshot bases failing ≠ .ok pool) →
        (snapshots = earlier ++ later →
          ofSnapshots (earlier ++ failing :: later) = ofSnapshots snapshots) ∧
        (snapshots = earlier ++ failing :: later →
          ofSnapshots (earlier ++ later) = ofSnapshots snapshots) := by
  have offers := BasePools.ofSnapshots_offers distinct
  refine ⟨fun permuted order => ?_, offers, fun bases offers' =>
    ⟨fun snapshot member pool => ?_, fun earlier failing later fails => ?_⟩⟩
  · have distinct' := (order.map Snapshot.address).nodup_iff.mp distinct
    have same := offers.find?_eq (BasePools.ofSnapshots_offers distinct')
      fun _ _ _ => order.mem_iff
    refine List.filterMap_congr fun snapshot member => ?_
    rw [find?_ofSnapshots distinct (order.mem_iff.mpr member), ofSnapshot_congr same]
  · rw [mem_ofSnapshots_address distinct member,
      ofSnapshot_congr (offers.find?_eq offers' fun _ _ _ => Iff.rfl)]
  · have adds : ∀ base, BasePool.ofSnapshot? failing ≠ some (.ok base) := fun base built => by
      obtain ⟨pool, made⟩ := BasePool.ofSnapshot?_builds built bases
      exact fails pool made
    have without := BasePools.ofSnapshots_without earlier later adds
    rw [ofSnapshot_congr (offers'.find?_eq offers fun _ _ _ => Iff.rfl) failing] at fails
    constructor
    · rintro rfl
      exact ofSnapshots_without earlier later adds fails
    · rintro rfl
      rw [without] at fails
      exact (ofSnapshots_without earlier later adds fails).symm

/-- A metapool over the pool at address 100. -/
def metaSnapshot : Snapshot where
  address := ⟨200⟩
  kind := .metapool
  tokens := [⟨50⟩, ⟨101⟩]
  reserves := [1000000, 1000000, 2000000]
  extra := .array [.integer 200, .integer 200, .integer 0, .integer 0, .integer 4000000]
  staticExtra := .array [.string (Address.toText ⟨60⟩), .string (Address.toText ⟨100⟩),
    .integer 1000000000000000000, .integer 1]

def baseSnapshot : Snapshot where
  address := ⟨100⟩
  kind := .plain
  tokens := [⟨1⟩, ⟨2⟩]
  reserves := [1000000, 1000000, 2000000]
  extra := .array [.integer 200, .integer 200, .integer 0, .integer 0, .integer 4000000]
  staticExtra := .array [.string (Address.toText ⟨101⟩), .integer 1,
    .array [.integer 1, .integer 1]]

/-- A pool without terms, which is not built. -/
def termlessSnapshot : Snapshot :=
  { baseSnapshot with address := ⟨300⟩, extra := .null }

/-- The metapool stands before its base pool or after it, and the pool without terms between them makes
no difference. -/
theorem metaSnapshot_before_base :
    ([metaSnapshot, termlessSnapshot, baseSnapshot].map Snapshot.address).Nodup ∧
      (ofSnapshots [baseSnapshot, termlessSnapshot, metaSnapshot]).map Pool.address =
        [⟨100⟩, ⟨200⟩] ∧
      ofSnapshots [metaSnapshot, baseSnapshot] =
        ofSnapshots [metaSnapshot, termlessSnapshot, baseSnapshot] := by
  have distinct : ([metaSnapshot, termlessSnapshot, baseSnapshot].map Snapshot.address).Nodup := by
    decide
  obtain ⟨permutes, offers, each⟩ := ofSnapshots_order_free _ distinct
  have fails : ∀ pool, ofSnapshot (BasePools.ofSnapshots
      [metaSnapshot, termlessSnapshot, baseSnapshot]) termlessSnapshot ≠ .ok pool := by
    have unbuilt : (ofSnapshot (BasePools.ofSnapshots
        [metaSnapshot, termlessSnapshot, baseSnapshot]) termlessSnapshot).toOption = none := by
      decide +kernel
    intro pool built
    rw [built] at unbuilt
    exact absurd unbuilt (by simp [Except.toOption])
  refine ⟨distinct, ?_, ?_⟩
  · rw [permutes [baseSnapshot, termlessSnapshot, metaSnapshot] (List.reverse_perm _).symm]
    decide +kernel
  · exact ((each _ offers).2 [metaSnapshot] termlessSnapshot [baseSnapshot] fails).2 rfl

end Pool
end Amm
