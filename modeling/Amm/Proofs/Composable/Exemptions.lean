import Amm.Proofs.Aligned
import Amm.Proofs.Composable.Places
import Amm.Proofs.Composable.Rates

/-!
The growth of a composable pool that is not exempt from fees on yield, for the versions that exempt
single tokens. It is the invariant of the balances with the exempt tokens, and no others, at their old
rates. Where no token is exempt, or every one is, the pool takes an invariant that it has found before.
The flags count the share token and the balances do not, but the share token has no balance that a flag
could move.
-/

namespace Amm

/-- Steps that give a value wherever others do. -/
theorem Priced.mapM_of_mapM {α β : Type} (f : α → β) {step step' : α → Priced β} {items : List α}
    {results : List β} (each : ∀ item result, step item = .ok result → step' item = .ok (f item))
    (succeeds : items.mapM step = .ok results) : items.mapM step' = .ok (items.map f) := by
  induction items generalizing results with
  | nil => rfl
  | cons item items ih =>
      rw [List.mapM_cons, bind_eq_ok] at succeeds
      obtain ⟨first, stepped, rest⟩ := succeeds
      obtain ⟨others, mapped, -⟩ := bind_eq_ok.mp rest
      rw [List.mapM_cons, each item first stepped, ok_bind, ih mapped]
      rfl

namespace ComposablePool

/-- One flag for each token that may have a rate. -/
def Flagged (pool : ComposablePool) : Prop :=
  pool.rateCaches.length = pool.protocolFees.exemptTokens.length

instance (pool : ComposablePool) : Decidable pool.Flagged :=
  inferInstanceAs (Decidable (pool.rateCaches.length = pool.protocolFees.exemptTokens.length))

/-- The balance of a registered token at its old rate. A token without a rate has one balance. -/
def atOldRate (pool : ComposablePool) (index : Nat) (balance : Int) : Int :=
  match pool.rateCaches[index]?.join with
  | some cache => (balance * cache.oldRate).fdiv cache.rate
  | none => balance

/-- Registered balances, those of some tokens at their old rates. -/
def atOldRates (pool : ComposablePool) (chosen : Nat → Bool) (balances : List Int) : List Int :=
  balances.mapIdx fun index balance =>
    if chosen index then pool.atOldRate index balance else balance

variable {pool next : ComposablePool}

section
variable {chosen chosen' : Nat → Bool}

/-- The step that adjusts the balance at a place of a short list. -/
def adjustedAt (pool : ComposablePool) (chosen : Nat → Bool) (short : Int × Nat) : Priced Int := do
  match ← Priced.entry pool.rateCaches (pool.registered short.2) with
  | some cache =>
    if chosen (pool.registered short.2) then cache.adjust short.1 else .ok short.1
  | none => .ok short.1

theorem adjustedBalances_eq (balances : List Int) :
    pool.adjustedBalances balances chosen = balances.zipIdx.mapM (pool.adjustedAt chosen) :=
  rfl

theorem adjustedAt_eq_ok {short : Int × Nat} {result : Int}
    (computed : pool.adjustedAt chosen short = .ok result) :
    result = if chosen (pool.registered short.2) then
      pool.atOldRate (pool.registered short.2) short.1 else short.1 := by
  obtain ⟨found, foundAt, computed⟩ := Priced.bind_eq_ok.mp computed
  rw [Priced.entry_eq_ok] at foundAt
  cases found with
  | none =>
      obtain rfl := Except.ok.inj computed
      simp [atOldRate, foundAt]
  | some cache =>
      dsimp only at computed
      split at computed
      · rename_i adjusts
        rw [Composable.RateCache.adjust, Priced.quotient_eq_ok] at computed
        simp [adjusts, atOldRate, foundAt, computed.2]
      · rename_i stays
        obtain rfl := Except.ok.inj computed
        simp [stays]

/-- What is chosen counts for tokens with a rate only. -/
theorem adjustedAt_congr (short : Int × Nat)
    (same : ∀ index cache, pool.rateCaches[index]? = some (some cache) → chosen index = chosen' index) :
    pool.adjustedAt chosen short = pool.adjustedAt chosen' short := by
  unfold adjustedAt
  cases found : Priced.entry pool.rateCaches (pool.registered short.2) with
  | error failure => rfl
  | ok entry =>
      cases entry with
      | none => rfl
      | some cache => simp only [Priced.ok_bind, same _ cache (Priced.entry_eq_ok.mp found)]

theorem adjustedAt_none {short : Int × Nat} {result : Int}
    (computed : pool.adjustedAt chosen short = .ok result) :
    pool.adjustedAt (fun _ => false) short = .ok short.1 := by
  obtain ⟨found, foundAt, -⟩ := Priced.bind_eq_ok.mp computed
  rw [adjustedAt, foundAt, Priced.ok_bind]
  cases found <;> rfl

variable {balances adjusted : List Int}

/-- Adjusting the short balances is adjusting the registered ones, whose share token is then left
out. -/
theorem adjustedBalances_dropShare
    (computed : pool.adjustedBalances (pool.dropShare balances) chosen = .ok adjusted) :
    adjusted = pool.dropShare (pool.atOldRates chosen balances) := by
  have mapped := Priced.mapM_eq_map _ (fun _ _ step => (adjustedAt_eq_ok step).symm) computed
  rw [← mapped]
  refine List.ext_getElem? fun k => ?_
  rw [List.getElem?_map, List.getElem?_zipIdx, dropShare_registered, dropShare_registered, atOldRates,
    List.getElem?_mapIdx, zero_add]
  cases balances[pool.registered k]? <;> rfl

theorem adjustedBalances_congr
    (same : ∀ index cache, pool.rateCaches[index]? = some (some cache) → chosen index = chosen' index) :
    pool.adjustedBalances balances chosen = pool.adjustedBalances balances chosen' := by
  have steps : pool.adjustedAt chosen = pool.adjustedAt chosen' :=
    funext fun short => adjustedAt_congr short same
  rw [adjustedBalances_eq, adjustedBalances_eq, steps]

/-- Where every balance has its entry among the rates, none needs to be adjusted. -/
theorem adjustedBalances_none (computed : pool.adjustedBalances balances chosen = .ok adjusted) :
    pool.adjustedBalances balances (fun _ => false) = .ok balances := by
  have kept := Priced.mapM_of_mapM Prod.fst (fun _ _ step => adjustedAt_none step) computed
  rw [List.zipIdx_map_fst] at kept
  exact kept

end

theorem isExempt_of_none (none : pool.protocolFees.exemptTokens.all (! ·) = true) (index : Nat) :
    pool.isExempt index = false := by
  rw [isExempt, List.getD_eq_getElem?_getD]
  cases found : pool.protocolFees.exemptTokens[index]? with
  | none => rfl
  | some flag =>
      have unset := List.all_eq_true.mp none flag (List.mem_of_getElem? found)
      simpa using unset

theorem isExempt_of_all (flagged : pool.Flagged)
    (all : pool.protocolFees.exemptTokens.all (·) = true) {index : Nat}
    (bound : index < pool.rateCaches.length) : pool.isExempt index = true := by
  have inside : index < pool.protocolFees.exemptTokens.length := by rwa [← flagged]
  rw [isExempt, List.getD_eq_getElem?_getD, List.getElem?_eq_getElem inside, Option.getD_some]
  exact List.all_eq_true.mp all _ (List.getElem_mem inside)

/-- Each shortcut is the general formula. -/
theorem tokenGrowth_nonExempt {balances : List Int} {growth : Growth} (flagged : pool.Flagged)
    (measured : pool.tokenGrowth balances = .ok growth) :
    ∃ exemptOnly, pool.adjustedBalances balances pool.isExempt = .ok exemptOnly ∧
      Composable.invariant pool.lastJoinExit.amplification exemptOnly = .ok growth.nonExempt := by
  simp only [tokenGrowth, Priced.bind_eq_ok] at measured
  obtain ⟨atOldRates, adjusted, swapFees, fees, total, totals, measured⟩ := measured
  split at measured
  · rename_i none
    obtain rfl := Except.ok.inj measured
    have unflagged : pool.isExempt = fun _ => false := funext (isExempt_of_none none)
    rw [unflagged]
    exact ⟨balances, adjustedBalances_none adjusted, totals⟩
  · split at measured
    · rename_i all
      obtain rfl := Except.ok.inj measured
      refine ⟨atOldRates, ?_, fees⟩
      rw [← adjusted]
      apply adjustedBalances_congr
      intro index cache cacheAt
      have bound : index < pool.rateCaches.length := (List.getElem?_eq_some_iff.mp cacheAt).1
      rw [isExempt_of_all flagged all bound, Bool.true_or]
    · simp only [Priced.bind_eq_ok, Except.ok.injEq] at measured
      obtain ⟨exemptOnly, found, nonExempt, others, rfl⟩ := measured
      exact ⟨exemptOnly, found, others⟩

theorem Flagged.continues (flagged : pool.Flagged) (continues : pool.Continues next) :
    next.Flagged := by
  obtain ⟨_, _, -, rfl⟩ := continues
  rw [Flagged, renewedCaches, List.length_map]
  exact flagged

theorem ofSnapshot_flagged {snapshot : Snapshot} (built : ofSnapshot snapshot = .ok pool) :
    pool.Flagged := by
  simp only [ofSnapshot, Priced.bind_eq_ok, Except.ok.injEq] at built
  obtain ⟨_, -, _, -, _, -, _, -, _, -, rateCaches, found, rfl⟩ := built
  rw [Flagged, Priced.mapM_length found, List.length_map]

end ComposablePool

namespace Pool

/-- A composable pool has one flag for each token that may have a rate. -/
def Flagged : Pool → Prop
  | .composable pool => pool.Flagged
  | _ => True

theorem Reached.flagged {pool : Pool} (reached : pool.Reached) : pool.Flagged := by
  cases pool with
  | composable pool =>
      exact reached.composable ComposablePool.ofSnapshot_flagged
        fun continues flagged => flagged.continues continues
  | _ => trivial

end Pool

namespace ComposablePool

/-- The growth that is not exempt, by a shortcut or not, is the invariant of the balances with exactly
the exempt tokens at their old rates, wherever the share token is registered. One flag for each token
that may have a rate is enough for it, and every pool has that whatever has been done to it. -/
theorem nonExempt_growth_exact :
    (∀ pool : ComposablePool, (Pool.composable pool).Reached → pool.Flagged) ∧
    ∀ (pool : ComposablePool) (balances : List Int) (growth : Growth), pool.Flagged →
      pool.tokenGrowth (pool.dropShare balances) = .ok growth →
      pool.adjustedBalances (pool.dropShare balances) pool.isExempt =
          .ok (pool.dropShare (pool.atOldRates pool.isExempt balances)) ∧
        Composable.invariant pool.lastJoinExit.amplification
          (pool.dropShare (pool.atOldRates pool.isExempt balances)) = .ok growth.nonExempt := by
  refine ⟨fun pool reached => reached.flagged, fun pool balances growth flagged measured => ?_⟩
  obtain ⟨exemptOnly, adjusted, found⟩ := tokenGrowth_nonExempt flagged measured
  obtain rfl := adjustedBalances_dropShare adjusted
  exact ⟨adjusted, found⟩

/-- Both tokens have rates that have moved, one up and one down, and every registered token is exempt,
the share token among them. -/
def sampleExempt : ComposablePool :=
  { sampleYielding with
    version := 4
    rateCaches := [some ⟨1100000000000000000, Fixed.one⟩, none,
      some ⟨Fixed.one, 1010000000000000000⟩]
    protocolFees := { sampleYielding.protocolFees with exemptTokens := [true, true, true] } }

/-- The same pool with the flag of the share token unset, so that it takes no shortcut. -/
def sampleMostlyExempt : ComposablePool :=
  { sampleExempt with
    protocolFees := { sampleExempt.protocolFees with exemptTokens := [true, false, true] } }

/-- The flag of the share token decides how the growth is found, and not what it is. -/
theorem sampleExempt_growth_exact :
    (sampleExempt.tokenGrowth (sampleExempt.dropShare (sampleExempt.upscaled sampleExempt.reserves)) =
          .ok ⟨2009999876237646566883, 2009999876237646566883, 2099988127744956843734⟩ ∧
        Composable.invariant sampleExempt.lastJoinExit.amplification (sampleExempt.dropShare
            (sampleExempt.atOldRates sampleExempt.isExempt
              (sampleExempt.upscaled sampleExempt.reserves))) = .ok 2009999876237646566883) ∧
      sampleMostlyExempt.tokenGrowth
          (sampleMostlyExempt.dropShare (sampleMostlyExempt.upscaled sampleMostlyExempt.reserves)) =
          .ok ⟨2009999876237646566883, 2009999876237646566883, 2099988127744956843734⟩ ∧
        Composable.invariant sampleMostlyExempt.lastJoinExit.amplification
          (sampleMostlyExempt.dropShare (sampleMostlyExempt.atOldRates sampleMostlyExempt.isExempt
            (sampleMostlyExempt.upscaled sampleMostlyExempt.reserves))) =
          .ok 2009999876237646566883 := by
  have shortcut : sampleExempt.tokenGrowth
      (sampleExempt.dropShare (sampleExempt.upscaled sampleExempt.reserves)) =
      .ok ⟨2009999876237646566883, 2009999876237646566883, 2099988127744956843734⟩ := by
    decide +kernel
  have adjusted : sampleMostlyExempt.tokenGrowth
      (sampleMostlyExempt.dropShare (sampleMostlyExempt.upscaled sampleMostlyExempt.reserves)) =
      .ok ⟨2009999876237646566883, 2009999876237646566883, 2099988127744956843734⟩ := by
    decide +kernel
  exact ⟨⟨shortcut, (nonExempt_growth_exact.2 _ _ _ (by decide) shortcut).2⟩, adjusted,
    (nonExempt_growth_exact.2 _ _ _ (by decide) adjusted).2⟩

end ComposablePool
end Amm
