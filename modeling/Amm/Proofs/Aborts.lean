import Amm.Newton
import Amm.Proofs.Time
import Amm.Swap

/-!
The faults that a pricing may end in. A step that takes several others ends in a fault of one of
them, so the faults of a pool are those of its unguarded divisors and unchecked indices.
-/

namespace Amm

namespace Priced

/-- A step that ends in a fault ends in an allowed one. -/
def AbortsOnly {α : Type} (allowed : Fault → Prop) (step : Priced α) : Prop :=
  ∀ fault, step = abort fault → allowed fault

namespace AbortsOnly

variable {α β : Type} {allowed : Fault → Prop}

theorem value (result : α) : AbortsOnly allowed (.ok result) := by
  intro fault aborts
  simp [abort] at aborts

theorem refuse (cause : PoolError) : AbortsOnly allowed (Priced.refuse cause : Priced α) := by
  intro fault aborts
  simp [Priced.refuse, abort] at aborts

/-- A second step has to be looked at only for the values that the first one gives. -/
theorem bind {step : Priced α} {next : α → Priced β} (first : AbortsOnly allowed step)
    (rest : ∀ value, step = .ok value → AbortsOnly allowed (next value)) :
    AbortsOnly allowed (step >>= next) := by
  cases step with
  | ok value => exact rest value rfl
  | error failure =>
      intro fault aborts
      rw [error_bind] at aborts
      apply first fault
      simpa [abort] using aborts

theorem map {step : Priced α} (part : α → β) (first : AbortsOnly allowed step) :
    AbortsOnly allowed (part <$> step) := by
  cases step with
  | ok result => exact value (part result)
  | error failure =>
      intro fault aborts
      apply first fault
      simpa [abort, Functor.map, Except.map] using aborts

theorem require {condition : Bool} {cause : PoolError} :
    AbortsOnly allowed (Priced.require condition cause) := by
  cases condition with
  | false => exact refuse cause
  | true => exact value ()

theorem quotient {a b : Int} : AbortsOnly allowed (Priced.quotient a b) := by
  by_cases zero : b = 0
  · simpa [Priced.quotient, Fixed.divDown, ofFixed, zero] using refuse .denominatorZero
  · simpa [Priced.quotient, Fixed.divDown, ofFixed, zero] using value (a.fdiv b)

theorem bareQuotient {a b : Int} (divides : b = 0 → allowed .divisionByZero) :
    AbortsOnly allowed (Priced.bareQuotient a b) := by
  intro fault aborts
  by_cases zero : b = 0
  · obtain rfl : Fault.divisionByZero = fault := by
      simpa [Priced.bareQuotient, abort, zero] using aborts
    exact divides zero
  · simp [Priced.bareQuotient, abort, zero] at aborts

theorem bareQuotient_of_ne {a b : Int} (nonzero : b ≠ 0) :
    AbortsOnly allowed (Priced.bareQuotient a b) :=
  bareQuotient fun zero => absurd zero nonzero

theorem ofOption {given : Option α} {cause : PoolError} :
    AbortsOnly allowed (Priced.ofOption given cause) := by
  cases given with
  | none => exact refuse cause
  | some found => exact value found

theorem modify {values : List α} {index : Nat} {change : α → α} (inside : index < values.length) :
    AbortsOnly allowed (Priced.modify values index change) := by
  rw [modify_eq_ok.mpr ⟨inside, rfl⟩]
  exact value _

theorem entry {values : List α} {index : Nat} (inside : index < values.length) :
    AbortsOnly allowed (Priced.entry values index) := by
  have found : Priced.entry values index = .ok values[index] :=
    entry_eq_ok.mpr (List.getElem?_eq_getElem inside)
  rw [found]
  exact value _

/-- A divisor that is read from a list. -/
theorem divides_of_entry {values : List Int} {index : Nat} {value : Int}
    (zero : values[index]? = some 0 → allowed .divisionByZero)
    (found : Priced.entry values index = .ok value) : value = 0 → allowed .divisionByZero := by
  rintro rfl
  exact zero (entry_eq_ok.mp found)

theorem foldlM {step : α → β → Priced α} {items : List β}
    (each : ∀ current, ∀ item ∈ items, AbortsOnly allowed (step current item)) (start : α) :
    AbortsOnly allowed (items.foldlM step start) := by
  induction items generalizing start with
  | nil => exact value start
  | cons item items ih =>
      rw [List.foldlM_cons]
      apply bind (each start item (by simp))
      intro next _
      exact ih (fun current other member => each current other (by simp [member])) next

theorem mapM {step : α → Priced β} {items : List α}
    (each : ∀ item ∈ items, AbortsOnly allowed (step item)) :
    AbortsOnly allowed (items.mapM step) := by
  induction items with
  | nil => exact value []
  | cons item items ih =>
      rw [List.mapM_cons]
      apply bind (each item (by simp))
      intro first _
      apply bind (ih fun other member => each other (by simp [member]))
      intro rest _
      exact value (first :: rest)

theorem forM {check : α → Priced PUnit} {items : List α}
    (each : ∀ item ∈ items, AbortsOnly allowed (check item)) :
    AbortsOnly allowed (items.forM check) := by
  induction items with
  | nil => exact value ()
  | cons item items ih =>
      rw [List.forM_eq_forM, List.forM_cons]
      exact bind (each item (by simp)) fun _ _ => ih fun other member => each other (by simp [member])

theorem abort {fault : Fault} (allows : allowed fault) :
    AbortsOnly allowed (Priced.abort fault : Priced α) := by
  intro other aborts
  obtain rfl : fault = other := by simpa [Priced.abort] using aborts
  exact allows

/-- A step gives a value, an error of the domain or a fault that is allowed. -/
theorem answers {step : Priced α} (faults : AbortsOnly allowed step) :
    (∃ result, step = .ok result) ∨ (∃ cause, step = Priced.refuse cause) ∨
      ∃ fault, step = Priced.abort fault ∧ allowed fault := by
  match done : step with
  | .ok result => exact .inl ⟨result, rfl⟩
  | .error (.refused cause) => exact .inr (.inl ⟨cause, rfl⟩)
  | .error (.aborted fault) => exact .inr (.inr ⟨fault, rfl, faults fault rfl⟩)

end AbortsOnly

end Priced

namespace Newton

theorem run_abortsOnly {allowed : Fault → Prop} {next : Int → Priced (Int × Bool)}
    {cause : PoolError} (each : ∀ current, Priced.AbortsOnly allowed (next current)) (steps : Nat)
    (start : Int) : Priced.AbortsOnly allowed (run next cause steps start) := by
  induction steps generalizing start with
  | zero => exact .refuse cause
  | succ steps ih =>
      apply Priced.AbortsOnly.bind (each start)
      intro (value, ends) _
      cases ends with
      | true => exact .value value
      | false => exact ih value

theorem settle_abortsOnly {allowed : Fault → Prop} {next : Int → Priced Int} {cause : PoolError}
    (each : ∀ current, Priced.AbortsOnly allowed (next current)) (steps : Nat) (start : Int) :
    Priced.AbortsOnly allowed (settle next cause steps start) :=
  run_abortsOnly (fun current => .bind (each current) fun _ _ => .value _) steps start

end Newton

theorem Time.since_abortsOnly {allowed : Fault → Prop} {now start : Time}
    (time : ¬ Fits start now → allowed .timeOverflow) :
    Priced.AbortsOnly allowed (now.since start) := by
  by_cases fits : Fits start now
  · rw [since_of_fits fits]
    exact .value _
  · rw [since_of_not_fits fits]
    exact .abort (time fits)

theorem route_abortsOnly {allowed : Fault → Prop} (tokens : List Address)
    (shareToken tokenIn tokenOut : Address) :
    Priced.AbortsOnly allowed (route tokens shareToken tokenIn tokenOut) := by
  unfold route
  split
  · exact .value _
  · split
    · exact .value _
    · exact .refuse _
  · split
    · exact .value _
    · exact .refuse _
  · exact .refuse _

theorem Order.quote_abortsOnly {allowed : Fault → Prop} (order : Order) (amountOut fee : Int)
    (feeToken : Address) (gas indexIn indexOut : Nat) (underlying : Bool)
    (joinExit : Option JoinExit) :
    Priced.AbortsOnly allowed
      (order.quote amountOut fee feeToken gas indexIn indexOut underlying joinExit) := by
  unfold Order.quote
  split
  · exact .value _
  · exact .refuse _

end Amm
