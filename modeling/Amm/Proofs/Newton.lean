import Amm.Newton
import Amm.Proofs.Priced

/-!
What an iteration carries from its first value to its last. A property that every step keeps holds
of the result, whatever the number of steps.
-/

namespace Amm
namespace Newton

theorem run_preserves (Holds : Int → Prop) {next : Int → Priced (Int × Bool)} {cause : PoolError}
    (keeps : ∀ current value ends, Holds current → next current = .ok (value, ends) → Holds value)
    {steps : Nat} {start result : Int} (starts : Holds start)
    (settles : run next cause steps start = .ok result) : Holds result := by
  induction steps generalizing start with
  | zero => simp [run] at settles
  | succ steps ih =>
      rw [run, Priced.bind_eq_ok] at settles
      obtain ⟨⟨value, ends⟩, stepped, rest⟩ := settles
      have holds : Holds value := keeps start value ends starts stepped
      cases ends with
      | true =>
          obtain rfl : value = result := by simpa using rest
          exact holds
      | false => exact ih holds (by simpa using rest)

theorem settle_preserves (Holds : Int → Prop) {next : Int → Priced Int} {cause : PoolError}
    (keeps : ∀ current value, Holds current → next current = .ok value → Holds value)
    {steps : Nat} {start result : Int} (starts : Holds start)
    (settles : settle next cause steps start = .ok result) : Holds result := by
  refine run_preserves Holds (fun current value ends holds stepped => ?_) starts settles
  obtain ⟨found, computed, same⟩ := Priced.bind_eq_ok.mp stepped
  obtain ⟨rfl, -⟩ : found = value ∧ withinOne found current = ends := by simpa using same
  exact keeps current found holds computed

/-- An iteration that settles has made its first step. -/
theorem settle_starts {next : Int → Priced Int} {cause : PoolError} {steps : Nat}
    {start result : Int} (settles : settle next cause steps start = .ok result) :
    ∃ value, next start = .ok value := by
  cases steps with
  | zero => simp [settle, run] at settles
  | succ steps =>
      rw [settle, run, Priced.bind_eq_ok] at settles
      obtain ⟨_, stepped, -⟩ := settles
      obtain ⟨value, computed, -⟩ := Priced.bind_eq_ok.mp stepped
      exact ⟨value, computed⟩

/-- An iteration whose first step ends gives the value of that step. -/
theorem run_of_ends {next : Int → Priced (Int × Bool)} {cause : PoolError} {steps : Nat}
    {start value : Int} (ends : next start = .ok (value, true)) :
    run next cause (steps + 1) start = .ok value := by
  simp [run, ends]

/-- An iteration from a value that a step keeps ends there. -/
theorem settle_of_fixed {next : Int → Priced Int} {cause : PoolError} {steps : Nat} {start : Int}
    (fixed : next start = .ok start) : settle next cause (steps + 1) start = .ok start := by
  have near : withinOne start start = true := by
    simp [withinOne, absDiff]
  apply run_of_ends
  rw [fixed, Priced.ok_bind, near]

/-- The values at which an iteration makes its steps: the start, and each value that does not end it. -/
inductive Visits (next : Int → Priced Int) (start : Int) : Int → Prop
  | start : Visits next start start
  | step {current value : Int} (visited : Visits next start current)
      (computed : next current = .ok value) (apart : withinOne value current = false) :
      Visits next start value

theorem Visits.preserves (Holds : Int → Prop) {next : Int → Priced Int} {start value : Int}
    (keeps : ∀ current value, Holds current → next current = .ok value → Holds value)
    (starts : Holds start) (visited : Visits next start value) : Holds value := by
  induction visited with
  | start => exact starts
  | step _ computed _ ih => exact keeps _ _ ih computed

theorem Visits.trans {next : Int → Priced Int} {start middle value : Int}
    (first : Visits next start middle) (rest : Visits next middle value) :
    Visits next start value := by
  induction rest with
  | start => exact first
  | step _ computed apart ih => exact .step ih computed apart

/-- An iteration that settles ends with a step from a value that it has visited, a neighbour of its
result. -/
theorem settle_visits {next : Int → Priced Int} {cause : PoolError} {steps : Nat}
    {start result : Int} (settles : settle next cause steps start = .ok result) :
    ∃ previous, Visits next start previous ∧ next previous = .ok result ∧
      withinOne result previous = true := by
  induction steps generalizing start with
  | zero => simp [settle, run] at settles
  | succ steps ih =>
      rw [settle, run, Priced.bind_eq_ok] at settles
      obtain ⟨⟨value, ends⟩, stepped, rest⟩ := settles
      obtain ⟨found, computed, same⟩ := Priced.bind_eq_ok.mp stepped
      obtain ⟨rfl, near⟩ : found = value ∧ withinOne found start = ends := by simpa using same
      cases ends with
      | true =>
          obtain rfl : found = result := by simpa using rest
          exact ⟨start, .start, computed, near⟩
      | false =>
          obtain ⟨previous, visited, last⟩ := ih (by simpa [settle] using rest)
          exact ⟨previous, (Visits.step .start computed near).trans visited, last⟩

theorem settle_ends (Holds : Int → Prop) {next : Int → Priced Int} {cause : PoolError}
    (keeps : ∀ current value, Holds current → next current = .ok value → Holds value)
    {steps : Nat} {start result : Int} (starts : Holds start)
    (settles : settle next cause steps start = .ok result) :
    ∃ previous, Holds previous ∧ next previous = .ok result ∧
      withinOne result previous = true := by
  obtain ⟨previous, visited, last⟩ := settle_visits settles
  exact ⟨previous, visited.preserves Holds keeps starts, last⟩

theorem run_avoids {next : Int → Priced (Int × Bool)} {cause other : PoolError}
    (each : ∀ current, Priced.Avoids cause (next current)) (differs : other ≠ cause) (steps : Nat)
    (start : Int) : Priced.Avoids cause (run next other steps start) := by
  induction steps generalizing start with
  | zero => exact .refuse differs
  | succ steps ih =>
      rw [run]
      refine .bind (each start) fun (value, ends) => ?_
      cases ends with
      | true => exact .value value
      | false => exact ih value

theorem settle_avoids {next : Int → Priced Int} {cause other : PoolError}
    (each : ∀ current, Priced.Avoids cause (next current)) (differs : other ≠ cause) (steps : Nat)
    (start : Int) : Priced.Avoids cause (settle next other steps start) :=
  run_avoids (fun current => .bind (each current) fun _ => .value _) differs steps start

/-- Iterations whose steps agree find the same value within the same number of steps. -/
theorem settle_agrees {next next' : Int → Priced Int} {cause cause' : PoolError}
    (each : ∀ current, Priced.Agrees (next current) (next' current)) (steps : Nat) (start : Int) :
    Priced.Agrees (settle next cause steps start) (settle next' cause' steps start) := by
  induction steps generalizing start with
  | zero => intro value; simp [settle, run]
  | succ steps ih =>
      refine .bind (.bind (each start) fun _ => .refl _) fun (value, ends) => ?_
      cases ends with
      | true => exact .refl _
      | false => exact ih value

/-- A step is made in the same way whatever the number of steps that may follow it, so a value found
among few steps is found among more. -/
theorem run_mono {next : Int → Priced (Int × Bool)} {cause : PoolError} {steps more : Nat}
    {start result : Int} (fewer : steps ≤ more) (settles : run next cause steps start = .ok result) :
    run next cause more start = .ok result := by
  induction steps generalizing more start with
  | zero => simp [run] at settles
  | succ steps ih =>
      obtain ⟨more, rfl⟩ : ∃ others, more = others + 1 := ⟨more - 1, by omega⟩
      rw [run, Priced.bind_eq_ok] at settles ⊢
      obtain ⟨⟨value, ends⟩, stepped, rest⟩ := settles
      refine ⟨⟨value, ends⟩, stepped, ?_⟩
      cases ends with
      | true => exact rest
      | false => exact ih (by omega) rest

/-- Within fewer steps the iteration finds the same value, or it runs out of steps. -/
theorem run_sooner {next : Int → Priced (Int × Bool)} {cause cause' : PoolError} {steps more : Nat}
    {start result : Int} (fewer : steps ≤ more) (settles : run next cause more start = .ok result) :
    run next cause' steps start = .ok result ∨
      run next cause' steps start = Priced.refuse cause' := by
  induction steps generalizing more start with
  | zero => exact .inr rfl
  | succ steps ih =>
      obtain ⟨more, rfl⟩ : ∃ others, more = others + 1 := ⟨more - 1, by omega⟩
      rw [run, Priced.bind_eq_ok] at settles
      obtain ⟨⟨value, ends⟩, stepped, rest⟩ := settles
      rw [run, stepped, Priced.ok_bind]
      cases ends with
      | true => exact .inl rest
      | false => exact ih (by omega) rest

end Newton
end Amm
