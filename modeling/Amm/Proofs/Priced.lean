import Amm.Failure
import Mathlib.Data.Int.DivMod
import Mathlib.Data.List.Forall2
import Mathlib.Tactic.Linarith

/-!
When a pricing succeeds. Each step of a pricing has one lemma that says when it gives a value and
which one, so a successful operation comes apart into the values of its steps.
-/

namespace Amm
namespace Priced

theorem bind_eq_ok {α β : Type} {step : Priced α} {next : α → Priced β} {result : β} :
    (step >>= next) = .ok result ↔ ∃ value, step = .ok value ∧ next value = .ok result := by
  cases step <;> simp [bind, Except.bind]

@[simp] theorem ok_bind {α β : Type} (value : α) (next : α → Priced β) :
    ((.ok value : Priced α) >>= next) = next value := by
  simp [bind, Except.bind]

@[simp] theorem error_bind {α β : Type} (failure : Failure) (next : α → Priced β) :
    ((.error failure : Priced α) >>= next) = .error failure := by
  simp [bind, Except.bind]

@[simp] theorem refuse_bind {α β : Type} (cause : PoolError) (next : α → Priced β) :
    ((refuse cause : Priced α) >>= next) = refuse cause := by
  simp [refuse, bind, Except.bind]

@[simp] theorem refuse_ne_ok {α : Type} (cause : PoolError) (value : α) :
    refuse cause ≠ .ok value := by
  simp [refuse]

@[simp] theorem abort_ne_ok {α : Type} (fault : Fault) (value : α) : abort fault ≠ .ok value := by
  simp [abort]

/-- A choice between two steps before the same continuation. -/
theorem ite_bind {α β : Type} {condition : Prop} [Decidable condition] {first second : Priced α}
    {next : α → Priced β} :
    (if condition then first >>= next else second >>= next) =
      (if condition then first else second) >>= next := by
  split <;> rfl

theorem require_eq_ok {condition : Bool} {cause : PoolError} {result : Unit} :
    require condition cause = .ok result ↔ condition = true := by
  cases condition <;> simp [require]

/-- A step that has a requirement before it. -/
theorem require_bind {α : Type} {condition : Prop} [Decidable condition] {cause : PoolError}
    {next : Priced α} :
    (require condition cause >>= fun _ => next) = if condition then next else refuse cause := by
  by_cases met : condition
  · rw [require, decide_eq_true met, if_pos rfl, ok_bind, if_pos met]
  · rw [require, decide_eq_false met, if_neg Bool.false_ne_true, refuse_bind, if_neg met]

theorem quotient_eq_ok {a b result : Int} :
    quotient a b = .ok result ↔ b ≠ 0 ∧ a.fdiv b = result := by
  by_cases zero : b = 0 <;> simp [quotient, Fixed.divDown, ofFixed, zero]

/-- Two quotients in a row are one quotient by the product. -/
theorem quotient_mul {a b c first second : Int} (positive : 0 < b) (positive' : 0 < c)
    (inner : quotient a b = .ok first) (outer : quotient first c = .ok second) :
    quotient a (b * c) = .ok second := by
  rw [quotient_eq_ok] at inner outer ⊢
  refine ⟨mul_ne_zero inner.1 outer.1, ?_⟩
  rw [← Int.fdiv_fdiv_eq_fdiv_mul a positive.le positive'.le, inner.2, outer.2]

theorem bareQuotient_eq_ok {a b result : Int} :
    bareQuotient a b = .ok result ↔ b ≠ 0 ∧ a.fdiv b = result := by
  by_cases zero : b = 0 <;> simp [bareQuotient, zero]

theorem entry_eq_ok {α : Type} {values : List α} {index : Nat} {result : α} :
    entry values index = .ok result ↔ values[index]? = some result := by
  cases found : values[index]? <;> simp [entry, found]

theorem modify_eq_ok {α : Type} {values result : List α} {index : Nat} {change : α → α} :
    modify values index change = .ok result ↔
      index < values.length ∧ values.modify index change = result := by
  by_cases inside : index < values.length <;> simp [modify, inside]

theorem ofOption_eq_ok {α : Type} {value : Option α} {cause : PoolError} {result : α} :
    ofOption value cause = .ok result ↔ value = some result := by
  cases value <;> simp [ofOption]

theorem map_eq_ok {α β : Type} {step : Priced α} {part : α → β} {result : β} :
    step.map part = .ok result ↔ ∃ value, step = .ok value ∧ part value = result := by
  cases step <;> simp [Except.map]

theorem foldlM_preserves {α β : Type} (Holds : α → Prop) {step : α → β → Priced α}
    {items : List β} {start result : α} (starts : Holds start)
    (keeps : ∀ current item next, item ∈ items → Holds current →
      step current item = .ok next → Holds next)
    (succeeds : items.foldlM step start = .ok result) : Holds result := by
  induction items generalizing start with
  | nil =>
      obtain rfl : start = result := by simpa [pure, Except.pure] using succeeds
      exact starts
  | cons item items ih =>
      rw [List.foldlM_cons, bind_eq_ok] at succeeds
      obtain ⟨middle, first, rest⟩ := succeeds
      have holds : Holds middle := keeps start item middle (by simp) starts first
      exact ih holds (fun current other next member => keeps current other next (by simp [member]))
        rest

/-- A fold succeeds if it can make its step for each item, whatever it has come to. -/
theorem exists_foldlM {α β : Type} {step : α → β → Priced α} {items : List β}
    (each : ∀ item ∈ items, ∀ current, ∃ next, step current item = .ok next) (start : α) :
    ∃ result, items.foldlM step start = .ok result := by
  induction items generalizing start with
  | nil => exact ⟨start, rfl⟩
  | cons item items ih =>
      obtain ⟨first, rest⟩ := List.forall_mem_cons.mp each
      obtain ⟨next, stepped⟩ := first start
      rw [List.foldlM_cons, stepped, ok_bind]
      exact ih rest next

/-- A fold that succeeds has made a step for each item. -/
theorem foldlM_visits {α β : Type} {step : α → β → Priced α} {items : List β} {start result : α}
    (succeeds : items.foldlM step start = .ok result) {item : β} (member : item ∈ items) :
    ∃ current next, step current item = .ok next := by
  induction items generalizing start with
  | nil => simp at member
  | cons first items ih =>
      rw [List.foldlM_cons, bind_eq_ok] at succeeds
      obtain ⟨middle, stepped, rest⟩ := succeeds
      rcases List.mem_cons.mp member with rfl | later
      · exact ⟨start, middle, stepped⟩
      · exact ih rest later

/-- A list of checks that passes has passed each of them. -/
theorem forM_passes {α : Type} {check : α → Priced PUnit} {items : List α} {done : PUnit}
    (succeeds : items.forM check = .ok done) {item : α} (member : item ∈ items) :
    ∃ passed, check item = .ok passed := by
  induction items with
  | nil => simp at member
  | cons first items ih =>
      rw [List.forM_eq_forM, List.forM_cons, bind_eq_ok] at succeeds
      obtain ⟨passed, checked, rest⟩ := succeeds
      rcases List.mem_cons.mp member with rfl | later
      · exact ⟨passed, checked⟩
      · exact ih rest later

/-- A list of checks of which each passes passes as a whole. -/
theorem forM_of_passes {α : Type} {check : α → Priced PUnit} {items : List α}
    (each : ∀ item ∈ items, check item = .ok ()) : items.forM check = .ok () := by
  induction items with
  | nil => rfl
  | cons first items ih =>
      obtain ⟨passed, others⟩ := List.forall_mem_cons.mp each
      rw [List.forM_eq_forM, List.forM_cons, passed, ok_bind]
      exact ih others

/-- The results of a list of steps, each with its item. -/
theorem mapM_forall₂ {α β : Type} {step : α → Priced β} {items : List α} {results : List β}
    (succeeds : items.mapM step = .ok results) :
    List.Forall₂ (fun item result => step item = .ok result) items results := by
  induction items generalizing results with
  | nil =>
      obtain rfl : [] = results := by simpa [pure, Except.pure] using succeeds
      exact .nil
  | cons item items ih =>
      rw [List.mapM_cons, bind_eq_ok] at succeeds
      obtain ⟨first, stepped, rest⟩ := succeeds
      obtain ⟨others, mapped, same⟩ := bind_eq_ok.mp rest
      obtain rfl : first :: others = results := by simpa [pure, Except.pure] using same
      exact .cons stepped (ih mapped)

theorem mapM_length {α β : Type} {step : α → Priced β} {items : List α} {results : List β}
    (succeeds : items.mapM step = .ok results) : results.length = items.length :=
  (mapM_forall₂ succeeds).length_eq.symm

/-- Steps that give what a function gives, whenever they give something. -/
theorem mapM_eq_map {α β : Type} (f : α → β) {step : α → Priced β} {items : List α}
    {results : List β} (each : ∀ item result, step item = .ok result → f item = result)
    (succeeds : items.mapM step = .ok results) : items.map f = results := by
  have same := List.forall₂_map_left_iff.mpr ((mapM_forall₂ succeeds).imp each)
  rwa [List.forall₂_eq_eq_eq] at same

/-- A step that does not end in the given refusal. -/
def Avoids {α : Type} (cause : PoolError) (step : Priced α) : Prop :=
  step ≠ refuse cause

namespace Avoids

variable {α β : Type} {cause : PoolError}

theorem value (result : α) : Avoids cause (.ok result) := by
  simp [Avoids, Priced.refuse]

theorem refuse {other : PoolError} (differs : other ≠ cause) :
    Avoids cause (Priced.refuse other : Priced α) := by
  simp [Avoids, Priced.refuse, differs]

theorem abort {fault : Fault} : Avoids cause (Priced.abort fault : Priced α) := by
  simp [Avoids, Priced.refuse, Priced.abort]

theorem bind {step : Priced α} {next : α → Priced β} (first : Avoids cause step)
    (rest : ∀ value, Avoids cause (next value)) : Avoids cause (step >>= next) := by
  cases step with
  | error failure => simpa [Avoids, Priced.refuse] using first
  | ok value =>
      rw [ok_bind]
      exact rest value

theorem require {condition : Bool} {other : PoolError} (differs : other ≠ cause) :
    Avoids cause (Priced.require condition other) := by
  cases condition with
  | false => exact refuse differs
  | true => exact value ()

theorem quotient {a b : Int} (differs : .denominatorZero ≠ cause) :
    Avoids cause (Priced.quotient a b) := by
  by_cases zero : b = 0
  · simp [Avoids, Priced.refuse, Priced.quotient, Fixed.divDown, ofFixed, zero, differs]
  · simp [Avoids, Priced.refuse, Priced.quotient, Fixed.divDown, ofFixed, zero]

theorem bareQuotient {a b : Int} : Avoids cause (Priced.bareQuotient a b) := by
  by_cases zero : b = 0
  · simp [Avoids, Priced.refuse, Priced.bareQuotient, Priced.abort, zero]
  · simp [Avoids, Priced.refuse, Priced.bareQuotient, zero]

theorem entry {values : List α} {index : Nat} : Avoids cause (Priced.entry values index) := by
  cases found : values[index]? <;> simp [Avoids, Priced.entry, Priced.refuse, Priced.abort, found]

theorem modify {values : List α} {index : Nat} {change : α → α} :
    Avoids cause (Priced.modify values index change) := by
  by_cases inside : index < values.length <;>
    simp [Avoids, Priced.modify, Priced.refuse, Priced.abort, inside]

theorem foldlM {step : α → β → Priced α} (each : ∀ current item, Avoids cause (step current item))
    (items : List β) (start : α) : Avoids cause (items.foldlM step start) := by
  induction items generalizing start with
  | nil => exact value start
  | cons item items ih =>
      rw [List.foldlM_cons]
      exact bind (each start item) ih

theorem mapM {step : α → Priced β} (each : ∀ item, Avoids cause (step item)) (items : List α) :
    Avoids cause (items.mapM step) := by
  induction items with
  | nil => exact value []
  | cons item items ih =>
      rw [List.mapM_cons]
      exact bind (each item) fun first => bind ih fun rest => value (first :: rest)

theorem forM {step : α → Priced PUnit} (each : ∀ item, Avoids cause (step item))
    (items : List α) : Avoids cause (items.forM step) := by
  induction items with
  | nil => exact value ()
  | cons item items ih => exact bind (each item) fun _ => ih

/-- A refusal that the first step avoids is one of the second step. -/
theorem bind_eq_refuse {step : Priced α} {next : α → Priced β} (first : Avoids cause step) :
    (step >>= next) = Priced.refuse cause ↔
      ∃ value, step = .ok value ∧ next value = Priced.refuse cause := by
  cases step with
  | error failure => simpa [Avoids, Priced.refuse] using first
  | ok value => simp only [ok_bind, Except.ok.injEq, exists_eq_left']

/-- A refusal that the second step avoids is one of the first step. -/
theorem bind_eq_refuse_first {step : Priced α} {next : α → Priced β}
    (rest : ∀ value, Avoids cause (next value)) :
    (step >>= next) = Priced.refuse cause ↔ step = Priced.refuse cause := by
  cases step with
  | error failure => simp [Priced.refuse]
  | ok result =>
      rw [ok_bind]
      exact iff_of_false (rest result) (value result)

end Avoids

/-- Steps that give the same value where they give one. They may fail for different reasons. -/
def Agrees {α : Type} (first second : Priced α) : Prop :=
  ∀ value, first = .ok value ↔ second = .ok value

namespace Agrees

variable {α β : Type}

theorem refl (step : Priced α) : Agrees step step := fun _ => Iff.rfl

theorem bind {first second : Priced α} {next next' : α → Priced β} (agreed : Agrees first second)
    (rest : ∀ value, Agrees (next value) (next' value)) :
    Agrees (first >>= next) (second >>= next') := by
  intro result
  simp only [bind_eq_ok]
  exact exists_congr fun value => and_congr (agreed value) (rest value result)

theorem foldlM {step step' : α → β → Priced α}
    (each : ∀ current item, Agrees (step current item) (step' current item)) (items : List β)
    (start : α) : Agrees (items.foldlM step start) (items.foldlM step' start) := by
  induction items generalizing start with
  | nil => exact refl _
  | cons item items ih =>
      simp only [List.foldlM_cons]
      exact bind (each start item) ih

end Agrees

end Priced
end Amm
