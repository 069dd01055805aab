import Amm.Proofs.Priced
import Amm.Time
import Mathlib.Order.Defs.LinearOrder

/-!
Times are in order, and so are the seconds that have passed from one of them. The seconds between two
times are defined as long as 64 bits hold them, so they are between two times that lie between such
two.
-/

namespace Amm

instance : LinearOrder Time where
  le_refl := Int64.le_refl
  le_trans := fun _ _ _ => Int64.le_trans
  lt_iff_le_not_ge := fun earlier later => by
    rw [Int64.not_le, iff_and_self]
    exact Int64.le_of_lt
  le_antisymm := fun _ _ => Int64.le_antisymm
  le_total := Int64.le_total
  toDecidableLE := inferInstance
  toDecidableEq := inferInstance
  toDecidableLT := inferInstance

namespace Time
variable {start middle now finish : Time}

/-- The seconds from `start` to `now` are defined. -/
def Fits (start now : Time) : Prop :=
  InRange (now.toInt - start.toInt)

instance : Decidable (Fits start now) :=
  inferInstanceAs (Decidable (InRange _))

theorem since_of_fits (fits : Fits start now) : now.since start = .ok (now.toInt - start.toInt) :=
  if_pos fits

theorem since_of_not_fits (far : ¬ Fits start now) :
    now.since start = Priced.abort .timeOverflow :=
  if_neg far

theorem since_eq_ok {seconds : Int} :
    now.since start = .ok seconds ↔ Fits start now ∧ now.toInt - start.toInt = seconds := by
  by_cases fits : Fits start now
  · rw [since_of_fits fits, Except.ok.injEq, and_iff_right fits]
  · rw [since_of_not_fits fits]
    exact iff_of_false (Priced.abort_ne_ok _ _) fun both => fits both.1

theorem since_avoids {cause : PoolError} : Priced.Avoids cause (now.since start) := by
  by_cases fits : Fits start now
  · rw [since_of_fits fits]
    exact .value _
  · rw [since_of_not_fits fits]
    exact .abort

theorem toInt_sub_pos : 0 < finish.toInt - start.toInt ↔ start < finish := by
  rw [sub_pos, Int64.lt_iff_toInt_lt]

/-- A time between two times is as near to the first one. -/
theorem Fits.of_le (fits : Fits start finish) (after : start ≤ middle) (before : middle ≤ finish) :
    Fits start middle := by
  obtain ⟨-, most⟩ := fits
  rw [Int64.le_iff_toInt_le] at after before
  refine ⟨?_, by omega⟩
  have least : Int64.minValue.toInt ≤ 0 := by decide
  omega

end Time
end Amm
