import Amm.Swap
import Mathlib.Data.List.Basic

/-!
What a trade does to a list of reserves: it moves the reserve of the token sold and the one of the
token bought, and no other.
-/

namespace Amm

/-- Reserves before and after a trade that brings `amountIn` of token `i` and takes `taken` of
token `j`. -/
structure Trades (before after : List Int) (i j : Nat) (amountIn taken : Int) : Prop where
  input : ∃ reserve, before[i]? = some reserve ∧ after[i]? = some (reserve + amountIn)
  output : ∃ reserve, before[j]? = some reserve ∧ after[j]? = some (reserve - taken)
  others : ∀ k, k ≠ i → k ≠ j → after[k]? = before[k]?

namespace Trades

variable {before after : List Int} {i j : Nat} {amountIn taken : Int}
  (trades : Trades before after i j amountIn taken)
include trades

theorem getD_input : after.getD i 0 = before.getD i 0 + amountIn := by
  obtain ⟨reserve, held, filled⟩ := trades.input
  simp [List.getD_eq_getElem?_getD, held, filled]

theorem getD_output : after.getD j 0 = before.getD j 0 - taken := by
  obtain ⟨reserve, held, left⟩ := trades.output
  simp [List.getD_eq_getElem?_getD, held, left]

theorem getD_others {k : Nat} (notIn : k ≠ i) (notOut : k ≠ j) : after.getD k 0 = before.getD k 0 := by
  rw [List.getD_eq_getElem?_getD, List.getD_eq_getElem?_getD, trades.others k notIn notOut]

end Trades

section
variable {before : List Int} {i j : Nat} {amountIn taken reserve : Int}

/-- Every trade is written like this, with the reserve of token `j` read beforehand. -/
theorem trades_of_set (different : i ≠ j) (bound : i < before.length)
    (reserveAt : before[j]? = some reserve) :
    Trades before ((before.modify i (· + amountIn)).set j (reserve - taken)) i j amountIn taken := by
  have boundOut : j < before.length := (List.getElem?_eq_some_iff.mp reserveAt).1
  refine ⟨⟨before[i], List.getElem?_eq_getElem bound, ?_⟩, ⟨reserve, reserveAt, ?_⟩, ?_⟩
  · rw [List.getElem?_set_ne different.symm, List.getElem?_modify_eq,
      List.getElem?_eq_getElem bound]
    rfl
  · rw [List.getElem?_set_self (by simpa using boundOut)]
  · intro k notIn notOut
    rw [List.getElem?_set_ne notOut.symm, List.getElem?_modify]
    simp [notIn.symm]

/-- The two reserves may be written in either order. -/
theorem modify_set_comm (different : i ≠ j) :
    (before.set j reserve).modify i (· + amountIn) =
      (before.modify i (· + amountIn)).set j reserve := by
  refine List.ext_getElem? fun k => ?_
  rw [List.getElem?_modify, List.getElem?_set, List.getElem?_set, List.getElem?_modify,
    List.length_modify]
  by_cases sold : i = k
  · subst sold
    simp [different.symm]
  · simp [sold]

end

/-- A deposit of one amount is written into one reserve. -/
theorem zipWith_add_singleAmount {reserves : List Int} {n i : Nat} {amount : Int}
    (count : reserves.length = n) :
    reserves.zipWith (· + ·) (singleAmount n i amount) = reserves.modify i (· + amount) := by
  refine List.ext_getElem (by simp [singleAmount, count]) fun k first second => ?_
  rw [List.getElem_zipWith, List.getElem_modify]
  simp only [singleAmount, List.getElem_set, List.getElem_replicate]
  split <;> simp

end Amm
