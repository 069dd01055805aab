import Amm.Pool.Composable.Basic
import Amm.Proofs.Priced

/-!
Where the tokens of a composable pool stand. The share token is registered among them, and the short
lists have no entry for it, so every token after it stands one place earlier there. The two ways from
one index to the other undo each other, and an operation on a short list is the one on the registered
list, at the other index.
-/

namespace Amm
namespace ComposablePool

variable {pool : ComposablePool} {i j k l m : Nat}

theorem skipShare_eq_ok (skipped : pool.skipShare i = .ok k) (other : i ≠ pool.shareIndex) :
    i < pool.shareIndex ∧ k = i ∨ pool.shareIndex < i ∧ i = k + 1 := by
  unfold skipShare at skipped
  split at skipped
  · exact .inl ⟨‹_›, (Except.ok.inj skipped).symm⟩
  · split at skipped
    · exact absurd skipped (Priced.abort_ne_ok _ _)
    · have := Except.ok.inj skipped
      exact .inr (by omega)

theorem skipShare_registered (k : Nat) : pool.skipShare (pool.registered k) = .ok k := by
  unfold skipShare registered
  by_cases before : k < pool.shareIndex
  · rw [if_pos before, if_pos before]
  · rw [if_neg before, if_neg (by omega), if_neg (by omega), Nat.add_sub_cancel]

theorem registered_ne (k : Nat) : pool.registered k ≠ pool.shareIndex := by
  unfold registered
  split <;> omega

theorem registered_skipShare (skipped : pool.skipShare i = .ok k) (other : i ≠ pool.shareIndex) :
    pool.registered k = i := by
  unfold registered
  rcases skipShare_eq_ok skipped other with ⟨before, rfl⟩ | ⟨after, rfl⟩
  · rw [if_pos before]
  · rw [if_neg (by omega)]

theorem registered_eq_iff (skipped : pool.skipShare i = .ok k) (other : i ≠ pool.shareIndex) :
    pool.registered m = i ↔ m = k := by
  constructor
  · rintro rfl
    exact Except.ok.inj ((skipShare_registered m).symm.trans skipped)
  · rintro rfl
    exact registered_skipShare skipped other

theorem skipShare_ne (first : pool.skipShare i = .ok k) (second : pool.skipShare j = .ok l)
    (notIn : i ≠ pool.shareIndex) (notOut : j ≠ pool.shareIndex) (different : i ≠ j) : k ≠ l := by
  rintro rfl
  exact different ((registered_skipShare first notIn).symm.trans (registered_skipShare second notOut))

/-- Only the share token itself could have a place before the first. -/
theorem exists_skipShare (other : i ≠ pool.shareIndex) : ∃ k, pool.skipShare i = .ok k := by
  unfold skipShare
  split
  · exact ⟨_, rfl⟩
  · rw [if_neg (by omega)]
    exact ⟨_, rfl⟩

theorem registered_lt_iff (inside : pool.shareIndex < pool.tokens.length) :
    pool.registered k < pool.tokens.length ↔ k < pool.tokens.length - 1 := by
  unfold registered
  split <;> omega

section
variable {α : Type} {values : List α}

theorem length_dropShare (inside : pool.shareIndex < values.length) :
    (pool.dropShare values).length = values.length - 1 :=
  List.length_eraseIdx_of_lt inside

/-- An entry of a short list is the one of its registered token. -/
theorem dropShare_registered (values : List α) (k : Nat) :
    (pool.dropShare values)[k]? = values[pool.registered k]? := by
  rw [dropShare, List.getElem?_eraseIdx, registered]
  split <;> rfl

/-- The entry of a token keeps its value where the entry of the share token is left out. -/
theorem dropShare_getElem? (skipped : pool.skipShare i = .ok k) (other : i ≠ pool.shareIndex) :
    (pool.dropShare values)[k]? = values[i]? := by
  rw [dropShare_registered, registered_skipShare skipped other]

theorem entry_dropShare (skipped : pool.skipShare i = .ok k) (other : i ≠ pool.shareIndex) :
    Priced.entry (pool.dropShare values) k = Priced.entry values i := by
  rw [Priced.entry, Priced.entry, dropShare_getElem? skipped other]

theorem dropShare_modify {change : α → α} (skipped : pool.skipShare i = .ok k)
    (other : i ≠ pool.shareIndex) :
    pool.dropShare (values.modify i change) = (pool.dropShare values).modify k change := by
  refine List.ext_getElem? fun m => ?_
  have same : i = pool.registered m ↔ k = m := by
    rw [eq_comm, registered_eq_iff skipped other, eq_comm]
  simp only [dropShare_registered, List.getElem?_modify, same]

theorem dropShare_set {value : α} (skipped : pool.skipShare i = .ok k)
    (other : i ≠ pool.shareIndex) :
    pool.dropShare (values.set i value) = (pool.dropShare values).set k value := by
  rcases skipShare_eq_ok skipped other with ⟨before, rfl⟩ | ⟨after, rfl⟩
  · exact List.eraseIdx_set_gt before
  · exact List.eraseIdx_set_lt after

theorem dropShare_zipWith {β γ : Type} (f : α → β → γ) (values : List α) (values' : List β) :
    pool.dropShare (values.zipWith f values') =
      (pool.dropShare values).zipWith f (pool.dropShare values') := by
  refine List.ext_getElem? fun m => ?_
  simp only [dropShare_registered, List.getElem?_zipWith]

end

end ComposablePool
end Amm
