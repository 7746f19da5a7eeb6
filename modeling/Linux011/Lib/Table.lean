import Mathlib.Logic.Function.Basic

/-!
# Tables

A table is a function into an option type: the entries that are in use. Where an entry of a table comes
from after one entry was set or cleared.
-/

namespace Linux011.Table

variable {ι α : Type*} [DecidableEq ι] {f : ι → Option α} {i j : ι} {a b : α}

theorem update_some_cases (h : Function.update f i (some a) j = some b) :
    (j = i ∧ b = a) ∨ (j ≠ i ∧ f j = some b) := by
  by_cases hj : j = i
  · subst hj
    rw [Function.update_self] at h
    exact .inl ⟨rfl, (Option.some.inj h).symm⟩
  · rw [Function.update_of_ne hj] at h
    exact .inr ⟨hj, h⟩

theorem update_none_cases (h : Function.update f i none j = some b) : j ≠ i ∧ f j = some b := by
  by_cases hj : j = i
  · subst hj
    rw [Function.update_self] at h
    cases h
  · rw [Function.update_of_ne hj] at h
    exact ⟨hj, h⟩

end Linux011.Table
