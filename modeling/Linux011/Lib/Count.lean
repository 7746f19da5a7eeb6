import Mathlib.Data.Finset.Card
import Mathlib.Data.Finset.Prod
import Mathlib.Algebra.Order.BigOperators.Group.Finset

/-!
# Counting the references to an object

How the number of elements of a finite set that satisfy a predicate changes when the predicate
changes at one element, and a bound from a map that is injective on them. `sum_update` is the same for
a sum over the values of a function.
-/

namespace Linux011.Count

variable {α β : Type*} [DecidableEq α] {S : Finset α} {P Q : α → Prop} [DecidablePred P]
  [DecidablePred Q] {a : α}

omit [DecidableEq α] in
/-- A predicate that changes nowhere keeps its count. -/
theorem card_filter_congr (h : ∀ x ∈ S, (Q x ↔ P x)) : (S.filter Q).card = (S.filter P).card := by
  rw [Finset.filter_congr h]

/-- A predicate that becomes true at `a` only gains one. -/
theorem card_filter_gain (ha : a ∈ S) (hP : ¬ P a) (hQ : Q a)
    (h : ∀ x ∈ S, x ≠ a → (Q x ↔ P x)) : (S.filter Q).card = (S.filter P).card + 1 := by
  have hins : S.filter Q = insert a (S.filter P) := by
    ext x
    simp only [Finset.mem_filter, Finset.mem_insert]
    by_cases hx : x = a
    · subst hx; simp [ha, hQ]
    · constructor
      · rintro ⟨hS, hx'⟩; exact .inr ⟨hS, (h x hS hx).1 hx'⟩
      · rintro (h' | ⟨hS, hx'⟩)
        · exact absurd h' hx
        · exact ⟨hS, (h x hS hx).2 hx'⟩
  rw [hins, Finset.card_insert_of_notMem (by simp [hP])]

/-- A predicate that becomes false at `a` only loses one. -/
theorem card_filter_lose (ha : a ∈ S) (hP : P a) (hQ : ¬ Q a)
    (h : ∀ x ∈ S, x ≠ a → (Q x ↔ P x)) : (S.filter Q).card + 1 = (S.filter P).card :=
  (card_filter_gain ha hQ hP fun x hS hx => (h x hS hx).symm).symm

/-- How a count changes with a predicate that changes at `a` only. -/
theorem card_filter_change (ha : a ∈ S) (h : ∀ x ∈ S, x ≠ a → (Q x ↔ P x)) :
    (S.filter Q).card + (if P a then 1 else 0) = (S.filter P).card + (if Q a then 1 else 0) := by
  by_cases hP : P a <;> by_cases hQ : Q a
  · rw [if_pos hP, if_pos hQ, card_filter_congr (P := P) (Q := Q)]
    intro x hx
    by_cases hxa : x = a
    · subst hxa; exact ⟨fun _ => hP, fun _ => hQ⟩
    · exact h x hx hxa
  · rw [if_pos hP, if_neg hQ]
    exact card_filter_lose ha hP hQ h
  · rw [if_neg hP, if_pos hQ]
    exact card_filter_gain ha hP hQ h
  · rw [if_neg hP, if_neg hQ, card_filter_congr (P := P) (Q := Q)]
    intro x hx
    by_cases hxa : x = a
    · subst hxa; exact ⟨fun h => absurd h hQ, fun h => absurd h hP⟩
    · exact h x hx hxa

section

omit [DecidableEq α]

/-- A count is zero when nothing satisfies the predicate. -/
theorem card_filter_eq_zero_iff : (S.filter P).card = 0 ↔ ∀ x ∈ S, ¬ P x := by
  rw [Finset.card_eq_zero, Finset.filter_eq_empty_iff]

theorem card_filter_pos (ha : a ∈ S) (hP : P a) : 0 < (S.filter P).card :=
  Finset.card_pos.2 ⟨a, by simp [ha, hP]⟩

/-- A count of one has at most one element satisfying the predicate. -/
theorem eq_of_card_filter_le_one (h : (S.filter P).card ≤ 1) {b : α} (ha : a ∈ S) (hP : P a)
    (hb : b ∈ S) (hPb : P b) : a = b :=
  Finset.card_le_one.1 h a (by simp [ha, hP]) b (by simp [hb, hPb])

/-- A count is bounded by the size of a set into which the satisfying elements are mapped
injectively. -/
theorem card_filter_le [DecidableEq β] (f : α → β) (U : Finset β)
    (hf : ∀ x ∈ S, P x → f x ∈ U)
    (hinj : ∀ x ∈ S, P x → ∀ y ∈ S, P y → f x = f y → x = y) : (S.filter P).card ≤ U.card := by
  refine Finset.card_le_card_of_injOn f (fun x hx => ?_) (fun x hx y hy => ?_)
  · obtain ⟨hS, hx⟩ := by simpa using hx
    exact hf x hS hx
  · obtain ⟨hS, hx⟩ := by simpa using hx
    obtain ⟨hS', hy⟩ := by simpa using hy
    exact hinj x hS hx y hS' hy

end

/-- A sum over the values of a function when one value changes. -/
theorem sum_update {ι γ : Type*} [Fintype ι] [DecidableEq ι] (f : ι → γ) (g : γ → ℕ) (i : ι) (x : γ) :
    ∑ j, g (Function.update f i x j) + g (f i) = ∑ j, g (f j) + g x := by
  rw [← Finset.add_sum_erase _ _ (Finset.mem_univ i),
    ← Finset.add_sum_erase _ (fun j => g (f j)) (Finset.mem_univ i), Function.update_self]
  have hrest : ∑ j ∈ Finset.univ.erase i, g (Function.update f i x j) =
      ∑ j ∈ Finset.univ.erase i, g (f j) :=
    Finset.sum_congr rfl fun j hj => by rw [Function.update_of_ne (Finset.ne_of_mem_erase hj)]
  omega

end Linux011.Count
