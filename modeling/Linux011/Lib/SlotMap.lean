import Linux011.Lib.Table

/-!
# Tables that hold a map

A table whose entries are pairs of a key and a value, in any order and with free entries anywhere.
`Holds` says that it has each key once at most, and which map that is. `insert` fills a free entry,
`erase` frees one.
-/

namespace Linux011.SlotMap

variable {ι κ α : Type*} {t t' : ι → Option (κ × α)} {m : κ → Option α} {i j : ι} {k : κ} {a b : α}

/-- The table has the pairs of the map, and no key twice. -/
structure Holds (t : ι → Option (κ × α)) (m : κ → Option α) : Prop where
  unique : ∀ i j k a b, t i = some (k, a) → t j = some (k, b) → i = j
  map : ∀ k a, m k = some a ↔ ∃ i, t i = some (k, a)

namespace Holds

theorem get (h : Holds t m) (hi : t i = some (k, a)) : m k = some a :=
  (h.map k a).2 ⟨i, hi⟩

theorem none_iff (h : Holds t m) : m k = none ↔ ∀ i a, t i ≠ some (k, a) := by
  constructor
  · intro hk i a hi
    rw [h.get hi] at hk
    cases hk
  · intro hk
    cases hm : m k with
    | none => rfl
    | some a =>
      obtain ⟨i, hi⟩ := (h.map k a).1 hm
      exact absurd hi (hk i a)

/-- A key that is new comes into a free entry. -/
theorem insert [DecidableEq ι] [DecidableEq κ] (h : Holds t m) (hi : t i = none) (hk : m k = none) :
    Holds (Function.update t i (some (k, a))) (Function.update m k (some a)) := by
  have hnew := h.none_iff.1 hk
  refine ⟨fun j j' k' b b' hj hj' => ?_, fun k' b => ?_⟩
  · rcases Table.update_some_cases hj with ⟨rfl, hkb⟩ | ⟨hji, hj⟩
    · rcases Table.update_some_cases hj' with ⟨rfl, -⟩ | ⟨-, hj'⟩
      · rfl
      · cases hkb
        exact absurd hj' (hnew j' b')
    · rcases Table.update_some_cases hj' with ⟨-, hkb⟩ | ⟨-, hj'⟩
      · cases hkb
        exact absurd hj (hnew j b)
      · exact h.unique j j' k' b b' hj hj'
  · constructor
    · intro hb
      by_cases hkk : k' = k
      · subst hkk
        rw [Function.update_self] at hb
        cases hb
        exact ⟨i, Function.update_self _ _ _⟩
      · rw [Function.update_of_ne hkk] at hb
        obtain ⟨j, hj⟩ := (h.map k' b).1 hb
        refine ⟨j, ?_⟩
        rw [Function.update_of_ne]
        · exact hj
        · rintro rfl
          rw [hi] at hj
          cases hj
    · rintro ⟨j, hj⟩
      rcases Table.update_some_cases hj with ⟨rfl, hkb⟩ | ⟨-, hold⟩
      · cases hkb
        exact Function.update_self _ _ _
      · rw [Function.update_of_ne]
        · exact h.get hold
        · rintro rfl
          exact hnew j b hold

/-- An entry is freed. -/
theorem erase [DecidableEq ι] [DecidableEq κ] (h : Holds t m) (hi : t i = some (k, a)) :
    Holds (Function.update t i none) (Function.update m k none) := by
  refine ⟨fun j j' k' b b' hj hj' => ?_, fun k' b => ?_⟩
  · exact h.unique j j' k' b b' (Table.update_none_cases hj).2 (Table.update_none_cases hj').2
  · constructor
    · intro hb
      by_cases hkk : k' = k
      · subst hkk
        rw [Function.update_self] at hb
        cases hb
      · rw [Function.update_of_ne hkk] at hb
        obtain ⟨j, hj⟩ := (h.map k' b).1 hb
        refine ⟨j, ?_⟩
        rw [Function.update_of_ne]
        · exact hj
        · rintro rfl
          rw [hi] at hj
          cases hj
          exact hkk rfl
    · rintro ⟨j, hj⟩
      obtain ⟨hji, hj⟩ := Table.update_none_cases hj
      rw [Function.update_of_ne]
      · exact h.get hj
      · rintro rfl
        exact hji (h.unique j i k' b a hj hi)

end Holds

end Linux011.SlotMap
