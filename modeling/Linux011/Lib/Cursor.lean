import Mathlib.Data.List.Basic

/-!
# A cursor into a text

A text with a terminator behind it, read one item at a time. `peek` is none behind the terminator; `At` says
what is left of the text at a cursor.
-/

namespace Linux011.Cursor

variable {α : Type*} {text t : List α} {nul a : α} {i : ℕ}

/-- The item at `i`; the terminator is the last one. -/
def peek (nul : α) (text : List α) (i : ℕ) : Option α := (text ++ [nul])[i]?

/-- `t` is the text from `i` on. -/
def At (text : List α) (i : ℕ) (t : List α) : Prop := ∃ before, text = before ++ t ∧ before.length = i

theorem at_zero (text : List α) : At text 0 text := ⟨[], rfl, rfl⟩

theorem At.peek (h : At text i t) (nul : α) : peek nul text i = some (t.headD nul) := by
  obtain ⟨before, rfl, rfl⟩ := h
  unfold Cursor.peek
  rw [List.append_assoc, List.getElem?_append_right (Nat.le_refl _), Nat.sub_self]
  cases t <;> rfl

theorem At.next (h : At text i (a :: t)) : At text (i + 1) t := by
  obtain ⟨before, rfl, rfl⟩ := h
  exact ⟨before ++ [a], by simp, by simp⟩

/-- A piece of the text is skipped. -/
theorem At.skip {s : List α} (h : At text i (s ++ t)) : At text (i + s.length) t := by
  obtain ⟨before, rfl, rfl⟩ := h
  exact ⟨before ++ s, by simp, by simp⟩

theorem At.add_length (h : At text i t) : i + t.length = text.length := by
  obtain ⟨before, rfl, rfl⟩ := h
  simp

/-- Where there is an item to read, the cursor is not behind the terminator. -/
theorem le_of_peek (h : Cursor.peek nul text i = some a) : i ≤ text.length := by
  have hlt := (List.getElem?_eq_some_iff.1 h).1
  rw [List.length_append, List.length_singleton] at hlt
  omega

/-- Wherever the cursor is, something is left. -/
theorem exists_at (h : i ≤ text.length) : ∃ t, At text i t :=
  ⟨text.drop i, text.take i, (List.take_append_drop i text).symm, List.length_take_of_le h⟩

end Linux011.Cursor
