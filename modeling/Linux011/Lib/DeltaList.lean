import Mathlib.Algebra.Order.Group.Int

/-!
# Lists of differences

A queue of things that are due at some times, where each entry has the time from the entry before it.

1. `dueAt t q`: the entries with the times themselves, for a queue that is read at `t`.
2. A unit of time passes: `dueAt_tick`. The first entry leaves: `dueAt_pop`.
3. `le_of_mem_dueAt`, `lt_of_mem_dueAt`.
-/

namespace Linux011.Delta

variable {α : Type*} {t d : ℤ} {a : α} {e : α × ℤ} {q r : List (α × ℤ)}

def dueAt : ℤ → List (α × ℤ) → List (α × ℤ)
  | _, [] => []
  | t, e :: q => (e.1, t + e.2) :: dueAt (t + e.2) q

theorem dueAt_cons : dueAt t (e :: q) = (e.1, t + e.2) :: dueAt (t + e.2) q := rfl

theorem map_fst_dueAt : (dueAt t q).map Prod.fst = q.map Prod.fst := by
  induction q generalizing t with
  | nil => rfl
  | cons e q ih => rw [dueAt_cons, List.map_cons, List.map_cons, ih]

/-- Only the first difference shrinks. -/
theorem dueAt_tick : dueAt (t + 1) ((a, d - 1) :: q) = dueAt t ((a, d) :: q) := by
  have hd : t + 1 + (d - 1) = t + d := by omega
  rw [dueAt_cons, dueAt_cons, hd]

/-- The first entry leaves when it is due. -/
theorem dueAt_pop : dueAt t ((a, 0) :: q) = (a, t) :: dueAt t q := by
  rw [dueAt_cons, Int.add_zero]

theorem le_of_mem_dueAt (h : ∀ e ∈ q, 0 ≤ e.2) (he : e ∈ dueAt t q) : t ≤ e.2 := by
  induction q generalizing t with
  | nil => cases he
  | cons f q ih =>
    have hf := h f List.mem_cons_self
    rcases List.mem_cons.1 he with rfl | he
    · show t ≤ t + f.2
      omega
    · have hle := ih (fun g hg => h g (List.mem_cons_of_mem _ hg)) he
      omega

theorem lt_of_mem_dueAt (h : ∀ e ∈ q, 0 < e.2) (he : e ∈ dueAt t q) : t < e.2 := by
  cases q with
  | nil => cases he
  | cons f q =>
    have hf := h f List.mem_cons_self
    rcases List.mem_cons.1 he with rfl | he
    · show t < t + f.2
      omega
    · have hle := le_of_mem_dueAt (fun g hg => (h g (List.mem_cons_of_mem _ hg)).le) he
      omega

end Linux011.Delta
