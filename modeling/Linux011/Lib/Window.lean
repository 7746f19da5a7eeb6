import Mathlib.Algebra.GroupWithZero.Nat
import Mathlib.Algebra.Group.Nat.Defs
import Mathlib.Logic.Function.Basic
import Mathlib.Order.Lattice

/-!
# Windows

A sequence of cells `f : ℕ → α`, and what is done to a window `[a, b)` of it.

1. `fill`, `copy`, cell by cell.
2. `shiftUp`, `shiftDown`: the window is moved by `n` cells, and `v` comes in at its other end. As
   one block and a fill; as steps of one cell; one after the other.
3. `Seen`: the cells from some place on, and what is seen of it when a window is changed.
-/

namespace Linux011.Window

variable {α : Type*}

/-- `v` in the window `[a, b)`. -/
def fill (f : ℕ → α) (a b : ℕ) (v : α) : ℕ → α := fun i => if a ≤ i ∧ i < b then v else f i

/-- The `n` cells from `s` on, as they were, at `d`. -/
def copy (f : ℕ → α) (d s n : ℕ) : ℕ → α := fun i => if d ≤ i ∧ i < d + n then f (i - d + s) else f i

/-- The window `[a, b)` with each cell `n` places lower. -/
def shiftUp (f : ℕ → α) (n a b : ℕ) (v : α) : ℕ → α := fun i =>
  if a ≤ i ∧ i < b then if i + n < b then f (i + n) else v else f i

/-- The window `[a, b)` with each cell `n` places higher. -/
def shiftDown (f : ℕ → α) (n a b : ℕ) (v : α) : ℕ → α := fun i =>
  if a ≤ i ∧ i < b then if a + n ≤ i then f (i - n) else v else f i

variable (f : ℕ → α) {a b d s n i : ℕ} (v : α)

/-! ## Cell by cell -/

theorem fill_empty (h : b ≤ a) : fill f a b v = f :=
  funext fun _ => if_neg (by omega)

theorem fill_succ (h : a < b) : fill (Function.update f a v) (a + 1) b v = fill f a b v := by
  funext i
  unfold fill
  rw [Function.update_apply]
  by_cases hi : i = a
  · rw [if_neg (by omega), if_pos hi, if_pos (by omega)]
  · rw [if_neg hi]
    exact if_congr (by omega) rfl rfl

theorem fill_pred (h : a < b) : fill (Function.update f (b - 1) v) a (b - 1) v = fill f a b v := by
  funext i
  unfold fill
  rw [Function.update_apply]
  by_cases hi : i = b - 1
  · rw [if_neg (by omega), if_pos hi, if_pos (by omega)]
  · rw [if_neg hi]
    exact if_congr (by omega) rfl rfl

theorem copy_zero : copy f d s 0 = f :=
  funext fun _ => if_neg (by omega)

/-- The lowest cell first; the block goes down. -/
theorem copy_succ (h : d ≤ s) :
    copy (Function.update f d (f s)) (d + 1) (s + 1) n = copy f d s (n + 1) := by
  funext i
  unfold copy
  by_cases hi : i = d
  · rw [if_neg (by omega), if_pos (by omega), Function.update_apply, if_pos hi,
      show i - d + s = s by omega]
  by_cases hw : d + 1 ≤ i ∧ i < d + 1 + n
  · rw [if_pos hw, if_pos (by omega), Function.update_of_ne (by omega),
      show i - (d + 1) + (s + 1) = i - d + s by omega]
  · rw [if_neg hw, if_neg (by omega), Function.update_of_ne hi]

/-- The highest cell first; the block goes up. -/
theorem copy_last (h : s ≤ d) :
    copy (Function.update f (d + n) (f (s + n))) d s n = copy f d s (n + 1) := by
  funext i
  unfold copy
  by_cases hi : i = d + n
  · rw [if_neg (by omega), if_pos (by omega), Function.update_apply, if_pos hi,
      show i - d + s = s + n by omega]
  by_cases hw : d ≤ i ∧ i < d + n
  · rw [if_pos hw, if_pos (by omega), Function.update_of_ne (by omega)]
  · rw [if_neg hw, if_neg (by omega), Function.update_of_ne hi]

/-! ## Shifts -/

theorem shiftUp_zero : shiftUp f 0 a b v = f := by
  funext i
  unfold shiftUp
  split_ifs with h h'
  · rfl
  · exact absurd h.2 h'
  · rfl

theorem shiftDown_zero : shiftDown f 0 a b v = f := by
  funext i
  unfold shiftDown
  split_ifs with h h'
  · rfl
  · exact absurd h.1 h'
  · rfl

theorem fill_copy_eq_shiftUp (h : a + n ≤ b) :
    fill (copy f a (a + n) (b - a - n)) (b - n) b v = shiftUp f n a b v := by
  funext i
  unfold fill copy shiftUp
  by_cases hw : a ≤ i ∧ i < b
  · rw [if_pos hw]
    by_cases hlast : i + n < b
    · rw [if_neg (by omega), if_pos (by omega), if_pos hlast, show i - a + (a + n) = i + n by omega]
    · rw [if_pos (by omega), if_neg hlast]
  · rw [if_neg (by omega), if_neg (by omega), if_neg hw]

theorem fill_copy_eq_shiftDown (h : a + n ≤ b) :
    fill (copy f (a + n) a (b - a - n)) a (a + n) v = shiftDown f n a b v := by
  funext i
  unfold fill copy shiftDown
  by_cases hw : a ≤ i ∧ i < b
  · rw [if_pos hw]
    by_cases hfirst : a + n ≤ i
    · rw [if_neg (by omega), if_pos (by omega), if_pos hfirst, show i - (a + n) + a = i - n by omega]
    · rw [if_pos (by omega), if_neg hfirst]
  · rw [if_neg (by omega), if_neg (by omega), if_neg hw]

/-- One cell of a shift by one cell: what it held goes to the next one. -/
theorem shiftDown_succ (h : a < b) :
    shiftDown (Function.update f a v) 1 (a + 1) b (f a) = shiftDown f 1 a b v := by
  funext i
  unfold shiftDown
  by_cases hi : i = a
  · rw [if_neg (by omega), if_pos (by omega), if_neg (by omega), Function.update_apply, if_pos hi]
  by_cases hw : a + 1 ≤ i ∧ i < b
  · rw [if_pos hw]
    by_cases hfirst : a + 1 + 1 ≤ i
    · rw [if_pos hfirst, if_pos (by omega), if_pos (by omega), Function.update_of_ne (by omega)]
    · rw [if_neg hfirst, if_pos (by omega), if_pos (by omega), show i - 1 = a by omega]
  · rw [if_neg hw, if_neg (by omega), Function.update_of_ne hi]

theorem shiftUp_shiftUp (m : ℕ) :
    shiftUp (shiftUp f n a b v) m a b v = shiftUp f (n + m) a b v := by
  funext i
  unfold shiftUp
  by_cases hw : a ≤ i ∧ i < b
  · rw [if_pos hw, if_pos hw]
    by_cases hm : i + m < b
    · rw [if_pos hm, if_pos (by omega)]
      exact if_congr (by omega) (congrArg f (by omega)) rfl
    · rw [if_neg hm, if_neg (by omega)]
  · rw [if_neg hw, if_neg hw, if_neg hw]

theorem shiftDown_shiftDown (m : ℕ) :
    shiftDown (shiftDown f n a b v) m a b v = shiftDown f (n + m) a b v := by
  funext i
  unfold shiftDown
  by_cases hw : a ≤ i ∧ i < b
  · rw [if_pos hw, if_pos hw]
    by_cases hm : a + m ≤ i
    · rw [if_pos hm, if_pos (by omega)]
      exact if_congr (by omega) (congrArg f (by omega)) rfl
    · rw [if_neg hm, if_neg (by omega)]
  · rw [if_neg hw, if_neg hw, if_neg hw]

/-! ## What is seen of it -/

/-- `g` is what the `N` cells from `o` on hold. -/
def Seen (f : ℕ → α) (o N : ℕ) (g : ℕ → α) : Prop := ∀ i < N, f (o + i) = g i

variable {f v} {o N : ℕ} {g : ℕ → α}

theorem Seen.update (h : Seen f o N g) (i : ℕ) (v : α) :
    Seen (Function.update f (o + i) v) o N (Function.update g i v) := by
  intro j hj
  rw [Function.update_apply, Function.update_apply]
  exact if_congr (by omega) rfl (h j hj)

theorem Seen.fill (h : Seen f o N g) : Seen (fill f (o + a) (o + b) v) o N (fill g a b v) := by
  intro i hi
  unfold Window.fill
  exact if_congr (by omega) rfl (h i hi)

theorem Seen.shiftUp (h : Seen f o N g) (hb : b ≤ N) :
    Seen (shiftUp f n (o + a) (o + b) v) o N (shiftUp g n a b v) := by
  intro i hi
  unfold Window.shiftUp
  by_cases hw : a ≤ i ∧ i < b
  · rw [if_pos hw, if_pos (by omega)]
    by_cases hn : i + n < b
    · rw [if_pos hn, if_pos (by omega), ← h (i + n) (by omega), Nat.add_assoc]
    · rw [if_neg hn, if_neg (by omega)]
  · rw [if_neg hw, if_neg (by omega), h i hi]

theorem Seen.shiftDown (h : Seen f o N g) :
    Seen (shiftDown f n (o + a) (o + b) v) o N (shiftDown g n a b v) := by
  intro i hi
  unfold Window.shiftDown
  by_cases hw : a ≤ i ∧ i < b
  · rw [if_pos hw, if_pos (by omega)]
    by_cases hn : a + n ≤ i
    · rw [if_pos hn, if_pos (by omega), ← h (i - n) (by omega), show o + (i - n) = o + i - n by omega]
    · rw [if_neg hn, if_neg (by omega)]
  · rw [if_neg hw, if_neg (by omega), h i hi]

/-- To see `n` cells further on is to see everything `n` cells lower, if what comes in is there. -/
theorem Seen.scroll (h : Seen f o N g) (hv : ∀ i < n, f (o + N + i) = v) :
    Seen f (o + n) N (Window.shiftUp g n 0 N v) := by
  intro i hi
  unfold Window.shiftUp
  rw [if_pos ⟨Nat.zero_le _, hi⟩]
  by_cases hlast : i + n < N
  · rw [if_pos hlast, ← h (i + n) hlast, show o + n + i = o + (i + n) by omega]
  · rw [if_neg hlast, ← hv (i + n - N) (by omega), show o + n + i = o + N + (i + n - N) by omega]

end Linux011.Window
