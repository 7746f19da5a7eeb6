import Mathlib.Data.List.Basic
import Mathlib.Data.List.Nodup
import Mathlib.Logic.Function.Basic

/-!
# Singly linked lists

Lists that are linked in one direction: the links are a function `next` from nodes to nullable
pointers.

1. `Path next p l q`: from the pointer `p` the links lead through the nodes of `l` to `q`.
2. Chains, the paths to null: `Path.unique`, `Path.nodup`.
3. `Path.push`, `Path.insertAfter`, `Path.removeAfter`; the search `follow` along a chain.
4. `linkUp` makes a path of places at equal distances.
-/

namespace Linux011

variable {ι : Type*}

def Path (next : ι → Option ι) : Option ι → List ι → Option ι → Prop
  | p, [], q => p = q
  | p, x :: l, q => p = some x ∧ Path next (next x) l q

variable {next next' : ι → Option ι} {p q : Option ι} {x a : ι} {l xs ys : List ι}

@[simp] theorem path_nil : Path next p [] q ↔ p = q := Iff.rfl

theorem path_cons : Path next p (x :: l) q ↔ p = some x ∧ Path next (next x) l q := Iff.rfl

theorem path_append : Path next p (xs ++ ys) q ↔ ∃ r, Path next p xs r ∧ Path next r ys q := by
  induction xs generalizing p with
  | nil =>
    constructor
    · exact fun h => ⟨p, rfl, h⟩
    · rintro ⟨r, rfl, h⟩
      exact h
  | cons x xs ih =>
    rw [List.cons_append, path_cons, ih]
    constructor
    · rintro ⟨hp, r, h1, h2⟩
      exact ⟨r, ⟨hp, h1⟩, h2⟩
    · rintro ⟨r, ⟨hp, h1⟩, h2⟩
      exact ⟨hp, r, h1, h2⟩

/-- Something leads to the end of a path. -/
theorem Path.last (h : Path next p l q) : p = q ∨ ∃ x ∈ l, next x = q := by
  induction l generalizing p with
  | nil => exact .inl h
  | cons x l ih =>
    rcases ih h.2 with hx | ⟨y, hy, hyq⟩
    · exact .inr ⟨x, List.mem_cons_self, hx⟩
    · exact .inr ⟨y, List.mem_cons_of_mem _ hy, hyq⟩

/-- A path depends only on the links of its nodes. -/
theorem Path.congr (h : Path next p l q) (hn : ∀ x ∈ l, next' x = next x) : Path next' p l q := by
  induction l generalizing p with
  | nil => exact h
  | cons x l ih =>
    obtain ⟨hp, h⟩ := h
    refine ⟨hp, ?_⟩
    rw [hn x List.mem_cons_self]
    exact ih h fun y hy => hn y (List.mem_cons_of_mem _ hy)

/-! ## Chains -/

theorem Path.eq_nil (h : Path next none l q) : l = [] := by
  cases l with
  | nil => rfl
  | cons x l => cases h.1

theorem Path.unique (h : Path next p xs none) (h' : Path next p ys none) : xs = ys := by
  induction xs generalizing p ys with
  | nil =>
    subst h
    exact h'.eq_nil.symm
  | cons x xs ih =>
    obtain ⟨rfl, h⟩ := h
    cases ys with
    | nil => cases h'
    | cons y ys =>
      obtain ⟨hxy, h'⟩ := h'
      cases hxy
      rw [ih h h']

/-- A chain does not come back to a node: from there it would have two ends. -/
theorem Path.nodup (h : Path next p l none) : l.Nodup := by
  induction l generalizing p with
  | nil => exact List.nodup_nil
  | cons x l ih =>
    refine List.nodup_cons.2 ⟨fun hx => ?_, ih h.2⟩
    obtain ⟨xs, ys, rfl⟩ := List.append_of_mem hx
    obtain ⟨r, -, h2⟩ := path_append.1 h.2
    obtain ⟨rfl, h2⟩ := h2
    have heq := h.2.unique h2
    have hlen := congrArg List.length heq
    rw [List.length_append, List.length_cons] at hlen
    omega

/-- A chain leads from its nodes to its nodes. -/
theorem Path.next_mem {y : ι} (h : Path next p l none) (hx : x ∈ l) (hy : next x = some y) :
    ∃ xs ys, l = xs ++ x :: y :: ys := by
  obtain ⟨xs, ys, rfl⟩ := List.append_of_mem hx
  obtain ⟨r, -, -, h⟩ := path_append.1 h
  rw [hy] at h
  cases ys with
  | nil => cases h
  | cons z ys => exact ⟨xs, ys, by rw [Option.some.inj h.1]⟩

section Update

variable [DecidableEq ι]

theorem Path.update (h : Path next p l q) (hx : x ∉ l) (v : Option ι) :
    Path (Function.update next x v) p l q :=
  h.congr fun _ hy => Function.update_of_ne (ne_of_mem_of_not_mem hy hx) _ _

/-- A node is put before the first. -/
theorem Path.push (h : Path next p l q) (hx : x ∉ l) :
    Path (Function.update next x p) (some x) (x :: l) q := by
  refine ⟨rfl, ?_⟩
  rw [Function.update_self]
  exact h.update hx p

/-- A node is put after one of the chain. -/
theorem Path.insertAfter (h : Path next p (xs ++ a :: ys) none) (hx : x ∉ xs ++ a :: ys) :
    Path (Function.update (Function.update next x (next a)) a (some x)) p (xs ++ a :: x :: ys)
      none := by
  obtain ⟨r, h1, rfl, h2⟩ := path_append.1 h
  have hnd := h.nodup
  have hxs : x ∉ xs := fun hm => hx (List.mem_append_left _ hm)
  have hxa : x ≠ a := fun e => hx (e ▸ List.mem_append_right _ List.mem_cons_self)
  have hys : x ∉ ys := fun hm => hx (List.mem_append_right _ (List.mem_cons_of_mem _ hm))
  have hd := List.nodup_append'.1 hnd
  have haxs : a ∉ xs := fun hm => hd.2.2 hm List.mem_cons_self
  have hays : a ∉ ys := (List.nodup_cons.1 hd.2.1).1
  refine path_append.2 ⟨some a, (h1.update hxs _).update haxs _, rfl, ?_⟩
  rw [Function.update_self]
  refine ⟨rfl, ?_⟩
  rw [Function.update_of_ne hxa, Function.update_self]
  exact (h2.update hys _).update hays _

/-- The node after one of the chain is taken out. -/
theorem Path.removeAfter (h : Path next p (xs ++ a :: x :: ys) none) :
    Path (Function.update next a (next x)) p (xs ++ a :: ys) none := by
  obtain ⟨r, h1, rfl, h2⟩ := path_append.1 h
  have hd := List.nodup_append'.1 h.nodup
  have haxs : a ∉ xs := fun hm => hd.2.2 hm List.mem_cons_self
  have hays : a ∉ ys := fun hm => (List.nodup_cons.1 hd.2.1).1 (List.mem_cons_of_mem _ hm)
  refine path_append.2 ⟨some a, h1.update haxs _, rfl, ?_⟩
  rw [Function.update_self]
  exact h2.2.update hays _

end Update

/-- The first node from `p` on that passes the test; the outer `none` is that the end is not reached
in so many turns. -/
def follow (next : ι → Option ι) (test : ι → Bool) : ℕ → Option ι → Option (Option ι)
  | 0, _ => none
  | _ + 1, none => some none
  | n + 1, some x => if test x then some (some x) else follow next test n (next x)

theorem follow_eq {test : ι → Bool} {n : ℕ} (h : Path next p l none) (hn : l.length < n) :
    follow next test n p = some (l.find? test) := by
  induction l generalizing p n with
  | nil =>
    subst h
    cases n with
    | zero => exact absurd hn (Nat.not_lt_zero _)
    | succ n => rfl
  | cons x l ih =>
    obtain ⟨rfl, h⟩ := h
    cases n with
    | zero => exact absurd hn (Nat.not_lt_zero _)
    | succ n =>
      unfold follow
      rw [List.find?_cons]
      by_cases hx : test x = true
      · rw [if_pos hx, hx]
      · rw [if_neg hx, Bool.eq_false_iff.2 hx]
        exact ih h (Nat.lt_of_succ_lt_succ hn)

/-! ## Places at equal distances -/

/-- `n` links from `a` on, each to the place `w` further, and one to `q`. -/
def linkUp (w : ℕ) (q : Option ℕ) : ℕ → ℕ → (ℕ → Option ℕ) → ℕ → Option ℕ
  | 0, a, next => Function.update next a q
  | n + 1, a, next => linkUp w q n (a + w) (Function.update next a (some (a + w)))

def stride (w : ℕ) : ℕ → ℕ → List ℕ
  | 0, a => [a]
  | n + 1, a => a :: stride w n (a + w)

variable {w n a x : ℕ} {next : ℕ → Option ℕ} {q : Option ℕ}

theorem mem_stride : x ∈ stride w n a ↔ ∃ i ≤ n, x = a + w * i := by
  induction n generalizing a with
  | zero =>
    constructor
    · intro h
      exact ⟨0, Nat.le_refl _, List.mem_singleton.1 h⟩
    · rintro ⟨i, hi, rfl⟩
      rw [Nat.le_zero.1 hi]
      exact List.mem_singleton.2 rfl
  | succ n ih =>
    rw [stride, List.mem_cons, ih]
    constructor
    · rintro (rfl | ⟨i, hi, rfl⟩)
      · exact ⟨0, Nat.zero_le _, rfl⟩
      · refine ⟨i + 1, Nat.succ_le_succ hi, ?_⟩
        rw [Nat.mul_succ]
        omega
    · rintro ⟨i, hi, rfl⟩
      cases i with
      | zero => exact .inl rfl
      | succ i =>
        refine .inr ⟨i, Nat.le_of_succ_le_succ hi, ?_⟩
        rw [Nat.mul_succ]
        omega

theorem length_stride : (stride w n a).length = n + 1 := by
  induction n generalizing a with
  | zero => rfl
  | succ n ih => rw [stride, List.length_cons, ih]

theorem linkUp_of_notMem (hx : x ∉ stride w n a) : linkUp w q n a next x = next x := by
  induction n generalizing a next with
  | zero => exact Function.update_of_ne (fun h => hx (List.mem_singleton.2 h)) _ _
  | succ n ih =>
    rw [stride, List.mem_cons, not_or] at hx
    rw [linkUp, ih hx.2, Function.update_of_ne hx.1]

theorem linkUp_path (hw : 0 < w) : Path (linkUp w q n a next) (some a) (stride w n a) q := by
  induction n generalizing a next with
  | zero => exact ⟨rfl, Function.update_self _ _ _⟩
  | succ n ih =>
    have ha : a ∉ stride w n (a + w) := by
      intro h
      obtain ⟨i, -, hi⟩ := mem_stride.1 h
      omega
    refine ⟨rfl, ?_⟩
    rw [linkUp, linkUp_of_notMem ha, Function.update_self]
    exact ih

end Linux011
