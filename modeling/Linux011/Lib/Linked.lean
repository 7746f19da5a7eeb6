import Mathlib.Data.List.Basic
import Mathlib.Data.List.Nodup
import Mathlib.Logic.Function.Basic

/-!
# Doubly linked lists

Intrusive lists: the links are two functions `next` and `prev` from nodes to nullable pointers.

1. `Seg next prev p l n`: the nodes of `l` are linked both ways in this order, the first one's `prev`
   is `p` and the last one's `next` is `n`. `seg_append` splits, `Seg.congr` is the frame rule,
   `Seg.storePrev` and `Seg.storeNext` redirect the two ends.
2. Chains, which end in null: `Seg.unlink` and `Seg.push`.
3. Rings: `Ring.rotate`, `Ring.unlink` and `Ring.insertLast`.
-/

namespace Linux011

variable {ι : Type*}

/-- A store of `v` through the pointer `p`; a null pointer is none of the nodes. -/
def storeAt [DecidableEq ι] (f : ι → Option ι) (p v : Option ι) : ι → Option ι :=
  match p with
  | some x => Function.update f x v
  | none => f

section

variable [DecidableEq ι]

@[simp] theorem storeAt_none (f : ι → Option ι) (v : Option ι) : storeAt f none v = f := rfl

@[simp] theorem storeAt_some (f : ι → Option ι) (x : ι) (v : Option ι) :
    storeAt f (some x) v = Function.update f x v := rfl

theorem storeAt_of_ne {f : ι → Option ι} {p v : Option ι} {x : ι} (h : p ≠ some x) :
    storeAt f p v x = f x := by
  cases p with
  | none => rfl
  | some y =>
    have hx : x ≠ y := fun e => h (by rw [e])
    simp [hx]

end

/-! ## Segments -/

/-- The nodes of a list, linked both ways; `p` is before the first and `n` after the last. -/
def Seg (next prev : ι → Option ι) : Option ι → List ι → Option ι → Prop
  | _, [], _ => True
  | p, x :: l, n => prev x = p ∧ next x = l.head?.or n ∧ Seg next prev (some x) l n

variable {next prev next' prev' : ι → Option ι} {p n : Option ι} {x : ι} {l xs ys : List ι}

@[simp] theorem seg_nil : Seg next prev p [] n := trivial

theorem seg_cons :
    Seg next prev p (x :: l) n ↔ prev x = p ∧ next x = l.head?.or n ∧ Seg next prev (some x) l n :=
  Iff.rfl

/-- A concatenation: both halves and the seam. -/
theorem seg_append : Seg next prev p (xs ++ ys) n ↔
    Seg next prev p xs (ys.head?.or n) ∧ Seg next prev (xs.getLast?.or p) ys n := by
  induction xs generalizing p with
  | nil => simp
  | cons x xs ih =>
    have hh : (xs ++ ys).head?.or n = xs.head?.or (ys.head?.or n) := by
      cases xs <;> simp
    have hl : (x :: xs).getLast?.or p = xs.getLast?.or (some x) := by
      cases xs <;> simp [List.getLast?_cons]
    rw [List.cons_append, seg_cons, seg_cons, ih, hh, hl]
    constructor
    · rintro ⟨h1, h2, h3, h4⟩; exact ⟨⟨h1, h2, h3⟩, h4⟩
    · rintro ⟨⟨h1, h2, h3⟩, h4⟩; exact ⟨h1, h2, h3, h4⟩

/-- A segment depends only on the links of its nodes. -/
theorem Seg.congr (h : Seg next prev p l n) (hn : ∀ x ∈ l, next' x = next x)
    (hp : ∀ x ∈ l, prev' x = prev x) : Seg next' prev' p l n := by
  induction l generalizing p with
  | nil => trivial
  | cons x l ih =>
    obtain ⟨h1, h2, h3⟩ := h
    refine ⟨(hp x List.mem_cons_self).trans h1, (hn x List.mem_cons_self).trans h2, ?_⟩
    exact ih h3 (fun y hy => hn y (List.mem_cons_of_mem _ hy))
      (fun y hy => hp y (List.mem_cons_of_mem _ hy))

/-- Where a segment starts and how long it is, say which it is. -/
theorem Seg.unique {p' n' : Option ι} {l' : List ι} (h : Seg next prev p l n)
    (h' : Seg next prev p' l' n') (hhead : l.head? = l'.head?) (hlen : l.length = l'.length) :
    l = l' := by
  induction l generalizing p p' l' with
  | nil => exact (List.length_eq_zero_iff.1 hlen.symm).symm
  | cons x l ih =>
    cases l' with
    | nil => cases hlen
    | cons y l' =>
      obtain rfl : x = y := Option.some.inj hhead
      obtain ⟨-, h2, h3⟩ := h
      obtain ⟨-, h2', h3'⟩ := h'
      have htail : l.length = l'.length := Nat.succ.inj hlen
      rw [ih h3 h3' ?_ htail]
      cases l with
      | nil => rw [List.length_eq_zero_iff.1 htail.symm]
      | cons a l =>
        cases l' with
        | nil => cases htail
        | cons b l' => exact h2.symm.trans h2'

/-- A segment, node by node. -/
theorem seg_of_getElem (hp : ∀ i (h : i < l.length), prev l[i] = if i = 0 then p else l[i - 1]?)
    (hn : ∀ i (h : i < l.length), next l[i] = l[i + 1]?.or n) : Seg next prev p l n := by
  induction l generalizing p with
  | nil => trivial
  | cons x l ih =>
    have h0 : next x = l.head?.or n := by
      rw [List.head?_eq_getElem?]; exact hn 0 (Nat.succ_pos _)
    refine ⟨hp 0 (Nat.succ_pos _), h0, ih (fun i hi => ?_) fun i hi => ?_⟩
    · have := hp (i + 1) (Nat.succ_lt_succ hi)
      rcases i with _ | i <;> exact this
    · exact hn (i + 1) (Nat.succ_lt_succ hi)

/-- In the middle of a segment a node's links are its neighbours. -/
theorem Seg.middle (h : Seg next prev p (xs ++ x :: ys) n) :
    prev x = xs.getLast?.or p ∧ next x = ys.head?.or n := by
  obtain ⟨-, h1, h2, -⟩ := seg_append.1 h
  exact ⟨h1, h2⟩

variable [DecidableEq ι]

theorem Seg.storePrev (h : Seg next prev p l n) (hl : l.Nodup) (p' : Option ι) :
    Seg next (storeAt prev l.head? p') p' l n := by
  cases l with
  | nil => trivial
  | cons x l =>
    obtain ⟨-, h2, h3⟩ := h
    refine ⟨by simp, h2, h3.congr (fun _ _ => rfl) fun y hy => storeAt_of_ne ?_⟩
    rintro ⟨rfl⟩
    exact (List.nodup_cons.1 hl).1 hy

theorem Seg.storeNext (h : Seg next prev p l n) (hl : l.Nodup) (n' : Option ι) :
    Seg (storeAt next l.getLast? n') prev p l n' := by
  rcases List.eq_nil_or_concat l with rfl | ⟨l, x, rfl⟩
  · trivial
  · rw [List.concat_eq_append] at h hl ⊢
    obtain ⟨h1, h2, -, -⟩ := seg_append.1 h
    rw [List.getLast?_append_of_ne_nil _ (by simp)]
    refine seg_append.2 ⟨h1.congr (fun y hy => storeAt_of_ne ?_) (fun _ _ => rfl), ?_⟩
    · rintro ⟨rfl⟩
      exact (List.nodup_append.1 hl).2.2 _ hy _ (List.mem_singleton_self _) rfl
    · exact ⟨h2, by simp, trivial⟩

/-! ## Chains -/

/-- Take a node out of a chain: its neighbours are linked to each other. -/
theorem Seg.unlink (h : Seg next prev none (xs ++ x :: ys) none) (hl : (xs ++ x :: ys).Nodup) :
    Seg (storeAt next (prev x) (next x)) (storeAt prev (next x) (prev x)) none (xs ++ ys) none := by
  obtain ⟨hx, hp, hn, hy⟩ := seg_append.1 h
  obtain ⟨nx, ny, disj⟩ := List.nodup_append.1 hl
  rw [Option.or_none] at hp hn
  rw [hp, hn]
  refine seg_append.2 ⟨?_, ?_⟩
  · rw [Option.or_none]
    refine (hx.storeNext nx _).congr (fun _ _ => rfl) fun y hy => storeAt_of_ne fun e => ?_
    exact disj y hy y (List.mem_cons_of_mem _ (List.mem_of_mem_head? e)) rfl
  · rw [Option.or_none]
    refine (hy.storePrev (List.nodup_cons.1 ny).2 _).congr
      (fun y hy => storeAt_of_ne fun e => ?_) (fun _ _ => rfl)
    exact disj y (List.mem_of_getLast? e) y (List.mem_cons_of_mem _ hy) rfl

/-- Put a node in front of a chain. -/
theorem Seg.push (h : Seg next prev none l none) (hl : l.Nodup) (hx : x ∉ l) :
    Seg (Function.update next x l.head?)
      (storeAt (Function.update prev x none) l.head? (some x)) none (x :: l) none := by
  refine ⟨?_, by simp, ?_⟩
  · rw [storeAt_of_ne fun e => hx (List.mem_of_mem_head? e), Function.update_self]
  · have h1 : Seg (Function.update next x l.head?) (Function.update prev x none) none l none :=
      h.congr (fun y hy => Function.update_of_ne (ne_of_mem_of_not_mem hy hx) _ _)
        (fun y hy => Function.update_of_ne (ne_of_mem_of_not_mem hy hx) _ _)
    exact h1.storePrev hl _

/-! ## Rings -/

/-- A circular list, from its head on. -/
def Ring (next prev : ι → Option ι) (l : List ι) : Prop := Seg next prev l.getLast? l l.head?

omit [DecidableEq ι] in
/-- A ring may be started anywhere. -/
theorem Ring.rotate (h : Ring next prev (xs ++ ys)) : Ring next prev (ys ++ xs) := by
  unfold Ring at h ⊢
  rw [seg_append] at h ⊢
  rcases xs with _ | ⟨a, xs⟩
  · simpa using h
  rcases ys with _ | ⟨b, ys⟩
  · simpa using h
  refine ⟨?_, ?_⟩
  · convert h.2 using 1 <;> simp [List.getLast?_append, List.getLast?_cons]
  · convert h.1 using 1 <;> simp [List.getLast?_append, List.getLast?_cons]

/-- Take a node out of a ring that has others. -/
theorem Ring.unlink (h : Ring next prev (xs ++ x :: ys)) (hl : (xs ++ x :: ys).Nodup)
    (hne : xs ++ ys ≠ []) :
    Ring (storeAt next (prev x) (next x)) (storeAt prev (next x) (prev x)) (xs ++ ys) := by
  have hr : Ring next prev (x :: (ys ++ xs)) := by simpa using h.rotate
  have nd : (x :: (ys ++ xs)).Nodup := by
    have := (List.perm_append_comm : List.Perm (xs ++ x :: ys) _).nodup_iff.1 hl
    simpa using this
  suffices h' : Ring (storeAt next (prev x) (next x)) (storeAt prev (next x) (prev x)) (ys ++ xs)
    from h'.rotate
  generalize hz : ys ++ xs = zs at hr nd ⊢
  have hz0 : zs ≠ [] := by
    rintro rfl
    obtain ⟨rfl, rfl⟩ := List.append_eq_nil_iff.1 hz
    exact hne rfl
  obtain ⟨hp, hn, hs⟩ := hr
  have hp' : prev x = zs.getLast? := by
    rw [hp, List.getLast?_cons, List.getLast?_eq_some_getLast hz0]
    simp
  have hn' : next x = zs.head? := by
    rw [hn, List.head?_eq_some_head hz0]
    simp
  rw [hp', hn']
  exact (hs.storePrev (List.nodup_cons.1 nd).2 _).storeNext (List.nodup_cons.1 nd).2 _

/-- Put a node at the end of a nonempty ring, before its head `a`. -/
theorem Ring.insertLast {a : ι} (h : Ring next prev (a :: l)) (hl : (a :: l).Nodup)
    (hx : x ∉ a :: l) :
    Ring (storeAt (Function.update next x (some a)) (prev a) (some x))
      (storeAt (Function.update prev x (prev a)) (some a) (some x)) (a :: l ++ [x]) := by
  have hp : prev a = (a :: l).getLast? := h.1
  have hne : a ≠ x := fun e => hx (e ▸ List.mem_cons_self)
  rw [hp]
  unfold Ring
  rw [List.getLast?_append_of_ne_nil _ (by simp)]
  refine seg_append.2 ⟨?_, ?_, ?_, trivial⟩
  · have h1 : Seg (Function.update next x (some a)) (Function.update prev x (a :: l).getLast?)
        (a :: l).getLast? (a :: l) (some a) :=
      Seg.congr h (fun y hy => Function.update_of_ne (ne_of_mem_of_not_mem hy hx) _ _)
        (fun y hy => Function.update_of_ne (ne_of_mem_of_not_mem hy hx) _ _)
    exact (h1.storeNext hl (some x)).storePrev hl (some x)
  · have hxa : some a ≠ some x := by simpa using hne
    rw [storeAt_of_ne hxa, Function.update_self, List.getLast?_eq_some_getLast (by simp)]
    simp
  · have hxl : (a :: l).getLast? ≠ some x := fun e => hx (List.mem_of_getLast? e)
    rw [storeAt_of_ne hxl, Function.update_self]
    simp

end Linux011
