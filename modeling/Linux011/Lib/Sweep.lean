import Mathlib.Data.List.Chain
import Mathlib.Data.List.TakeWhile
import Mathlib.Order.Defs.LinearOrder
import Mathlib.Order.Lattice

/-!
# Insertion into a list of two runs

The search of an elevator: the list is the rest of one sweep and then the next sweep, both in
increasing order. `sweepInsert r x a l` puts `x` into `l`, which stands behind `a`.

1. `sweepInsert`: between the first neighbours that admit `x`, of which it follows the one and
   precedes the other, or where the list starts again; else at the end. `queueInsert`.
2. `sweepInsert_runs`: two runs stay two runs. `TwoRuns`, and what keeps it.
3. `sweepInsert_ahead`: when an element gets before all of some others. `overtaken_iff`: for those
   that it has precedence over.
-/

namespace Linux011

section Insertion

variable {α : Type*} (r : α → α → Prop) [DecidableRel r]

/-- `x` may be put between `a` and `b`. -/
def Admits (x a b : α) : Prop := (r a x ∨ ¬ r a b) ∧ r x b

instance (x a b : α) : Decidable (Admits r x a b) :=
  inferInstanceAs (Decidable ((r a x ∨ ¬ r a b) ∧ r x b))

def sweepInsert (x : α) : α → List α → List α
  | _, [] => [x]
  | a, b :: l => if Admits r x a b then x :: b :: l else b :: sweepInsert x b l

/-- The first element stays the first. -/
def queueInsert (x : α) : List α → List α
  | [] => [x]
  | a :: l => a :: sweepInsert r x a l

variable {r} {x a : α} {l : List α}

theorem map_sweepInsert {β : Type*} {r' : β → β → Prop} [DecidableRel r'] {f : α → β}
    (hf : ∀ a b, r a b ↔ r' (f a) (f b)) :
    (sweepInsert r x a l).map f = sweepInsert r' (f x) (f a) (l.map f) := by
  have hadmits : ∀ a b, Admits r x a b ↔ Admits r' (f x) (f a) (f b) := by
    intro a b
    unfold Admits
    rw [hf, hf, hf]
  induction l generalizing a with
  | nil => rfl
  | cons b l ih =>
    rw [List.map_cons]
    unfold sweepInsert
    by_cases h : Admits r x a b
    · rw [if_pos h, if_pos ((hadmits a b).1 h)]
      rfl
    · rw [if_neg h, if_neg fun h' => h ((hadmits a b).2 h'), List.map_cons, ih]

theorem map_queueInsert {β : Type*} {r' : β → β → Prop} [DecidableRel r'] {f : α → β}
    (hf : ∀ a b, r a b ↔ r' (f a) (f b)) :
    (queueInsert r x l).map f = queueInsert r' (f x) (l.map f) := by
  cases l with
  | nil => rfl
  | cons a l => exact congrArg (f a :: ·) (map_sweepInsert hf)

theorem mem_sweepInsert : x ∈ sweepInsert r x a l := by
  induction l generalizing a with
  | nil => exact List.mem_cons_self
  | cons b l ih =>
    unfold sweepInsert
    split_ifs
    · exact List.mem_cons_self
    · exact List.mem_cons_of_mem _ ih

/-- The search passes an element of `W`, since no neighbours before admit `x`. -/
def Overtaken (r : α → α → Prop) (W : α → Prop) (x a : α) (l : List α) : Prop :=
  ∃ xs w ys, l = xs ++ w :: ys ∧ W w ∧ (a :: (xs ++ [w])).IsChain fun c d => ¬ Admits r x c d

omit [DecidableRel r] in
theorem not_overtaken_nil {W : α → Prop} : ¬ Overtaken r W x a [] := by
  rintro ⟨xs, w, ys, h, -⟩
  exact absurd h (by simp)

omit [DecidableRel r] in
theorem overtaken_cons {W : α → Prop} {b : α} :
    Overtaken r W x a (b :: l) ↔ ¬ Admits r x a b ∧ (W b ∨ Overtaken r W x b l) := by
  constructor
  · rintro ⟨xs, w, ys, h, hw, hs⟩
    cases xs with
    | nil =>
      obtain ⟨rfl, rfl⟩ := List.cons_eq_cons.1 h
      exact ⟨(List.isChain_cons_cons.1 hs).1, .inl hw⟩
    | cons c xs =>
      obtain ⟨rfl, rfl⟩ := List.cons_eq_cons.1 h
      obtain ⟨hab, hs⟩ := List.isChain_cons_cons.1 hs
      exact ⟨hab, .inr ⟨xs, w, ys, rfl, hw, hs⟩⟩
  · rintro ⟨hab, hb | ⟨xs, w, ys, rfl, hw, hs⟩⟩
    · exact ⟨[], b, l, rfl, hb, List.isChain_cons_cons.2 ⟨hab, List.isChain_singleton _⟩⟩
    · exact ⟨b :: xs, w, ys, rfl, hw, List.isChain_cons_cons.2 ⟨hab, hs⟩⟩

/-- **When an element gets before the others of `W`.** -/
theorem sweepInsert_ahead {W : α → Prop} (hx : x ∉ l) :
    (∀ xs ys, sweepInsert r x a l = xs ++ x :: ys → ∀ y ∈ xs, ¬ W y) ↔ ¬ Overtaken r W x a l := by
  induction l generalizing a with
  | nil =>
    refine iff_of_true (fun xs ys h => ?_) not_overtaken_nil
    cases xs with
    | nil => exact nofun
    | cons c xs => exact absurd (List.cons_eq_cons.1 h).2 (by simp)
  | cons b l ih =>
    obtain ⟨hxb, hxl⟩ := not_or.1 (fun h => hx (List.mem_cons.2 h))
    rw [overtaken_cons]
    unfold sweepInsert
    by_cases h : Admits r x a b
    · rw [if_pos h]
      refine iff_of_true (fun xs ys he => ?_) fun h' => h'.1 h
      cases xs with
      | nil => exact nofun
      | cons c xs =>
        -- `x` does not stand there twice
        obtain ⟨-, he⟩ := List.cons_eq_cons.1 he
        exact absurd (he ▸ List.mem_append_right xs List.mem_cons_self) hx
    · rw [if_neg h, and_iff_right h, not_or, ← ih hxl]
      constructor
      · intro hall
        obtain ⟨xs, ys, he⟩ := List.append_of_mem (mem_sweepInsert : x ∈ sweepInsert r x b l)
        refine ⟨hall (b :: xs) ys (congrArg (b :: ·) he) b List.mem_cons_self, fun xs ys he y hy => ?_⟩
        exact hall (b :: xs) ys (congrArg (b :: ·) he) y (List.mem_cons_of_mem _ hy)
      · rintro ⟨hb, hall⟩ xs ys he y hy
        cases xs with
        | nil => cases hy
        | cons c xs =>
          obtain ⟨rfl, hrest⟩ := List.cons_eq_cons.1 he
          rcases List.mem_cons.1 hy with rfl | hy
          · exact hb
          · exact hall xs ys hrest y hy

end Insertion

variable {κ : Type*} [LinearOrder κ] {x a : κ} {l xs ys : List κ}

/-! ## Runs -/

/-- In one run, an element that follows the first is put in order. -/
theorem sweepInsert_sorted (hl : (a :: l).Pairwise (· < ·)) (hx : ∀ y ∈ l, x ≠ y) (ha : a < x) :
    (a :: sweepInsert (· < ·) x a l).Pairwise (· < ·) := by
  induction l generalizing a with
  | nil => exact List.pairwise_pair.2 ha
  | cons b l ih =>
    obtain ⟨hab, hbl⟩ := List.pairwise_cons.1 hl
    unfold sweepInsert
    split_ifs with h
    · have hxl : (x :: b :: l).Pairwise (· < ·) := by
        refine List.pairwise_cons.2 ⟨fun y hy => ?_, hbl⟩
        rcases List.mem_cons.1 hy with rfl | hy
        · exact h.2
        · exact h.2.trans ((List.pairwise_cons.1 hbl).1 y hy)
      refine List.pairwise_cons.2 ⟨fun y hy => ?_, hxl⟩
      rcases List.mem_cons.1 hy with rfl | hy
      · exact ha
      · exact hab y hy
    · have hbx : b < x := by
        by_contra hn
        exact h ⟨.inl ha, lt_of_le_of_ne (not_lt.1 hn) (hx b List.mem_cons_self)⟩
      have hrest := ih hbl (fun y hy => hx y (List.mem_cons_of_mem _ hy)) hbx
      refine List.pairwise_cons.2 ⟨fun y hy => ?_, hrest⟩
      rcases List.mem_cons.1 hy with rfl | hy
      · exact hab _ List.mem_cons_self
      · exact (hab b List.mem_cons_self).trans ((List.pairwise_cons.1 hrest).1 y hy)

/-- In one run, an element that comes before the first goes to the end. -/
theorem sweepInsert_eq_append (hl : (a :: l).Pairwise (· < ·)) (ha : x < a) :
    sweepInsert (· < ·) x a l = l ++ [x] := by
  induction l generalizing a with
  | nil => rfl
  | cons b l ih =>
    obtain ⟨hab, hbl⟩ := List.pairwise_cons.1 hl
    have hlt := hab b List.mem_cons_self
    unfold sweepInsert
    rw [if_neg fun h => h.1.elim (not_lt.2 ha.le) fun hn => hn hlt, ih hbl (ha.trans hlt)]
    rfl

/-- **Two runs stay two runs.** -/
theorem sweepInsert_runs (hxs : (a :: xs).Pairwise (· < ·)) (hys : ys.Pairwise (· < ·))
    (hx : ∀ y ∈ a :: (xs ++ ys), x ≠ y) :
    ∃ xs' ys', sweepInsert (· < ·) x a (xs ++ ys) = xs' ++ ys' ∧ (a :: xs').Pairwise (· < ·) ∧
      ys'.Pairwise (· < ·) := by
  induction xs generalizing a with
  | nil =>
    have hxa : x ≠ a := hx a List.mem_cons_self
    have hxys : ∀ y ∈ ys, x ≠ y := fun y hy => hx y (List.mem_cons_of_mem _ hy)
    rw [List.nil_append]
    by_cases hrun : (a :: ys).Pairwise (· < ·)
    · rcases lt_or_gt_of_ne hxa with hlt | hlt
      · exact ⟨ys, [x], sweepInsert_eq_append hrun hlt, hrun, List.pairwise_singleton _ _⟩
      · exact ⟨_, [], (List.append_nil _).symm, sweepInsert_sorted hrun hxys hlt, List.Pairwise.nil⟩
    · cases ys with
      | nil => exact absurd (List.pairwise_singleton _ _) hrun
      | cons b ys =>
        -- the second run starts behind `a`
        have hab : ¬ a < b := by
          refine fun h => hrun (List.pairwise_cons.2 ⟨fun y hy => ?_, hys⟩)
          rcases List.mem_cons.1 hy with rfl | hy
          · exact h
          · exact h.trans ((List.pairwise_cons.1 hys).1 y hy)
        unfold sweepInsert
        split_ifs with h
        · refine ⟨[], x :: b :: ys, rfl, List.pairwise_singleton _ _,
            List.pairwise_cons.2 ⟨fun y hy => ?_, hys⟩⟩
          rcases List.mem_cons.1 hy with rfl | hy
          · exact h.2
          · exact h.2.trans ((List.pairwise_cons.1 hys).1 y hy)
        · have hbx : b < x := by
            by_contra hn
            exact h ⟨.inr hab, lt_of_le_of_ne (not_lt.1 hn) (hxys b List.mem_cons_self)⟩
          exact ⟨[], _, rfl, List.pairwise_singleton _ _,
            sweepInsert_sorted hys (fun y hy => hxys y (List.mem_cons_of_mem _ hy)) hbx⟩
  | cons c xs ih =>
    obtain ⟨hac, hcxs⟩ := List.pairwise_cons.1 hxs
    rw [List.cons_append]
    unfold sweepInsert
    split_ifs with h
    · have hax : a < x := h.1.resolve_right fun hn => hn (hac c List.mem_cons_self)
      refine ⟨x :: c :: xs, ys, rfl, ?_, hys⟩
      refine List.pairwise_cons.2 ⟨fun y hy => ?_, List.pairwise_cons.2 ⟨fun y hy => ?_, hcxs⟩⟩
      · rcases List.mem_cons.1 hy with rfl | hy
        · exact hax
        · exact hac y hy
      · rcases List.mem_cons.1 hy with rfl | hy
        · exact h.2
        · exact h.2.trans ((List.pairwise_cons.1 hcxs).1 y hy)
    · obtain ⟨xs', ys', he, hxs', hys'⟩ := ih hcxs fun y hy => hx y (List.mem_cons_of_mem _ hy)
      refine ⟨c :: xs', ys', by rw [he]; rfl, ?_, hys'⟩
      refine List.pairwise_cons.2 ⟨fun y hy => ?_, hxs'⟩
      rcases List.mem_cons.1 hy with rfl | hy
      · exact hac _ List.mem_cons_self
      · exact (hac c List.mem_cons_self).trans ((List.pairwise_cons.1 hxs').1 y hy)

/-- At most two runs, the rest of one sweep and the next one. -/
def TwoRuns (l : List κ) : Prop :=
  ∃ xs ys, l = xs ++ ys ∧ xs.Pairwise (· < ·) ∧ ys.Pairwise (· < ·)

theorem twoRuns_nil : TwoRuns ([] : List κ) :=
  ⟨[], [], rfl, .nil, .nil⟩

/-- The first run may be taken not to be empty. -/
theorem twoRuns_cons : TwoRuns (a :: l) ↔
    ∃ xs ys, l = xs ++ ys ∧ (a :: xs).Pairwise (· < ·) ∧ ys.Pairwise (· < ·) := by
  constructor
  · rintro ⟨xs, ys, h, hxs, hys⟩
    cases xs with
    | nil =>
      rw [List.nil_append] at h
      exact ⟨l, [], (List.append_nil l).symm, h ▸ hys, .nil⟩
    | cons b xs =>
      obtain ⟨rfl, rfl⟩ := List.cons_eq_cons.1 h
      exact ⟨xs, ys, rfl, hxs, hys⟩
  · rintro ⟨xs, ys, rfl, hxs, hys⟩
    exact ⟨a :: xs, ys, rfl, hxs, hys⟩

theorem TwoRuns.insert (h : TwoRuns l) (hx : ∀ y ∈ l, x ≠ y) : TwoRuns (queueInsert (· < ·) x l) := by
  cases l with
  | nil => exact ⟨[x], [], rfl, List.pairwise_singleton _ _, .nil⟩
  | cons a l =>
    obtain ⟨xs, ys, rfl, hxs, hys⟩ := twoRuns_cons.1 h
    exact twoRuns_cons.2 (sweepInsert_runs hxs hys hx)

theorem TwoRuns.tail (h : TwoRuns (a :: l)) : TwoRuns l := by
  obtain ⟨xs, ys, rfl, hxs, hys⟩ := twoRuns_cons.1 h
  exact ⟨xs, ys, rfl, (List.pairwise_cons.1 hxs).2, hys⟩

/-- The first element may grow, if it does not reach what it precedes. -/
theorem TwoRuns.raise (h : TwoRuns (a :: l)) (hx : ∀ y ∈ l, a < y → x < y) : TwoRuns (x :: l) := by
  obtain ⟨xs, ys, rfl, hxs, hys⟩ := twoRuns_cons.1 h
  obtain ⟨h1, h2⟩ := List.pairwise_cons.1 hxs
  exact twoRuns_cons.2 ⟨xs, ys, rfl, List.pairwise_cons.2
    ⟨fun y hy => hx y (List.mem_append_left _ hy) (h1 y hy), h2⟩, hys⟩

/-! ## Precedence -/

section Precedence

variable {α : Type*} {r : α → α → Prop} {W : α → Prop} {x a b : α} {l : List α}

/-- The sweep that is under way at `a` goes on without a break to an element of `W`. -/
def SweepsTo (r : α → α → Prop) (W : α → Prop) (a : α) (l : List α) : Prop :=
  ∃ xs w ys, l = xs ++ w :: ys ∧ W w ∧ (a :: (xs ++ [w])).Pairwise r

theorem not_sweepsTo_nil : ¬ SweepsTo r W a [] := by
  rintro ⟨xs, w, ys, h, -⟩
  exact absurd h (by simp)

theorem SweepsTo.first (h : SweepsTo r W a (b :: l)) : r a b := by
  obtain ⟨xs, w, ys, h, -, hs⟩ := h
  refine (List.pairwise_cons.1 hs).1 b ?_
  cases xs with
  | nil => exact (List.cons_eq_cons.1 h).1 ▸ List.mem_cons_self
  | cons c xs => exact (List.cons_eq_cons.1 h).1 ▸ List.mem_cons_self

theorem sweepsTo_cons [IsTrans α r] :
    SweepsTo r W a (b :: l) ↔ r a b ∧ (W b ∨ SweepsTo r W b l) := by
  constructor
  · intro h
    refine ⟨h.first, ?_⟩
    obtain ⟨xs, w, ys, h, hw, hs⟩ := h
    cases xs with
    | nil => exact .inl ((List.cons_eq_cons.1 h).1 ▸ hw)
    | cons c xs =>
      obtain ⟨rfl, rfl⟩ := List.cons_eq_cons.1 h
      exact .inr ⟨xs, w, ys, rfl, hw, (List.pairwise_cons.1 hs).2⟩
  · rintro ⟨hab, hb | ⟨xs, w, ys, rfl, hw, hs⟩⟩
    · exact ⟨[], b, l, rfl, hb, List.pairwise_pair.2 hab⟩
    · refine ⟨b :: xs, w, ys, rfl, hw, List.pairwise_cons.2 ⟨fun y hy => ?_, hs⟩⟩
      rcases List.mem_cons.1 hy with rfl | hy
      · exact hab
      · exact trans_of r hab ((List.pairwise_cons.1 hs).1 y hy)

/-- An element is passed by those that it has precedence over just where it comes before `a`, and the
sweep of `a` goes on to one of them. -/
theorem overtaken_iff [IsStrictOrder α r] (hW : ∀ w, W w → r x w)
    (hx : ∀ y ∈ a :: l, r x y ∨ r y x) : Overtaken r W x a l ↔ r x a ∧ SweepsTo r W a l := by
  induction l generalizing a with
  | nil => exact iff_of_false not_overtaken_nil fun h => not_sweepsTo_nil h.2
  | cons b l ih =>
    have hxa : ¬ r a x ↔ r x a :=
      ⟨(hx a List.mem_cons_self).resolve_right, fun h h' => irrefl a (trans_of r h' h)⟩
    have hadmits : r x b → (¬ Admits r x a b ↔ r x a ∧ r a b) := by
      intro hb
      unfold Admits
      rw [and_iff_left hb, not_or, not_not, hxa]
    rw [overtaken_cons, sweepsTo_cons]
    by_cases hb : W b
    · rw [hadmits (hW b hb), and_assoc, or_iff_left_of_imp fun _ => hb, or_iff_left_of_imp fun _ => hb]
    · rw [or_iff_right hb, or_iff_right hb, ih fun y hy => hx y (List.mem_cons_of_mem _ hy)]
      constructor
      · rintro ⟨hn, hxb, hs⟩
        obtain ⟨hxa, hab⟩ := (hadmits hxb).1 hn
        exact ⟨hxa, hab, hs⟩
      · rintro ⟨hxa, hab, hs⟩
        have hxb := trans_of r hxa hab
        exact ⟨(hadmits hxb).2 ⟨hxa, hab⟩, hxb, hs⟩

end Precedence

end Linux011
