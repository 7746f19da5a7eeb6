import Mathlib.Algebra.GroupWithZero.Nat
import Mathlib.Algebra.Order.BigOperators.Group.List
import Mathlib.Algebra.Order.Group.Nat
import Mathlib.Data.List.Pairwise

/-!
# Call stacks

Processes as stacks of frames, the innermost first. A step of the innermost frame goes on, calls,
returns, sleeps, or panics.

1. `Outcome`, `Outcome.resume`: the stack after a step.
2. `Nested`: a relation between each frame and those that it was called from. `Nested.resume` keeps
   it through a step.
3. `All`: a predicate of all frames.
4. `Called`: a relation between each frame and the one that called it, `Called.resume`.
5. `total`, the sum of a weight of frames: a step changes it by that of its frame, `resume_total`.
-/

namespace Linux011

/-- What a frame of `F` does, where calls return values of `V`. -/
inductive Outcome (F V : Type*)
  | goto (f : F)
  | call (f g : F)
  | ret (v : V)
  | sleep (f : F)
  | panic

namespace Outcome

variable {F V : Type*}

/-- The stack above `fs` after the outcome of its innermost frame; `receive` is what a caller does
with a returned value. There is none after a panic. -/
def resume (receive : V → F → F) (fs : List F) : Outcome F V → Option (List F)
  | goto f | sleep f => some (f :: fs)
  | call f g => some (g :: f :: fs)
  | ret v =>
    match fs with
    | [] => some []
    | g :: fs => some (receive v g :: fs)
  | panic => none

/-- Every frame is related to all those that it was called from. -/
def Nested (R : F → F → Prop) (fs : List F) : Prop := fs.Pairwise R

variable {R : F → F → Prop} {f g : F} {fs fs' : List F} {receive : V → F → F}

theorem Nested.of_cons (h : Nested R (f :: fs)) : Nested R fs := (List.pairwise_cons.1 h).2

theorem Nested.rel (h : Nested R (f :: fs)) (hg : g ∈ fs) : R f g := (List.pairwise_cons.1 h).1 g hg

/-- `o` keeps the place of `f` in a stack on `fs`: a next frame is related to those in `fs`, and so
is a called one, which is related to its caller, too. -/
def Fits (R : F → F → Prop) (fs : List F) : Outcome F V → Prop
  | goto f | sleep f => ∀ h ∈ fs, R f h
  | call f g => (∀ h ∈ fs, R f h) ∧ R g f ∧ ∀ h ∈ fs, R g h
  | ret _ | panic => True

theorem Nested.resume (h : Nested R (f :: fs)) (hrec : ∀ v g h, R g h → R (receive v g) h)
    {o : Outcome F V} (ho : Fits R fs o) (hs : o.resume receive fs = some fs') : Nested R fs' := by
  have hfs := h.of_cons
  cases o with
  | goto f' =>
    obtain rfl := Option.some.inj hs
    exact List.pairwise_cons.2 ⟨ho, hfs⟩
  | sleep f' =>
    obtain rfl := Option.some.inj hs
    exact List.pairwise_cons.2 ⟨ho, hfs⟩
  | call f' g =>
    obtain rfl := Option.some.inj hs
    obtain ⟨hf', hgf, hg⟩ := ho
    refine List.pairwise_cons.2 ⟨?_, List.pairwise_cons.2 ⟨hf', hfs⟩⟩
    intro k hk
    rcases List.mem_cons.1 hk with rfl | hk
    · exact hgf
    · exact hg k hk
  | ret v =>
    cases fs with
    | nil =>
      obtain rfl := Option.some.inj hs
      exact List.Pairwise.nil
    | cons g fs =>
      obtain rfl := Option.some.inj hs
      exact List.pairwise_cons.2 ⟨fun k hk => hrec v g k (hfs.rel hk), hfs.of_cons⟩
  | panic => cases hs

/-- The frames that an outcome makes satisfy `P`. -/
def All (P : F → Prop) : Outcome F V → Prop
  | goto f | sleep f => P f
  | call f g => P f ∧ P g
  | ret _ | panic => True

theorem All.mono {P Q : F → Prop} {o : Outcome F V} (ho : o.All P) (h : ∀ f, P f → Q f) : o.All Q := by
  cases o with
  | goto f | sleep f => exact h f ho
  | call f g => exact ⟨h f ho.1, h g ho.2⟩
  | ret | panic => trivial

theorem All.resume {P : F → Prop} {o : Outcome F V} (ho : o.All P) (hfs : ∀ g ∈ fs, P g)
    (hrec : ∀ v g, P g → P (receive v g)) (hs : o.resume receive fs = some fs') : ∀ g ∈ fs', P g := by
  cases o with
  | goto f' | sleep f' =>
    obtain rfl := Option.some.inj hs
    exact List.forall_mem_cons.2 ⟨ho, hfs⟩
  | call f' g =>
    obtain rfl := Option.some.inj hs
    exact List.forall_mem_cons.2 ⟨ho.2, List.forall_mem_cons.2 ⟨ho.1, hfs⟩⟩
  | ret v =>
    cases fs with
    | nil =>
      obtain rfl := Option.some.inj hs
      exact hfs
    | cons g fs =>
      obtain rfl := Option.some.inj hs
      obtain ⟨hg, hfs⟩ := List.forall_mem_cons.1 hfs
      exact List.forall_mem_cons.2 ⟨hrec v g hg, hfs⟩
  | panic => cases hs

/-! ## Callers -/

/-- `f` may be called by the first frame of `fs`, or, if there is none, be the outermost. -/
def Under (B : F → Prop) (R : F → F → Prop) (f : F) : List F → Prop
  | [] => B f
  | g :: _ => R f g

/-- Every frame is related by `R` to the one that called it, and the outermost meets `B`. -/
def Called (B : F → Prop) (R : F → F → Prop) : List F → Prop
  | [] => True
  | f :: fs => Under B R f fs ∧ Called B R fs

variable {B : F → Prop}

theorem Under.mono (h : Under B R f fs) (hB : B f → B g) (hR : ∀ k, R f k → R g k) :
    Under B R g fs := by
  cases fs with
  | nil => exact hB h
  | cons k fs => exact hR k h

/-- A next frame may be where `f` was, and a called one is related to its caller. -/
def Joins (B : F → Prop) (R : F → F → Prop) (fs : List F) : Outcome F V → Prop
  | goto f | sleep f => Under B R f fs
  | call f g => Under B R f fs ∧ R g f
  | ret _ | panic => True

theorem Called.resume (h : Called B R (f :: fs)) (hB : ∀ v g, B g → B (receive v g))
    (hR : ∀ v g k, R g k → R (receive v g) k) {o : Outcome F V} (ho : Joins B R fs o)
    (hs : o.resume receive fs = some fs') : Called B R fs' := by
  cases o with
  | goto f' | sleep f' =>
    obtain rfl := Option.some.inj hs
    exact ⟨ho, h.2⟩
  | call f' g =>
    obtain rfl := Option.some.inj hs
    exact ⟨ho.2, ho.1, h.2⟩
  | ret v =>
    cases fs with
    | nil =>
      obtain rfl := Option.some.inj hs
      trivial
    | cons g fs =>
      obtain rfl := Option.some.inj hs
      exact ⟨h.2.1.mono (hB v g) (hR v g), h.2.2⟩
  | panic => cases hs

/-! ## Weights -/

/-- The weight of all frames of a stack. -/
def total (w : F → ℕ) (fs : List F) : ℕ := (fs.map w).sum

@[simp] theorem total_nil (w : F → ℕ) : total w [] = 0 := rfl

@[simp] theorem total_cons (w : F → ℕ) (f : F) (fs : List F) :
    total w (f :: fs) = w f + total w fs := by
  rw [total, total, List.map_cons, List.sum_cons]

theorem total_eq_zero {w : F → ℕ} (h : ∀ f ∈ fs, w f = 0) : total w fs = 0 := by
  induction fs with
  | nil => rfl
  | cons f fs ih =>
    obtain ⟨hf, hfs⟩ := List.forall_mem_cons.1 h
    rw [total_cons, hf, ih hfs]

theorem le_total {w : F → ℕ} (hf : f ∈ fs) : w f ≤ total w fs :=
  List.le_sum_of_mem (List.mem_map_of_mem hf)

/-- The weight of what takes the place of the innermost frame; `u` is that of a returned value. -/
def weight (w : F → ℕ) (u : V → ℕ) : Outcome F V → ℕ
  | goto f | sleep f => w f
  | call f g => w g + w f
  | ret v => u v
  | panic => 0

theorem All.weight {w : F → ℕ} {o : Outcome F V} (ho : o.All fun f => w f = 0) :
    o.weight w (fun _ => 0) = 0 := by
  cases o with
  | goto f | sleep f => exact ho
  | call f g => exact Nat.add_eq_zero_iff.2 ⟨ho.2, ho.1⟩
  | ret | panic => rfl

/-- If callers take over the weight of what they are returned, a step changes the weight of the
stack by that of its frame. -/
theorem resume_total {w : F → ℕ} {u : V → ℕ} {o : Outcome F V}
    (hcaller : ∀ v g gs, o = ret v → fs = g :: gs → w (receive v g) = w g + u v)
    (hlast : ∀ v, o = ret v → fs = [] → u v = 0) (hs : o.resume receive fs = some fs') :
    total w fs' = o.weight w u + total w fs := by
  cases o with
  | goto f' | sleep f' =>
    obtain rfl := Option.some.inj hs
    exact total_cons w f' fs
  | call f' g =>
    obtain rfl := Option.some.inj hs
    rw [total_cons, total_cons, weight, Nat.add_assoc]
  | ret v =>
    cases fs with
    | nil =>
      obtain rfl := Option.some.inj hs
      rw [weight, hlast v rfl rfl, total_nil]
    | cons g fs =>
      obtain rfl := Option.some.inj hs
      rw [total_cons, total_cons, weight, hcaller v g fs rfl rfl]
      omega
  | panic => cases hs

end Outcome

end Linux011
