import Mathlib.Data.List.Basic
import Mathlib.Order.Lattice

/-!
# Loops

`Post r Q E`: a computation in `Except` satisfies `Q` if it returns and `E` if it stops early.
`Post.bind` composes, `Post.foldRange` and `foldRange_invariant` are the rules for a counting loop,
the first for a body that may stop and the second for one that does not.

`scanMax` is the loop that remembers the largest key so far, `scanMax_cases` what it finds.
-/

namespace Linux011

universe u v

variable {ε : Type u} {α β σ : Type v}

/-- The result of a computation: `Q` of the value it returns, `E` of the reason it stops. -/
@[irreducible] def Post (r : Except ε α) (Q : α → Prop) (E : ε → Prop) : Prop :=
  match r with
  | .ok a => Q a
  | .error e => E e

namespace Post

variable {r : Except ε α} {Q Q' : α → Prop} {E E' : ε → Prop}

theorem ok {a : α} (h : Q a) : Post (.ok a : Except ε α) Q E := by
  unfold Post; exact h

theorem error {e : ε} (h : E e) : Post (.error e : Except ε α) Q E := by
  unfold Post; exact h

theorem of_ok {a : α} (h : Post r Q E) (hr : r = .ok a) : Q a := by
  subst hr; unfold Post at h; exact h

theorem of_error {e : ε} (h : Post r Q E) (hr : r = .error e) : E e := by
  subst hr; unfold Post at h; exact h

theorem mono (h : Post r Q E) (hQ : ∀ a, Q a → Q' a) (hE : ∀ e, E e → E' e) : Post r Q' E' := by
  cases r with
  | ok a => exact ok (hQ a (h.of_ok rfl))
  | error e => exact error (hE e (h.of_error rfl))

theorem and (h : Post r Q E) (h' : Post r Q' E') :
    Post r (fun a => Q a ∧ Q' a) (fun e => E e ∧ E' e) := by
  cases r with
  | ok a => exact ok ⟨h.of_ok rfl, h'.of_ok rfl⟩
  | error e => exact error ⟨h.of_error rfl, h'.of_error rfl⟩

theorem bind {f : α → Except ε β} {R : β → Prop} (h : Post r Q E)
    (hf : ∀ a, Q a → Post (f a) R E) : Post (r >>= f) R E := by
  cases r with
  | ok a => exact hf a (h.of_ok rfl)
  | error e => exact error (h.of_error rfl)

/-- A loop over `0, …, n - 1` whose body takes `I k` to `I (k + 1)`. -/
theorem foldRange {f : σ → ℕ → Except ε σ} {I : ℕ → σ → Prop} {n : ℕ}
    (hf : ∀ k < n, ∀ s, I k s → Post (f s k) (I (k + 1)) E) {s : σ} (h : I 0 s) :
    Post ((List.range n).foldlM f s) (I n) E := by
  induction n with
  | zero => exact ok h
  | succ n ih =>
    rw [List.range_succ, List.foldlM_append]
    refine Post.bind (ih fun k hk => hf k (Nat.lt_succ_of_lt hk)) fun t ht => ?_
    have h' := hf n (Nat.lt_succ_self n) t ht
    rw [List.foldlM_cons]
    exact Post.bind h' fun _ ht' => ok ht'

end Post

/-- A loop over `0, …, n - 1` whose body always returns. -/
theorem foldRange_invariant {f : σ → ℕ → σ} {I : ℕ → σ → Prop} {n : ℕ}
    (hf : ∀ k < n, ∀ s, I k s → I (k + 1) (f s k)) {s : σ} (h : I 0 s) :
    I n ((List.range n).foldl f s) := by
  induction n with
  | zero => exact h
  | succ n ih =>
    rw [List.range_succ, List.foldl_append]
    exact hf n (Nat.lt_succ_self n) _ (ih fun k hk => hf k (Nat.lt_succ_of_lt hk))

section Scan

variable {ι κ : Type*} [LinearOrder κ]

/-- One turn: an element whose key is larger than the best one takes its place. -/
def scanStep (key : ι → Option κ) (best : κ × ι) (i : ι) : κ × ι :=
  match key i with
  | some k => if best.1 < k then (k, i) else best
  | none => best

/-- The largest key of a list above the one of `best`, and the first element that has it. -/
def scanMax (key : ι → Option κ) (best : κ × ι) (l : List ι) : κ × ι :=
  l.foldl (scanStep key) best

/-- A scan keeps what it started with if no key is larger, and otherwise finds an element with the
largest key. -/
theorem scanMax_cases (key : ι → Option κ) (l : List ι) (best : κ × ι) :
    (scanMax key best l = best ∧ ∀ i ∈ l, ∀ k, key i = some k → k ≤ best.1) ∨
    ((scanMax key best l).2 ∈ l ∧ key (scanMax key best l).2 = some (scanMax key best l).1 ∧
      best.1 < (scanMax key best l).1 ∧
      ∀ i ∈ l, ∀ k, key i = some k → k ≤ (scanMax key best l).1) := by
  induction l generalizing best with
  | nil => exact .inl ⟨rfl, by simp⟩
  | cons i l ih =>
    have hcons : scanMax key best (i :: l) = scanMax key (scanStep key best i) l := rfl
    rw [hcons]
    have hstep : (scanStep key best i = best ∧ ∀ k, key i = some k → k ≤ best.1) ∨
        ∃ k, key i = some k ∧ best.1 < k ∧ scanStep key best i = (k, i) := by
      unfold scanStep
      cases hk : key i with
      | none => exact .inl ⟨rfl, by simp⟩
      | some k =>
        by_cases hlt : best.1 < k
        · exact .inr ⟨k, rfl, hlt, by simp [hlt]⟩
        · refine .inl ⟨by simp [hlt], ?_⟩
          rintro _ ⟨⟩
          exact not_lt.1 hlt
    rcases hstep with ⟨he, hi⟩ | ⟨k, hk, hlt, he⟩
    · rw [he]
      rcases ih best with ⟨h, hle⟩ | ⟨hmem, hkey, hlt, hle⟩
      · exact .inl ⟨h, List.forall_mem_cons.2 ⟨hi, hle⟩⟩
      · refine .inr ⟨List.mem_cons_of_mem _ hmem, hkey, hlt, List.forall_mem_cons.2 ⟨?_, hle⟩⟩
        exact fun k hk => (hi k hk).trans hlt.le
    · rw [he]
      rcases ih (k, i) with ⟨h, hle⟩ | ⟨hmem, hkey, hlt', hle⟩
      · rw [h]
        refine .inr ⟨List.mem_cons_self, hk, hlt, List.forall_mem_cons.2 ⟨?_, hle⟩⟩
        rintro k' hk'
        rw [hk] at hk'
        exact (Option.some.inj hk').ge
      · refine .inr ⟨List.mem_cons_of_mem _ hmem, hkey, hlt.trans hlt', List.forall_mem_cons.2 ⟨?_, hle⟩⟩
        rintro k' hk'
        rw [hk] at hk'
        exact (Option.some.inj hk').ge.trans hlt'.le

end Scan

end Linux011
