import Mathlib.Logic.Function.Iterate
import Mathlib.Logic.Relation

/-!
# Labelled transition systems

1. `System`: a set of initial states and a labelled step relation. `ReachableWhen ok` are the
   states reached by runs whose every step meets the condition `ok`; `Reachable` drops the condition.
   The induction rules are `ReachableWhen.invariant` and `ReachableWhen.step_invariant`.
2. `Machine`: a deterministic partial step function with an output. `Machine.exec` runs a list of
   operations and collects the outputs; `Simulation.exec` transports a forward simulation along
   whole runs.
3. `Runs`: the steps of a deterministic program on the way from one state to another.
-/

namespace Linux011

/-- A labelled transition system. -/
structure System (σ ε : Type*) where
  init : σ → Prop
  step : σ → ε → σ → Prop

namespace System

variable {σ ε : Type*} {S : System σ ε}

/-- The states reached by runs whose every step meets `ok` (of the state before it and its label). -/
inductive ReachableWhen (S : System σ ε) (ok : σ → ε → Prop) : σ → Prop
  | init {s : σ} : S.init s → ReachableWhen S ok s
  | step {s s' : σ} {e : ε} : ReachableWhen S ok s → ok s e → S.step s e s' → ReachableWhen S ok s'

/-- The states reached by any run. -/
def Reachable (S : System σ ε) (s : σ) : Prop :=
  ReachableWhen S (fun _ _ => True) s

theorem Reachable.start {s : σ} (h : S.init s) : S.Reachable s :=
  ReachableWhen.init h

theorem Reachable.next {s s' : σ} {e : ε} (h : S.Reachable s) (hs : S.step s e s') :
    S.Reachable s' :=
  ReachableWhen.step h trivial hs

/-- A property of the initial states that every step meeting `ok` preserves holds in every state
reached by such steps. -/
theorem ReachableWhen.invariant {ok : σ → ε → Prop} {I : σ → Prop}
    (h0 : ∀ s, S.init s → I s) (hstep : ∀ s e s', I s → ok s e → S.step s e s' → I s') {s : σ}
    (h : S.ReachableWhen ok s) : I s := by
  induction h with
  | init hi => exact h0 _ hi
  | step _ hok hs ih => exact hstep _ _ _ ih hok hs

/-- The rule for runs without a condition. -/
theorem Reachable.invariant {I : σ → Prop} (h0 : ∀ s, S.init s → I s)
    (hstep : ∀ s e s', I s → S.step s e s' → I s') {s : σ} (h : S.Reachable s) : I s :=
  ReachableWhen.invariant h0 (fun s e s' hI _ hs => hstep s e s' hI hs) h

theorem ReachableWhen.mono {ok ok' : σ → ε → Prop} (hok : ∀ s e, ok s e → ok' s e) {s : σ}
    (h : S.ReachableWhen ok s) : S.ReachableWhen ok' s := by
  induction h with
  | init hi => exact .init hi
  | step _ h hs ih => exact .step ih (hok _ _ h) hs

/-- `s'` comes after `s` in a run whose steps meet `ok`. -/
def Leads (S : System σ ε) (ok : σ → ε → Prop) : σ → σ → Prop :=
  Relation.ReflTransGen fun s s' => ∃ e, ok s e ∧ S.step s e s'

/-- A property that every step meeting `ok` preserves holds from where it holds once. -/
theorem Leads.invariant {ok : σ → ε → Prop} {I : σ → Prop}
    (hstep : ∀ s e s', I s → ok s e → S.step s e s' → I s') {s s' : σ} (h : S.Leads ok s s')
    (hI : I s) : I s' := by
  induction h with
  | refl => exact hI
  | tail _ hs ih =>
    obtain ⟨e, hok, hs⟩ := hs
    exact hstep _ e _ ih hok hs

/-- The steps of a list of labels, each taken only where it meets `ok`. -/
def execWhen (next : σ → ε → Option σ) (ok : σ → ε → Prop) [∀ s e, Decidable (ok s e)] :
    σ → List ε → Option σ
  | s, [] => some s
  | s, e :: es => if ok s e then (next s e).bind fun s => execWhen next ok s es else none

theorem Leads.exec {next : σ → ε → Option σ} {ok : σ → ε → Prop} [∀ s e, Decidable (ok s e)]
    (hnext : ∀ s e s', next s e = some s' → S.step s e s') {s s' : σ} :
    ∀ {es : List ε}, execWhen next ok s es = some s' → S.Leads ok s s' := by
  intro es
  induction es generalizing s with
  | nil => rintro ⟨⟩; exact .refl
  | cons e es ih =>
    intro hs
    unfold execWhen at hs
    split at hs
    · next hok =>
      obtain ⟨t, ht, hs⟩ := Option.bind_eq_some_iff.1 hs
      exact .head ⟨e, hok, hnext s e t ht⟩ (ih hs)
    · cases hs

theorem execWhen_mono {next : σ → ε → Option σ} {ok ok' : σ → ε → Prop} [∀ s e, Decidable (ok s e)]
    [∀ s e, Decidable (ok' s e)] (hok : ∀ s e, ok s e → ok' s e) {s s' : σ} {es : List ε}
    (h : execWhen next ok s es = some s') : execWhen next ok' s es = some s' := by
  induction es generalizing s with
  | nil => exact h
  | cons e es ih =>
    unfold execWhen at h ⊢
    split at h
    · next hs =>
      obtain ⟨t, ht, h⟩ := Option.bind_eq_some_iff.1 h
      rw [if_pos (hok _ _ hs), ht]
      exact ih h
    · cases h

/-- A measure that every step meeting `ok` makes smaller bounds the number of such steps. -/
theorem execWhen_length {next : σ → ε → Option σ} {ok : σ → ε → Prop} [∀ s e, Decidable (ok s e)]
    {I : σ → Prop} {m : σ → ℕ}
    (hstep : ∀ s e s', I s → ok s e → next s e = some s' → I s' ∧ m s' < m s) {s s' : σ}
    {es : List ε} (hI : I s) (h : execWhen next ok s es = some s') : I s' ∧ m s' + es.length ≤ m s := by
  induction es generalizing s with
  | nil =>
    cases h
    exact ⟨hI, Nat.le_refl _⟩
  | cons e es ih =>
    unfold execWhen at h
    split at h
    · next hok =>
      obtain ⟨t, ht, h⟩ := Option.bind_eq_some_iff.1 h
      obtain ⟨hIt, hlt⟩ := hstep s e t hI hok ht
      obtain ⟨hI', hle⟩ := ih hIt h
      refine ⟨hI', ?_⟩
      rw [List.length_cons]
      omega
    · cases h

theorem ReachableWhen.leads {ok : σ → ε → Prop} {s s' : σ} (h : S.ReachableWhen ok s)
    (hl : S.Leads ok s s') : S.ReachableWhen ok s' := by
  induction hl with
  | refl => exact h
  | tail _ hs ih =>
    obtain ⟨e, hok, hs⟩ := hs
    exact ih.step hok hs

theorem Leads.mono {ok ok' : σ → ε → Prop} (hok : ∀ s e, ok s e → ok' s e) {s s' : σ}
    (h : S.Leads ok s s') : S.Leads ok' s s' := by
  induction h with
  | refl => exact .refl
  | tail _ hs ih =>
    obtain ⟨e, h, hs⟩ := hs
    exact .tail ih ⟨e, hok _ e h, hs⟩

/-- What a list of labels leads to is reached by steps that meet `ok`. -/
theorem ReachableWhen.exec {next : σ → ε → Option σ} {ok : σ → ε → Prop}
    [∀ s e, Decidable (ok s e)] (hnext : ∀ s e s', next s e = some s' → S.step s e s') {s s' : σ}
    (h : S.ReachableWhen ok s) {es : List ε} (hs : execWhen next ok s es = some s') :
    S.ReachableWhen ok s' :=
  h.leads (Leads.exec hnext hs)

end System

/-- A deterministic machine: an operation either has no behaviour (`none`) or gives a next state
and an output. -/
structure Machine (σ ε ω : Type*) where
  step : σ → ε → Option (σ × ω)

namespace Machine

variable {σ τ ε ω : Type*}

/-- Run a list of operations and collect the outputs. -/
def exec (M : Machine σ ε ω) : σ → List ε → Option (σ × List ω)
  | s, [] => some (s, [])
  | s, e :: es =>
    match M.step s e with
    | none => none
    | some (s', o) =>
      match exec M s' es with
      | none => none
      | some (s'', os) => some (s'', o :: os)

/-- A run of a nonempty list is a step followed by a run of the rest. -/
theorem exec_cons_eq_some {M : Machine σ ε ω} {s s'' : σ} {e : ε} {es : List ε} {os : List ω}
    (h : M.exec s (e :: es) = some (s'', os)) :
    ∃ s' o os', M.step s e = some (s', o) ∧ M.exec s' es = some (s'', os') ∧ os = o :: os' := by
  unfold exec at h
  split at h
  · cases h
  · next s' o hs =>
    split at h
    · cases h
    · next t os' ht =>
      obtain ⟨rfl, rfl⟩ := by simpa using h
      exact ⟨s', o, os', hs, ht, rfl⟩

theorem exec_append {M : Machine σ ε ω} {s s' s'' : σ} {es es' : List ε} {os os' : List ω}
    (h : M.exec s es = some (s', os)) (h' : M.exec s' es' = some (s'', os')) :
    M.exec s (es ++ es') = some (s'', os ++ os') := by
  induction es generalizing s os with
  | nil =>
    cases h
    exact h'
  | cons e es ih =>
    obtain ⟨t, o, os₁, ht, hexec, rfl⟩ := exec_cons_eq_some h
    rw [List.cons_append, exec, ht]
    dsimp only
    rw [ih hexec]
    rfl

/-- The runs of `M` whose every step meets `ok`. -/
def when (M : Machine σ ε ω) (ok : σ → ε → Prop) [∀ s e, Decidable (ok s e)] : Machine σ ε ω where
  step s e := if ok s e then M.step s e else none

theorem when_step_eq_some {M : Machine σ ε ω} {ok : σ → ε → Prop} [∀ s e, Decidable (ok s e)]
    {s : σ} {e : ε} {r : σ × ω} (h : (M.when ok).step s e = some r) : ok s e ∧ M.step s e = some r := by
  unfold when at h
  dsimp only at h
  split at h
  · next hok => exact ⟨hok, h⟩
  · cases h

/-- What the initial state of a run has and every step keeps, the last state has. -/
theorem exec_invariant {M : Machine σ ε ω} {I : σ → Prop}
    (hstep : ∀ s e s' o, I s → M.step s e = some (s', o) → I s') :
    ∀ (es : List ε) {s s' : σ} {os : List ω}, I s → M.exec s es = some (s', os) → I s' := by
  intro es
  induction es with
  | nil =>
    intro s s' os h hs
    obtain ⟨rfl, rfl⟩ := by simpa [Machine.exec] using hs
    exact h
  | cons e es ih =>
    intro s s' os h hs
    obtain ⟨s₁, o, os', h1, h2, rfl⟩ := exec_cons_eq_some hs
    exact ih (hstep s e s₁ o h h1) h2

/-- `R` is a forward simulation of the machine `M` by `N` with equal outputs. -/
def Simulation (M : Machine σ ε ω) (N : Machine τ ε ω) (R : σ → τ → Prop) : Prop :=
  ∀ s t e s' o, R s t → M.step s e = some (s', o) → ∃ t', N.step t e = some (t', o) ∧ R s' t'

/-- Along a simulation, a whole run of `M` is a run of `N` with the same outputs. -/
theorem Simulation.exec {M : Machine σ ε ω} {N : Machine τ ε ω} {R : σ → τ → Prop}
    (hR : Simulation M N R) : ∀ (es : List ε) {s : σ} {t : τ} {s' : σ} {os : List ω},
      R s t → M.exec s es = some (s', os) → ∃ t', N.exec t es = some (t', os) ∧ R s' t' := by
  intro es
  induction es with
  | nil =>
    intro s t s' os h hs
    obtain ⟨rfl, rfl⟩ := by simpa [Machine.exec] using hs
    exact ⟨t, rfl, h⟩
  | cons e es ih =>
    intro s t s' os h hs
    obtain ⟨s₁, o, os', h1, h2, rfl⟩ := exec_cons_eq_some hs
    obtain ⟨t₁, ht1, hr⟩ := hR s t e s₁ o h h1
    obtain ⟨t', ht', hr'⟩ := ih hr h2
    refine ⟨t', ?_, hr'⟩
    simp only [Machine.exec, ht1, ht']

end Machine

/-- From `s` the steps of a deterministic program come to `t`, through states with `P`. -/
inductive Runs {σ : Type*} (step : σ → σ) (P : σ → Prop) : σ → σ → Prop
  | refl (s : σ) : Runs step P s s
  | head {s t : σ} : P s → Runs step P (step s) t → Runs step P s t

namespace Runs

variable {σ : Type*} {step : σ → σ} {P : σ → Prop} {s t u : σ}

theorem trans (h : Runs step P s t) (h' : Runs step P t u) : Runs step P s u := by
  induction h with
  | refl => exact h'
  | head hs _ ih => exact head hs (ih h')

theorem iterate (h : Runs step P s t) : ∃ n, step^[n] s = t ∧ ∀ i < n, P (step^[i] s) := by
  induction h with
  | refl => exact ⟨0, rfl, fun i hi => absurd hi (Nat.not_lt_zero i)⟩
  | head hs _ ih =>
    obtain ⟨n, hn, hP⟩ := ih
    refine ⟨n + 1, hn, fun i hi => ?_⟩
    cases i with
    | zero => exact hs
    | succ i => exact hP i (Nat.lt_of_succ_lt_succ hi)

/-- Where it stays, all states have what those on the way have. -/
theorem always (h : Runs step P s t) (ht : step t = t) (hP : P t) (i : ℕ) : P (step^[i] s) := by
  obtain ⟨n, hn, hlt⟩ := h.iterate
  rcases Nat.lt_or_ge i n with hi | hi
  · exact hlt i hi
  · obtain ⟨k, rfl⟩ := Nat.exists_eq_add_of_le hi
    rw [Nat.add_comm, Function.iterate_add_apply, hn, Function.iterate_fixed ht]
    exact hP

end Runs

end Linux011
