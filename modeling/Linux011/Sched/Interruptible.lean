import Linux011.Sched.WaitQueue

/-!
# The stack of interruptible waiters

On a queue used by `interruptible_sleep_on` alone (the queues of the terminals), the head is put
back when a task leaves, and a task woken out of its turn wakes the head and goes back to sleep. So
the head and the saved `tmp`s list the waiters in the order in which they came (`Stack`), whatever
the signals and the other queues do.

`waiters` is that order, taken from the history of a run; `Chained` reads it off the memory.
-/

namespace Linux011.Sched

variable {T Q : Type*} [DecidableEq T] [DecidableEq Q]

/-- `t` is inside `interruptible_sleep_on(q)`. -/
def OnQueue (s : State T Q) (q : Q) (t : T) : Prop :=
  ∃ tmp, s.frame t = .interruptibleSleepOn q tmp

/-- Following the saved `tmp`s from `p` visits `l` and ends at NULL. -/
def Chained (s : State T Q) : Option T → List T → Prop
  | p, [] => p = none
  | p, t :: l => p = some t ∧ Chained s (saved s t) l

/-- The tasks inside, the latest first, after an event that leads to `s'`: a task enters by
calling, and has left when its call is no longer on its kernel stack. -/
def entered (q : Q) (l : List T) (s' : State T Q) : Event T Q → List T
  | .interruptibleSleepOn t q' => if q' = q then t :: l else l
  | .resume t =>
    match s'.frame t with
    | .interruptibleSleepOn _ _ => l
    | _ => l.erase t
  | _ => l

/-- The tasks inside after the events `es` from `s`, the latest first. -/
def waiters (q : Q) : State T Q → List T → List (Event T Q) → List T
  | _, l, [] => l
  | s, l, e :: es =>
    match step s e with
    | some s' => waiters q s' (entered q l s' e) es
    | none => l

/-- The head and the `tmp`s list exactly the tasks inside, each once; `l` is their order. -/
structure Stack (s : State T Q) (q : Q) (l : List T) : Prop where
  chained : Chained s (s.head q) l
  nodup : l.Nodup
  mem : ∀ t, t ∈ l ↔ OnQueue s q t

/-- A task that leaves in this step was the head; the head goes to its `tmp`, which is made
runnable. -/
def LeavesAtHead (s : State T Q) (q : Q) (s' : State T Q) : Prop :=
  ∀ t, OnQueue s q t → ¬ OnQueue s' q t → s.head q = some t ∧ s'.head q = saved s t ∧
    ∀ u, saved s t = some u → s'.state u = .running

/-! ## Chains -/

section Chain

variable {s s' : State T Q} {q : Q} {t : T} {l : List T}

omit [DecidableEq T] [DecidableEq Q]

theorem Chained.congr (hs : ∀ t ∈ l, saved s' t = saved s t) :
    ∀ {p : Option T}, Chained s p l → Chained s' p l := by
  induction l with
  | nil => exact fun h => h
  | cons t l ih =>
    intro p h
    obtain ⟨hp, hl⟩ := h
    have ht : saved s' t = saved s t := hs t List.mem_cons_self
    refine ⟨hp, ?_⟩
    rw [ht]
    exact ih (fun u hu => hs u (List.mem_cons_of_mem _ hu)) hl

/-- The chain from NULL is empty. -/
theorem Chained.eq_nil (h : Chained s none l) : l = [] := by
  cases l with
  | nil => rfl
  | cons t l => cases h.1

/-- The chain from `t` starts with `t`. -/
theorem Chained.eq_cons (h : Chained s (some t) l) : ∃ l', l = t :: l' ∧ Chained s (saved s t) l' := by
  cases l with
  | nil => cases h
  | cons u l =>
    obtain ⟨hu, hl⟩ := h
    obtain rfl : t = u := Option.some.inj hu
    exact ⟨l, rfl, hl⟩

end Chain

/-! ## Who is inside -/

section OnQueue

variable {s s' : State T Q} {q q' : Q} {t : T}

omit [DecidableEq T] [DecidableEq Q]

theorem OnQueue.waiting (h : OnQueue s q t) : Waiting s q t := h.imp fun _ => .inr

theorem onQueue_congr (h : s'.frame t = s.frame t) : OnQueue s' q t ↔ OnQueue s q t := by
  unfold OnQueue
  rw [h]

theorem not_onQueue_of_frame {f : Frame T Q} (h : s.frame t = f)
    (hf : ∀ tmp, f ≠ .interruptibleSleepOn q tmp) : ¬ OnQueue s q t := by
  rintro ⟨tmp, ht⟩
  exact hf tmp (h.symm.trans ht)

end OnQueue

/-! ## What the steps preserve -/

section Steps

variable {s s' : State T Q} {q : Q} {t : T} {l : List T} {e : Event T Q}

omit [DecidableEq T] [DecidableEq Q] in
/-- A step that keeps the head and moves no task into or out of the queue. -/
theorem Stack.congr (h : Stack s q l) (hh : s'.head q = s.head q)
    (hf : ∀ t, s'.frame t = s.frame t ∨ ¬ OnQueue s q t ∧ ¬ OnQueue s' q t) : Stack s' q l := by
  refine ⟨?_, h.nodup, fun t => ?_⟩
  · rw [hh]
    refine h.chained.congr fun t ht => ?_
    rcases hf t with hf | ⟨hn, -⟩
    · exact saved_congr hf
    · exact absurd ((h.mem t).1 ht) hn
  · rw [h.mem t]
    rcases hf t with hf | ⟨h1, h2⟩
    · exact (onQueue_congr hf).symm
    · exact iff_of_false h1 h2

/-- Entering puts `t` in front. -/
theorem Stack.enter (h : Stack s q l) (ht : s.frame t = .outside) :
    Stack (interruptibleSleepOn s t q) q (t :: l) := by
  have hout : ¬ OnQueue s q t := not_onQueue_of_frame ht (by simp)
  have htl : t ∉ l := fun hm => hout ((h.mem t).1 hm)
  have hself : (interruptibleSleepOn s t q).frame t = .interruptibleSleepOn q (s.head q) := by
    simp [interruptibleSleepOn]
  have hother : ∀ u, u ≠ t → (interruptibleSleepOn s t q).frame u = s.frame u := by
    intro u hu
    simp [interruptibleSleepOn, hu]
  refine ⟨⟨by simp [interruptibleSleepOn], ?_⟩, List.nodup_cons.2 ⟨htl, h.nodup⟩, fun u => ?_⟩
  · rw [saved_interruptible hself]
    refine h.chained.congr fun u hu => saved_congr (hother u ?_)
    rintro rfl
    exact htl hu
  · by_cases hu : u = t
    · subst hu
      exact iff_of_true List.mem_cons_self ⟨_, hself⟩
    · rw [List.mem_cons, or_iff_right hu, h.mem u]
      exact (onQueue_congr (hother u hu)).symm

omit [DecidableEq Q] in
/-- The head leaves: the stack loses its first entry. -/
theorem Stack.leave (h : Stack s q l) (hq : s.head q = some t)
    (hframe : s'.frame = Function.update s.frame t .outside) (hhead : s'.head q = saved s t) :
    Stack s' q (l.erase t) := by
  have hc := h.chained
  rw [hq] at hc
  obtain ⟨l', rfl, hl'⟩ := hc.eq_cons
  obtain ⟨htl, hnd⟩ := List.nodup_cons.1 h.nodup
  have hother : ∀ u, u ≠ t → s'.frame u = s.frame u := by
    intro u hu
    rw [hframe, Function.update_of_ne hu]
  rw [List.erase_cons_head]
  refine ⟨?_, hnd, fun u => ?_⟩
  · rw [hhead]
    refine hl'.congr fun u hu => saved_congr (hother u ?_)
    rintro rfl
    exact htl hu
  · by_cases hu : u = t
    · subst hu
      refine iff_of_false htl (not_onQueue_of_frame (f := .outside) ?_ (by simp))
      rw [hframe, Function.update_self]
    · rw [onQueue_congr (hother u hu), ← h.mem u, List.mem_cons, or_iff_right hu]

omit [DecidableEq T] [DecidableEq Q] in
/-- A task that is not inside does not leave. -/
theorem leavesAtHead_of_frame
    (hf : ∀ t, s'.frame t = s.frame t ∨ ¬ OnQueue s q t ∧ ¬ OnQueue s' q t) :
    LeavesAtHead s q s' := by
  intro t ht hn
  rcases hf t with hf | ⟨h1, -⟩
  · exact absurd ((onQueue_congr hf).2 ht) hn
  · exact absurd ht h1

omit [DecidableEq Q] in
/-- A change to the frame of a task that is inside neither before nor after. -/
theorem frame_or_outside {f : Frame T Q} (hframe : s'.frame = Function.update s.frame t f)
    (h1 : ¬ OnQueue s q t) (h2 : ∀ tmp, f ≠ .interruptibleSleepOn q tmp) :
    ∀ u, s'.frame u = s.frame u ∨ ¬ OnQueue s q u ∧ ¬ OnQueue s' q u := by
  intro u
  by_cases hu : u = t
  · subst hu
    refine .inr ⟨h1, not_onQueue_of_frame (f := f) ?_ h2⟩
    rw [hframe, Function.update_self]
  · left
    rw [hframe, Function.update_of_ne hu]

end Steps

/-! ## One step, and a run -/

/-- One step: the stack follows the history, and whoever leaves was the head. -/
def StackStep (s : State T Q) (q : Q) (l : List T) (e : Event T Q) (s' : State T Q) : Prop :=
  Stack s' q (entered q l s' e) ∧ LeavesAtHead s q s'

section Run

variable {s s' : State T Q} {q : Q} {t : T} {l : List T} {e : Event T Q}

/-- A step that keeps the head of the queue, its members and their frames. -/
theorem Stack.step_congr (h : Stack s q l) (hh : s'.head q = s.head q)
    (hf : ∀ t, s'.frame t = s.frame t ∨ ¬ OnQueue s q t ∧ ¬ OnQueue s' q t)
    (he : entered q l s' e = l) : StackStep s q l e s' := by
  refine ⟨?_, leavesAtHead_of_frame hf⟩
  rw [he]
  exact h.congr hh hf

/-- A task calls `interruptible_sleep_on`. -/
theorem Stack.step_enter {q' : Q} (h : Stack s q l) (ht : s.frame t = .outside) :
    StackStep s q l (.interruptibleSleepOn t q') (interruptibleSleepOn s t q') := by
  have hout : ¬ OnQueue s q t := not_onQueue_of_frame ht (by simp)
  have hframe : (interruptibleSleepOn s t q').frame =
      Function.update s.frame t (.interruptibleSleepOn q' (s.head q')) := rfl
  by_cases hq : q' = q
  · subst hq
    refine ⟨?_, fun u hu hn => absurd ?_ hn⟩
    · simp only [entered, if_true]
      exact h.enter ht
    · by_cases hut : u = t
      · subst hut
        exact absurd hu hout
      · refine (onQueue_congr ?_).2 hu
        rw [hframe, Function.update_of_ne hut]
  · refine h.step_congr ?_ (frame_or_outside hframe hout ?_) ?_
    · exact Function.update_of_ne (Ne.symm hq) _ _
    · simp [hq]
    · simp [entered, hq]

/-- A task that is inside runs again: it leaves if it is the head, and otherwise wakes the head and
goes back to sleep. -/
theorem Stack.step_inside {tmp : Option T} (h : Stack s q l)
    (ht : s.frame t = .interruptibleSleepOn q tmp) :
    StackStep s q l (.resume t) (interruptibleResume s t q tmp) := by
  have hin : OnQueue s q t := ⟨tmp, ht⟩
  rcases hq : s.head q with - | u
  · have hc := h.chained
    rw [hq] at hc
    obtain rfl := hc.eq_nil
    exact absurd ((h.mem t).2 hin) List.not_mem_nil
  by_cases hu : u = t
  · subst hu
    have hs : interruptibleResume s u q tmp =
        ((s.setHead q tmp).wake q tmp).leave u q := by
      simp [interruptibleResume, hq]
    have hsaved : saved s u = tmp := saved_interruptible ht
    rw [hs]
    refine ⟨?_, fun v hv hn => ?_⟩
    · have he : entered q l (((s.setHead q tmp).wake q tmp).leave u q) (.resume u) =
          l.erase u := by simp [entered]
      rw [he]
      refine h.leave hq (by simp) ?_
      rw [hsaved]
      simp
    · have hvu : v = u := by
        by_contra hvu
        exact hn ((onQueue_congr (by simp [hvu])).2 hv)
      subst hvu
      refine ⟨hq, by simp [hsaved], fun w hw => ?_⟩
      obtain rfl : tmp = some w := hsaved.symm.trans hw
      simp
  · have hs : interruptibleResume s t q tmp = (s.wake q (some u)).setState t .interruptible := by
      simp [interruptibleResume, hq, hu]
    rw [hs]
    refine h.step_congr rfl (fun _ => .inl rfl) ?_
    simp [entered, ht]

/-- Whoever runs again goes back to sleep, or leaves. -/
theorem interruptibleResume_frame (s : State T Q) (t : T) (q : Q) (tmp : Option T) :
    (interruptibleResume s t q tmp).frame = s.frame ∨
      (interruptibleResume s t q tmp).frame = Function.update s.frame t .outside := by
  unfold interruptibleResume
  split
  · split
    · right; simp
    · left; simp
  · right; simp

theorem interruptibleResume_head {q' : Q} {tmp : Option T} (hq : q ≠ q') :
    (interruptibleResume s t q' tmp).head q = s.head q := by
  unfold interruptibleResume
  split
  · split
    · simp [hq]
    · simp
  · simp [hq]

/-- A task in another queue, or in `sleep_on`, runs again. -/
theorem Stack.step_outside (h : Stack s q l) (hn : ¬ OnQueue s q t)
    (hs : step s (.resume t) = some s') : StackStep s q l (.resume t) s' := by
  have htl : t ∉ l := fun hm => hn ((h.mem t).1 hm)
  have he : entered q l s' (.resume t) = l := by
    simp only [entered]
    split
    · rfl
    · exact List.erase_of_not_mem htl
  obtain ⟨-, q', tmp, ⟨ht, rfl⟩ | ⟨ht, rfl⟩⟩ := step_resume hs
  · refine h.step_congr ?_ (frame_or_outside (t := t) (f := .outside) ?_ hn (by simp)) he
    · simp [sleepOnReturn]
    · simp [sleepOnReturn]
  · have hq : q ≠ q' := by
      rintro rfl
      exact hn ⟨tmp, ht⟩
    have hhead : (interruptibleResume s t q' tmp).head q = s.head q :=
      interruptibleResume_head hq
    rcases interruptibleResume_frame s t q' tmp with hf | hf
    · exact h.step_congr hhead (fun u => .inl (congrFun hf u)) he
    · exact h.step_congr hhead (frame_or_outside hf hn (by simp)) he

/-- **One step.** -/
theorem Stack.step (h : Stack s q l) (hq : ∀ t, e ≠ .sleepOn t q) (hs : step s e = some s') :
    StackStep s q l e s' := by
  cases e with
  | sleepOn t q' =>
    obtain ⟨ht, -, rfl⟩ := step_sleepOn hs
    have hne : q ≠ q' := by
      rintro rfl
      exact hq t rfl
    refine h.step_congr ?_ (frame_or_outside (t := t) (f := .sleepOn q' (s.head q')) rfl
      (not_onQueue_of_frame ht (by simp)) (by simp)) rfl
    exact Function.update_of_ne hne _ _
  | interruptibleSleepOn t q' =>
    obtain ⟨ht, -, rfl⟩ := step_interruptibleSleepOn hs
    exact h.step_enter ht
  | wakeUp q' =>
    obtain rfl : wakeUp s q' = s' := Option.some.inj hs
    exact h.step_congr (by simp [wakeUp]) (fun _ => .inl (by simp [wakeUp])) rfl
  | resume t =>
    by_cases ht : OnQueue s q t
    · obtain ⟨-, q', tmp, ⟨hf, rfl⟩ | ⟨hf, rfl⟩⟩ := step_resume hs
      · obtain ⟨tmp', hf'⟩ := ht
        rw [hf] at hf'
        cases hf'
      · obtain rfl : q' = q := Waiting.queue_eq ⟨tmp, .inr hf⟩ ht.waiting
        exact h.step_inside hf
    · exact h.step_outside ht hs
  | signal t =>
    obtain ⟨-, -, rfl⟩ := step_signal hs
    exact h.step_congr rfl (fun _ => .inl rfl) rfl
  | pause t =>
    obtain ⟨-, -, rfl⟩ := step_pause hs
    exact h.step_congr rfl (fun _ => .inl rfl) rfl
  | doExit t =>
    obtain ⟨ht, -, rfl⟩ := step_doExit hs
    exact h.step_congr rfl (frame_or_outside (t := t) (f := .exited) rfl
      (not_onQueue_of_frame ht (by simp)) (by simp)) rfl
  | release t =>
    obtain ⟨ht, -, rfl⟩ := step_release hs
    exact h.step_congr rfl (frame_or_outside (t := t) (f := .free) rfl
      (not_onQueue_of_frame ht (by simp)) (by simp)) rfl
  | fork t =>
    obtain ⟨ht, rfl⟩ := step_fork hs
    exact h.step_congr rfl (frame_or_outside (t := t) (f := .outside) rfl
      (not_onQueue_of_frame ht (by simp)) (by simp)) rfl

/-- What every run on the queue keeps. -/
theorem Stack.run {es : List (Event T Q)} : ∀ {s s' : State T Q} {l : List T}, Stack s q l →
    (∀ t, Event.sleepOn t q ∉ es) → run s es = some s' → Stack s' q (waiters q s l es) := by
  induction es with
  | nil =>
    intro s s' l h _ hs
    obtain rfl : s = s' := Option.some.inj hs
    exact h
  | cons e es ih =>
    intro s s' l h hq hs
    obtain ⟨s₁, hs₁, hs'⟩ := Option.bind_eq_some_iff.1 hs
    have hstep : StackStep s q l e s₁ := h.step (fun t he => hq t (by simp [he])) hs₁
    have hrest : ∀ t, Event.sleepOn t q ∉ es := fun t ht => hq t (List.mem_cons_of_mem _ ht)
    simp only [waiters, hs₁]
    exact ih hstep.1 hrest hs'

omit [DecidableEq T] [DecidableEq Q] in
theorem Stack.init (h : Init s) : Stack s q [] := by
  refine ⟨h.1 q, List.nodup_nil, fun t => iff_of_false List.not_mem_nil ?_⟩
  rcases h.2 t with ht | ⟨ht, -⟩
  · exact not_onQueue_of_frame ht (by simp)
  · exact not_onQueue_of_frame ht (by simp)

omit [DecidableEq T] [DecidableEq Q] in
/-- The head is NULL exactly when none is inside. -/
theorem Stack.head_none_iff (h : Stack s q l) : s.head q = none ↔ ∀ t, ¬ OnQueue s q t := by
  constructor
  · intro hn t ht
    have hc := h.chained
    rw [hn] at hc
    obtain rfl := hc.eq_nil
    exact List.not_mem_nil ((h.mem t).2 ht)
  · intro hn
    cases hl : l with
    | nil =>
      rw [hl] at h
      exact h.chained
    | cons t l' =>
      refine absurd ((h.mem t).1 ?_) (hn t)
      rw [hl]
      exact List.mem_cons_self

end Run

/-- **Interruptible waiters form a stack.** On a queue that no task uses with `sleep_on`, after any
events: the head and the `tmp`s list exactly the tasks inside, each once and in the order of
their calls; the head is NULL exactly when none is inside; and in the next step a task leaves only
from the head, and makes the task below it runnable. -/
theorem interruptible_stack {s₀ s : State T Q} {q : Q} {es : List (Event T Q)} (h₀ : Init s₀)
    (hq : ∀ t, Event.sleepOn t q ∉ es) (hs : run s₀ es = some s) :
    Stack s q (waiters q s₀ [] es) ∧ (s.head q = none ↔ ∀ t, ¬ OnQueue s q t) ∧
      ∀ e s', (∀ t, e ≠ .sleepOn t q) → step s e = some s' → LeavesAtHead s q s' := by
  have h : Stack s q (waiters q s₀ [] es) := (Stack.init h₀).run hq hs
  refine ⟨h, h.head_none_iff, fun e s' he hs' => ?_⟩
  exact (h.step he hs').2

/-- Tasks 0, 1 and 2 wait; a signal wakes task 0 out of turn, which wakes task 2 and sleeps on;
task 2 leaves and wakes task 1. -/
def outOfTurn : List (Event ℕ Unit) :=
  [.interruptibleSleepOn 0 (), .interruptibleSleepOn 1 (), .interruptibleSleepOn 2 (), .signal 0,
    .resume 0, .resume 2]

theorem interruptible_stack_outOfTurn : ∃ s, run (idle ℕ Unit) outOfTurn = some s ∧
    waiters () (idle ℕ Unit) [] outOfTurn = [1, 0] ∧ s.state 0 = .interruptible ∧
      s.state 1 = .running ∧ Stack s () [1, 0] := by
  obtain ⟨s, hs, h0, h1⟩ : ∃ s, run (idle ℕ Unit) outOfTurn = some s ∧
      s.state 0 = .interruptible ∧ s.state 1 = .running := ⟨_, rfl, rfl, rfl⟩
  have hw : waiters () (idle ℕ Unit) [] outOfTurn = [1, 0] := rfl
  refine ⟨s, hs, hw, h0, h1, ?_⟩
  rw [← hw]
  exact (interruptible_stack init_idle (by simp [outOfTurn]) hs).1

end Linux011.Sched
