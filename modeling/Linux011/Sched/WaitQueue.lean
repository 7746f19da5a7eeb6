import Linux011.Sched.SleepWake

/-!
# Which tasks a wake-up reaches

`wake_up` leaves the head of a queue in place and `sleep_on` does not put its `tmp` back, so the
head can go on pointing to a task that has left the queue (`wakes_zombie`). A queue is used with
care if this has not happened since its head was stored to (`Careful`). In such runs a head that
has not been left there waits (`Marked`), the waiters of every queue form a stack linked by their
saved `tmp`s (`Stacked`), and every store of `state=0` reaches a waiter (`wakesWaiting_of_careful`).
-/

namespace Linux011.Sched

variable {T Q : Type*} [DecidableEq T] [DecidableEq Q]

/-- The local `tmp` of a sleeper. -/
def saved (s : State T Q) (t : T) : Option T :=
  match s.frame t with
  | .sleepOn _ tmp => tmp
  | .interruptibleSleepOn _ tmp => tmp
  | _ => none

/-- `t` has been woken in `sleep_on` but has not run yet. -/
def Woken (s : State T Q) (t : T) : Prop :=
  (∃ q tmp, s.frame t = .sleepOn q tmp) ∧ s.state t = .running

/-- No task has left itself in the head of the queue that an event uses; a new sleeper may find itself
there, and does not find a task that has been woken in `sleep_on` and has not run. -/
def Careful (s : State T Q) : Event T Q → Prop
  | .sleepOn t q | .interruptibleSleepOn t q =>
    (s.left q = true → s.head q = some t) ∧ ∀ u, s.head q = some u → ¬ Woken s u
  | .wakeUp q => s.left q = false
  | .resume t => ∀ q tmp, s.frame t = .interruptibleSleepOn q tmp → s.left q = false
  | _ => True

/-- `wake_up` and `interruptible_sleep_on` find in the head a task still waiting on the queue, a new
sleeper finds itself or a waiter that has not been woken yet. -/
def HeadWaits (s : State T Q) : Event T Q → Prop
  | .sleepOn t q => ∀ u, s.head q = some u → u = t ∨ Waiting s q u ∧ ¬ Woken s u
  | .interruptibleSleepOn t q => ∀ u, s.head q = some u → u = t ∨ Waiting s q u ∧ ¬ Woken s u
  | .wakeUp q => ∀ u, s.head q = some u → Waiting s q u
  | .resume t => ∀ q tmp u, s.frame t = .interruptibleSleepOn q tmp → s.head q = some u →
      Waiting s q u
  | _ => True

/-- Each waiter's `tmp` is the next older waiter, not woken yet, or the waiter itself. -/
def Linked (s : State T Q) : List T → Prop
  | [] => True
  | t :: l =>
    (saved s t = some t ∨ saved s t = l.head? ∧ ∀ u, l.head? = some u → ¬ Woken s u) ∧ Linked s l

/-- `l` lists the waiters of `q`, the latest first; the head is the latest waiter or has left. -/
structure Stacked (s : State T Q) (q : Q) (l : List T) : Prop where
  nodup : l.Nodup
  mem : ∀ t, t ∈ l ↔ Waiting s q t
  linked : Linked s l
  head : s.head q = l.head? ∨ ∃ u, s.head q = some u ∧ u ∉ l

/-- The head of a queue waits there, unless it was left there. -/
def Marked (s : State T Q) : Prop := ∀ q u, s.head q = some u → Waiting s q u ∨ s.left q = true

/-- What every step keeps when the heads wait. -/
structure QueueInv (s : State T Q) : Prop where
  stacked : ∀ q, ∃ l, Stacked s q l
  sleeping : ∀ t q tmp, s.frame t = .sleepOn q tmp → s.state t ≠ .interruptible
  exited : ∀ t, s.frame t = .exited → s.state t = .zombie

/-! ## Waiters -/

section Waiting

variable {s s' : State T Q} {t u : T} {q q' : Q}

omit [DecidableEq T] [DecidableEq Q]

theorem Waiting.queue_eq (h : Waiting s q t) (h' : Waiting s q' t) : q = q' := by
  obtain ⟨tmp, h⟩ := h
  obtain ⟨tmp', h'⟩ := h'
  rcases h with h | h <;> rcases h' with h' | h' <;> rw [h] at h' <;> cases h' <;> rfl

theorem waiting_congr (h : s'.frame t = s.frame t) : Waiting s' q t ↔ Waiting s q t := by
  unfold Waiting; rw [h]

theorem saved_congr (h : s'.frame t = s.frame t) : saved s' t = saved s t := by
  unfold saved; rw [h]

theorem saved_sleepOn {tmp : Option T} (h : s.frame t = .sleepOn q tmp) : saved s t = tmp := by
  unfold saved; rw [h]

theorem saved_interruptible {tmp : Option T} (h : s.frame t = .interruptibleSleepOn q tmp) :
    saved s t = tmp := by
  unfold saved; rw [h]

theorem not_waiting_outside (h : s.frame t = .outside) : ¬ Waiting s q t := by
  rintro ⟨tmp, h' | h'⟩ <;> rw [h] at h' <;> cases h'

theorem not_waiting_exited (h : s.frame t = .exited) : ¬ Waiting s q t := by
  rintro ⟨tmp, h' | h'⟩ <;> rw [h] at h' <;> cases h'

theorem not_waiting_free (h : s.frame t = .free) : ¬ Waiting s q t := by
  rintro ⟨tmp, h' | h'⟩ <;> rw [h] at h' <;> cases h'

/-- A store to another task's state does not wake `u`. -/
theorem woken_congr (hf : s'.frame u = s.frame u) (hs : s'.state u = s.state u) :
    Woken s' u ↔ Woken s u := by
  unfold Woken; rw [hf, hs]

end Waiting

/-! ## The linked stack -/

section Stack

variable {s s' : State T Q} {t : T} {q : Q} {l l₁ l₂ : List T}

omit [DecidableEq T] [DecidableEq Q] in
theorem Linked.congr (h : Linked s l) (hs : ∀ t ∈ l, saved s' t = saved s t)
    (hw : ∀ u ∈ l.tail, Woken s' u → Woken s u) : Linked s' l := by
  induction l with
  | nil => trivial
  | cons a l ih =>
    refine ⟨?_, ih h.2 (fun t ht => hs t (by simp [ht])) (fun u hu => hw u (List.mem_of_mem_tail hu))⟩
    rw [hs a (by simp)]
    rcases h.1 with h1 | ⟨h1, h2⟩
    · exact .inl h1
    · exact .inr ⟨h1, fun u hu hwu => h2 u hu (hw u (List.mem_of_mem_head? hu) hwu)⟩

omit [DecidableEq T] [DecidableEq Q] in
/-- The `tmp` of a waiter is that waiter or an older one. -/
theorem Linked.saved_mem (h : Linked s (l₁ ++ t :: l₂)) :
    saved s t = some t ∨ saved s t = l₂.head? := by
  induction l₁ with
  | nil => exact h.1.imp id And.left
  | cons a l ih => exact ih h.2

omit [DecidableEq Q] in
/-- Taking a woken waiter out of the stack: the one above it does not point to it. -/
theorem Linked.remove (hw : Woken s t) (h : Linked s (l₁ ++ t :: l₂))
    (hs : ∀ x ∈ l₁ ++ l₂, saved s' x = saved s x) (h1 : ∀ u ∈ l₁, Woken s' u → Woken s u)
    (h2 : ∀ u ∈ l₂.tail, Woken s' u → Woken s u) : Linked s' (l₁ ++ l₂) := by
  induction l₁ with
  | nil => exact Linked.congr h.2 hs h2
  | cons a l ih =>
    refine ⟨?_, ih h.2 (fun x hx => hs x (by simp at hx ⊢; tauto)) (fun u hu => h1 u (by simp [hu]))⟩
    rw [hs a (by simp)]
    rcases h.1 with ha | ⟨ha, hb⟩
    · exact .inl ha
    · cases l with
      | nil => exact absurd hw (hb t rfl)
      | cons b l =>
        refine .inr ⟨ha, fun u hu hwu => hb u hu (h1 u ?_ hwu)⟩
        obtain rfl : b = u := by simpa using hu
        simp

section

omit [DecidableEq T] [DecidableEq Q]

/-- A stack is kept by a step that moves no waiter of its queue and wakes none below the first. -/
theorem Stacked.congr (h : Stacked s q l) (hh : s'.head q = s.head q)
    (hf : ∀ t, s'.frame t = s.frame t ∨ ¬ Waiting s q t ∧ ¬ Waiting s' q t)
    (hw : ∀ u ∈ l.tail, Woken s' u → Woken s u) : Stacked s' q l := by
  refine ⟨h.nodup, fun t => ?_, h.linked.congr (fun t ht => ?_) hw, by rw [hh]; exact h.head⟩
  · rw [h.mem]
    rcases hf t with h' | ⟨h1, h2⟩
    · exact (waiting_congr h').symm
    · tauto
  · rcases hf t with h' | ⟨h1, -⟩
    · exact saved_congr h'
    · exact absurd ((h.mem t).1 ht) h1

/-- A head that still waits is the first of the stack. -/
theorem Stacked.head_eq {u : T} (h : Stacked s q l) (hu : s.head q = some u)
    (hw : Waiting s q u) : ∃ l', l = u :: l' := by
  rcases h.head with h' | ⟨v, hv, hn⟩
  · rw [hu] at h'
    exact ⟨l.tail, (List.cons_head?_tail h'.symm).symm⟩
  · obtain rfl : u = v := Option.some.inj (hu.symm.trans hv)
    exact absurd ((h.mem u).2 hw) hn

/-- An empty head means an empty queue. -/
theorem Stacked.nil_of_head_none (h : Stacked s q l) (hn : s.head q = none) : l = [] := by
  rcases h.head with h' | ⟨v, hv, -⟩
  · rw [hn] at h'
    exact List.head?_eq_none_iff.1 h'.symm
  · rw [hn] at hv; cases hv

end

end Stack

/-! ## What the steps preserve -/

section Steps

variable {s : State T Q} {t u : T} {q q' : Q} {l : List T}

/-- Entering a sleep routine puts `t` on top of the stack of `q`. -/
theorem stacked_enter {f : Frame T Q} {c : TaskState} (h : Stacked s q l)
    (hf : f = .sleepOn q (s.head q) ∨ f = .interruptibleSleepOn q (s.head q))
    (ht : s.frame t = .outside)
    (hh : ∀ u, s.head q = some u → u = t ∨ Waiting s q u ∧ ¬ Woken s u) :
    Stacked (((s.setFrame t f).setHead q (some t)).setState t c) q (t :: l) := by
  have htl : t ∉ l := fun hm => not_waiting_outside ht ((h.mem t).1 hm)
  set s' := ((s.setFrame t f).setHead q (some t)).setState t c with hs'
  have hft : s'.frame t = f := by simp [hs']
  have hfu : ∀ u, u ≠ t → s'.frame u = s.frame u := fun u hu => by simp [hs', hu]
  have hsu : ∀ u, u ≠ t → s'.state u = s.state u := fun u hu => by simp [hs', hu]
  have hsaved : saved s' t = s.head q := by
    rcases hf with hf | hf
    · exact saved_sleepOn (hft.trans hf)
    · exact saved_interruptible (hft.trans hf)
  refine ⟨List.nodup_cons.2 ⟨htl, h.nodup⟩, fun u => ?_, ⟨?_, ?_⟩, .inl (by simp [hs'])⟩
  · by_cases hu : u = t
    · subst hu
      refine ⟨fun _ => ?_, fun _ => List.mem_cons_self⟩
      exact ⟨s.head q, hf.imp (hft.trans ·) (hft.trans ·)⟩
    · rw [waiting_congr (hfu u hu), ← h.mem]; simp [hu]
  · rw [hsaved]
    rcases hq : s.head q with - | v
    · rw [h.nil_of_head_none hq]; right; simp
    · rcases hh v hq with rfl | ⟨hv, hnw⟩
      · exact .inl rfl
      · obtain ⟨l', rfl⟩ := h.head_eq hq hv
        have hvt : v ≠ t := by rintro rfl; simp at htl
        refine .inr ⟨rfl, fun u hu => ?_⟩
        obtain rfl : v = u := by simpa using hu
        rwa [woken_congr (hfu v hvt) (hsu v hvt)]
  · refine h.linked.congr (fun u hu => ?_) (fun u hu hw => ?_)
    · exact saved_congr (hfu u (by rintro rfl; exact htl hu))
    · have hut : u ≠ t := by rintro rfl; exact htl (List.mem_of_mem_tail hu)
      rwa [woken_congr (hfu u hut) (hsu u hut)] at hw

omit [DecidableEq Q] in
/-- Waking the first waiter, or a task outside the stack, keeps the stack. -/
theorem stacked_wake (h : Stacked s q l) (hu : u ∉ l.tail) : Stacked (s.wake q' (some u)) q l := by
  refine h.congr rfl (fun t => .inl rfl) (fun v hv hw => ?_)
  have hvu : v ≠ u := by rintro rfl; exact hu hv
  have hf : (s.wake q' (some u)).frame v = s.frame v := rfl
  exact (woken_congr hf (by simp [hvu])).1 hw

omit [DecidableEq Q] in
/-- A waiter leaves the stack of `q`: it was woken in `sleep_on`, or it is the first. Its `tmp` is
woken. -/
theorem stacked_leave {l₁ l₂ : List T} {s' : State T Q} (h : Stacked s q (l₁ ++ t :: l₂))
    (hw : Woken s t ∨ l₁ = []) (hframe : s'.frame = Function.update s.frame t .outside)
    (hstate : s'.state = (s.wake q' (saved s t)).state)
    (hhead : s'.head q = s.head q ∨ l₁ = [] ∧ s'.head q = saved s t) :
    Stacked s' q (l₁ ++ l₂) := by
  have hnd := h.nodup
  have htl : t ∉ l₁ ++ l₂ := fun hm => by
    rw [List.nodup_append] at hnd
    rcases List.mem_append.1 hm with hm | hm
    · exact hnd.2.2 t hm t (by simp) rfl
    · exact (List.nodup_cons.1 hnd.2.1).1 hm
  have hfu : ∀ u, u ≠ t → s'.frame u = s.frame u := fun u hu => by rw [hframe]; simp [hu]
  have hsv : ∀ u ∈ l₁ ++ l₂, saved s' u = saved s u := fun u hu =>
    saved_congr (hfu u (by rintro rfl; exact htl hu))
  have hsaved := h.linked.saved_mem
  -- the task that is woken stands first in `l₂`
  have hwoken : ∀ u ∈ l₁ ++ l₂, l₂.head? ≠ some u → Woken s' u → Woken s u := by
    intro u hu hne hwu
    have hut : u ≠ t := by rintro rfl; exact htl hu
    have hsu : saved s t ≠ some u := by
      rcases hsaved with h' | h' <;> rw [h']
      · exact fun e => hut (Option.some.inj e).symm
      · exact hne
    rwa [woken_congr (hfu u hut) (by rw [hstate]; exact s.wake_state_of_ne hsu)] at hwu
  have htail : ∀ u ∈ l₂.tail, l₂.head? ≠ some u := by
    intro u hu e
    cases l₂ with
    | nil => simp at hu
    | cons a l₂ =>
      obtain rfl : a = u := by simpa using e
      rw [List.nodup_append] at hnd
      exact (List.nodup_cons.1 (List.nodup_cons.1 hnd.2.1).2).1 hu
  have hl₁ : ∀ u ∈ l₁, l₂.head? ≠ some u := by
    intro u hu e
    rw [List.nodup_append] at hnd
    exact hnd.2.2 u hu u (List.mem_cons_of_mem _ (List.mem_of_mem_head? e)) rfl
  refine ⟨?_, fun u => ?_, ?_, ?_⟩
  · exact hnd.sublist (List.Sublist.append_left (List.sublist_cons_self t l₂) l₁)
  · by_cases hu : u = t
    · subst hu
      exact ⟨fun hm => absurd hm htl, fun hm => absurd hm (not_waiting_outside (by rw [hframe]; simp))⟩
    · rw [waiting_congr (hfu u hu), ← h.mem]; simp [hu]
  · rcases hw with hw | rfl
    · exact h.linked.remove hw hsv (fun u hu => hwoken u (by simp [hu]) (hl₁ u hu))
        (fun u hu => hwoken u (by simp [List.mem_of_mem_tail hu]) (htail u hu))
    · exact Linked.congr h.linked.2 hsv
        (fun u hu => hwoken u (List.mem_of_mem_tail hu) (htail u hu))
  · rcases hhead with hh | ⟨rfl, hh⟩
    · rw [hh]
      rcases h.head with h' | ⟨u, hu, hn⟩
      · cases l₁ with
        | nil => exact .inr ⟨t, h', by simpa using htl⟩
        | cons a l₁ => exact .inl h'
      · exact .inr ⟨u, hu, fun hm => hn (by simp at hm ⊢; tauto)⟩
    · rw [hh]
      rcases hsaved with h' | h'
      · exact .inr ⟨t, h', by simpa using htl⟩
      · exact .inl h'

omit [DecidableEq T] [DecidableEq Q] in
/-- A queue none of whose waiters is touched keeps its stack. -/
theorem stacked_other {s' : State T Q} (h : Stacked s q l) (hh : s'.head q = s.head q)
    (hf : ∀ t, s'.frame t = s.frame t ∨ ¬ Waiting s q t ∧ ¬ Waiting s' q t)
    (hs : ∀ t, Waiting s q t → s'.state t = .running → Woken s' t → s.state t = .running) :
    Stacked s' q l := by
  refine h.congr hh hf (fun u hu hw => ?_)
  have hwu := (h.mem u).1 (List.mem_of_mem_tail hu)
  rcases hf u with hfu | ⟨h1, -⟩
  · exact (woken_congr hfu (hw.2.trans (hs u hwu hw.2 hw).symm)).1 hw
  · exact absurd hwu h1

end Steps

/-! ## The invariant -/

omit [DecidableEq T] [DecidableEq Q] in
theorem queueInv_init {s : State T Q} (h : Init s) : QueueInv s := by
  have hout : ∀ t, s.frame t = .free ∨ s.frame t = .outside := fun t => (h.2 t).imp id And.left
  refine ⟨fun q => ⟨[], List.nodup_nil, fun t => ?_, trivial, .inl (h.1 q)⟩, ?_, ?_⟩
  · refine ⟨by simp, fun hw => ?_⟩
    rcases hout t with ht | ht
    · exact absurd hw (not_waiting_free ht)
    · exact absurd hw (not_waiting_outside ht)
  · intro t q tmp ht
    rcases hout t with h' | h' <;> rw [ht] at h' <;> cases h'
  · intro t ht
    rcases hout t with h' | h' <;> rw [ht] at h' <;> cases h'

section Preserve

variable {s s' : State T Q} {t u : T} {q : Q}

section

omit [DecidableEq Q]

/-- A store to the state of a task that is neither in `sleep_on` nor a zombie. -/
theorem QueueInv.setState (h : QueueInv s) (c : TaskState)
    (h1 : ∀ q tmp, s.frame t ≠ .sleepOn q tmp) (h2 : s.frame t ≠ .exited) :
    QueueInv (s.setState t c) := by
  refine ⟨fun q => ?_, fun u q tmp hu => ?_, fun u hu => ?_⟩
  · obtain ⟨l, hl⟩ := h.stacked q
    refine ⟨l, stacked_other hl rfl (fun _ => .inl rfl) (fun u _ hr hw => ?_)⟩
    obtain ⟨⟨q', tmp, hf⟩, -⟩ := hw
    have hut : u ≠ t := by rintro rfl; exact h1 q' tmp hf
    rwa [State.setState_state, Function.update_of_ne hut] at hr
  · have hut : u ≠ t := by rintro rfl; exact h1 q tmp hu
    rw [State.setState_state, Function.update_of_ne hut]
    exact h.sleeping u q tmp hu
  · have hut : u ≠ t := by rintro rfl; exact h2 hu
    rw [State.setState_state, Function.update_of_ne hut]
    exact h.exited u hu

/-- A change of frame of a task that waits neither before nor after. -/
theorem QueueInv.setFrame {f : Frame T Q} (h : QueueInv s) (h1 : ∀ q, ¬ Waiting s q t)
    (h2 : ∀ q tmp, f ≠ .sleepOn q tmp ∧ f ≠ .interruptibleSleepOn q tmp)
    (h3 : f = .exited → s.state t = .zombie) : QueueInv (s.setFrame t f) := by
  refine ⟨fun q => ?_, fun u q tmp hu => ?_, fun u hu => ?_⟩
  · obtain ⟨l, hl⟩ := h.stacked q
    refine ⟨l, stacked_other hl rfl (fun u => ?_) (fun u _ hr _ => hr)⟩
    by_cases hut : u = t
    · subst hut
      refine .inr ⟨h1 q, ?_⟩
      rintro ⟨tmp, hw | hw⟩ <;> rw [State.setFrame_frame, Function.update_self] at hw
      · exact (h2 q tmp).1 hw
      · exact (h2 q tmp).2 hw
    · exact .inl (by simp [hut])
  · by_cases hut : u = t
    · subst hut
      rw [State.setFrame_frame, Function.update_self] at hu
      exact absurd hu (h2 q tmp).1
    · rw [State.setFrame_frame, Function.update_of_ne hut] at hu
      exact h.sleeping u q tmp hu
  · by_cases hut : u = t
    · subst hut
      rw [State.setFrame_frame, Function.update_self] at hu
      exact h3 hu
    · rw [State.setFrame_frame, Function.update_of_ne hut] at hu
      exact h.exited u hu

/-- Waking the head of a queue that still waits there. -/
theorem QueueInv.wake_head (h : QueueInv s) (hu : s.head q = some u) (hw : Waiting s q u) :
    QueueInv (s.wake q (some u)) := by
  refine ⟨fun q' => ?_, fun v q' tmp hv => ?_, fun v hv => ?_⟩
  · obtain ⟨l, hl⟩ := h.stacked q'
    refine ⟨l, stacked_wake hl (fun hm => ?_)⟩
    obtain rfl := hw.queue_eq ((hl.mem u).1 (List.mem_of_mem_tail hm))
    obtain ⟨l', rfl⟩ := hl.head_eq hu hw
    exact (List.nodup_cons.1 hl.nodup).1 hm
  · by_cases hvu : v = u
    · subst hvu; simp
    · rw [State.wake_some_state, Function.update_of_ne hvu]
      exact h.sleeping v q' tmp hv
  · have hvu : v ≠ u := by rintro rfl; exact not_waiting_exited hv hw
    rw [State.wake_some_state, Function.update_of_ne hvu]
    exact h.exited v hv

end

/-- A task enters a sleep routine on `q`. -/
theorem QueueInv.enter {f : Frame T Q} {c : TaskState} (h : QueueInv s)
    (hf : f = .sleepOn q (s.head q) ∧ c = .uninterruptible ∨
      f = .interruptibleSleepOn q (s.head q) ∧ c = .interruptible)
    (ht : s.frame t = .outside)
    (hh : ∀ u, s.head q = some u → u = t ∨ Waiting s q u ∧ ¬ Woken s u) :
    QueueInv (((s.setFrame t f).setHead q (some t)).setState t c) := by
  set s' := ((s.setFrame t f).setHead q (some t)).setState t c with hs'
  have hft : s'.frame t = f := by simp [hs']
  have hfu : ∀ u, u ≠ t → s'.frame u = s.frame u := fun u hu => by simp [hs', hu]
  have hsu : ∀ u, u ≠ t → s'.state u = s.state u := fun u hu => by simp [hs', hu]
  refine ⟨fun q' => ?_, fun u q' tmp hu => ?_, fun u hu => ?_⟩
  · obtain ⟨l, hl⟩ := h.stacked q'
    by_cases hq : q' = q
    · subst hq
      exact ⟨t :: l, stacked_enter hl (hf.imp And.left And.left) ht hh⟩
    · refine ⟨l, stacked_other hl (by simp [hs', hq]) (fun u => ?_) (fun u hw hr _ => ?_)⟩
      · by_cases hut : u = t
        · subst hut
          refine .inr ⟨not_waiting_outside ht, fun hw => hq (hw.queue_eq (?_ : Waiting s' q u))⟩
          exact ⟨s.head q, hf.imp (hft.trans ·.1) (hft.trans ·.1)⟩
        · exact .inl (hfu u hut)
      · rwa [← hsu u (by rintro rfl; exact not_waiting_outside ht hw)]
  · by_cases hut : u = t
    · subst hut
      rcases hf with ⟨-, hc⟩ | ⟨hf, -⟩
      · simp [hs', hc]
      · rw [hft, hf] at hu; cases hu
    · rw [hsu u hut]
      exact h.sleeping u q' tmp ((hfu u hut).symm.trans hu)
  · by_cases hut : u = t
    · subst hut
      rcases hf with ⟨hf, -⟩ | ⟨hf, -⟩ <;> rw [hft, hf] at hu <;> cases hu
    · rw [hsu u hut]
      exact h.exited u ((hfu u hut).symm.trans hu)

omit [DecidableEq T] [DecidableEq Q] in
/-- The `tmp` of a waiter waits on the same queue. -/
theorem QueueInv.saved_waiting (h : QueueInv s) (ht : Waiting s q t) (hu : saved s t = some u) :
    Waiting s q u := by
  obtain ⟨l, hl⟩ := h.stacked q
  obtain ⟨l₁, l₂, rfl⟩ := List.append_of_mem ((hl.mem t).2 ht)
  rcases hl.linked.saved_mem with h' | h' <;> rw [hu] at h'
  · rwa [Option.some.inj h']
  · exact (hl.mem u).1 (by simp [List.mem_of_mem_head? h'.symm])

/-- A waiter leaves its queue and passes the wake-up on. -/
theorem QueueInv.leave (h : QueueInv s) (ht : Waiting s q t)
    (hw : Woken s t ∨ s.head q = some t) (hframe : s'.frame = Function.update s.frame t .outside)
    (hstate : s'.state = (s.wake q (saved s t)).state)
    (hhead : s'.head = s.head ∨
      s.head q = some t ∧ s'.head = Function.update s.head q (saved s t)) :
    QueueInv s' := by
  have hfu : ∀ u, u ≠ t → s'.frame u = s.frame u := fun u hu => by rw [hframe]; simp [hu]
  have hout : s'.frame t = .outside := by rw [hframe]; simp
  have hsu : ∀ u, ¬ Waiting s q u → s'.state u = s.state u := fun u hu => by
    rw [hstate]
    exact s.wake_state_of_ne (fun e => hu (h.saved_waiting ht e))
  refine ⟨fun q' => ?_, fun u q' tmp hu => ?_, fun u hu => ?_⟩
  · obtain ⟨l, hl⟩ := h.stacked q'
    by_cases hq : q' = q
    · subst hq
      obtain ⟨l₁, l₂, rfl⟩ := List.append_of_mem ((hl.mem t).2 ht)
      have hfirst : s.head q' = some t → l₁ = [] := fun hht => by
        obtain ⟨l', hl'⟩ := hl.head_eq hht ht
        cases l₁ with
        | nil => rfl
        | cons a l₁ =>
          obtain ⟨rfl, -⟩ := List.cons.inj hl'
          exact absurd hl.nodup (by simp)
      refine ⟨l₁ ++ l₂, stacked_leave hl (hw.imp id hfirst) hframe hstate ?_⟩
      rcases hhead with hh | ⟨hht, hh⟩
      · exact .inl (by rw [hh])
      · exact .inr ⟨hfirst hht, by rw [hh]; simp⟩
    · refine ⟨l, stacked_other hl ?_ (fun u => ?_) (fun u hwu hr _ => ?_)⟩
      · rcases hhead with hh | ⟨-, hh⟩
        · rw [hh]
        · rw [hh]; simp [hq]
      · by_cases hut : u = t
        · subst hut
          exact .inr ⟨fun hw' => hq (hw'.queue_eq ht), not_waiting_outside hout⟩
        · exact .inl (hfu u hut)
      · rwa [← hsu u (fun hw' => hq (hwu.queue_eq hw'))]
  · have hut : u ≠ t := by rintro rfl; rw [hout] at hu; cases hu
    rw [hfu u hut] at hu
    by_cases hwu : saved s t = some u
    · rw [hstate, hwu]; simp
    · rw [hstate, s.wake_state_of_ne hwu]
      exact h.sleeping u q' tmp hu
  · have hut : u ≠ t := by rintro rfl; rw [hout] at hu; cases hu
    rw [hfu u hut] at hu
    rw [hsu u (not_waiting_exited hu)]
    exact h.exited u hu

end Preserve

/-- One step in which the heads wait keeps the invariant. -/
theorem queueInv_step {s s' : State T Q} {e : Event T Q} (h : QueueInv s) (hok : HeadWaits s e)
    (hs : step s e = some s') : QueueInv s' := by
  cases e with
  | sleepOn t q =>
    obtain ⟨ht, -, rfl⟩ := step_sleepOn hs
    exact h.enter (.inl ⟨rfl, rfl⟩) ht hok
  | interruptibleSleepOn t q =>
    obtain ⟨ht, -, rfl⟩ := step_interruptibleSleepOn hs
    exact h.enter (.inr ⟨rfl, rfl⟩) ht hok
  | wakeUp q =>
    obtain rfl : wakeUp s q = s' := Option.some.inj hs
    rcases hq : s.head q with - | u
    · rwa [wakeUp, hq]
    · rw [wakeUp, hq]; exact h.wake_head hq (hok u hq)
  | resume t =>
    obtain ⟨hr, q, tmp, ⟨ht, rfl⟩ | ⟨ht, rfl⟩⟩ := step_resume hs
    · have hw : Waiting s q t := ⟨tmp, .inl ht⟩
      refine h.leave hw (.inl ⟨⟨q, tmp, ht⟩, hr⟩) ?_ ?_ (.inl ?_)
      · simp [sleepOnReturn]
      · rw [saved_sleepOn ht]; rfl
      · simp [sleepOnReturn]
    · have hw : Waiting s q t := ⟨tmp, .inr ht⟩
      have hleave : s.head q = some t →
          QueueInv (((s.setHead q tmp).wake q tmp).leave t q) := fun hq => by
        refine h.leave hw (.inr hq) (by simp) ?_ (.inr ⟨hq, by simp [saved_interruptible ht]⟩)
        rw [saved_interruptible ht]; cases tmp <;> rfl
      rcases hq : s.head q with - | u
      · -- an empty head cannot be: `t` waits on `q`
        obtain ⟨l, hl⟩ := h.stacked q
        have := (hl.mem t).2 hw
        rw [hl.nil_of_head_none hq] at this
        cases this
      · simp only [interruptibleResume, hq]
        by_cases hut : u = t
        · subst hut
          rw [if_pos rfl]; exact hleave hq
        · rw [if_neg hut]
          refine (h.wake_head hq (hok q tmp u ht hq)).setState _ ?_ ?_ <;>
            simp [ht]
  | signal t =>
    obtain ⟨-, hi, rfl⟩ := step_signal hs
    refine h.setState _ (fun q tmp ht => h.sleeping t q tmp ht hi) (fun ht => ?_)
    rw [h.exited t ht] at hi; cases hi
  | pause t =>
    obtain ⟨ht, -, rfl⟩ := step_pause hs
    refine h.setState _ ?_ ?_ <;> simp [ht]
  | doExit t =>
    obtain ⟨ht, -, rfl⟩ := step_doExit hs
    refine (h.setState (t := t) .zombie (by simp [ht]) (by simp [ht])).setFrame
      (fun q => not_waiting_outside ht) (by simp) (by simp)
  | release t =>
    obtain ⟨ht, -, rfl⟩ := step_release hs
    exact h.setFrame (fun q => not_waiting_exited ht) (by simp) (by simp)
  | fork t =>
    obtain ⟨ht, rfl⟩ := step_fork hs
    refine (h.setState (t := t) .running (by simp [ht]) (by simp [ht])).setFrame
      (fun q => not_waiting_free ht) (by simp) (by simp)

/-! ## Heads that were left -/

section Marked

variable {s s' : State T Q} {t u : T} {q : Q} {e : Event T Q}

section

omit [DecidableEq T] [DecidableEq Q]

theorem marked_init (h : Init s) : Marked s := by
  intro q u hu
  rw [h.1 q] at hu
  cases hu

theorem Marked.headWaits (h : Marked s) (hok : Careful s e) : HeadWaits s e := by
  have hleft : ∀ {q u}, s.left q = false → s.head q = some u → Waiting s q u := by
    intro q u hl hu
    exact (h q u hu).resolve_right (by rw [hl]; exact Bool.false_ne_true)
  cases e with
  | sleepOn t q | interruptibleSleepOn t q =>
    intro u hu
    by_cases hl : s.left q = true
    · exact .inl (Option.some.inj (hu.symm.trans (hok.1 hl)))
    · exact .inr ⟨hleft (Bool.eq_false_iff.2 hl) hu, hok.2 u hu⟩
  | wakeUp q => exact fun u hu => hleft hok hu
  | resume t => exact fun q tmp u ht hu => hleft (hok q tmp ht) hu
  | signal | pause | doExit | release | fork => trivial

/-- A step that keeps the heads, and moves no waiter. -/
theorem Marked.congr (h : Marked s) (hh : s'.head = s.head) (hl : s'.left = s.left)
    (hw : ∀ q u, Waiting s q u → Waiting s' q u) : Marked s' := by
  intro q u hu
  rw [hl]
  exact (h q u (hh ▸ hu)).imp (hw q u) id

end

omit [DecidableEq Q] in
/-- A task that waits nowhere gets another frame. -/
theorem waiting_setFrame {f : Frame T Q} (ht : ∀ q, ¬ Waiting s q t) (hf : s'.frame = Function.update s.frame t f)
    (q : Q) (u : T) (h : Waiting s q u) : Waiting s' q u := by
  have hut : u ≠ t := by
    rintro rfl
    exact ht q h
  exact (waiting_congr (by rw [hf, Function.update_of_ne hut])).2 h

/-- A task leaves `q`: it leaves itself in the head, or was not there. -/
theorem Marked.leave (h : ∀ q' u, s.head q' = some u → u = t ∧ q' = q ∨ Waiting s q' u ∨ s.left q' = true)
    (ht : Waiting s q t) (hother : ∀ q', q' ≠ q → s.head q' = some t → s.left q' = true) :
    Marked (s.leave t q) := by
  intro q' u hu
  change s.head q' = some u at hu
  by_cases hut : u = t
  · right
    subst hut
    rw [State.leave_left]
    by_cases hq : q' = q
    · subst hq
      rw [Function.update_self, hu, decide_eq_true rfl, Bool.or_true]
    · rw [Function.update_of_ne hq]
      exact hother q' hq hu
  · rcases h q' u hu with ⟨heq, -⟩ | hw | hl
    · exact absurd heq hut
    · exact .inl ((waiting_congr (by rw [State.leave_frame, Function.update_of_ne hut])).2 hw)
    · right
      rw [State.leave_left]
      by_cases hq : q' = q
      · subst hq
        rw [Function.update_self, hl, Bool.true_or]
      · rwa [Function.update_of_ne hq]

theorem marked_step (hI : QueueInv s) (h : Marked s) (hs : step s e = some s') : Marked s' := by
  have hwake : ∀ {q p}, Marked (s.wake q p) := by
    intro q p
    exact h.congr (s.wake_head q p) (s.wake_left q p) fun q' u hw =>
      (waiting_congr (congrFun (s.wake_frame q p) u)).2 hw
  have henter : ∀ {t q f c}, s.frame t = .outside → (∃ tmp, f = .sleepOn q tmp ∨ f = .interruptibleSleepOn q tmp) →
      Marked (((s.setFrame t f).setHead q (some t)).setState t c) := by
    intro t q f c ht hf q' u hu
    rw [State.setState_head, State.setHead_head] at hu
    by_cases hq : q' = q
    · subst hq
      rw [Function.update_self] at hu
      obtain rfl := Option.some.inj hu
      left
      show ∃ tmp, Function.update s.frame t f t = _ ∨ Function.update s.frame t f t = _
      rw [Function.update_self]
      exact hf
    · rw [Function.update_of_ne hq] at hu
      rw [State.setState_left, State.setHead_left, Function.update_of_ne hq]
      exact (h q' u hu).imp (waiting_setFrame (fun q => not_waiting_outside ht) rfl q' u) id
  cases e with
  | sleepOn t q =>
    obtain ⟨ht, -, rfl⟩ := step_sleepOn hs
    exact henter ht ⟨_, .inl rfl⟩
  | interruptibleSleepOn t q =>
    obtain ⟨ht, -, rfl⟩ := step_interruptibleSleepOn hs
    exact henter ht ⟨_, .inr rfl⟩
  | wakeUp q =>
    obtain rfl : wakeUp s q = s' := Option.some.inj hs
    exact hwake
  | resume t =>
    obtain ⟨-, q, tmp, ⟨ht, rfl⟩ | ⟨ht, rfl⟩⟩ := step_resume hs
    · have hw : Waiting s q t := ⟨tmp, .inl ht⟩
      have hw' : Waiting (s.wake q tmp) q t := (waiting_congr (congrFun (s.wake_frame q tmp) t)).2 hw
      refine Marked.leave (fun q' u hu => .inr (hwake q' u hu)) hw' fun q' hq hu => ?_
      exact (hwake q' t hu).resolve_left fun hn => hq (hn.queue_eq hw')
    · have hw : Waiting s q t := ⟨tmp, .inr ht⟩
      have hleave : Marked (((s.setHead q tmp).wake q tmp).leave t q) := by
        have hframe : ((s.setHead q tmp).wake q tmp).frame = s.frame := State.wake_frame _ q tmp
        have hw' : Waiting ((s.setHead q tmp).wake q tmp) q t := (waiting_congr (congrFun hframe t)).2 hw
        have hhead : ∀ q' u, ((s.setHead q tmp).wake q tmp).head q' = some u →
            Waiting ((s.setHead q tmp).wake q tmp) q' u ∨ ((s.setHead q tmp).wake q tmp).left q' = true := by
          intro q' u hu
          rw [State.wake_head, State.setHead_head] at hu
          rw [waiting_congr (congrFun hframe u)]
          by_cases hq : q' = q
          · subst hq
            rw [Function.update_self] at hu
            exact .inl (hI.saved_waiting hw ((saved_interruptible ht).trans hu))
          · rw [Function.update_of_ne hq] at hu
            rw [State.wake_left, State.setHead_left, Function.update_of_ne hq]
            exact h q' u hu
        refine Marked.leave (fun q' u hu => .inr (hhead q' u hu)) hw' fun q' hq hu => ?_
        exact (hhead q' t hu).resolve_left fun hn => hq (hn.queue_eq hw')
      unfold interruptibleResume
      split
      · next u hu =>
        split
        · exact hleave
        · exact Marked.congr (s := s.wake q (some u)) hwake rfl rfl fun _ _ hw => hw
      · exact hleave
  | signal t =>
    obtain ⟨-, -, rfl⟩ := step_signal hs
    exact h
  | pause t =>
    obtain ⟨-, -, rfl⟩ := step_pause hs
    exact h
  | doExit t =>
    obtain ⟨ht, -, rfl⟩ := step_doExit hs
    exact h.congr rfl rfl (waiting_setFrame (fun q => not_waiting_outside ht) rfl)
  | release t =>
    obtain ⟨ht, -, rfl⟩ := step_release hs
    exact h.congr rfl rfl (waiting_setFrame (fun q => not_waiting_exited ht) rfl)
  | fork t =>
    obtain ⟨ht, rfl⟩ := step_fork hs
    exact h.congr rfl rfl (waiting_setFrame (fun q => not_waiting_free ht) rfl)

end Marked

theorem queueInv_of_reachable {s : State T Q} (h : (sched T Q).ReachableWhen Careful s) :
    QueueInv s ∧ Marked s :=
  h.invariant (I := fun s => QueueInv s ∧ Marked s) (fun _ hs => ⟨queueInv_init hs, marked_init hs⟩)
    fun _ _ _ hI hok hs => ⟨queueInv_step hI.1 (hI.2.headWaits hok) hs, marked_step hI.1 hI.2 hs⟩

/-! ## The stores of `state=0` -/

section Wakes

variable {s s' : State T Q} {e : Event T Q} {t : T}

/-- The state word of a task that has exited, or of a free page, is changed only by a wake-up
through a queue and by `fork` taking the page. -/
theorem state_eq_of_gone (hs : step s e = some s') (ht : s.frame t = .exited ∨ s.frame t = .free)
    (hz : s.frame t = .exited → s.state t = .zombie) (hf : e ≠ .fork t)
    (hw : ∀ p ∈ wakes s e, p.2 ≠ t) : s'.state t = s.state t := by
  have hout : ∀ {u}, s.frame u = .outside → t ≠ u := by
    rintro u hu rfl
    rcases ht with ht | ht <;> rw [hu] at ht <;> cases ht
  have hsleep : ∀ {u q tmp}, s.frame u = .sleepOn q tmp ∨ s.frame u = .interruptibleSleepOn q tmp →
      t ≠ u := by
    rintro u q tmp hu rfl
    rcases ht with ht | ht <;> rcases hu with hu | hu <;> rw [hu] at ht <;> cases ht
  cases e with
  | sleepOn u q =>
    obtain ⟨hu, -, rfl⟩ := step_sleepOn hs
    simp [sleepOn, hout hu]
  | interruptibleSleepOn u q =>
    obtain ⟨hu, -, rfl⟩ := step_interruptibleSleepOn hs
    simp [interruptibleSleepOn, hout hu]
  | wakeUp q =>
    obtain rfl : wakeUp s q = s' := Option.some.inj hs
    refine s.wake_state_of_ne (fun hq => hw (q, t) ?_ rfl)
    simp [wakes, hq]
  | resume u =>
    obtain ⟨-, q, tmp, ⟨hu, rfl⟩ | ⟨hu, rfl⟩⟩ := step_resume hs
    · refine s.wake_state_of_ne (fun hq => hw (q, t) ?_ rfl)
      simp [wakes, hu, hq]
    · have htu := hsleep (.inr hu)
      simp only [wakes, hu] at hw
      unfold interruptibleResume
      rcases hq : s.head q with - | v
      · simp only [hq] at hw
        exact (s.setHead q tmp).wake_state_of_ne (fun hq => hw (q, t) (by simp [hq]) rfl)
      · simp only [hq] at hw
        by_cases hvu : v = u
        · simp only [if_pos hvu] at hw ⊢
          exact (s.setHead q tmp).wake_state_of_ne (fun hq => hw (q, t) (by simp [hq]) rfl)
        · have hvt : t ≠ v := fun hvt => hw (q, t) (by simp [hvu, hvt]) rfl
          simp [hvu, htu, hvt]
  | signal u =>
    obtain ⟨hu, hi, rfl⟩ := step_signal hs
    have htu : t ≠ u := by
      rintro rfl
      rcases ht with ht | ht
      · rw [hz ht] at hi; cases hi
      · exact hu ht
    simp [htu]
  | pause u =>
    obtain ⟨hu, -, rfl⟩ := step_pause hs
    simp [hout hu]
  | doExit u =>
    obtain ⟨hu, -, rfl⟩ := step_doExit hs
    simp [hout hu]
  | release u =>
    obtain ⟨-, -, rfl⟩ := step_release hs
    rfl
  | fork u =>
    obtain ⟨-, rfl⟩ := step_fork hs
    have htu : t ≠ u := by rintro rfl; exact hf rfl
    simp [htu]

omit [DecidableEq Q] in
/-- With the invariant and a head that waits, every wake-up reaches a waiter of the queue. -/
theorem QueueInv.wakes_waiting (h : QueueInv s) (hok : HeadWaits s e) :
    ∀ p ∈ wakes s e, Waiting s p.1 p.2 := by
  intro p hp
  cases e with
  | wakeUp q =>
    obtain ⟨u, hu, rfl⟩ := by simpa [wakes] using hp
    exact hok u hu
  | resume t =>
    have hpass : ∀ {q tmp}, Waiting s q t → saved s t = tmp →
        p ∈ tmp.toList.map (fun u => (q, u)) → Waiting s p.1 p.2 := by
      intro q tmp hw hsv hp
      obtain ⟨u, hu, rfl⟩ := by simpa using hp
      exact h.saved_waiting hw (hsv.trans hu)
    simp only [wakes] at hp
    split at hp
    · next q tmp ht => exact hpass ⟨tmp, .inl ht⟩ (saved_sleepOn ht) hp
    · next q tmp ht =>
      split at hp
      · next u hq =>
        split at hp
        · exact hpass ⟨tmp, .inr ht⟩ (saved_interruptible ht) hp
        · obtain rfl : p = (q, u) := by simpa using hp
          exact hok q tmp u ht hq
      · exact hpass ⟨tmp, .inr ht⟩ (saved_interruptible ht) hp
    · cases hp
  | _ => simp [wakes] at hp

end Wakes

/-- The stores of `state=0` that a step makes through a queue are to tasks waiting there; no zombie is
made runnable and no word of a free page is stored to. -/
def WakesWaiting (s : State T Q) (e : Event T Q) (s' : State T Q) : Prop :=
  (∃ l, s'.stores = l ++ s.stores ∧ ∀ p ∈ l, Waiting s p.1 p.2) ∧
    (∀ t, s.frame t = .exited → s.state t = .zombie ∧ s'.state t = .zombie) ∧
    ∀ t, s.frame t = .free → e ≠ .fork t → s'.state t = s.state t

/-- **Careful runs.** In every run that uses no queue in whose head a task has left itself, every
wake-up reaches a task that still waits on that queue. -/
theorem wakesWaiting_of_careful {s s' : State T Q} {e : Event T Q}
    (h : (sched T Q).ReachableWhen Careful s) (hok : Careful s e) (hs : step s e = some s') :
    WakesWaiting s e s' := by
  obtain ⟨hI, hmarked⟩ := queueInv_of_reachable h
  have hw := hI.wakes_waiting (hmarked.headWaits hok)
  have hne : ∀ t, s.frame t = .exited ∨ s.frame t = .free → ∀ p ∈ wakes s e, p.2 ≠ t := by
    rintro t ht p hp rfl
    rcases ht with ht | ht
    · exact not_waiting_exited ht (hw p hp)
    · exact not_waiting_free ht (hw p hp)
  refine ⟨⟨_, step_stores hs, hw⟩, fun t ht => ?_, fun t ht hf => ?_⟩
  · have hf : e ≠ .fork t := by
      rintro rfl
      rw [(step_fork hs).1] at ht; cases ht
    exact ⟨hI.exited t ht, (state_eq_of_gone hs (.inl ht) (hI.exited t) hf (hne t (.inl ht))).trans
      (hI.exited t ht)⟩
  · exact state_eq_of_gone hs (.inr ht) (hI.exited t) hf (hne t (.inr ht))

/-- Task 0 sleeps on the queue, is woken, returns and exits; the queue's head still points to it. -/
def staleRun : List (Event ℕ Unit) :=
  [.sleepOn 0 (), .wakeUp (), .resume 0, .doExit 0]

/-- The next `wake_up` on that queue makes the zombie runnable. -/
theorem wakes_zombie : ∃ s s' : State ℕ Unit, (sched ℕ Unit).Reachable s ∧
    step s (.wakeUp ()) = some s' ∧ s.state 0 = .zombie ∧ s'.state 0 = .running ∧
    ¬ WakesWaiting s (.wakeUp ()) s' := by
  obtain ⟨s, hs, hf, hz, hh⟩ : ∃ s, run (idle ℕ Unit) staleRun = some s ∧ s.frame 0 = .exited ∧
      s.state 0 = .zombie ∧ s.head () = some 0 := ⟨_, rfl, rfl, rfl, rfl⟩
  have hr : (sched ℕ Unit).Reachable s := reachable_run (.start init_idle) hs
  have hrun : (wakeUp s ()).state 0 = .running := by simp [wakeUp, hh]
  refine ⟨s, wakeUp s (), hr, rfl, hz, hrun, fun hw => ?_⟩
  have hzombie := (hw.2.1 0 hf).2
  rw [hrun] at hzombie
  cases hzombie

/-- Tasks 0 and 1 sleep, 1 is woken, and passes the wake-up on when it returns. -/
theorem wakesWaiting_two : ∃ s s' : State ℕ Unit, (sched ℕ Unit).ReachableWhen Careful s ∧
    step s (.resume 1) = some s' ∧ s'.stores = [((), 0), ((), 1)] ∧ s'.left () = true ∧
    WakesWaiting s (.resume 1) s' := by
  have h0 : (sched ℕ Unit).ReachableWhen Careful (idle ℕ Unit) := .init init_idle
  have h1 : (sched ℕ Unit).ReachableWhen Careful (sleepOn (idle ℕ Unit) 0 ()) :=
    .step (e := .sleepOn 0 ()) h0 ⟨nofun, nofun⟩ rfl
  have h2 : (sched ℕ Unit).ReachableWhen Careful (sleepOn (sleepOn (idle ℕ Unit) 0 ()) 1 ()) := by
    refine .step (e := .sleepOn 1 ()) h1 ⟨nofun, fun u hu hw => ?_⟩ rfl
    obtain rfl : 0 = u := Option.some.inj hu
    cases hw.2
  have h3 : (sched ℕ Unit).ReachableWhen Careful
      (wakeUp (sleepOn (sleepOn (idle ℕ Unit) 0 ()) 1 ()) ()) :=
    .step (e := .wakeUp ()) h2 rfl rfl
  exact ⟨_, _, h3, rfl, rfl, rfl, wakesWaiting_of_careful h3 (fun q tmp h => by cases h) rfl⟩

end Linux011.Sched
