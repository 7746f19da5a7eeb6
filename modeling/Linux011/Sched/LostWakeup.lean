import Mathlib.Logic.Relation
import Linux011.Sched.SleepWake

/-!
# No lost wake-up

The loop `while (locked) sleep_on(&q)` of `wait_on_buffer`, `lock_buffer`, `wait_on_inode`,
`lock_inode` against unlockers that clear the lock and then call `wake_up(&q)`.

The waiters form no proper stack here: a task that goes back to sleep while it is still the
recorded head saves itself in `tmp`, and a task woken out of turn leaves from the middle. What
every step keeps is `Covered`: each sleeper is behind the head or behind a task that has been woken
and has not left `sleep_on` yet. With the lock clear and no `wake_up` outstanding only the second
kind is left (`no_stranded_sleeper`).
-/

namespace Linux011.Sched

variable {T Q : Type*} [DecidableEq T] [DecidableEq Q]

/-- A lock with its wait queue: the tasks, the lock bit and the number of unlockers that have
cleared the bit and not yet called `wake_up`. -/
structure LockState (T Q : Type*) where
  tasks : State T Q
  locked : Bool
  pending : ℕ

/-- What can happen next around the lock. -/
inductive LockEvent (T : Type*)
  /-- `while (locked)` finds the lock set and calls `sleep_on(&q)`. -/
  | wait (t : T)
  /-- `schedule()` switches to `t`, which is inside `sleep_on(&q)`. -/
  | resume (t : T)
  /-- Some task sets the lock. -/
  | lock
  /-- An unlocker clears the lock. -/
  | clear
  /-- That unlocker's `wake_up(&q)`. -/
  | wakeUp
  /-- A sleeping task is made runnable from elsewhere. -/
  | spurious (t : T)
  deriving DecidableEq

/-- One event; `none` where it cannot happen. -/
def lockStep (q : Q) (s : LockState T Q) : LockEvent T → Option (LockState T Q)
  | .wait t =>
    if s.locked then (step s.tasks (.sleepOn t q)).map fun k => { s with tasks := k } else none
  | .resume t => (step s.tasks (.resume t)).map fun k => { s with tasks := k }
  | .lock => some { s with locked := true }
  | .clear => some { s with locked := false, pending := s.pending + 1 }
  | .wakeUp =>
    match s.pending with
    | 0 => none
    | n + 1 => some { s with tasks := wakeUp s.tasks q, pending := n }
  | .spurious t =>
    match s.tasks.frame t with
    | .sleepOn _ _ => some { s with tasks := s.tasks.setState t .running }
    | _ => none

/-- The lock starts with nobody waiting and no unlocker under way. -/
def lockSystem (T : Type*) [DecidableEq T] (q : Q) : System (LockState T Q) (LockEvent T) where
  init s := Init s.tasks ∧ s.pending = 0
  step s e s' := lockStep q s e = some s'

theorem lockSystem_next {q : Q} {s s' : LockState T Q} {e : LockEvent T}
    (h : (lockSystem T q).Reachable s) (hs : lockStep q s e = some s') :
    (lockSystem T q).Reachable s' :=
  h.next hs

/-! ## Paths along the saved `tmp`s -/

/-- `t` is inside `sleep_on(&q)`. -/
def Inside (k : State T Q) (q : Q) (t : T) : Prop :=
  ∃ tmp, k.frame t = .sleepOn q tmp

/-- `t` is asleep in `sleep_on(&q)`. -/
def Asleep (k : State T Q) (q : Q) (t : T) : Prop :=
  Inside k q t ∧ k.state t ≠ .running

/-- `t` is runnable and still inside `sleep_on(&q)`. -/
def Runnable (k : State T Q) (q : Q) (t : T) : Prop :=
  Inside k q t ∧ k.state t = .running

/-- The `tmp` of `a` is `b`, both inside. -/
def Next (k : State T Q) (q : Q) (a b : T) : Prop :=
  k.frame a = .sleepOn q (some b) ∧ Inside k q b

/-- `x` is behind `y` along the saved `tmp`s. -/
def Behind (k : State T Q) (q : Q) : T → T → Prop :=
  Relation.ReflTransGen (Next k q)

/-- `x` is behind a task that is runnable inside `sleep_on(&q)`. -/
def Reached (k : State T Q) (q : Q) (x : T) : Prop :=
  ∃ y, Runnable k q y ∧ Behind k q y x

/-- `x` is behind the head of the queue, which is still inside. -/
def BehindHead (k : State T Q) (q : Q) (x : T) : Prop :=
  ∃ h, k.head q = some h ∧ Inside k q h ∧ Behind k q h x

/-- What every step keeps. -/
structure LockInv (q : Q) (s : LockState T Q) : Prop where
  frames : ∀ t, s.tasks.frame t = .free ∨ s.tasks.frame t = .outside ∨ Inside s.tasks q t
  covered : ∀ x, Asleep s.tasks q x → Reached s.tasks q x ∨ BehindHead s.tasks q x
  clear : s.locked = false → s.pending = 0 → ∀ x, Asleep s.tasks q x → Reached s.tasks q x

section Paths

variable {k k' : State T Q} {q : Q} {t x y : T}

section

omit [DecidableEq T] [DecidableEq Q]

theorem inside_congr (h : k'.frame t = k.frame t) : Inside k' q t ↔ Inside k q t := by
  unfold Inside; rw [h]

theorem not_inside_outside (h : k.frame t = .outside) : ¬ Inside k q t := by
  rintro ⟨tmp, h'⟩; rw [h] at h'; cases h'

/-- A path survives when no task inside changes its frame. -/
theorem Behind.mono (hf : ∀ a, Inside k q a → k'.frame a = k.frame a) (h : Behind k q y x) :
    Behind k' q y x := by
  refine Relation.ReflTransGen.mono (fun a b hab => ?_) y x h
  exact ⟨(hf a ⟨_, hab.1⟩).trans hab.1, (inside_congr (hf b hab.2)).2 hab.2⟩

end

omit [DecidableEq Q] in
/-- When `t` leaves, a path to another task either avoided it or continues from its `tmp`. -/
theorem Behind.leave {tmp : Option T} (ht : k.frame t = .sleepOn q tmp)
    (hf : ∀ a, a ≠ t → k'.frame a = k.frame a) (hx : x ≠ t) (h : Behind k q y x) :
    y ≠ t ∧ Behind k' q y x ∨ ∃ u, tmp = some u ∧ Inside k' q u ∧ Behind k' q u x := by
  induction h using Relation.ReflTransGen.head_induction_on with
  | refl => exact .inl ⟨hx, .refl⟩
  | @head a c hab _ ih =>
    rcases ih with ⟨hc, hcx⟩ | h
    · have hic : Inside k' q c := (inside_congr (hf c hc)).2 hab.2
      by_cases ha : a = t
      · subst ha
        have : tmp = some c := by
          have := ht.symm.trans hab.1
          simpa using this
        exact .inr ⟨c, this, hic, hcx⟩
      · exact .inl ⟨ha, .head ⟨(hf a ha).trans hab.1, hic⟩ hcx⟩
    · exact .inr h

end Paths

/-! ## The invariant -/

section Invariant

variable {q : Q} {s s' : LockState T Q} {t x : T}

section

omit [DecidableEq T] [DecidableEq Q]

theorem lockInv_init (h : Init s.tasks) : LockInv q s := by
  have hn : ∀ x, ¬ Inside s.tasks q x := by
    rintro x ⟨tmp, hx⟩
    rcases h.2 x with h' | ⟨h', -⟩ <;> rw [hx] at h' <;> cases h'
  exact ⟨fun t => (h.2 t).imp id (fun h' => .inl h'.1), fun x hx => absurd hx.1 (hn x),
    fun _ _ x hx => absurd hx.1 (hn x)⟩

/-- Making more tasks runnable keeps the tasks that are reached. -/
theorem Reached.mono {k k' : State T Q} (hf : k'.frame = k.frame)
    (hr : ∀ t, k.state t = .running → k'.state t = .running) (h : Reached k q x) :
    Reached k' q x := by
  obtain ⟨y, ⟨hy, hry⟩, hyx⟩ := h
  exact ⟨y, ⟨(inside_congr (by rw [hf])).2 hy, hr y hry⟩, hyx.mono (fun a _ => by rw [hf])⟩

theorem BehindHead.mono {k k' : State T Q} (hf : k'.frame = k.frame) (hh : k'.head = k.head)
    (h : BehindHead k q x) : BehindHead k' q x := by
  obtain ⟨y, hy, hiy, hyx⟩ := h
  exact ⟨y, by rw [hh]; exact hy, (inside_congr (by rw [hf])).2 hiy, hyx.mono (fun a _ => by rw [hf])⟩

end

/-- `sleep_on(&q)` up to `schedule()`: the new sleeper is the head and the old head its `tmp`. -/
theorem covered_sleepOn {k : State T Q} (ht : k.frame t = .outside)
    (h : ∀ x, Asleep k q x → Reached k q x ∨ BehindHead k q x) :
    ∀ x, Asleep (sleepOn k t q) q x →
      Reached (sleepOn k t q) q x ∨ BehindHead (sleepOn k t q) q x := by
  have hft : (sleepOn k t q).frame t = .sleepOn q (k.head q) := by simp [sleepOn]
  have hfu : ∀ u, u ≠ t → (sleepOn k t q).frame u = k.frame u := fun u hu => by simp [sleepOn, hu]
  have hsu : ∀ u, u ≠ t → (sleepOn k t q).state u = k.state u := fun u hu => by simp [sleepOn, hu]
  have hin : ∀ a, Inside k q a → a ≠ t := by
    rintro a ha rfl; exact not_inside_outside ht ha
  have hfi : ∀ a, Inside k q a → (sleepOn k t q).frame a = k.frame a := fun a ha => hfu a (hin a ha)
  have hhead : (sleepOn k t q).head q = some t := by simp [sleepOn]
  intro x hx
  by_cases hxt : x = t
  · subst hxt
    exact .inr ⟨x, hhead, hx.1, .refl⟩
  · have hx' : Asleep k q x := ⟨(inside_congr (hfu x hxt)).1 hx.1, by rw [← hsu x hxt]; exact hx.2⟩
    rcases h x hx' with ⟨y, ⟨hy, hry⟩, hyx⟩ | ⟨y, hy, hiy, hyx⟩
    · refine .inl ⟨y, ⟨(inside_congr (hfi y hy)).2 hy, ?_⟩, hyx.mono hfi⟩
      rw [hsu y (hin y hy)]; exact hry
    · refine .inr ⟨t, hhead, ⟨_, hft⟩, .head ⟨?_, (inside_congr (hfi y hiy)).2 hiy⟩ (hyx.mono hfi)⟩
      rw [hft, hy]

/-- `sleep_on(&q)` after `schedule()`: what was behind the leaving task is behind its `tmp`, which
is runnable now. -/
theorem reached_sleepOnReturn {k : State T Q} {tmp : Option T} {y : T}
    (ht : k.frame t = .sleepOn q tmp) (hx : x ≠ t) (hyx : Behind k q y x) :
    y ≠ t ∧ Behind (sleepOnReturn k t q tmp) q y x ∨ Reached (sleepOnReturn k t q tmp) q x := by
  have hfu : ∀ u, u ≠ t → (sleepOnReturn k t q tmp).frame u = k.frame u := fun u hu => by
    simp [sleepOnReturn, hu]
  rcases hyx.leave ht hfu hx with h | ⟨u, hu, hiu, hux⟩
  · exact .inl h
  · exact .inr ⟨u, ⟨hiu, by simp [sleepOnReturn, hu]⟩, hux⟩

omit [DecidableEq Q] in
theorem wake_running {k : State T Q} {p : Option T} {u : T} (h : k.state u = .running) :
    (k.wake q p).state u = .running := by
  cases p with
  | none => exact h
  | some v =>
    by_cases huv : u = v
    · simp [huv]
    · simp [huv, h]

theorem lockInv_step {e : LockEvent T} (h : LockInv q s) (hs : lockStep q s e = some s') :
    LockInv q s' := by
  cases e with
  | wait t =>
    simp only [lockStep] at hs
    split at hs
    · next hl =>
      obtain ⟨k, hk, rfl⟩ := Option.map_eq_some_iff.1 hs
      obtain ⟨ht, -, rfl⟩ := step_sleepOn hk
      refine ⟨fun u => ?_, covered_sleepOn ht h.covered, fun hc => ?_⟩
      by_cases hu : u = t
      · subst hu
        exact .inr (.inr ⟨s.tasks.head q, by simp [sleepOn]⟩)
      · have hf : (sleepOn s.tasks t q).frame u = s.tasks.frame u := by simp [sleepOn, hu]
        show (sleepOn s.tasks t q).frame u = _ ∨ (sleepOn s.tasks t q).frame u = _ ∨ _
        rw [hf, inside_congr hf]; exact h.frames u
      · rw [show s.locked = false from hc] at hl; cases hl
    · cases hs
  | resume t =>
    obtain ⟨k, hk, rfl⟩ := Option.map_eq_some_iff.1 hs
    obtain ⟨hr, q', tmp, ⟨ht, rfl⟩ | ⟨ht, rfl⟩⟩ := step_resume hk
    · obtain rfl : q' = q := by
        rcases h.frames t with h' | h' | ⟨_, h'⟩ <;> rw [ht] at h' <;> cases h'
        rfl
      set k' := sleepOnReturn s.tasks t q' tmp with hk'
      have hft : k'.frame t = .outside := by simp [hk', sleepOnReturn]
      have hfu : ∀ u, u ≠ t → k'.frame u = s.tasks.frame u := fun u hu => by
        simp [hk', sleepOnReturn, hu]
      have hrun : ∀ u, s.tasks.state u = .running → k'.state u = .running := fun u hu =>
        wake_running hu
      have hasleep : ∀ x, Asleep k' q' x → x ≠ t ∧ Asleep s.tasks q' x := fun x hx => by
        have hxt : x ≠ t := by rintro rfl; exact not_inside_outside hft hx.1
        exact ⟨hxt, (inside_congr (hfu x hxt)).1 hx.1, fun hrx => hx.2 (hrun x hrx)⟩
      have hreach : ∀ x, x ≠ t → Reached s.tasks q' x → Reached k' q' x := by
        rintro x hxt ⟨y, ⟨hy, hry⟩, hyx⟩
        rcases reached_sleepOnReturn ht hxt hyx with ⟨hyt, hyx'⟩ | h'
        · exact ⟨y, ⟨(inside_congr (hfu y hyt)).2 hy, hrun y hry⟩, hyx'⟩
        · exact h'
      refine ⟨fun u => ?_, fun x hx => ?_, fun hc hp x hx => ?_⟩
      · by_cases hu : u = t
        · subst hu; exact .inr (.inl hft)
        · show k'.frame u = _ ∨ k'.frame u = _ ∨ _
          rw [hfu u hu, inside_congr (hfu u hu)]; exact h.frames u
      · obtain ⟨hxt, hx'⟩ := hasleep x hx
        rcases h.covered x hx' with hc | ⟨y, hy, hiy, hyx⟩
        · exact .inl (hreach x hxt hc)
        · rcases reached_sleepOnReturn ht hxt hyx with ⟨hyt, hyx'⟩ | h'
          · refine .inr ⟨y, ?_, (inside_congr (hfu y hyt)).2 hiy, hyx'⟩
            simpa [hk', sleepOnReturn] using hy
          · exact .inl h'
      · obtain ⟨hxt, hx'⟩ := hasleep x hx
        exact hreach x hxt (h.clear hc hp x hx')
    · rcases h.frames t with h' | h' | ⟨_, h'⟩ <;> rw [ht] at h' <;> cases h'
  | lock =>
    obtain rfl := Option.some.inj hs
    exact ⟨h.frames, h.covered, fun hc => by simp at hc⟩
  | clear =>
    obtain rfl := Option.some.inj hs
    exact ⟨h.frames, h.covered, fun _ hp => by simp at hp⟩
  | wakeUp =>
    simp only [lockStep] at hs
    split at hs
    · cases hs
    · next n hn =>
      obtain rfl := Option.some.inj hs
      have hf : (wakeUp s.tasks q).frame = s.tasks.frame := by simp [wakeUp]
      have hrun : ∀ u, s.tasks.state u = .running → (wakeUp s.tasks q).state u = .running :=
        fun u hu => wake_running hu
      have hall : ∀ x, Asleep (wakeUp s.tasks q) q x → Reached (wakeUp s.tasks q) q x := by
        intro x hx
        have hx' : Asleep s.tasks q x :=
          ⟨(inside_congr (by rw [hf])).1 hx.1, fun hr => hx.2 (hrun x hr)⟩
        rcases h.covered x hx' with hc | ⟨y, hy, hiy, hyx⟩
        · exact hc.mono hf hrun
        · -- the head itself has just been made runnable
          refine ⟨y, ⟨(inside_congr (by rw [hf])).2 hiy, ?_⟩, hyx.mono (fun a _ => by rw [hf])⟩
          simp [wakeUp, hy]
      refine ⟨fun u => ?_, fun x hx => .inl (hall x hx), fun _ _ => hall⟩
      show (wakeUp s.tasks q).frame u = _ ∨ (wakeUp s.tasks q).frame u = _ ∨ _
      have hfu : (wakeUp s.tasks q).frame u = s.tasks.frame u := by rw [hf]
      rw [hfu, inside_congr hfu]; exact h.frames u
  | spurious t =>
    simp only [lockStep] at hs
    split at hs
    · obtain rfl := Option.some.inj hs
      have hrun : ∀ u, s.tasks.state u = .running →
          (s.tasks.setState t .running).state u = .running := fun u hu =>
          wake_running (q := q) (p := some t) hu
      have hx' : ∀ x, Asleep (s.tasks.setState t .running) q x → Asleep s.tasks q x :=
        fun x hx => ⟨hx.1, fun hr => hx.2 (hrun x hr)⟩
      refine ⟨h.frames, fun x hx => ?_, fun hc hp x hx => ?_⟩
      · exact (h.covered x (hx' x hx)).imp (fun hr => hr.mono (by rfl) hrun)
          (fun hr => hr.mono (by rfl) (by rfl))
      · exact (h.clear hc hp x (hx' x hx)).mono (by rfl) hrun
    · cases hs

end Invariant

/-- **No lost wake-up.** With the lock clear and no unlocker between clearing it and its `wake_up`,
every task asleep in `sleep_on(&q)` is behind a runnable task still inside, whose next step makes
its `tmp` runnable. -/
theorem no_stranded_sleeper (q : Q) {s : LockState T Q} (h : (lockSystem T q).Reachable s)
    (hl : s.locked = false) (hp : s.pending = 0) {x : T} (hx : Asleep s.tasks q x) :
    ∃ y, Runnable s.tasks q y ∧ Relation.TransGen (Next s.tasks q) y x ∧
      ∃ s', lockStep q s (.resume y) = some s' ∧ s'.tasks.frame y = .outside ∧
        ∀ u, s.tasks.frame y = .sleepOn q (some u) → s'.tasks.state u = .running := by
  have hI : LockInv q s :=
    System.Reachable.invariant (S := lockSystem T q) (fun _ h0 => lockInv_init h0.1)
      (fun _ _ _ hI hs => lockInv_step hI hs) h
  obtain ⟨y, ⟨⟨tmp, hy⟩, hry⟩, hyx⟩ := hI.clear hl hp x hx
  have hne : y ≠ x := by rintro rfl; exact hx.2 hry
  refine ⟨y, ⟨⟨tmp, hy⟩, hry⟩, ?_, ?_⟩
  · exact (Relation.reflTransGen_iff_eq_or_transGen.1 hyx).resolve_left hne.symm
  · refine ⟨{ s with tasks := sleepOnReturn s.tasks y q tmp }, ?_, by simp [sleepOnReturn], ?_⟩
    · simp [lockStep, step, hy, hry]
    · intro u hu
      obtain rfl : tmp = some u := by simpa using hy.symm.trans hu
      simp [sleepOnReturn]

/-- Tasks 0 and 1 sleep on the lock, it is cleared and 1 is woken: 0 is behind 1. -/
theorem no_stranded_sleeper_two : ∃ s : LockState ℕ Unit, Asleep s.tasks () 0 ∧
    ∃ y, Runnable s.tasks () y ∧ Relation.TransGen (Next s.tasks ()) y 0 ∧
      ∃ s', lockStep () s (.resume y) = some s' ∧ s'.tasks.frame y = .outside ∧
        ∀ u, s.tasks.frame y = .sleepOn () (some u) → s'.tasks.state u = .running := by
  have h0 : (lockSystem ℕ ()).Reachable ⟨idle ℕ Unit, true, 0⟩ := .start ⟨init_idle, rfl⟩
  have h1 : (lockSystem ℕ ()).Reachable ⟨sleepOn (idle ℕ Unit) 0 (), true, 0⟩ :=
    lockSystem_next (e := .wait 0) h0 rfl
  have h2 : (lockSystem ℕ ()).Reachable ⟨sleepOn (sleepOn (idle ℕ Unit) 0 ()) 1 (), true, 0⟩ :=
    lockSystem_next (e := .wait 1) h1 rfl
  have h3 : (lockSystem ℕ ()).Reachable ⟨sleepOn (sleepOn (idle ℕ Unit) 0 ()) 1 (), false, 1⟩ :=
    lockSystem_next (e := .clear) h2 rfl
  have h4 : (lockSystem ℕ ()).Reachable
      ⟨wakeUp (sleepOn (sleepOn (idle ℕ Unit) 0 ()) 1 ()) (), false, 0⟩ :=
    lockSystem_next (e := .wakeUp) h3 rfl
  have h5 : Asleep (wakeUp (sleepOn (sleepOn (idle ℕ Unit) 0 ()) 1 ()) ()) () 0 :=
    ⟨⟨none, rfl⟩, fun h => by cases h⟩
  exact ⟨_, h5, no_stranded_sleeper () h4 rfl rfl h5⟩

end Linux011.Sched
