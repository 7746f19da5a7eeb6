import Mathlib.Logic.Function.Basic
import Mathlib.Data.List.Basic
import Linux011.Lib.Transition

/-!
# `sleep_on`, `interruptible_sleep_on`, `wake_up`

The wait queues of `kernel/sched.c`. A wait queue is one word `*p`; the rest of the queue is the
saved local `tmp` of each sleeper, on its kernel stack. `T` is the type of task pages (the values a
`struct task_struct *` can take) and `Q` the type of wait queues; both are arbitrary.

1. `sleepOn`, `interruptibleSleepOn` are the code up to the call of `schedule()`,
   `sleepOnReturn`, `interruptibleResume` the code after it, `wakeUp` the whole of `wake_up`.
2. `step` lets any task run one such piece, in any order, with signals (`schedule()`), `sys_pause`,
   `do_exit`, `release` and `fork` in between.
3. `left` and `stores` are only remembered: that a task has left itself in `*p`, and the stores of
   `state=0` that are made through a queue. `wakes s e` are those of a step, `step_stores`.
-/

namespace Linux011.Sched

/-- The values of `task_struct.state` (`include/linux/sched.h`). -/
inductive TaskState
  | running
  | interruptible
  | uninterruptible
  | zombie
  | stopped
  deriving DecidableEq, Repr

/-- Where the kernel stack of a task page stands. -/
inductive Frame (T Q : Type*)
  /-- The page holds no task. -/
  | free
  /-- The task is in no sleep routine. -/
  | outside
  /-- Inside `sleep_on(q)`, at its `schedule()`, with the local `tmp`. -/
  | sleepOn (q : Q) (tmp : Option T)
  /-- Inside `interruptible_sleep_on(q)`, at its `schedule()`, with the local `tmp`. -/
  | interruptibleSleepOn (q : Q) (tmp : Option T)
  /-- Past the end of `do_exit`, not yet released. -/
  | exited

/-- The words the wait queue code reads and writes. -/
structure State (T Q : Type*) where
  state : T → TaskState
  frame : T → Frame T Q
  head : Q → Option T
  /-- Remembered: the task that `*q` points to has returned from its sleep on `q` since `*q` was
  stored to. -/
  left : Q → Bool
  /-- Remembered: the stores of `state=0` through a queue, the last one first. -/
  stores : List (Q × T)

variable {T Q : Type*} [DecidableEq T] [DecidableEq Q]

namespace State

/-- `p->state=c`. -/
def setState (s : State T Q) (p : T) (c : TaskState) : State T Q :=
  { s with state := Function.update s.state p c }

def setFrame (s : State T Q) (p : T) (f : Frame T Q) : State T Q :=
  { s with frame := Function.update s.frame p f }

/-- `*q=p`. -/
def setHead (s : State T Q) (q : Q) (p : Option T) : State T Q :=
  { s with head := Function.update s.head q p, left := Function.update s.left q false }

/-- `if (p) p->state=0`, for a `p` that came from the queue `q`. -/
def wake (s : State T Q) (q : Q) : Option T → State T Q
  | none => s
  | some p => { s.setState p .running with stores := (q, p) :: s.stores }

/-- `t` returns from its sleep on `q`. -/
def leave (s : State T Q) (t : T) (q : Q) : State T Q :=
  { s.setFrame t .outside with
    left := Function.update s.left q (s.left q || decide (s.head q = some t)) }

end State

/-- `wake_up`: the head is made runnable and stays in place. -/
def wakeUp (s : State T Q) (q : Q) : State T Q :=
  s.wake q (s.head q)

/-- `sleep_on` by `current = t`, up to `schedule()`. -/
def sleepOn (s : State T Q) (t : T) (q : Q) : State T Q :=
  ((s.setFrame t (.sleepOn q (s.head q))).setHead q (some t)).setState t .uninterruptible

/-- `sleep_on` after `schedule()`: pass the wake-up on and return. -/
def sleepOnReturn (s : State T Q) (t : T) (q : Q) (tmp : Option T) : State T Q :=
  (s.wake q tmp).leave t q

/-- `interruptible_sleep_on` by `current = t`, up to `schedule()`. -/
def interruptibleSleepOn (s : State T Q) (t : T) (q : Q) : State T Q :=
  ((s.setFrame t (.interruptibleSleepOn q (s.head q))).setHead q (some t)).setState t .interruptible

/-- `interruptible_sleep_on` after `schedule()`: a later waiter is woken first and `t` goes back to
sleep (`goto repeat`); otherwise the head is restored and the wake-up passed on. -/
def interruptibleResume (s : State T Q) (t : T) (q : Q) (tmp : Option T) : State T Q :=
  match s.head q with
  | some u =>
    if u = t then ((s.setHead q tmp).wake q tmp).leave t q
    else (s.wake q (some u)).setState t .interruptible
  | none => ((s.setHead q tmp).wake q tmp).leave t q

/-- What can happen next. -/
inductive Event (T Q : Type*)
  | sleepOn (t : T) (q : Q)
  | interruptibleSleepOn (t : T) (q : Q)
  | wakeUp (q : Q)
  /-- `schedule()` switches to `t`, which is inside one of the sleep routines. -/
  | resume (t : T)
  /-- `schedule()` finds a signal for `t`. -/
  | signal (t : T)
  /-- `sys_pause`, and the wait loop of `sys_waitpid`. -/
  | pause (t : T)
  | doExit (t : T)
  | release (t : T)
  /-- `copy_process` takes the free page `t`. -/
  | fork (t : T)
  deriving DecidableEq

/-- One event; `none` where it cannot happen. `wake_up` may be called by any task and by interrupt
handlers, so it has no condition. -/
def step (s : State T Q) : Event T Q → Option (State T Q)
  | .sleepOn t q =>
    match s.frame t, s.state t with
    | .outside, .running => some (sleepOn s t q)
    | _, _ => none
  | .interruptibleSleepOn t q =>
    match s.frame t, s.state t with
    | .outside, .running => some (interruptibleSleepOn s t q)
    | _, _ => none
  | .wakeUp q => some (wakeUp s q)
  | .resume t =>
    match s.frame t, s.state t with
    | .sleepOn q tmp, .running => some (sleepOnReturn s t q tmp)
    | .interruptibleSleepOn q tmp, .running => some (interruptibleResume s t q tmp)
    | _, _ => none
  | .signal t =>
    match s.frame t, s.state t with
    | .free, _ => none
    | _, .interruptible => some (s.setState t .running)
    | _, _ => none
  | .pause t =>
    match s.frame t, s.state t with
    | .outside, .running => some (s.setState t .interruptible)
    | _, _ => none
  | .doExit t =>
    match s.frame t, s.state t with
    | .outside, .running => some ((s.setState t .zombie).setFrame t .exited)
    | _, _ => none
  | .release t =>
    match s.frame t, s.state t with
    | .exited, .zombie => some (s.setFrame t .free)
    | _, _ => none
  | .fork t =>
    match s.frame t with
    | .free => some ((s.setState t .running).setFrame t .outside)
    | _ => none

/-- The stores of `state=0` made by a step through a queue: by `wake_up`, by `sleep_on` and
`interruptible_sleep_on` when they pass the wake-up on. -/
def wakes (s : State T Q) : Event T Q → List (Q × T)
  | .wakeUp q => (s.head q).toList.map fun u => (q, u)
  | .resume t =>
    match s.frame t with
    | .sleepOn q tmp => tmp.toList.map fun u => (q, u)
    | .interruptibleSleepOn q tmp =>
      match s.head q with
      | some u => if u = t then tmp.toList.map fun u => (q, u) else [(q, u)]
      | none => tmp.toList.map fun u => (q, u)
    | _ => []
  | _ => []

/-- `t` has not yet returned from its sleep on `q`. -/
def Waiting (s : State T Q) (q : Q) (t : T) : Prop :=
  ∃ tmp, s.frame t = .sleepOn q tmp ∨ s.frame t = .interruptibleSleepOn q tmp

/-- `sched_init`: every queue is empty, every task page is free or holds a running task. -/
def Init (s : State T Q) : Prop :=
  (∀ q, s.head q = none) ∧ ∀ t, s.frame t = .free ∨ s.frame t = .outside ∧ s.state t = .running

/-- The tasks and their wait queues. -/
def sched (T Q : Type*) [DecidableEq T] [DecidableEq Q] : System (State T Q) (Event T Q) where
  init := Init
  step s e s' := step s e = some s'

/-- Run a list of events. -/
def run (s : State T Q) : List (Event T Q) → Option (State T Q)
  | [] => some s
  | e :: es => (step s e).bind fun s' => run s' es

/-- No queue in use, every page a running task. -/
def idle (T Q : Type*) : State T Q :=
  ⟨fun _ => .running, fun _ => .outside, fun _ => none, fun _ => false, []⟩

omit [DecidableEq T] [DecidableEq Q] in
theorem init_idle : Init (idle T Q) :=
  ⟨fun _ => rfl, fun _ => .inr ⟨rfl, rfl⟩⟩

theorem reachable_run {es : List (Event T Q)} : ∀ {s s' : State T Q}, (sched T Q).Reachable s →
    run s es = some s' → (sched T Q).Reachable s' := by
  induction es with
  | nil =>
    rintro s s' h hs
    rwa [← Option.some.inj hs]
  | cons e es ih =>
    intro s s' h hs
    obtain ⟨s₁, h1, h2⟩ := Option.bind_eq_some_iff.1 hs
    exact ih (h.next h1) h2

/-! ## The fields after each update -/

namespace State

variable (s : State T Q)

section

omit [DecidableEq Q]

@[simp] theorem setState_state (p : T) (c : TaskState) :
    (s.setState p c).state = Function.update s.state p c := rfl
@[simp] theorem setState_frame (p : T) (c : TaskState) : (s.setState p c).frame = s.frame := rfl
@[simp] theorem setState_head (p : T) (c : TaskState) : (s.setState p c).head = s.head := rfl
@[simp] theorem setFrame_state (p : T) (f : Frame T Q) : (s.setFrame p f).state = s.state := rfl
@[simp] theorem setFrame_frame (p : T) (f : Frame T Q) :
    (s.setFrame p f).frame = Function.update s.frame p f := rfl
@[simp] theorem setFrame_head (p : T) (f : Frame T Q) : (s.setFrame p f).head = s.head := rfl
@[simp] theorem setState_left (p : T) (c : TaskState) : (s.setState p c).left = s.left := rfl
@[simp] theorem setState_stores (p : T) (c : TaskState) : (s.setState p c).stores = s.stores := rfl
@[simp] theorem setFrame_left (p : T) (f : Frame T Q) : (s.setFrame p f).left = s.left := rfl
@[simp] theorem setFrame_stores (p : T) (f : Frame T Q) : (s.setFrame p f).stores = s.stores := rfl

end

section

omit [DecidableEq T]

@[simp] theorem setHead_state (q : Q) (p : Option T) : (s.setHead q p).state = s.state := rfl
@[simp] theorem setHead_frame (q : Q) (p : Option T) : (s.setHead q p).frame = s.frame := rfl
@[simp] theorem setHead_head (q : Q) (p : Option T) :
    (s.setHead q p).head = Function.update s.head q p := rfl
@[simp] theorem setHead_left (q : Q) (p : Option T) :
    (s.setHead q p).left = Function.update s.left q false := rfl
@[simp] theorem setHead_stores (q : Q) (p : Option T) : (s.setHead q p).stores = s.stores := rfl

end

section

omit [DecidableEq Q]

@[simp] theorem wake_none (q : Q) : s.wake q none = s := rfl
@[simp] theorem wake_some_state (q : Q) (p : T) :
    (s.wake q (some p)).state = Function.update s.state p .running := rfl
@[simp] theorem wake_frame (q : Q) (p : Option T) : (s.wake q p).frame = s.frame := by cases p <;> rfl
@[simp] theorem wake_head (q : Q) (p : Option T) : (s.wake q p).head = s.head := by cases p <;> rfl
@[simp] theorem wake_left (q : Q) (p : Option T) : (s.wake q p).left = s.left := by cases p <;> rfl
@[simp] theorem wake_stores (q : Q) (p : Option T) :
    (s.wake q p).stores = p.toList.map (q, ·) ++ s.stores := by cases p <;> rfl

theorem wake_state_of_ne {q : Q} {p : Option T} {u : T} (h : p ≠ some u) :
    (s.wake q p).state u = s.state u := by
  cases p with
  | none => rfl
  | some v =>
    have hv : u ≠ v := by rintro rfl; exact h rfl
    exact Function.update_of_ne hv _ _

end

@[simp] theorem leave_state (t : T) (q : Q) : (s.leave t q).state = s.state := rfl
@[simp] theorem leave_frame (t : T) (q : Q) :
    (s.leave t q).frame = Function.update s.frame t .outside := rfl
@[simp] theorem leave_head (t : T) (q : Q) : (s.leave t q).head = s.head := rfl
@[simp] theorem leave_left (t : T) (q : Q) : (s.leave t q).left =
    Function.update s.left q (s.left q || decide (s.head q = some t)) := rfl
@[simp] theorem leave_stores (t : T) (q : Q) : (s.leave t q).stores = s.stores := rfl

end State

/-! ## What a step can do -/

section Step

variable {s s' : State T Q} {t : T} {q : Q}

theorem step_effect {e : Event T Q} (h : step s e = some s') :
    match e with
    | .sleepOn t q => s.frame t = .outside ∧ s.state t = .running ∧ s' = sleepOn s t q
    | .interruptibleSleepOn t q =>
      s.frame t = .outside ∧ s.state t = .running ∧ s' = interruptibleSleepOn s t q
    | .wakeUp q => s' = wakeUp s q
    | .resume t =>
      s.state t = .running ∧ ∃ q tmp, s.frame t = .sleepOn q tmp ∧ s' = sleepOnReturn s t q tmp ∨
        s.frame t = .interruptibleSleepOn q tmp ∧ s' = interruptibleResume s t q tmp
    | .signal t => s.frame t ≠ .free ∧ s.state t = .interruptible ∧ s' = s.setState t .running
    | .pause t => s.frame t = .outside ∧ s.state t = .running ∧ s' = s.setState t .interruptible
    | .doExit t =>
      s.frame t = .outside ∧ s.state t = .running ∧
        s' = (s.setState t .zombie).setFrame t .exited
    | .release t => s.frame t = .exited ∧ s.state t = .zombie ∧ s' = s.setFrame t .free
    | .fork t => s.frame t = .free ∧ s' = (s.setState t .running).setFrame t .outside := by
  cases e with
  | sleepOn t q | interruptibleSleepOn t q | pause t | doExit t | release t =>
    simp only [step] at h
    split at h
    · next hf hs => exact ⟨hf, hs, (Option.some.inj h).symm⟩
    · cases h
  | wakeUp q => exact (Option.some.inj h).symm
  | resume t =>
    simp only [step] at h
    split at h
    · next q tmp hf hs => exact ⟨hs, q, tmp, .inl ⟨hf, (Option.some.inj h).symm⟩⟩
    · next q tmp hf hs => exact ⟨hs, q, tmp, .inr ⟨hf, (Option.some.inj h).symm⟩⟩
    · cases h
  | signal t =>
    simp only [step] at h
    split at h
    · cases h
    · next hs hf => exact ⟨hf, hs, (Option.some.inj h).symm⟩
    · cases h
  | fork t =>
    simp only [step] at h
    split at h
    · next hf => exact ⟨hf, (Option.some.inj h).symm⟩
    · cases h

theorem step_sleepOn (h : step s (.sleepOn t q) = some s') :
    s.frame t = .outside ∧ s.state t = .running ∧ s' = sleepOn s t q :=
  step_effect h

theorem step_interruptibleSleepOn (h : step s (.interruptibleSleepOn t q) = some s') :
    s.frame t = .outside ∧ s.state t = .running ∧ s' = interruptibleSleepOn s t q :=
  step_effect h

theorem step_resume (h : step s (.resume t) = some s') :
    s.state t = .running ∧ ∃ q tmp, s.frame t = .sleepOn q tmp ∧ s' = sleepOnReturn s t q tmp ∨
      s.frame t = .interruptibleSleepOn q tmp ∧ s' = interruptibleResume s t q tmp :=
  step_effect h

theorem step_signal (h : step s (.signal t) = some s') :
    s.frame t ≠ .free ∧ s.state t = .interruptible ∧ s' = s.setState t .running :=
  step_effect h

theorem step_pause (h : step s (.pause t) = some s') :
    s.frame t = .outside ∧ s.state t = .running ∧ s' = s.setState t .interruptible :=
  step_effect h

theorem step_doExit (h : step s (.doExit t) = some s') :
    s.frame t = .outside ∧ s.state t = .running ∧
      s' = (s.setState t .zombie).setFrame t .exited :=
  step_effect h

theorem step_release (h : step s (.release t) = some s') :
    s.frame t = .exited ∧ s.state t = .zombie ∧ s' = s.setFrame t .free :=
  step_effect h

theorem step_fork (h : step s (.fork t) = some s') :
    s.frame t = .free ∧ s' = (s.setState t .running).setFrame t .outside :=
  step_effect h

/-- The stores of a step. -/
theorem step_stores {e : Event T Q} (h : step s e = some s') : s'.stores = wakes s e ++ s.stores := by
  cases e with
  | sleepOn t q =>
    obtain ⟨-, -, rfl⟩ := step_sleepOn h
    rfl
  | interruptibleSleepOn t q =>
    obtain ⟨-, -, rfl⟩ := step_interruptibleSleepOn h
    rfl
  | wakeUp q =>
    obtain rfl : wakeUp s q = s' := Option.some.inj h
    exact s.wake_stores q (s.head q)
  | resume t =>
    obtain ⟨-, q, tmp, ⟨ht, rfl⟩ | ⟨ht, rfl⟩⟩ := step_resume h
    · simp [sleepOnReturn, wakes, ht]
    · simp only [wakes, ht, interruptibleResume]
      split
      · split
        · simp
        · rfl
      · simp
  | signal t =>
    obtain ⟨-, -, rfl⟩ := step_signal h
    rfl
  | pause t =>
    obtain ⟨-, -, rfl⟩ := step_pause h
    rfl
  | doExit t =>
    obtain ⟨-, -, rfl⟩ := step_doExit h
    rfl
  | release t =>
    obtain ⟨-, -, rfl⟩ := step_release h
    rfl
  | fork t =>
    obtain ⟨-, rfl⟩ := step_fork h
    rfl

end Step

end Linux011.Sched
