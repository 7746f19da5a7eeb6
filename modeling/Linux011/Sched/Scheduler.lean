import Linux011.Lib.Fold
import Linux011.Sched.SleepWake
import Linux011.Signal.Task
import Mathlib.Algebra.Group.Int.Defs

/-!
# `schedule`

The choice of the next task in `kernel/sched.c`, with everything that changes a counter or a priority.
A call of `schedule` is one step: interrupts during it are taken before or after it.

1. `schedule`, `doTimer`, `sysNice`, `copyProcess`, and the events of `scheduler`.
2. `Chosen`: the task that `schedule` should switch to.
3. `counter_nonneg`: counters stay nonnegative as long as no recalculation overflows.
-/

namespace Linux011.Scheduler

open Sched (TaskState)

/-! ## The code -/

/-- `NR_TASKS`. -/
abbrev Nr := Fin 64

/-- What `schedule` reads and writes of a task. -/
structure Task where
  state : TaskState
  counter : BitVec 32
  priority : BitVec 32
  signal : Signal.SigSet
  blocked : Signal.SigSet
  alarm : BitVec 32
  deriving DecidableEq

/-- The array `task`. -/
abbrev Tasks := Nr → Option Task

structure State where
  task : Tasks
  current : Nr
  jiffies : BitVec 32

/-- The index of `SIGALRM`. -/
def sigalrm : Fin 32 := 13

/-- `HZ`. -/
def hz : BitVec 32 := 100

/-- The first loop of `schedule`, for one task: the alarm, and the end of an interruptible sleep. -/
def Task.checkSignals (jiffies : BitVec 32) (t : Task) : Task :=
  let t :=
    if t.alarm ≠ 0 ∧ t.alarm.slt jiffies then
      { t with signal := t.signal ||| Signal.sigBit sigalrm, alarm := 0 }
    else t
  if t.signal &&& ~~~(Signal.blockable &&& t.blocked) ≠ 0 ∧ t.state = .interruptible then
    { t with state := .running }
  else t

/-- `(counter >> 1) + priority`. -/
def Task.recalculate (t : Task) : Task :=
  { t with counter := t.counter.sshiftRight 1 + t.priority }

/-- A loop over every task but the first. -/
def forTasks (f : Task → Task) (ts : Tasks) : Tasks :=
  fun i => if i = 0 then ts i else (ts i).map f

/-- The counter of a runnable task. -/
def runnableCounter (ts : Tasks) (i : Nr) : Option ℤ :=
  (ts i).bind fun t => if t.state = .running then some t.counter.toInt else none

/-- The order of the choice: from the last task down to the second. -/
def scanOrder : List Nr := (List.finRange 64).tail.reverse

/-- `c` and `next` after the loop over the tasks. -/
def choose (ts : Tasks) : ℤ × Nr :=
  scanMax (runnableCounter ts) (-1, 0) scanOrder

/-- The loop of `schedule`: how often it recalculates, the tasks after it, and the chosen one. -/
def scheduleLoop : ℕ → Tasks → Option (ℕ × Tasks × Nr)
  | 0, _ => none
  | fuel + 1, ts =>
    let (c, next) := choose ts
    if c ≠ 0 then some (0, ts, next)
    else (scheduleLoop fuel (forTasks Task.recalculate ts)).map fun (n, ts, next) => (n + 1, ts, next)

/-- The first loop of `schedule`. -/
def State.checkSignals (s : State) : Tasks :=
  forTasks (Task.checkSignals s.jiffies) s.task

/-- `schedule`. -/
def State.schedule (fuel : ℕ) (s : State) : Option State :=
  (scheduleLoop fuel s.checkSignals).map fun (_, ts, next) => { s with task := ts, current := next }

/-- A store to a task. -/
def State.modify (s : State) (i : Nr) (f : Task → Task) : State :=
  { s with task := Function.update s.task i ((s.task i).map f) }

/-- `sys_nice`. -/
def Task.sysNice (increment : BitVec 32) (t : Task) : Task :=
  if 0 < (t.priority - increment).toInt then { t with priority := t.priority - increment } else t

/-- `sys_alarm`. -/
def Task.sysAlarm (jiffies seconds : BitVec 32) (t : Task) : Task :=
  { t with alarm := if 0 < seconds.toInt then jiffies + hz * seconds else 0 }

/-- The child that `copy_process` makes of `current`. -/
def Task.copyProcess (t : Task) : Task :=
  { t with state := .running, counter := t.priority, signal := 0, alarm := 0 }

/-- The time slice in `do_timer`: what is left of it, and if it is used up. -/
def Task.tick (t : Task) : Task × Bool :=
  if 0 < (t.counter - 1).toInt then ({ t with counter := t.counter - 1 }, false)
  else ({ t with counter := 0 }, true)

/-- `timer_interrupt` and `do_timer`, up to `schedule()`, and if it is called. -/
def State.doTimer (s : State) (cpl : BitVec 2) : State × Bool :=
  let s := { s with jiffies := s.jiffies + 1 }
  (s.modify s.current fun t => t.tick.1,
    (s.task s.current).any (fun t => t.tick.2) && cpl != 0)

/-- What can happen next. -/
inductive Event
  /-- `current` calls `fork`, which takes the free slot `nr`. -/
  | fork (nr : Nr)
  | timer (cpl : BitVec 2)
  /-- `current->state=state; schedule()`, in a sleep routine, `sys_pause`, `sys_waitpid` or `do_exit`. -/
  | sleep (state : TaskState)
  /-- `p->state=0`. -/
  | wakeUp (p : Nr)
  | schedule
  | nice (increment : BitVec 32)
  | alarm (seconds : BitVec 32)
  /-- Signals for `p`. -/
  | sendSig (p : Nr) (sig : Signal.SigSet)
  /-- `current->blocked=mask`. -/
  | block (mask : Signal.SigSet)
  /-- `release(p)`. -/
  | release (p : Nr)

/-- The event up to a call of `schedule`, and if there is one. -/
def State.run (s : State) : Event → Option (State × Bool)
  | .fork nr =>
    match s.task s.current, s.task nr with
    | some t, none =>
      if nr = 0 then none
      else some ({ s with task := Function.update s.task nr (some t.copyProcess) }, false)
    | _, _ => none
  | .timer cpl => some (s.doTimer cpl)
  | .sleep state => some (s.modify s.current fun t => { t with state }, true)
  | .wakeUp p => some (s.modify p fun t => { t with state := .running }, false)
  | .schedule => some (s, true)
  | .nice increment => some (s.modify s.current (Task.sysNice increment), false)
  | .alarm seconds => some (s.modify s.current (Task.sysAlarm s.jiffies seconds), false)
  | .sendSig p sig => some (s.modify p fun t => { t with signal := t.signal ||| sig }, false)
  | .block mask => some (s.modify s.current fun t => { t with blocked := mask }, false)
  | .release p =>
    if p = 0 ∨ p = s.current then none
    else some ({ s with task := Function.update s.task p none }, false)

/-- One event, with a bound on the turns of the loop of `schedule`. -/
def State.next (fuel : ℕ) (s : State) (e : Event) : Option State :=
  (s.run e).bind fun (s', call) => if call then s'.schedule fuel else some s'

/-- `INIT_TASK`. -/
def initTask : Task := ⟨.running, 15, 15, 0, 0, 0⟩

def State.boot : State := ⟨Function.update (fun _ => none) 0 (some initTask), 0, 0⟩

def scheduler : System State Event where
  init s := s = .boot
  step s e s' := ∃ fuel, s.next fuel e = some s'

/-! ## The choice -/

/-- `next` is a runnable task with the largest counter of all runnable tasks, or no task but the first
is runnable and `next` is the first. -/
structure Chosen (ts : Tasks) (next : Nr) : Prop where
  runnable : next ≠ 0 → ∃ c, runnableCounter ts next = some c ∧
    ∀ i ≠ 0, ∀ k, runnableCounter ts i = some k → k ≤ c
  idle : next = 0 → ∀ i ≠ 0, runnableCounter ts i = none

/-- Priorities are positive and counters are not negative. -/
def Sound (ts : Tasks) : Prop :=
  ∀ i t, ts i = some t → 0 < t.priority.toInt ∧ 0 ≤ t.counter.toInt

/-- No runnable task has ticks left, and one has used up its own: `schedule` recalculates. -/
def UsedUp (ts : Tasks) : Prop :=
  (∃ i ≠ 0, runnableCounter ts i = some 0) ∧
    ∀ i ≠ 0, ∀ k, runnableCounter ts i = some k → k ≤ 0

/-- The new counters fit in 31 bits. -/
def Fits (ts : Tasks) : Prop :=
  ∀ i ≠ 0, ∀ t, ts i = some t → t.counter.toInt / 2 + t.priority.toInt < 2 ^ 31

/-- If the event recalculates, the new counters fit. -/
def State.Allowed (s : State) (e : Event) : Prop :=
  ∀ s', s.run e = some (s', true) → UsedUp s'.checkSignals → Fits s'.checkSignals

theorem mem_scanOrder {i : Nr} : i ∈ scanOrder ↔ i ≠ 0 := by
  unfold scanOrder
  revert i
  decide

theorem forTasks_eq_some {f : Task → Task} {ts : Tasks} {i : Nr} {t : Task}
    (h : forTasks f ts i = some t) : ts i = some t ∧ i = 0 ∨ i ≠ 0 ∧ ∃ t₀, ts i = some t₀ ∧ f t₀ = t := by
  unfold forTasks at h
  split at h
  · next hi => exact .inl ⟨h, hi⟩
  · next hi => exact .inr ⟨hi, Option.map_eq_some_iff.1 h⟩

theorem runnableCounter_eq_some {ts : Tasks} {i : Nr} {k : ℤ} :
    runnableCounter ts i = some k ↔ ∃ t, ts i = some t ∧ t.state = .running ∧ t.counter.toInt = k := by
  unfold runnableCounter
  cases ts i with
  | none => simp
  | some t => simp

/-- The loop over the tasks: either no runnable task has a counter above `-1`, or it finds the largest. -/
theorem choose_cases (ts : Tasks) :
    (choose ts = (-1, 0) ∧ ∀ i ≠ 0, ∀ k, runnableCounter ts i = some k → k ≤ -1) ∨
    ((choose ts).2 ≠ 0 ∧ runnableCounter ts (choose ts).2 = some (choose ts).1 ∧ -1 < (choose ts).1 ∧
      ∀ i ≠ 0, ∀ k, runnableCounter ts i = some k → k ≤ (choose ts).1) := by
  have h := scanMax_cases (runnableCounter ts) scanOrder (-1, 0)
  simp only [mem_scanOrder] at h
  exact h

/-- Where no counter is negative, the choice is the right one. -/
theorem Sound.chosen {ts : Tasks} (h : Sound ts) : Chosen ts (choose ts).2 := by
  rcases choose_cases ts with ⟨he, hle⟩ | ⟨hne, hkey, -, hle⟩
  · refine ⟨fun hn => absurd (by rw [he]) hn, fun _ i hi => ?_⟩
    cases hk : runnableCounter ts i with
    | none => rfl
    | some k =>
      obtain ⟨t, ht, -, rfl⟩ := runnableCounter_eq_some.1 hk
      have := hle i hi _ hk
      have := (h i t ht).2
      omega
  · exact ⟨fun _ => ⟨_, hkey, hle⟩, fun hn => absurd hn hne⟩

/-- The loop recalculates exactly if the time slices are used up. -/
theorem choose_eq_zero {ts : Tasks} : (choose ts).1 = 0 ↔ UsedUp ts := by
  rcases choose_cases ts with ⟨he, hle⟩ | ⟨hne, hkey, -, hle⟩
  · rw [he]
    refine ⟨fun h => by simp at h, fun h => ?_⟩
    obtain ⟨⟨i, hi, hk⟩, -⟩ := h
    have := hle i hi 0 hk
    omega
  · constructor
    · intro h
      rw [h] at hkey hle
      exact ⟨⟨_, hne, hkey⟩, hle⟩
    · rintro ⟨⟨i, hi, hk⟩, hmax⟩
      have h1 := hle i hi 0 hk
      have h2 := hmax _ hne _ hkey
      omega

/-! ## The recalculation -/

/-- The new counter of a task. -/
theorem Task.recalculate_counter {t : Task} (hp : 0 < t.priority.toInt) (hc : 0 ≤ t.counter.toInt) :
    t.recalculate.counter.toInt =
      if t.counter.toInt / 2 + t.priority.toInt < 2 ^ 31 then t.counter.toInt / 2 + t.priority.toInt
      else t.counter.toInt / 2 + t.priority.toInt - 2 ^ 32 := by
  have h1 := BitVec.toInt_lt (x := t.priority)
  have h2 := BitVec.toInt_lt (x := t.counter)
  have h : t.recalculate.counter.toInt =
      (t.counter.toInt / 2 + t.priority.toInt).bmod (2 ^ 32) := by
    simp only [Task.recalculate, BitVec.toInt_add, BitVec.toInt_sshiftRight, Int.shiftRight_eq_div_pow]
    rfl
  rw [h]
  generalize t.counter.toInt = c at *
  generalize t.priority.toInt = p at *
  rw [Int.bmod_def]
  split <;> omega

theorem Sound.forTasks {f : Task → Task} {ts : Tasks} (h : Sound ts)
    (hf : ∀ t, 0 < t.priority.toInt → 0 ≤ t.counter.toInt →
      0 < (f t).priority.toInt ∧ 0 ≤ (f t).counter.toInt) : Sound (forTasks f ts) := by
  intro i t ht
  obtain ⟨h₀, -⟩ | ⟨-, t₀, h₀, rfl⟩ := forTasks_eq_some ht
  · exact h i t h₀
  · exact hf t₀ (h i t₀ h₀).1 (h i t₀ h₀).2

theorem Sound.checkSignals {s : State} (h : Sound s.task) : Sound s.checkSignals := by
  refine h.forTasks fun t hp hc => ?_
  have hfields : (t.checkSignals s.jiffies).priority = t.priority ∧
      (t.checkSignals s.jiffies).counter = t.counter := by
    dsimp only [Task.checkSignals]
    split_ifs <;> exact ⟨rfl, rfl⟩
  rw [hfields.1, hfields.2]
  exact ⟨hp, hc⟩

theorem Sound.recalculate {ts : Tasks} (h : Sound ts) (hf : Fits ts) :
    Sound (Scheduler.forTasks Task.recalculate ts) := by
  intro i t ht
  obtain ⟨h₀, -⟩ | ⟨hi, t₀, h₀, rfl⟩ := forTasks_eq_some ht
  · exact h i t h₀
  · obtain ⟨hp, hc⟩ := h i t₀ h₀
    rw [Task.recalculate_counter hp hc, if_pos (hf i hi t₀ h₀)]
    exact ⟨hp, by omega⟩

/-- After a recalculation no counter is 0, whether or not it fits. -/
theorem Sound.not_usedUp {ts : Tasks} (h : Sound ts) :
    ¬ UsedUp (Scheduler.forTasks Task.recalculate ts) := by
  rintro ⟨⟨i, hi, hk⟩, -⟩
  obtain ⟨t, ht, -, h0⟩ := runnableCounter_eq_some.1 hk
  obtain ⟨-, hi'⟩ | ⟨-, t₀, h₀, rfl⟩ := forTasks_eq_some ht
  · exact hi hi'
  · obtain ⟨hp, hc⟩ := h i t₀ h₀
    have h1 := BitVec.toInt_lt (x := t₀.priority)
    have h2 := BitVec.toInt_lt (x := t₀.counter)
    rw [Task.recalculate_counter hp hc] at h0
    split at h0 <;> omega

/-- The tasks that the last turn of the loop looks at. -/
def settle (ts : Tasks) [Decidable (UsedUp ts)] : Tasks :=
  if UsedUp ts then forTasks Task.recalculate ts else ts

open scoped Classical in
/-- The loop ends after at most one recalculation. -/
theorem Sound.scheduleLoop {ts : Tasks} (h : Sound ts) (fuel : ℕ) :
    Scheduler.scheduleLoop (fuel + 2) ts =
      some (if UsedUp ts then 1 else 0, settle ts, (choose (settle ts)).2) := by
  unfold settle
  by_cases hu : UsedUp ts
  · have h0 : (choose ts).1 = 0 := choose_eq_zero.2 hu
    have h1 : (choose (Scheduler.forTasks Task.recalculate ts)).1 ≠ 0 := fun h1 =>
      h.not_usedUp (choose_eq_zero.1 h1)
    simp [Scheduler.scheduleLoop, hu, h0, h1]
  · have h0 : (choose ts).1 ≠ 0 := fun h0 => hu (choose_eq_zero.1 h0)
    simp [Scheduler.scheduleLoop, hu, h0]

theorem scheduleLoop_fuel {fuel : ℕ} {ts : Tasks} {r : ℕ × Tasks × Nr}
    (h : scheduleLoop fuel ts = some r) (k : ℕ) : scheduleLoop (fuel + k) ts = some r := by
  induction fuel generalizing ts r with
  | zero => cases h
  | succ fuel ih =>
    rw [Nat.succ_add]
    unfold scheduleLoop at h ⊢
    dsimp only at h ⊢
    split at h
    · next hc => rw [if_pos hc]; exact h
    · next hc =>
      obtain ⟨r', hr, rfl⟩ := Option.map_eq_some_iff.1 h
      rw [if_neg hc, ih hr]
      rfl

/-! ## The events -/

theorem Sound.update {ts : Tasks} (h : Sound ts) {i : Nr} {o : Option Task}
    (ho : ∀ t, o = some t → 0 < t.priority.toInt ∧ 0 ≤ t.counter.toInt) :
    Sound (Function.update ts i o) := by
  intro j t ht
  by_cases hj : j = i
  · subst hj
    rw [Function.update_self] at ht
    exact ho t ht
  · rw [Function.update_of_ne hj] at ht
    exact h j t ht

theorem Sound.modify {s : State} (h : Sound s.task) {i : Nr} {f : Task → Task}
    (hf : ∀ t, 0 < t.priority.toInt → 0 ≤ t.counter.toInt →
      0 < (f t).priority.toInt ∧ 0 ≤ (f t).counter.toInt) : Sound (s.modify i f).task := by
  refine h.update fun t ht => ?_
  obtain ⟨t₀, h₀, rfl⟩ := Option.map_eq_some_iff.1 ht
  exact hf t₀ (h i t₀ h₀).1 (h i t₀ h₀).2

/-- `sys_nice` keeps the priority positive, whatever the increment. -/
theorem Task.sysNice_sound (increment : BitVec 32) (t : Task) (hp : 0 < t.priority.toInt)
    (hc : 0 ≤ t.counter.toInt) :
    0 < (t.sysNice increment).priority.toInt ∧ 0 ≤ (t.sysNice increment).counter.toInt := by
  unfold Task.sysNice
  split
  · next h => exact ⟨h, hc⟩
  · exact ⟨hp, hc⟩

/-- No event changes a counter or a priority for the worse before it calls `schedule`. -/
theorem Sound.run {s s' : State} {e : Event} {call : Bool} (h : Sound s.task)
    (he : s.run e = some (s', call)) : Sound s'.task := by
  cases e with
  | fork nr =>
    dsimp only [State.run] at he
    split at he
    · next t ht _ =>
      split at he
      · cases he
      · cases he
        refine h.update ?_
        rintro _ ⟨⟩
        exact ⟨(h _ t ht).1, (h _ t ht).1.le⟩
    · cases he
  | timer cpl =>
    cases he
    refine Sound.modify (s := { s with jiffies := s.jiffies + 1 }) h fun t hp _ => ?_
    unfold Task.tick
    split
    · next hc => exact ⟨hp, hc.le⟩
    · exact ⟨hp, le_rfl⟩
  | nice increment => cases he; exact h.modify (Task.sysNice_sound increment)
  | schedule => cases he; exact h
  | release p =>
    dsimp only [State.run] at he
    split at he
    · cases he
    · cases he
      exact h.update (by simp)
  | sleep | wakeUp | alarm | sendSig | block =>
    cases he
    exact h.modify fun t hp hc => ⟨hp, hc⟩

open scoped Classical in
/-- What a step is: the event, and the loop of `schedule` if it calls it. -/
theorem next_cases {s s' : State} {e : Event} (h : Sound s.task) (he : scheduler.step s e s') :
    s.run e = some (s', false) ∨ ∃ s₁, s.run e = some (s₁, true) ∧
      s' = { s₁ with task := settle s₁.checkSignals, current := (choose (settle s₁.checkSignals)).2 } := by
  obtain ⟨fuel, he⟩ := he
  obtain ⟨⟨s₁, call⟩, hrun, he⟩ := Option.bind_eq_some_iff.1 he
  cases call with
  | false => cases he; exact .inl hrun
  | true =>
    refine .inr ⟨s₁, hrun, ?_⟩
    obtain ⟨r, hr, rfl⟩ := Option.map_eq_some_iff.1 he
    have hr := scheduleLoop_fuel hr 2
    rw [(h.run hrun).checkSignals.scheduleLoop fuel] at hr
    cases hr
    rfl

open scoped Classical in
theorem Sound.settle {ts : Tasks} (h : Sound ts) (hf : UsedUp ts → Fits ts) :
    Sound (Scheduler.settle ts) := by
  unfold Scheduler.settle
  split
  · next hu => exact h.recalculate (hf hu)
  · exact h

theorem reachable_sound {s : State} (hs : scheduler.ReachableWhen State.Allowed s) : Sound s.task := by
  refine System.ReachableWhen.invariant (I := fun s => Sound s.task) (fun s h0 => ?_)
    (fun s e s' ih hok he => ?_) hs
  · obtain rfl : s = .boot := h0
    refine Sound.update (by simp [Sound]) ?_
    rintro _ ⟨⟩
    decide
  · rcases next_cases ih he with hrun | ⟨s₁, hrun, rfl⟩
    · exact ih.run hrun
    · exact (ih.run hrun).checkSignals.settle (hok s₁ hrun)

/-- **Counters stay nonnegative, and `schedule` picks a runnable task with the largest counter, as long
as no recalculation overflows**; a recalculation that overflows leaves a negative counter. Priorities stay
positive, and the loop ends after at most one recalculation. -/
theorem counter_nonneg {s : State} (hs : scheduler.ReachableWhen State.Allowed s) :
    Sound s.task ∧
    (∀ e s', s.run e = some (s', true) → ∃ n ≤ 1, ∃ ts next,
      (∀ fuel, scheduleLoop (fuel + 2) s'.checkSignals = some (n, ts, next)) ∧
        (s.Allowed e → Chosen ts next)) ∧
    ∀ e s', scheduler.step s e s' → ¬ s.Allowed e →
      ∃ i ≠ 0, ∃ t, s'.task i = some t ∧ t.counter.toInt < 0 := by
  classical
  have h := reachable_sound hs
  refine ⟨h, fun e s' hrun => ?_, fun e s' he ho => ?_⟩
  · have h := (h.run hrun).checkSignals
    refine ⟨_, ?_, _, _, h.scheduleLoop, fun hok => (h.settle (hok s' hrun)).chosen⟩
    split <;> omega
  · unfold State.Allowed at ho
    push Not at ho
    obtain ⟨s₁, hrun, hu, hf⟩ := ho
    obtain hrun' | ⟨s₂, hrun', rfl⟩ := next_cases h he
    · rw [hrun] at hrun'
      cases hrun'
    · obtain rfl : s₁ = s₂ := by
        rw [hrun] at hrun'
        cases hrun'
        rfl
      unfold Fits at hf
      push Not at hf
      obtain ⟨i, hi, t, ht, hbig⟩ := hf
      obtain ⟨hp, hc⟩ := (h.run hrun).checkSignals i t ht
      refine ⟨i, hi, t.recalculate, ?_, ?_⟩
      · simp [Scheduler.settle, hu, forTasks, hi, ht]
      · rw [Task.recalculate_counter hp hc, if_neg (by omega)]
        have h1 := BitVec.toInt_lt (x := t.priority)
        have h2 := BitVec.toInt_lt (x := t.counter)
        omega

/-- The event does not recalculate. -/
def State.calm (s : State) (e : Event) : Bool :=
  (s.run e).all fun r => !r.2 || (choose r.1.checkSignals).1 != 0

theorem allowed_of_calm {s : State} {e : Event} (h : s.calm e = true) : s.Allowed e := by
  intro s' hs hu
  have h0 := choose_eq_zero.2 hu
  simp [State.calm, hs, h0] at h

/-- The first task forks, and its child uses up its time slice. The tick that ends it recalculates: the
counter of the child is 15 again, and the child is chosen. -/
theorem counter_nonneg_fork : ∃ s s', scheduler.ReachableWhen State.Allowed s ∧ Sound s.task ∧
    s.run (.timer 3) = some (s', true) ∧ UsedUp s'.checkSignals ∧ ∃ n ≤ 1, ∃ ts next,
      (∀ fuel, scheduleLoop (fuel + 2) s'.checkSignals = some (n, ts, next)) ∧ Chosen ts next := by
  have hrun : (System.execWhen (State.next 2) (fun s e => s.calm e = true) .boot
      (.fork 1 :: .schedule :: List.replicate 14 (.timer 3))).any (fun s =>
      (s.run (.timer 3)).any fun r => r.2 && (choose r.1.checkSignals).1 == 0 &&
        decide (∀ i ≠ 0, ∀ t ∈ r.1.checkSignals i, t.counter.toInt / 2 + t.priority.toInt < 2 ^ 31)) =
        true := by
    decide +kernel
  obtain ⟨s, hs, h⟩ := (Option.any_eq_true ..).1 hrun
  obtain ⟨⟨s', call⟩, hs', h⟩ := (Option.any_eq_true ..).1 h
  simp only [Bool.and_eq_true, beq_iff_eq, decide_eq_true_eq] at h
  obtain ⟨⟨rfl, h0⟩, hfits⟩ := h
  have hstep : ∀ s e s', State.next 2 s e = some s' → scheduler.step s e s' := fun _ _ _ h => ⟨2, h⟩
  have hr : scheduler.ReachableWhen (fun s e => s.calm e = true) s :=
    System.ReachableWhen.exec hstep (.init rfl) hs
  have hok : s.Allowed (.timer 3) := by
    intro s₁ hs₁ _
    rw [hs'] at hs₁
    cases hs₁
    exact hfits
  have hr' := hr.mono fun _ _ => allowed_of_calm
  obtain ⟨hsound, hsched, -⟩ := counter_nonneg hr'
  obtain ⟨n, hn, ts, next, hl, hc⟩ := hsched (.timer 3) s' hs'
  exact ⟨s, s', hr', hsound, hs', choose_eq_zero.1 h0, n, hn, ts, next, hl, hc hok⟩

/-- Task 1 gives itself the priority `2 ^ 31 - 1` and forks. While task 2 sleeps with a counter of
`2 ^ 31 - 1`, task 1 uses up its ticks: the recalculation makes the counter of task 2 negative, and when
only task 2 is runnable, `schedule` switches to the first task. -/
theorem nice_overflow : ∃ s s', scheduler.Reachable s ∧ scheduler.step s (.sleep .interruptible) s' ∧
    s'.current = 0 ∧ ∃ t, s'.task 2 = some t ∧ t.state = .running ∧ t.counter.toInt < 0 := by
  have h : (System.execWhen (State.next 2) (fun _ _ => True) .boot
      ([.fork 1, .schedule, .nice 0x80000010, .fork 2, .schedule, .sleep .interruptible] ++
        List.replicate 15 (.timer 3) ++ [.wakeUp 2])).any (fun s =>
      (s.next 2 (.sleep .interruptible)).any fun s' => s'.current == 0 &&
        (s'.task 2).any fun t => t.state == .running && decide (t.counter.toInt < 0)) = true := by
    decide +kernel
  obtain ⟨s, hs, h⟩ := (Option.any_eq_true ..).1 h
  obtain ⟨s', hs', h⟩ := (Option.any_eq_true ..).1 h
  obtain ⟨hcur, h⟩ := Bool.and_eq_true_iff.1 h
  obtain ⟨t, ht, h⟩ := (Option.any_eq_true ..).1 h
  obtain ⟨hrun, hneg⟩ := Bool.and_eq_true_iff.1 h
  have hstep : ∀ s e s', State.next 2 s e = some s' → scheduler.step s e s' := fun _ _ _ h => ⟨2, h⟩
  have hr : scheduler.Reachable s := System.ReachableWhen.exec hstep (.init rfl) hs
  exact ⟨s, s', hr, ⟨2, hs'⟩, by simpa using hcur, t, ht, by simpa using hrun, of_decide_eq_true hneg⟩

end Linux011.Scheduler
