import Linux011.Lib.Sizes
import Linux011.Lib.Transition
import Linux011.Signal.Task

/-!
# The coprocessor of a task

A task switch leaves the registers of the coprocessor where they are and sets TS; the first
coprocessor instruction after it traps, and `math_state_restore` exchanges the registers. Here are
`math_state_restore` and `switch_to` (`kernel/sched.c`, `sched.h`), `device_not_available`
(`kernel/system_call.s`), `math_emulate` and `math_error` (`kernel/math/math_emulate.c`), and what
`copy_process`, `do_execve`, `do_exit` and `release` do to the coprocessor.

1. `State`, `Event` and `State.next`.
2. `Own`: every task has a coprocessor of its own.
3. `lazy_simulation`: where the code agrees with it; `orphan_run` and `fork_regs`: where it does not.
-/

namespace Linux011.Math

open Signal (SigSet sigBit)

/-- `NR_TASKS`. -/
abbrev Nr := Fin 64

/-- What a coprocessor does: its registers are an `F`, its instructions an `ι` with results in `ω`. -/
structure Coprocessor (F ι ω : Type*) where
  fninit : F
  esc : ι → F → F × ω
  /-- An unmasked exception is pending. -/
  error : F → Bool
  fnclex : F → F

/-- The index of `SIGFPE`. -/
def sigfpe : Fin 32 := 7

/-- What the code below reads and writes of a task. -/
structure Task (F : Type*) where
  usedMath : Bool
  /-- `tss.i387`. -/
  i387 : F
  signal : SigSet
  /-- `state == TASK_ZOMBIE`. -/
  zombie : Bool
  /-- `tss.eip` is in `switch_to`, behind the `ljmp`. -/
  switched : Bool

structure State (F : Type*) where
  task : Nr → Option (Task F)
  current : Nr
  lastTaskUsedMath : Option Nr
  /-- The registers in the coprocessor. -/
  fpu : F
  ts : Bool
  em : Bool

/-- What can happen next. -/
inductive Event (ι : Type*)
  /-- `current` executes a coprocessor instruction. -/
  | esc (i : ι)
  /-- IRQ 13, before or after `current` executes `do_exit`. -/
  | error
  /-- `switch_to(n)`. -/
  | switchTo (n : Nr)
  /-- `copy_process(nr)`, and if `copy_mem` finds the pages for it. -/
  | fork (nr : Nr) (copied : Bool)
  | exec
  | exit
  | release (n : Nr)

section

variable {F ι ω : Type*} (cp : Coprocessor F ι ω)

/-! ## The code -/

def State.modify (s : State F) (n : Nr) (f : Task F → Task F) : State F :=
  { s with task := Function.update s.task n ((s.task n).map f) }

/-- `current`, unless it is a zombie. -/
def State.running (s : State F) : Option (Task F) :=
  (s.task s.current).filter fun t => !t.zombie

/-- `fnsave` to the `i387` of a task. It leaves the coprocessor as `fninit` does. -/
def State.fnsave (s : State F) (n : Nr) : State F :=
  { s.modify n (fun t => { t with i387 := s.fpu }) with fpu := cp.fninit }

/-- `last_task_used_math = current`, and `frstor` or `fninit`. -/
def State.load (s : State F) : State F :=
  let s := { s with lastTaskUsedMath := some s.current }
  if (s.task s.current).any fun t => t.usedMath then
    { s with fpu := (s.task s.current).elim s.fpu fun t => t.i387 }
  else { s.modify s.current (fun t => { t with usedMath := true }) with fpu := cp.fninit }

/-- `math_state_restore`, behind the test whether `current` has the coprocessor. -/
def State.exchange (s : State F) : State F :=
  (s.lastTaskUsedMath.elim s (s.fnsave cp)).load cp

def State.mathStateRestore (s : State F) : State F :=
  if s.lastTaskUsedMath = some s.current then s else s.exchange cp

/-- `current->signal |= 1<<(SIGFPE-1)`, for the task `n`. -/
def State.signalFpe (s : State F) (n : Nr) : State F :=
  s.modify n fun t => { t with signal := t.signal ||| sigBit sigfpe }

/-- `device_not_available`, and `math_emulate` with a user's `cs`. -/
def State.deviceNotAvailable (s : State F) : State F :=
  let s := { s with ts := false }
  if s.em then s.signalFpe s.current else s.mathStateRestore cp

/-- What comes before a coprocessor instruction. -/
def State.trap (s : State F) : State F :=
  if s.em || s.ts then s.deviceNotAvailable cp else s

/-- `math_error`. Its `fnclex` traps like any coprocessor instruction. -/
def State.mathError (s : State F) : State F :=
  let s := s.trap cp
  let s := { s with fpu := cp.fnclex s.fpu }
  s.lastTaskUsedMath.elim s s.signalFpe

/-- A coprocessor instruction of `current`. Without a coprocessor it is left out. -/
def State.escape (s : State F) (i : ι) : State F × Option ω :=
  let s := s.trap cp
  if s.em then (s, none)
  else ({ s with fpu := (cp.esc i s.fpu).1 }, some (cp.esc i s.fpu).2)

/-- `switch_to(n)`. The task switch sets TS. A task that was switched away goes on in `switch_to`, and
compares itself with `last_task_used_math`; a new task does not come from there. -/
def State.switchTo (s : State F) (n : Nr) : State F :=
  if s.current = n then s
  else
    let resumes := (s.task n).any fun t => t.switched
    { s.modify s.current (fun t => { t with switched := true }) with
      current := n
      ts := !(resumes && decide (s.lastTaskUsedMath = some n)) }

/-- `copy_process`. The `clts ; fnsave` writes to the child. -/
def State.copyProcess (s : State F) (t : Task F) (nr : Nr) (copied : Bool) : State F :=
  let p := { t with signal := 0, switched := false }
  if s.lastTaskUsedMath = some s.current then
    { s with
      task := if copied then Function.update s.task nr (some { p with i387 := s.fpu }) else s.task
      ts := false
      fpu := cp.fninit }
  else { s with task := if copied then Function.update s.task nr (some p) else s.task }

/-- `last_task_used_math = NULL` if it is `current`. -/
def State.forget (s : State F) : State F :=
  if s.lastTaskUsedMath = some s.current then { s with lastTaskUsedMath := none } else s

/-- One event, with the result of a coprocessor instruction. -/
def State.next (s : State F) : Event ι → Option (State F × Option ω)
  | .esc i => s.running.map fun _ => s.escape cp i
  | .error =>
    if cp.error s.fpu && !s.em then s.running.map fun _ => (s.mathError cp, none) else none
  | .switchTo n =>
    -- `schedule` chooses a runnable task, or the first one
    if (s.task n).any fun t => !t.zombie then some (s.switchTo n, none) else none
  | .fork nr copied =>
    if (s.task nr).isNone then s.running.map fun t => (s.copyProcess cp t nr copied, none) else none
  | .exec =>
    s.running.map fun _ => (s.forget.modify s.current fun t => { t with usedMath := false }, none)
  | .exit =>
    s.running.map fun _ => (s.forget.modify s.current fun t => { t with zombie := true }, none)
  | .release n =>
    if n ≠ s.current ∧ (s.task n).any fun t => t.zombie then
      some ({ s with task := Function.update s.task n none }, none)
    else none

/-- After `check_x87`: the first task runs, TS is clear, and nobody has the coprocessor. `i387` is the
zeros of `INIT_TASK`. -/
def State.boot (i387 : F) (em : Bool) : State F where
  task := Function.update (fun _ => none) 0 (some ⟨false, i387, 0, false, false⟩)
  current := 0
  lastTaskUsedMath := none
  fpu := cp.fninit
  ts := false
  em := em

def tasks : Machine (State F) (Event ι) (Option ω) where
  step := State.next cp

/-! ## A coprocessor for each task -/

namespace Own

structure Task (F : Type*) where
  regs : F
  signal : SigSet
  zombie : Bool

structure State (F : Type*) where
  task : Nr → Option (Task F)
  current : Nr

/-- Replace `current`. -/
def State.put (s : State F) (t : Task F) : State F :=
  { s with task := Function.update s.task s.current (some t) }

def State.running (s : State F) : Option (Task F) :=
  (s.task s.current).filter fun t => !t.zombie

def State.next (s : State F) : Event ι → Option (State F × Option ω)
  | .esc i => s.running.map fun t =>
    (s.put { t with regs := (cp.esc i t.regs).1 }, some (cp.esc i t.regs).2)
  | .error =>
    s.running.bind fun t =>
      if cp.error t.regs then
        some (s.put { t with regs := cp.fnclex t.regs, signal := t.signal ||| sigBit sigfpe }, none)
      else none
  | .switchTo n =>
    if (s.task n).any fun t => !t.zombie then some ({ s with current := n }, none) else none
  | .fork nr copied =>
    if (s.task nr).isNone then
      s.running.map fun t =>
        ({ s with task := if copied then Function.update s.task nr (some { t with signal := 0 })
                          else s.task }, none)
    else none
  | .exec => s.running.map fun t => (s.put { t with regs := cp.fninit }, none)
  | .exit =>
    s.running.map fun t => (s.put { t with regs := cp.fninit, zombie := true }, none)
  | .release n =>
    if n ≠ s.current ∧ (s.task n).any fun t => t.zombie then
      some ({ s with task := Function.update s.task n none }, none)
    else none

def State.boot : State F where
  task := Function.update (fun _ => none) 0 (some ⟨cp.fninit, 0, false⟩)
  current := 0

/-- A machine whose tasks never share a register. -/
def tasks : Machine (State F) (Event ι) (Option ω) where
  step := State.next cp

end Own

/-- The registers of the task `n`, wherever they are. -/
def State.regs (s : State F) (n : Nr) (t : Task F) : F :=
  if s.lastTaskUsedMath = some n then s.fpu else if t.usedMath then t.i387 else cp.fninit

/-- The task `n`, with its own registers. A zombie has none. -/
def State.own₁ (s : State F) (n : Nr) (t : Task F) : Own.Task F :=
  ⟨if t.zombie then cp.fninit else s.regs cp n t, t.signal, t.zombie⟩

/-- The tasks with their own registers. -/
def State.own (s : State F) : Own.State F where
  task n := (s.task n).map (s.own₁ cp n)
  current := s.current

/-- `last_task_used_math` is a task that has used the coprocessor. -/
structure State.Sound (s : State F) : Prop where
  em : s.em = false
  current : (s.task s.current).isSome
  owner : ∀ n, s.lastTaskUsedMath = some n →
    ∃ t, s.task n = some t ∧ t.usedMath = true ∧ t.zombie = false

/-- What every run keeps, on a machine with a coprocessor: TS is clear for the task that has it only. -/
structure State.Inv (s : State F) : Prop extends State.Sound s where
  ts : s.ts = false → s.lastTaskUsedMath = none ∨ s.lastTaskUsedMath = some s.current

/-- The event does not touch registers that are not those of `current`: an instruction traps or finds
`current`'s own registers, an exception is one of `current`, and a `fork` finds the registers saved. -/
def State.Kept (s : State F) : Event ι → Prop
  | .esc _ => s.ts = true ∨ s.lastTaskUsedMath = some s.current
  | .error => s.lastTaskUsedMath = some s.current
  | .fork _ _ => s.lastTaskUsedMath ≠ some s.current
  | _ => True

instance (s : State F) : ∀ e : Event ι, Decidable (s.Kept e)
  | .esc _ => inferInstanceAs (Decidable (s.ts = true ∨ s.lastTaskUsedMath = some s.current))
  | .error => inferInstanceAs (Decidable (s.lastTaskUsedMath = some s.current))
  | .fork _ _ => inferInstanceAs (Decidable (s.lastTaskUsedMath ≠ some s.current))
  | .switchTo _ | .exec | .exit | .release _ => inferInstanceAs (Decidable True)

/-! ## The exchange of the registers -/

variable {cp}

theorem running_eq_some {s : State F} {t : Task F} (h : s.running = some t) :
    s.task s.current = some t ∧ t.zombie = false := by
  unfold State.running at h
  simpa using Option.filter_eq_some_iff.1 h

theorem task_modify {s : State F} {m : Nr} {f : Task F → Task F} (n : Nr) :
    (s.modify m f).task n = (s.task n).map fun t => if n = m then f t else t := by
  unfold State.modify
  by_cases h : n = m
  · subst h
    simp
  · simp [h]

variable (cp) in
/-- `s` with the registers of no task in the coprocessor. -/
def State.saved (s : State F) : State F :=
  { s.lastTaskUsedMath.elim s (s.fnsave cp) with lastTaskUsedMath := none }

theorem own_congr {s s' : State F} (hc : s'.current = s.current)
    (h : ∀ n, (s'.task n).map (s'.own₁ cp n) = (s.task n).map (s.own₁ cp n)) :
    s'.own cp = s.own cp := by
  unfold State.own
  rw [hc, funext h]

variable (cp) in
/-- `fnsave` takes the registers of the coprocessor to their task. -/
theorem own_saved {s : State F} (hi : s.Sound) :
    (s.saved cp).own cp = s.own cp ∧ (s.saved cp).Sound := by
  unfold State.saved
  cases hl : s.lastTaskUsedMath with
  | none =>
    have hs : { s with lastTaskUsedMath := none } = s := by rw [← hl]
    rw [Option.elim_none, hs]
    exact ⟨rfl, hi⟩
  | some l =>
    obtain ⟨tl, htl, hu, hz⟩ := hi.owner l hl
    rw [Option.elim_some]
    have htask : ∀ n, (s.fnsave cp l).task n =
        (s.task n).map fun t => if n = l then { t with i387 := s.fpu } else t :=
      fun n => task_modify n
    constructor
    · refine own_congr rfl fun n => ?_
      simp only [htask, Option.map_map]
      refine Option.map_congr fun t ht => ?_
      by_cases hn : n = l
      · subst hn
        obtain rfl : t = tl := by simpa [htl] using ht.symm
        simp [State.own₁, State.regs, hl, hu]
      · have hn' : ¬ l = n := fun h => hn h.symm
        simp [State.own₁, State.regs, hl, hn, hn']
    · refine ⟨hi.em, ?_, fun n hn => by cases hn⟩
      have hcur : (s.fnsave cp l).current = s.current := rfl
      simp only [hcur, htask, Option.isSome_map]
      exact hi.current

variable (cp) in
/-- `frstor` takes them from there, and a first `fninit` makes those that the task has already. -/
theorem own_load {s : State F} (hi : s.Sound) (hl : s.lastTaskUsedMath = none)
    (hr : s.running.isSome) : (s.load cp).own cp = s.own cp ∧ (s.load cp).Sound ∧
      (s.load cp).lastTaskUsedMath = some s.current := by
  obtain ⟨t, ht⟩ := Option.isSome_iff_exists.1 hr
  obtain ⟨ht, hz⟩ := running_eq_some ht
  have htask : ∀ n, (s.load cp).task n =
      (s.task n).map fun u => if n = s.current then { u with usedMath := true } else u := by
    intro n
    rw [← task_modify (f := fun u => { u with usedMath := true })]
    cases hu : t.usedMath with
    | true =>
      have ht' : { t with usedMath := true } = t := by rw [← hu]
      by_cases hn : n = s.current
      · subst hn
        simp [State.load, State.modify, ht, hu, ht']
      · simp [State.load, State.modify, ht, hu, hn]
    | false => simp [State.load, State.modify, ht, hu]
  have hfpu : (s.load cp).fpu = s.regs cp s.current t := by
    cases hu : t.usedMath with
    | true => simp [State.load, State.regs, ht, hu, hl]
    | false => simp [State.load, State.regs, ht, hu, hl]
  have hlast : (s.load cp).lastTaskUsedMath = some s.current := by
    unfold State.load
    dsimp only
    split <;> rfl
  have hcur : (s.load cp).current = s.current := by
    unfold State.load
    dsimp only
    split <;> rfl
  refine ⟨?_, ?_, hlast⟩
  · refine own_congr hcur fun n => ?_
    rw [htask, Option.map_map]
    refine Option.map_congr fun u hu => ?_
    by_cases hn : n = s.current
    · subst hn
      obtain rfl : u = t := by simpa [ht] using hu.symm
      have hregs : (s.load cp).regs cp s.current { u with usedMath := true } = (s.load cp).fpu := by
        simp [State.regs, hlast]
      simp [State.own₁, hregs, hfpu]
    · have hn' : ¬ s.current = n := fun h => hn h.symm
      simp [State.own₁, State.regs, hl, hlast, hn, hn']
  · refine ⟨?_, ?_, ?_⟩
    · unfold State.load
      dsimp only
      split <;> exact hi.em
    · rw [hcur, htask, Option.isSome_map]
      exact hi.current
    · intro n hn
      obtain rfl : s.current = n := Option.some.inj (hlast.symm.trans hn)
      refine ⟨{ t with usedMath := true }, ?_, rfl, hz⟩
      simp [htask, ht]

variable (cp) in
theorem own_running (s : State F) :
    (s.own cp).running = s.running.map (s.own₁ cp s.current) := by
  unfold Own.State.running State.running
  have h : (s.own cp).task (s.own cp).current = (s.task s.current).map (s.own₁ cp s.current) := rfl
  rw [h]
  cases s.task s.current with
  | none => rfl
  | some t => cases hz : t.zombie <;> simp [Option.filter, State.own₁, hz]

theorem running_of_own {s s' : State F} (h : s'.own cp = s.own cp) (hr : s.running.isSome) :
    s'.running.isSome := by
  have h' := own_running cp s'
  rw [h, own_running cp s] at h'
  simpa [hr] using congrArg Option.isSome h'.symm

variable (cp) in
/-- After the trap the coprocessor has `current`'s registers, and no task has lost its own. -/
theorem own_deviceNotAvailable {s : State F} (hi : s.Sound) (hr : s.running.isSome) :
    (s.deviceNotAvailable cp).own cp = s.own cp ∧ (s.deviceNotAvailable cp).Sound ∧
      (s.deviceNotAvailable cp).lastTaskUsedMath = some s.current := by
  have hi' : State.Sound { s with ts := false } := ⟨hi.em, hi.current, hi.owner⟩
  have hd : s.deviceNotAvailable cp = State.mathStateRestore cp { s with ts := false } := by
    simp [State.deviceNotAvailable, hi.em]
  rw [hd]
  unfold State.mathStateRestore
  split
  · next hl => exact ⟨rfl, hi', hl⟩
  · obtain ⟨ho, hs⟩ := own_saved cp hi'
    obtain ⟨ho', hs', hl'⟩ := own_load cp hs rfl (running_of_own ho hr)
    have hc : (State.saved cp { s with ts := false }).current = s.current :=
      congrArg Own.State.current ho
    exact ⟨ho'.trans ho, hs', hl'.trans (congrArg some hc)⟩

variable (cp) in
/-- An instruction that traps or finds `current`'s registers works on these. -/
theorem own_trap {s : State F} (hi : s.Sound) (hr : s.running.isSome)
    (hk : s.ts = true ∨ s.lastTaskUsedMath = some s.current) :
    (s.trap cp).own cp = s.own cp ∧ (s.trap cp).Sound ∧
      (s.trap cp).lastTaskUsedMath = some (s.trap cp).current ∧ (s.trap cp).running.isSome := by
  cases hts : s.ts with
  | true =>
    have hs₁ : s.trap cp = s.deviceNotAvailable cp := by simp [State.trap, hts]
    obtain ⟨ho, hs, hl⟩ := own_deviceNotAvailable cp hi hr
    have hc : (s.deviceNotAvailable cp).current = s.current := congrArg Own.State.current ho
    rw [hs₁]
    exact ⟨ho, hs, by rw [hl, hc], running_of_own ho hr⟩
  | false =>
    have hs₁ : s.trap cp = s := by simp [State.trap, hts, hi.em]
    rw [hs₁]
    exact ⟨rfl, hi, by simpa [hts] using hk, hr⟩

/-- The owner of the coprocessor keeps it. -/
theorem trap_of_last {s : State F} (he : s.em = false)
    (hl : s.lastTaskUsedMath = some s.current) : s.trap cp = { s with ts := false } := by
  unfold State.trap
  split
  · simp [State.deviceNotAvailable, State.mathStateRestore, he, hl]
  · next h =>
    have hts : s.ts = false := by simpa [he] using h
    rw [← hts]

/-- Two states whose tasks but `current` have the same registers and signals. -/
theorem own_eq_put {s s' : State F} {u : Own.Task F} (hc : s'.current = s.current)
    (h : ∀ n, n ≠ s.current → (s'.task n).map (s'.own₁ cp n) = (s.task n).map (s.own₁ cp n))
    (h' : (s'.task s.current).map (s'.own₁ cp s.current) = some u) :
    s'.own cp = (s.own cp).put u := by
  unfold State.own Own.State.put
  rw [hc]
  congr 1
  funext n
  by_cases hn : n = s.current
  · subst hn
    simpa using h'
  · simpa [hn] using h n hn

/-- New registers in the coprocessor are those of the task that has it. -/
theorem own_fpu {s : State F} (hl : s.lastTaskUsedMath = some s.current) {t : Task F}
    (hr : s.running = some t) (x : F) :
    State.own cp { s with fpu := x } = (s.own cp).put ⟨x, t.signal, false⟩ := by
  obtain ⟨ht, hz⟩ := running_eq_some hr
  refine own_eq_put rfl (fun n hn => ?_) ?_
  · have hn' : ¬ s.current = n := fun h => hn h.symm
    refine Option.map_congr fun u _ => ?_
    simp [State.own₁, State.regs, hl, hn']
  · simp [State.own₁, State.regs, hl, ht, hz]

theorem own₁_of_last {s : State F} (hl : s.lastTaskUsedMath = some s.current) {t : Task F}
    (hz : t.zombie = false) : s.own₁ cp s.current t = ⟨s.fpu, t.signal, false⟩ := by
  simp [State.own₁, State.regs, hl, hz]

/-- `last_task_used_math = NULL` for `current`, which gives its registers up. -/
theorem own_forget {s : State F} {f : Task F → Task F} {t : Task F}
    (ht : s.task s.current = some t) (hf : (f t).usedMath = false ∨ (f t).zombie = true) :
    (s.forget.modify s.current f).own cp =
      (s.own cp).put ⟨cp.fninit, (f t).signal, (f t).zombie⟩ := by
  have hl : s.forget.lastTaskUsedMath ≠ some s.current := by
    unfold State.forget
    split
    · simp
    · assumption
  have ht' : s.forget.task = s.task := by
    unfold State.forget
    split <;> rfl
  have hc : s.forget.current = s.current := by
    unfold State.forget
    split <;> rfl
  refine own_eq_put hc (fun n hn => ?_) ?_
  · rw [task_modify, ht']
    simp only [hn, if_false, Option.map_id']
    refine Option.map_congr fun t _ => ?_
    have hn' : ¬ s.current = n := fun h => hn h.symm
    unfold State.forget
    split
    · next hl => simp [State.own₁, State.regs, State.modify, hl, hn']
    · rfl
  · have hl' : (s.forget.modify s.current f).lastTaskUsedMath ≠ some s.current := hl
    rw [task_modify, ht', ht]
    rcases hf with hf | hf
    · simp [State.own₁, State.regs, hl', hf]
    · simp [State.own₁, hf]

/-! ## One step -/

theorem escape_eq {s : State F} (he : (s.trap cp).em = false) (i : ι) :
    s.escape cp i = ({ s.trap cp with fpu := (cp.esc i (s.trap cp).fpu).1 },
      some (cp.esc i (s.trap cp).fpu).2) := by
  unfold State.escape
  dsimp only
  rw [if_neg (by simp [he])]

theorem own_esc {s : State F} (hl : s.lastTaskUsedMath = some s.current) {t : Task F}
    (hr : s.running = some t) (i : ι) :
    (s.own cp).next cp (.esc i) =
      some (State.own cp { s with fpu := (cp.esc i s.fpu).1 }, some (cp.esc i s.fpu).2) := by
  have hz := (running_eq_some hr).2
  simp only [Own.State.next, own_running, hr, Option.map_some, own₁_of_last hl hz,
    own_fpu hl hr (cp.esc i s.fpu).1]

theorem own_error {s : State F} (hl : s.lastTaskUsedMath = some s.current) {t : Task F}
    (hr : s.running = some t) (he : cp.error s.fpu = true) :
    (s.own cp).next cp (.error : Event ι) =
      some (State.own cp (State.signalFpe { s with fpu := cp.fnclex s.fpu } s.current), none) := by
  obtain ⟨ht, hz⟩ := running_eq_some hr
  have hown : State.own cp (State.signalFpe { s with fpu := cp.fnclex s.fpu } s.current) =
      (s.own cp).put ⟨cp.fnclex s.fpu, t.signal ||| sigBit sigfpe, false⟩ := by
    refine own_eq_put rfl (fun n hn => ?_) ?_
    · unfold State.signalFpe
      rw [task_modify]
      simp only [hn, if_false, Option.map_id']
      have hn' : ¬ s.current = n := fun h => hn h.symm
      refine Option.map_congr fun u _ => ?_
      simp [State.own₁, State.regs, State.modify, hl, hn']
    · unfold State.signalFpe
      rw [task_modify, ht]
      simp [State.own₁, State.regs, State.modify, hl, hz]
  simp only [Own.State.next, own_running, hr, Option.map_some, Option.bind_some,
    own₁_of_last hl hz, he, if_true, hown]

theorem own_switchTo (s : State F) (n : Nr) :
    (s.switchTo n).own cp = { s.own cp with current := n } := by
  unfold State.switchTo
  split
  · next h =>
    subst h
    rfl
  · unfold State.own
    congr 1
    funext m
    have h : ∀ u : Task F, s.own₁ cp m (if m = s.current then { u with switched := true } else u) =
        s.own₁ cp m u := by
      intro u
      split <;> rfl
    rw [task_modify, Option.map_map]
    exact Option.map_congr fun u _ => h u

/-- The registers of a task depend on the coprocessor only if they are in it. -/
theorem own₁_congr {s s' : State F} {n : Nr} (hl : s'.lastTaskUsedMath = s.lastTaskUsedMath)
    (h : s.lastTaskUsedMath = some n → s'.fpu = s.fpu) : s'.own₁ cp n = s.own₁ cp n := by
  funext t
  unfold State.own₁ State.regs
  rw [hl]
  by_cases hn : s.lastTaskUsedMath = some n
  · rw [h hn]
  · simp only [hn, if_false]

/-- The child has the registers of the parent, and the others keep their own; the parent too, if they
were saved before. -/
theorem own_copyProcess {s : State F} (hi : s.Sound) {t : Task F} (hr : s.running = some t) {nr : Nr}
    (hnr : s.task nr = none) (copied : Bool) {n : Nr}
    (hn : n ≠ s.current ∨ s.lastTaskUsedMath ≠ some s.current) :
    ((s.copyProcess cp t nr copied).own cp).task n =
      if copied = true ∧ n = nr then some { s.own₁ cp s.current t with signal := 0 }
      else (s.own cp).task n := by
  obtain ⟨ht, hz⟩ := running_eq_some hr
  have hnr' : s.lastTaskUsedMath ≠ some nr := by
    intro hl
    obtain ⟨u, hu, -⟩ := hi.owner nr hl
    simp [hnr] at hu
  have hcn : s.current ≠ nr := by
    rintro rfl
    simp [hnr] at ht
  unfold State.copyProcess
  by_cases hl : s.lastTaskUsedMath = some s.current
  · obtain ⟨u, hu, hum, -⟩ := hi.owner _ hl
    obtain rfl : u = t := by simpa [ht] using hu.symm
    have hn' : s.lastTaskUsedMath ≠ some n := by
      rw [hl]
      exact fun h => hn.elim (fun hn => hn (Option.some.inj h).symm) fun hn => hn hl
    rw [if_pos hl]
    by_cases h : copied = true ∧ n = nr
    · obtain ⟨rfl, rfl⟩ := h
      simp [State.own, State.own₁, State.regs, hz, hum, hl, hcn]
    · rw [if_neg h]
      have htask : (if copied = true then Function.update s.task nr
          (some { u with signal := 0, switched := false, i387 := s.fpu }) else s.task) n =
          s.task n := by
        cases copied with
        | false => rfl
        | true => simp [show n ≠ nr from fun hn => h ⟨rfl, hn⟩]
      simp only [State.own, htask]
      refine Option.map_congr fun v _ => congrFun (own₁_congr ?_ fun h => absurd h hn') v
      rfl
  · rw [if_neg hl]
    by_cases h : copied = true ∧ n = nr
    · obtain ⟨rfl, rfl⟩ := h
      simp [State.own, State.own₁, State.regs, hz, hnr', hl]
    · rw [if_neg h]
      have htask : (if copied = true then Function.update s.task nr
          (some { t with signal := 0, switched := false }) else s.task) n = s.task n := by
        cases copied with
        | false => rfl
        | true => simp [show n ≠ nr from fun hn => h ⟨rfl, hn⟩]
      simp only [State.own, htask]
      rfl

theorem own_next {s s' : State F} {e : Event ι} {o : Option ω} (hi : s.Inv) (hk : s.Kept e)
    (h : s.next cp e = some (s', o)) : (s.own cp).next cp e = some (s'.own cp, o) := by
  cases e with
  | esc i =>
    obtain ⟨t, hr, h⟩ := Option.map_eq_some_iff.1 h
    obtain ⟨ho, hs, hl, hr₁⟩ := own_trap cp hi.toSound (by simp [hr]) hk
    obtain ⟨t₁, hr₁⟩ := Option.isSome_iff_exists.1 hr₁
    rw [← ho, own_esc hl hr₁]
    rw [escape_eq hs.em] at h
    obtain ⟨rfl, rfl⟩ := Prod.mk.inj h
    rfl
  | error =>
    have hl : s.lastTaskUsedMath = some s.current := hk
    simp only [State.next, hi.em, Bool.not_false, Bool.and_true] at h
    split at h
    · next he =>
      obtain ⟨t, hr, h⟩ := Option.map_eq_some_iff.1 h
      obtain ⟨rfl, rfl⟩ := Prod.mk.inj h
      rw [own_error hl hr he]
      simp only [State.mathError, trap_of_last hi.em hl, hl, Option.elim_some]
      rfl
    · cases h
  | switchTo n =>
    simp only [State.next] at h
    split at h
    · next hn =>
      obtain ⟨rfl, rfl⟩ := by simpa using h
      have hn' : (((s.own cp).task n).any fun t => !t.zombie) = true := by
        simp only [State.own, Option.any_map]
        exact hn
      simp [Own.State.next, hn', own_switchTo]
    · cases h
  | fork nr copied =>
    simp only [State.next] at h
    split at h
    · next hn =>
      obtain ⟨t, hr, h⟩ := Option.map_eq_some_iff.1 h
      obtain ⟨rfl, rfl⟩ := Prod.mk.inj h
      have hnr : s.task nr = none := by simpa using hn
      have hc : (s.copyProcess cp t nr copied).current = s.current := by
        unfold State.copyProcess
        dsimp only
        split <;> rfl
      have hn' : (((s.own cp).task nr).isNone) = true := by
        simp only [State.own, Option.isNone_map]
        exact hn
      have hown : (s.copyProcess cp t nr copied).own cp = Own.State.mk
          (if copied then Function.update (s.own cp).task nr
            (some { s.own₁ cp s.current t with signal := 0 }) else (s.own cp).task) s.current := by
        have htask : ((s.copyProcess cp t nr copied).own cp).task = if copied then
            Function.update (s.own cp).task nr (some { s.own₁ cp s.current t with signal := 0 })
            else (s.own cp).task := by
          funext n
          rw [own_copyProcess hi.toSound hr hnr copied (.inr hk)]
          cases copied with
          | false => simp
          | true =>
            by_cases h : n = nr
            · subst h
              simp
            · simp [h]
        rw [← htask, ← hc]
        rfl
      simp [Own.State.next, hn', own_running, hr, hown]
      rfl
    · cases h
  | exec =>
    obtain ⟨t, hr, h⟩ := Option.map_eq_some_iff.1 h
    obtain ⟨ht, hz⟩ := running_eq_some hr
    obtain ⟨rfl, rfl⟩ := Prod.mk.inj h
    rw [own_forget ht (.inl rfl)]
    simp [Own.State.next, own_running, hr, State.own₁, hz]
  | exit =>
    obtain ⟨t, hr, h⟩ := Option.map_eq_some_iff.1 h
    obtain ⟨ht, hz⟩ := running_eq_some hr
    obtain ⟨rfl, rfl⟩ := Prod.mk.inj h
    rw [own_forget ht (.inr rfl)]
    simp [Own.State.next, own_running, hr, State.own₁, hz]
  | release n =>
    simp only [State.next] at h
    split at h
    · next hn =>
      obtain ⟨rfl, rfl⟩ := by simpa using h
      have hn' : n ≠ (s.own cp).current ∧ (((s.own cp).task n).any fun t => t.zombie) = true := by
        simp only [State.own, Option.any_map]
        exact hn
      have hown : State.own cp { s with task := Function.update s.task n none } =
          { s.own cp with task := Function.update (s.own cp).task n none } := by
        unfold State.own
        congr 1
        funext m
        by_cases hm : m = n
        · subst hm
          simp
        · simp only [Function.update_of_ne hm]
          rfl
      simp only [Own.State.next, if_pos hn', hown]
    · cases h

theorem State.Sound.fpu {s : State F} (hi : s.Sound) (x : F) : State.Sound { s with fpu := x } :=
  ⟨hi.em, hi.current, hi.owner⟩

/-- A change of a task that leaves a user of the coprocessor one. -/
theorem State.Sound.modify {s : State F} (hi : s.Sound) {n : Nr} {f : Task F → Task F}
    (h : ∀ t, s.lastTaskUsedMath = some n → t.usedMath = true → t.zombie = false →
      (f t).usedMath = true ∧ (f t).zombie = false) : (s.modify n f).Sound := by
  refine ⟨hi.em, ?_, fun m hm => ?_⟩
  · rw [task_modify, Option.isSome_map]
    exact hi.current
  · obtain ⟨t, ht, hu, hz⟩ := hi.owner m hm
    rw [task_modify, ht]
    by_cases hn : m = n
    · subst hn
      obtain ⟨hu', hz'⟩ := h t hm hu hz
      exact ⟨f t, by simp, hu', hz'⟩
    · exact ⟨t, by simp [hn], hu, hz⟩

variable (cp) in
theorem inv_trap {s : State F} (hi : s.Inv) (hr : s.running.isSome) : (s.trap cp).Inv := by
  cases hts : s.ts with
  | true =>
    obtain ⟨-, hs, hl, -⟩ := own_trap cp hi.toSound hr (.inl hts)
    exact ⟨hs, fun _ => .inr hl⟩
  | false =>
    have hs₁ : s.trap cp = s := by simp [State.trap, hts, hi.em]
    rw [hs₁]
    exact hi

theorem inv_modify {s : State F} (hi : s.Inv) {n : Nr} {f : Task F → Task F}
    (h : ∀ t, s.lastTaskUsedMath = some n → t.usedMath = true → t.zombie = false →
      (f t).usedMath = true ∧ (f t).zombie = false) : (s.modify n f).Inv :=
  ⟨hi.toSound.modify h, hi.ts⟩

theorem inv_forget {s : State F} (hi : s.Inv) (f : Task F → Task F) :
    (s.forget.modify s.current f).Inv := by
  have hf : s.forget.Inv ∧ s.forget.lastTaskUsedMath ≠ some s.current := by
    unfold State.forget
    split
    · exact ⟨⟨⟨hi.em, hi.current, fun n hn => by cases hn⟩, fun _ => .inl rfl⟩, by simp⟩
    · exact ⟨hi, by assumption⟩
  exact inv_modify hf.1 fun t hl => absurd hl hf.2

/-- What happens keeps the invariant, in whatever order. -/
theorem inv_next {s s' : State F} {e : Event ι} {o : Option ω} (hi : s.Inv)
    (h : s.next cp e = some (s', o)) : s'.Inv := by
  cases e with
  | esc i =>
    obtain ⟨t, hr, h⟩ := Option.map_eq_some_iff.1 h
    have ht := inv_trap cp hi (by simp [hr])
    rw [escape_eq ht.em] at h
    obtain ⟨rfl, rfl⟩ := Prod.mk.inj h
    exact ⟨ht.toSound.fpu _, ht.ts⟩
  | error =>
    simp only [State.next, hi.em, Bool.not_false, Bool.and_true] at h
    split at h
    · obtain ⟨t, hr, h⟩ := Option.map_eq_some_iff.1 h
      obtain ⟨rfl, rfl⟩ := Prod.mk.inj h
      have ht := inv_trap cp hi (by simp [hr])
      have hsig : ∀ s : State F, s.Inv → (s.lastTaskUsedMath.elim s s.signalFpe).Inv := by
        intro s hs
        cases s.lastTaskUsedMath with
        | none => exact hs
        | some l => exact inv_modify hs fun t _ hu hz => ⟨hu, hz⟩
      exact hsig _ ⟨ht.toSound.fpu _, ht.ts⟩
    · cases h
  | switchTo n =>
    simp only [State.next] at h
    split at h
    · next hn =>
      obtain ⟨rfl, rfl⟩ := by simpa using h
      unfold State.switchTo
      split
      · exact hi
      · next hc =>
        have hm := hi.toSound.modify (n := s.current) (f := fun t => { t with switched := true })
          fun t _ hu hz => ⟨hu, hz⟩
        refine ⟨⟨hm.em, ?_, hm.owner⟩, fun hts => .inr ?_⟩
        · rw [task_modify, Option.isSome_map]
          cases ht : s.task n with
          | none => simp [ht] at hn
          | some t => rfl
        · simp only [Bool.not_eq_eq_eq_not, Bool.not_false, Bool.and_eq_true,
            decide_eq_true_eq] at hts
          exact hts.2
    · cases h
  | fork nr copied =>
    simp only [State.next] at h
    split at h
    · next hn =>
      obtain ⟨t, hr, h⟩ := Option.map_eq_some_iff.1 h
      obtain ⟨rfl, rfl⟩ := Prod.mk.inj h
      have hnr : s.task nr = none := by simpa using hn
      have htask : ∀ u : Task F, ∀ n v, s.task n = some v →
          (if copied = true then Function.update s.task nr (some u) else s.task) n = some v := by
        intro u n v hv
        have hn : n ≠ nr := by
          rintro rfl
          simp [hnr] at hv
        split
        · rwa [Function.update_of_ne hn]
        · exact hv
      have hcur : ∀ u : Task F,
          ((if copied = true then Function.update s.task nr (some u) else s.task)
            s.current).isSome := by
        intro u
        obtain ⟨c, hc⟩ := Option.isSome_iff_exists.1 hi.current
        rw [htask u _ c hc]
        rfl
      have howner : ∀ u : Task F, ∀ n, s.lastTaskUsedMath = some n → ∃ t,
          (if copied = true then Function.update s.task nr (some u) else s.task) n = some t ∧
            t.usedMath = true ∧ t.zombie = false := by
        intro u n hl
        obtain ⟨v, hv, h⟩ := hi.owner n hl
        exact ⟨v, htask u n v hv, h⟩
      unfold State.copyProcess
      split
      · next hl =>
        exact ⟨⟨hi.em, hcur _, howner _⟩, fun _ => .inr hl⟩
      · exact ⟨⟨hi.em, hcur _, howner _⟩, hi.ts⟩
    · cases h
  | exec =>
    obtain ⟨t, -, h⟩ := Option.map_eq_some_iff.1 h
    obtain ⟨rfl, rfl⟩ := Prod.mk.inj h
    exact inv_forget hi _
  | exit =>
    obtain ⟨t, -, h⟩ := Option.map_eq_some_iff.1 h
    obtain ⟨rfl, rfl⟩ := Prod.mk.inj h
    exact inv_forget hi _
  | release n =>
    simp only [State.next] at h
    split at h
    · next hn =>
      obtain ⟨rfl, rfl⟩ := by simpa using h
      obtain ⟨hc, hz⟩ := hn
      refine ⟨⟨hi.em, ?_, fun m hm => ?_⟩, hi.ts⟩
      · simpa [Ne.symm hc] using hi.current
      · obtain ⟨t, ht, hu, hz'⟩ := hi.owner m hm
        have hmn : m ≠ n := by
          rintro rfl
          simp [ht, hz'] at hz
        exact ⟨t, by simpa [hmn] using ht, hu, hz'⟩
    · cases h

theorem inv_boot (i387 : F) : (State.boot cp i387 false).Inv :=
  ⟨⟨rfl, by simp [State.boot], fun n hn => by cases hn⟩, fun _ => .inl rfl⟩

theorem own_boot (i387 : F) : (State.boot cp i387 false).own cp = Own.State.boot cp := by
  unfold State.own Own.State.boot State.boot
  congr 1
  funext n
  by_cases hn : n = 0
  · subst hn
    simp [State.own₁, State.regs]
  · simp [hn]

/-! ## Runs -/

variable (cp) in
theorem lazy_simulation :
    ((tasks cp (ι := ι)).when State.Kept).Simulation (Own.tasks cp)
      fun s t => s.Inv ∧ s.own cp = t := by
  rintro s t e s' o ⟨hi, rfl⟩ h
  obtain ⟨hk, h⟩ := Machine.when_step_eq_some h
  exact ⟨_, own_next hi hk h, inv_next hi h, rfl⟩

variable (cp) in
/-- A run in which no step touches another task's registers gives the results of a machine with a
coprocessor for each task, and leaves each task the same registers and signals. -/
theorem lazy_run (i387 : F) (es : List (Event ι)) {s : State F} {os : List (Option ω)}
    (h : ((tasks cp).when State.Kept).exec (State.boot cp i387 false) es = some (s, os)) :
    (Own.tasks cp).exec (Own.State.boot cp) es = some (s.own cp, os) := by
  obtain ⟨t, ht, -, rfl⟩ := (lazy_simulation cp).exec es ⟨inv_boot i387, own_boot i387⟩ h
  exact ht

/-- One register: an instruction adds to it and gives what it was. -/
def adder : Coprocessor ℕ ℕ ℕ where
  fninit := 0
  esc i x := (x + i, x)
  error _ := false
  fnclex x := x

/-- Two tasks take turns. -/
theorem lazy_run_adder :
    ∃ s, (Own.tasks adder).exec (Own.State.boot adder)
      [.fork 1 true, .switchTo 1, .esc 5, .switchTo 0, .esc 7, .switchTo 1, .esc 0] =
      some (s, [none, none, some 0, none, some 0, none, some 5]) :=
  ⟨_, lazy_run adder 1 _ rfl⟩

theorem inv_run {i387 : F} {es : List (Event ι)} {s : State F} {os : List (Option ω)}
    (h : (tasks cp).exec (State.boot cp i387 false) es = some (s, os)) : s.Inv :=
  Machine.exec_invariant (I := State.Inv) (fun _ _ _ _ hi h => inv_next hi h) es (inv_boot i387) h

variable (cp) in
/-- In every state a `fork` gives the child the registers of its parent, and leaves those of all other
tasks alone; but the parent has its own no longer if they were in the coprocessor, unless they are
still as `fninit` leaves them. That no page is left for the copy makes no difference. -/
theorem fork_regs (i387 : F) (es : List (Event ι)) (nr : Nr) (copied : Bool) {s s' : State F}
    {os : List (Option ω)} {o : Option ω}
    (h : (tasks cp).exec (State.boot cp i387 false) es = some (s, os))
    (hf : s.next cp (.fork nr copied : Event ι) = some (s', o)) :
    (∀ n, n ≠ s.current → (s'.own cp).task n =
      if copied = true ∧ n = nr then
        ((s.own cp).task s.current).map fun t => { t with signal := 0 }
      else (s.own cp).task n) ∧
      ((s'.own cp).task s.current = (s.own cp).task s.current ↔
        (s.lastTaskUsedMath = some s.current → s.fpu = cp.fninit)) := by
  have hi := inv_run h
  simp only [State.next] at hf
  split at hf
  · next hn =>
    obtain ⟨t, hr, hf⟩ := Option.map_eq_some_iff.1 hf
    obtain ⟨rfl, rfl⟩ := Prod.mk.inj hf
    obtain ⟨ht, hz⟩ := running_eq_some hr
    have hnr : s.task nr = none := by simpa using hn
    constructor
    · intro n hc
      rw [own_copyProcess hi.toSound hr hnr copied (.inl hc)]
      simp [State.own, ht]
    · by_cases hl : s.lastTaskUsedMath = some s.current
      · have hcn : s.current ≠ nr := by
          rintro rfl
          simp [hnr] at ht
        have hs : ((s.copyProcess cp t nr copied).own cp).task s.current =
            some ⟨cp.fninit, t.signal, false⟩ := by
          cases copied <;>
            simp [State.copyProcess, hl, State.own, State.own₁, State.regs, ht, hz, hcn]
        have hs' : (s.own cp).task s.current = some ⟨s.fpu, t.signal, false⟩ := by
          simp [State.own, ht, own₁_of_last hl hz]
        rw [hs, hs']
        simp [hl, eq_comm]
      · rw [own_copyProcess hi.toSound hr hnr copied (.inr hl)]
        have hc : ¬ (copied = true ∧ s.current = nr) := by
          rintro ⟨-, rfl⟩
          simp [hnr] at ht
        simp [hc, hl]
  · cases hf

/-- The parent has used the coprocessor. -/
theorem fork_regs_adder :
    ∃ s s' : State ℕ, ∃ os o, (tasks adder).exec (State.boot adder 1 false)
        [.fork 1 true, .switchTo 1, .esc 5] = some (s, os) ∧
      s.next adder (.fork 2 true : Event ℕ) = some (s', o) ∧
      ((s'.own adder).task s.current = (s.own adder).task s.current ↔
        (s.lastTaskUsedMath = some s.current → s.fpu = 0)) :=
  ⟨_, _, _, _, rfl, rfl, (fork_regs adder 1 [.fork 1 true, .switchTo 1, .esc 5] 2 true rfl rfl).2⟩

/-- The results of instructions on the registers `x`. -/
def Coprocessor.results (cp : Coprocessor F ι ω) : F → List ι → List ω
  | _, [] => []
  | x, i :: is => (cp.esc i x).2 :: results cp (cp.esc i x).1 is

/-- With TS clear and the coprocessor nobody's, instructions change its registers and no task's. -/
theorem orphan_exec {s : State F} (hi : s.Sound) (hts : s.ts = false)
    (hl : s.lastTaskUsedMath = none) (is : List ι) {s' : State F} {os : List (Option ω)}
    (h : (tasks cp).exec s (is.map .esc) = some (s', os)) :
    os = (cp.results s.fpu is).map some ∧ s'.own cp = s.own cp ∧ s'.lastTaskUsedMath = none := by
  induction is generalizing s os with
  | nil =>
    obtain ⟨rfl, rfl⟩ := by simpa [Machine.exec] using h
    exact ⟨rfl, rfl, hl⟩
  | cons i is ih =>
    obtain ⟨s₁, o, os', h1, h2, rfl⟩ := Machine.exec_cons_eq_some h
    obtain ⟨t, -, h1⟩ := Option.map_eq_some_iff.1 h1
    have htrap : s.trap cp = s := by simp [State.trap, hts, hi.em]
    rw [escape_eq (by rw [htrap]; exact hi.em), htrap] at h1
    obtain ⟨rfl, rfl⟩ := Prod.mk.inj h1
    obtain ⟨rfl, ho, hl'⟩ := ih (hi.fpu (cp.esc i s.fpu).1) hts hl h2
    refine ⟨rfl, ho.trans ?_, hl'⟩
    unfold State.own
    congr 1
    funext n
    have hn : s.lastTaskUsedMath ≠ some n := by simp [hl]
    refine Option.map_congr fun u _ => congrFun (own₁_congr ?_ fun h => absurd h hn) u
    rfl

variable (cp) in
/-- After `do_execve` in a task that has the coprocessor, TS is clear and the coprocessor nobody's. Up
to the next task switch the new program's instructions work on the registers of the old one, and the
registers that the task will find after the switch are those of a program that has executed none. -/
theorem orphan_run (i387 : F) (es : List (Event ι)) {s s' : State F} {os os' : List (Option ω)}
    {is : List ι} (h : (tasks cp).exec (State.boot cp i387 false) es = some (s, os))
    (hts : s.ts = false) (hl : s.lastTaskUsedMath = some s.current)
    (hx : (tasks cp).exec s (.exec :: is.map .esc) = some (s', os')) :
    os' = none :: (cp.results s.fpu is).map some ∧
      (s.own cp).next cp (.exec : Event ι) = some (s'.own cp, none) := by
  have hi := inv_run h
  obtain ⟨s₁, o, os₁, h1, h2, rfl⟩ := Machine.exec_cons_eq_some hx
  obtain ⟨t, hr, h1'⟩ := Option.map_eq_some_iff.1 h1
  obtain ⟨rfl, rfl⟩ := Prod.mk.inj h1'
  have hi₁ := inv_forget hi fun t => { t with usedMath := false }
  have hf : s.forget = { s with lastTaskUsedMath := none } := if_pos hl
  rw [hf] at h2 hi₁
  obtain ⟨rfl, ho, -⟩ := orphan_exec hi₁.toSound hts rfl is h2
  refine ⟨rfl, ?_⟩
  obtain ⟨ht, hz⟩ := running_eq_some hr
  rw [ho, ← hf, own_forget ht (.inl rfl)]
  simp [Own.State.next, own_running, hr, State.own₁, hz]

/-- The second program reads the 5 of the first. -/
theorem orphan_run_adder :
    ∃ s s' os', (tasks adder).exec (State.boot adder 1 false)
        [.fork 1 true, .switchTo 1, .esc 5] = some (s, [none, none, some 0]) ∧
      (tasks adder).exec s (.exec :: [3, 0].map .esc) = some (s', os') ∧
      os' = none :: (adder.results s.fpu [3, 0]).map some ∧
      (s.own adder).next adder (.exec : Event ℕ) = some (s'.own adder, none) :=
  ⟨_, _, _, rfl, rfl, orphan_run adder 1 [.fork 1 true, .switchTo 1, .esc 5] rfl rfl rfl rfl⟩

end

end Linux011.Math
