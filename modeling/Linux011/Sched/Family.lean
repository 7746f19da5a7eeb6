import Linux011.Lib.Sizes
import Linux011.Lib.Table
import Linux011.Lib.Transition
import Mathlib.Data.Fintype.BigOperators
import Mathlib.Data.List.FinRange

/-!
# The process family

`do_exit`, `sys_waitpid`, `release` and `tell_father` of `kernel/exit.c`, with the part of
`kernel/fork.c` that makes a child. A process may be left wherever these sleep: in the closes of
`do_exit`, in the `schedule` of `release` and of `sys_waitpid`, and in `put_fs_long`.

1. `Task`, `State`; each process that was ever made has a number of its own, `serial`.
2. `findEmptyProcess`, `copyProcess`; `release`, `tellFather`, `doExit`, `becomeZombie`; `waitpid`.
3. `State.next`, `family`.
-/

namespace Linux011.Family

abbrev Nr := Fin 64

inductive TaskState
  | running
  | interruptible
  | uninterruptible
  | zombie
  | stopped
  deriving DecidableEq

/-- Where a task is. -/
inductive Pc
  /-- In none of the places below. -/
  | user
  /-- In the `schedule` of `sys_waitpid`. -/
  | waiting (pid options : BitVec 32)
  /-- In `sys_waitpid` after `release`, with the exit code of the child. -/
  | reaped (serial : ℕ) (code : BitVec 32)
  /-- In `do_exit`, closing its files. -/
  | exiting (code : BitVec 32)
  /-- In the last `schedule` of `do_exit`. -/
  | gone
  deriving DecidableEq

structure Task where
  pid : BitVec 32
  father : BitVec 32
  pgrp : BitVec 32
  signal : BitVec 32
  state : TaskState
  exitCode : BitVec 32
  /-- The page the task structure is in. -/
  page : ℕ
  serial : ℕ
  pc : Pc

structure Reaped where
  serial : ℕ
  code : BitVec 32
  /-- The process that called `waitpid`. -/
  father : ℕ
  deriving DecidableEq

structure State where
  task : Nr → Option Task
  lastPid : BitVec 32
  /-- The use counts of the pages. -/
  memMap : ℕ → ℕ
  /-- How many processes were made so far. -/
  born : ℕ
  /-- The exit codes of the processes that have become zombies. -/
  exits : ℕ → Option (BitVec 32)
  /-- The calls of `waitpid` that have released a child, and their exit codes. -/
  reaped : List Reaped
  /-- The exit codes given to user programs. -/
  delivered : List (ℕ × BitVec 32)
  /-- The calls of `waitpid` that have released a child and then ended in `put_fs_long`, with their process. -/
  ended : List Reaped
  /-- The processes that have released themselves, having no father. -/
  lost : List ℕ

namespace State

variable (s : State)

def setTask (i : Nr) (t : Option Task) : State :=
  { s with task := Function.update s.task i t }

/-! ## Fork -/

/-- `if ((++last_pid)<0) last_pid=1`. -/
def nextPid (pid : BitVec 32) : BitVec 32 :=
  if (pid + 1).slt 0 then 1 else pid + 1

def usesPid (pid : BitVec 32) : Bool :=
  (List.finRange 64).any fun i => (s.task i).any fun t => t.pid == pid

/-- The search of `find_empty_process` for a pid; 64 tasks cannot use 65 of them. -/
def findPid : ℕ → BitVec 32 → Option (BitVec 32)
  | 0, _ => none
  | n + 1, pid =>
    let pid := nextPid pid
    if s.usesPid pid then findPid n pid else some pid

/-- The rest of it. -/
def freeSlot : Option Nr :=
  (List.finRange 64).find? fun i => i ≠ 0 ∧ (s.task i).isNone

/-- `fork`: `find_empty_process` and `copy_process`. `page` is what `get_free_page` returns, `room`
whether `copy_mem` succeeds. -/
def fork (t : Task) (page : Option ℕ) (room : Bool) : Option State :=
  (s.findPid 65 s.lastPid).bind fun pid =>
    let s := { s with lastPid := pid }
    match s.freeSlot, page with
    | some nr, some page =>
      if s.memMap page ≠ 0 then none
      else if room then
        let child : Task := { t with
          pid := pid, father := t.pid, signal := 0, state := .running, page := page,
          serial := s.born, pc := .user }
        some { s.setTask nr (some child) with
          memMap := Function.update s.memMap page 1
          born := s.born + 1 }
      else some s
    | _, _ => some s

/-! ## Exit -/

/-- `free_page`; `none` is its panic. -/
def freePage (page : ℕ) : Option State :=
  if s.memMap page = 0 then none
  else some { s with memMap := Function.update s.memMap page (s.memMap page - 1) }

/-- `release` of the task in slot `i`. -/
def release (i : Nr) : Option State :=
  match s.task i with
  | none => some s
  | some t => if i = 0 then none else (s.setTask i none).freePage t.page

def sigchld : BitVec 32 := 1#32 <<< 16

/-- `send_sig` of `SIGCHLD`. -/
def sendChld (i : Nr) : State :=
  s.setTask i ((s.task i).map fun t => { t with signal := t.signal ||| sigchld })

/-- `tell_father` of the current task `p`. -/
def tellFather (p : Nr) (t : Task) : Option State :=
  if t.father ≠ 0 then
    match (List.finRange 64).find? fun i => (s.task i).any fun u => u.pid == t.father with
    | some i => some (s.sendChld i)
    | none => (s.release p).map fun s => { s with lost := t.serial :: s.lost }
  else (s.release p).map fun s => { s with lost := t.serial :: s.lost }

/-- What the first loop of `do_exit` does to a task. -/
def adopt (pid : BitVec 32) (t : Task) : Task :=
  if t.father = pid then { t with father := 1 } else t

/-- `do_exit` up to the closing of the files. -/
def doExit (p : Nr) (t : Task) (code : BitVec 32) : State :=
  let s' := { s with task := fun i => (s.task i).map (adopt t.pid) }
  let s' := if (List.finRange 64).any fun i =>
      (s.task i).any fun u => u.father == t.pid && u.state == .zombie
    then s'.sendChld 1 else s'
  s'.setTask p ((s'.task p).map fun t => { t with pc := .exiting code })

/-- The end of `do_exit`. -/
def becomeZombie (p : Nr) (t : Task) (code : BitVec 32) : Option State :=
  let t' : Task := { t with state := .zombie, exitCode := code, pc := .gone }
  let s' := { s.setTask p (some t') with exits := Function.update s.exits t.serial (some code) }
  s'.tellFather p t'

/-! ## Waitpid -/

/-- The tests of `sys_waitpid` on a child, up to its state. -/
def selects (t u : Task) (pid : BitVec 32) : Bool :=
  u.father == t.pid &&
    if BitVec.slt 0 pid then u.pid == pid
    else if pid = 0 then u.pgrp == t.pgrp
    else if pid ≠ -1 then u.pgrp == -pid
    else true

/-- The loop of `sys_waitpid` returns at this child. -/
def stops (u : Task) (options : BitVec 32) : Bool :=
  u.state == .zombie || u.state == .stopped && options &&& 2 != 0

/-- From `LAST_TASK` down to `task[1]`, the current one left out. -/
def scanOrder (p : Nr) : List Nr :=
  (List.finRange 64).reverse.filter fun i => i ≠ 0 ∧ i ≠ p

/-- `sys_waitpid` from `repeat` on. -/
def waitpid (p : Nr) (t : Task) (pid options : BitVec 32) : Option State :=
  match (scanOrder p).find? fun i => (s.task i).any fun u => selects t u pid && stops u options with
  | some i =>
    match s.task i with
    | none => none
    | some u =>
      if u.state = .zombie then
        (s.release i).map fun s =>
          { s.setTask p (some { t with pc := .reaped u.serial u.exitCode }) with
            reaped := s.reaped ++ [⟨u.serial, u.exitCode, t.serial⟩] }
      else some (s.setTask p (some { t with pc := .user }))
  | none =>
    if (scanOrder p).any fun i => (s.task i).any fun u =>
        selects t u pid && u.state != .stopped then
      if options &&& 1 ≠ 0 then some (s.setTask p (some { t with pc := .user }))
      else some (s.setTask p (some { t with state := .interruptible, pc := .waiting pid options }))
    else some (s.setTask p (some { t with pc := .user }))

end State

inductive Event
  | fork (p : Nr) (page : Option ℕ) (room : Bool)
  | exit (p : Nr) (code : BitVec 32)
  | waitpid (p : Nr) (pid options : BitVec 32)
  /-- The task goes on from where it was left. -/
  | run (p : Nr)
  /-- The task sleeps somewhere else. -/
  | sleep (p : Nr) (interruptible : Bool)
  /-- A task that waits is woken. -/
  | wake (i : Nr)
  | signal (i : Nr) (signals : BitVec 32)
  | setpgrp (p : Nr) (pgrp : BitVec 32)

namespace State

variable (s : State)

/-- The task in the slot, if it runs. Task 0 only pauses once it has made init. -/
def current (p : Nr) : Option Task :=
  (s.task p).filter fun t => p ≠ 0 ∧ t.state = .running

/-- The task in the slot, if it runs a user program. -/
def user (p : Nr) : Option Task :=
  (s.current p).filter fun t => t.pc = .user

/-- `do_exit` begins, in the user program or out of `put_fs_long`: behind the limit of the segment, or where
no page is left for the address, the exit code of the child is not stored. -/
def endCall (p : Nr) (t : Task) : Option State :=
  match t.pc with
  | .user => some s
  | .reaped serial code =>
    some { s.setTask p (some { t with pc := .user }) with
      ended := s.ended ++ [⟨serial, code, t.serial⟩] }
  | .waiting _ _ | .exiting _ | .gone => none

/-- What a task does when it goes on. -/
def resume (p : Nr) (t : Task) : Option State :=
  match t.pc with
  | .user | .gone => none
  | .waiting pid options =>
    let t := { t with signal := t.signal &&& ~~~sigchld }
    if t.signal = 0 then s.waitpid p t pid options
    else some (s.setTask p (some { t with pc := .user }))
  | .reaped serial code =>
    some { s.setTask p (some { t with pc := .user }) with
      delivered := s.delivered ++ [(serial, code)] }
  | .exiting code => s.becomeZombie p t code

def next : Event → Option State
  | .fork p page room => (s.user p).bind fun t => s.fork t page room
  | .exit p code =>
    (s.current p).bind fun t => (s.endCall p t).map fun s => s.doExit p t code
  | .waitpid p pid options => (s.user p).bind fun t => s.waitpid p t pid options
  | .run p => (s.current p).bind fun t => s.resume p t
  | .sleep p interruptible =>
    (s.current p).map fun t => s.setTask p (some { t with
      state := if interruptible then .interruptible else .uninterruptible })
  | .wake i =>
    ((s.task i).filter fun t => t.state = .interruptible ∨ t.state = .uninterruptible).map fun t =>
      s.setTask i (some { t with state := .running })
  | .signal i signals =>
    (s.task i).map fun t => s.setTask i (some { t with signal := t.signal ||| signals })
  | .setpgrp p pgrp => (s.user p).map fun t => s.setTask p (some { t with pgrp := pgrp })

end State

/-- Task 0 and init. -/
def boot (page : ℕ) : State where
  task i :=
    if i = 0 then some ⟨0, -1, 0, 0, .running, 0, 0, 0, .user⟩
    else if i = 1 then some ⟨1, 0, 0, 0, .running, 0, page, 1, .user⟩
    else none
  lastPid := 1
  memMap := Function.update (fun _ => 0) page 1
  born := 2
  exits _ := none
  reaped := []
  delivered := []
  ended := []
  lost := []

def family : System State Event where
  init s := ∃ page, s = boot page
  step s e s' := s.next e = some s'

/-- Init does not exit. -/
def InitStays (_ : State) (e : Event) : Prop :=
  ∀ code, e ≠ .exit 1 code

/-! ## The family -/

/-- The task can be a father: it is in no call of `do_exit`. -/
def Task.Lives (t : Task) : Prop :=
  t.state ≠ .zombie ∧ ∀ code, t.pc ≠ .exiting code

structure Inv (s : State) : Prop where
  idle : ∃ t, s.task 0 = some t ∧ t.pid = 0
  init : ∃ t, s.task 1 = some t ∧ t.pid = 1 ∧ t.Lives
  pid : ∀ i j t u, s.task i = some t → s.task j = some u → t.pid = u.pid → i = j
  father : ∀ i t, i ≠ 0 → i ≠ 1 → s.task i = some t →
    ∃ j u, j ≠ 0 ∧ s.task j = some u ∧ u.pid = t.father ∧ u.Lives
  gone : ∀ i t, s.task i = some t → (t.state = .zombie ↔ t.pc = .gone)
  serial : ∀ i j t u, s.task i = some t → s.task j = some u → t.serial = u.serial → i = j
  born : ∀ i t, s.task i = some t → t.serial < s.born
  page : ∀ i t, i ≠ 0 → s.task i = some t → s.memMap t.page = 1
  pages : ∀ i j t u, i ≠ 0 → j ≠ 0 → s.task i = some t → s.task j = some u → t.page = u.page → i = j
  lost : s.lost = []

/-- The exit codes and their way to the fathers. -/
structure Codes (s : State) : Prop where
  zombie : ∀ i t, s.task i = some t → t.state = .zombie → s.exits t.serial = some t.exitCode
  alive : ∀ i t, s.task i = some t → t.state ≠ .zombie → s.exits t.serial = none
  exits_lt : ∀ n c, s.exits n = some c → n < s.born
  exits : ∀ n c, s.exits n = some c →
    (∃ i t, s.task i = some t ∧ t.serial = n) ∨ n ∈ s.reaped.map Reaped.serial
  reaped : ∀ r ∈ s.reaped, s.exits r.serial = some r.code ∧ ∀ i t, s.task i = some t →
    t.serial ≠ r.serial
  nodup : (s.reaped.map Reaped.serial).Nodup
  delivered : ∀ d ∈ s.delivered, ∃ r ∈ s.reaped, r.serial = d.1 ∧ r.code = d.2
  once : (s.delivered.map Prod.fst).Nodup
  given : ∀ i t n c, s.task i = some t → t.pc = .reaped n c →
    n ∉ s.delivered.map Prod.fst ∧ ∃ r ∈ s.reaped, r.serial = n ∧ r.code = c ∧ r.father = t.serial
  /-- Until it is delivered or ended, the `waitpid` that has released the child holds it. -/
  pending : ∀ r ∈ s.reaped, (r.serial, r.code) ∈ s.delivered ∨ r ∈ s.ended ∨
    ∃ i t, s.task i = some t ∧ t.serial = r.father ∧ t.pc = .reaped r.serial r.code
  ended : ∀ r ∈ s.ended, r ∈ s.reaped ∧ r.serial ∉ s.delivered.map Prod.fst ∧
    ∀ i t c, s.task i = some t → t.pc ≠ .reaped r.serial c

/-- A task that leaves the table is a zombie that a `waitpid` of its father releases. -/
structure Reaps (s s' : State) (i : Nr) (t : Task) : Prop where
  zombie : t.state = .zombie
  father : ∃ p u, s.task p = some u ∧ u.pid = t.father ∧
    s'.reaped = s.reaped ++ [⟨t.serial, t.exitCode, u.serial⟩]
  released : s'.task i = none
  page : s.memMap t.page = 1 ∧ s'.memMap t.page = 0

/-- The task stays in its slot; a zombie stays one. -/
def Stays (s' : State) (i : Nr) (t : Task) : Prop :=
  ∃ t', s'.task i = some t' ∧ t'.serial = t.serial ∧
    (t.state = .zombie → t'.state = .zombie ∧ t'.exitCode = t.exitCode)

def Keeps (s s' : State) : Prop :=
  ∀ i t, s.task i = some t → Stays s' i t ∨ Reaps s s' i t

/-- What every step preserves and does. -/
structure Good (s s' : State) : Prop where
  inv : Inv s'
  codes : Codes s'
  keeps : Keeps s s'

section Update

variable {s s' : State} {i j p : Nr} {t w u : Task} {c : BitVec 32}

theorem task_cases (h : (s.setTask i (some w)).task j = some u) :
    (j = i ∧ u = w) ∨ (j ≠ i ∧ s.task j = some u) :=
  Table.update_some_cases h

theorem task_self : (s.setTask i (some t)).task i = some t :=
  Function.update_self _ _ _

theorem task_of_ne (h : j ≠ i) {o : Option Task} : (s.setTask i o).task j = s.task j :=
  Function.update_of_ne h _ _

/-- A task changes, but not in what the others know of it. -/
theorem Inv.update (h : Inv s) (ht : s.task i = some t) (hpid : w.pid = t.pid)
    (hfather : w.father = t.father) (hserial : w.serial = t.serial) (hpage : w.page = t.page)
    (hgone : w.state = .zombie ↔ w.pc = .gone)
    (hlives : t.Lives → w.Lives ∨ i ≠ 1 ∧
      ∀ j u, j ≠ 0 → j ≠ 1 → s.task j = some u → u.father ≠ t.pid) :
    Inv (s.setTask i (some w)) := by
  have hold : ∀ {j u}, (s.setTask i (some w)).task j = some u → ∃ v, s.task j = some v ∧
      u.pid = v.pid ∧ u.father = v.father ∧ u.serial = v.serial ∧ u.page = v.page := by
    intro j u hu
    rcases task_cases hu with ⟨rfl, rfl⟩ | ⟨-, hu⟩
    · exact ⟨t, ht, hpid, hfather, hserial, hpage⟩
    · exact ⟨u, hu, rfl, rfl, rfl, rfl⟩
  refine ⟨?_, ?_, ?_, ?_, ?_, ?_, ?_, ?_, ?_, h.lost⟩
  · obtain ⟨v, hv, hv0⟩ := h.idle
    by_cases hi : (0 : Nr) = i
    · subst hi
      rw [ht] at hv
      exact ⟨w, task_self, hpid.trans (Option.some.inj hv ▸ hv0)⟩
    · exact ⟨v, (task_of_ne hi).trans hv, hv0⟩
  · obtain ⟨v, hv, hv1, hvl⟩ := h.init
    by_cases hi : (1 : Nr) = i
    · subst hi
      rw [ht] at hv
      have htv := Option.some.inj hv
      subst htv
      exact ⟨w, task_self, hpid.trans hv1, (hlives hvl).resolve_right fun h => h.1 rfl⟩
    · exact ⟨v, (task_of_ne hi).trans hv, hv1, hvl⟩
  · intro j k u v hu hv huv
    obtain ⟨u', hu', hup, -⟩ := hold hu
    obtain ⟨v', hv', hvp, -⟩ := hold hv
    exact h.pid j k u' v' hu' hv' (hup.symm.trans (huv.trans hvp))
  · intro j u hj0 hj1 hu
    obtain ⟨u', hu', -, huf, -⟩ := hold hu
    obtain ⟨k, v, hk0, hv, hvp, hvl⟩ := h.father j u' hj0 hj1 hu'
    by_cases hki : k = i
    · subst hki
      rw [ht] at hv
      have htv := Option.some.inj hv
      subst htv
      refine ⟨k, w, hk0, task_self, hpid.trans (hvp.trans huf.symm), (hlives hvl).resolve_right ?_⟩
      intro hnone
      exact hnone.2 j u' hj0 hj1 hu' hvp.symm
    · exact ⟨k, v, hk0, (task_of_ne hki).trans hv, hvp.trans huf.symm, hvl⟩
  · intro j u hu
    rcases task_cases hu with ⟨-, rfl⟩ | ⟨-, hu⟩
    · exact hgone
    · exact h.gone j u hu
  · intro j k u v hu hv huv
    obtain ⟨u', hu', -, -, hus, -⟩ := hold hu
    obtain ⟨v', hv', -, -, hvs, -⟩ := hold hv
    exact h.serial j k u' v' hu' hv' (hus.symm.trans (huv.trans hvs))
  · intro j u hu
    obtain ⟨u', hu', -, -, hus, -⟩ := hold hu
    rw [hus]
    exact h.born j u' hu'
  · intro j u hj hu
    obtain ⟨u', hu', -, -, -, hup⟩ := hold hu
    rw [hup]
    exact h.page j u' hj hu'
  · intro j k u v hj hk hu hv huv
    obtain ⟨u', hu', -, -, -, hup⟩ := hold hu
    obtain ⟨v', hv', -, -, -, hvp⟩ := hold hv
    exact h.pages j k u' v' hj hk hu' hv' (hup.symm.trans (huv.trans hvp))

/-- A zombie is released. -/
theorem Inv.release (h : Inv s) (ht : s.task i = some t) (hi : i ≠ 0) (hz : t.state = .zombie) :
    ∃ s', s.release i = some s' ∧ Inv s' ∧ s'.task = (s.setTask i none).task ∧
      s'.memMap t.page = 0 ∧ s'.exits = s.exits ∧ s'.reaped = s.reaped ∧
      s'.delivered = s.delivered ∧ s'.ended = s.ended ∧ s'.born = s.born := by
  have hpage := h.page i t hi ht
  have hl : ¬ t.Lives := fun hl => hl.1 hz
  have hi1 : i ≠ 1 := by
    rintro rfl
    obtain ⟨v, hv, -, hvl⟩ := h.init
    rw [ht] at hv
    exact hl (Option.some.inj hv ▸ hvl)
  refine ⟨{ s.setTask i none with memMap := Function.update s.memMap t.page 0 }, ?_, ?_, rfl,
    Function.update_self _ _ _, rfl, rfl, rfl, rfl, rfl⟩
  · unfold State.release State.freePage
    rw [ht]
    dsimp only
    rw [if_neg hi]
    show (if s.memMap t.page = 0 then none else _) = _
    rw [if_neg (by omega)]
    show some { s.setTask i none with
      memMap := Function.update s.memMap t.page (s.memMap t.page - 1) } = _
    rw [hpage]
  · have hold : ∀ {j u}, (s.setTask i none).task j = some u → j ≠ i ∧ s.task j = some u :=
      fun hu => Table.update_none_cases hu
    refine ⟨?_, ?_, ?_, ?_, ?_, ?_, ?_, ?_, ?_, h.lost⟩
    · obtain ⟨v, hv, hv0⟩ := h.idle
      exact ⟨v, (task_of_ne (Ne.symm hi)).trans hv, hv0⟩
    · obtain ⟨v, hv, hv1⟩ := h.init
      exact ⟨v, (task_of_ne (Ne.symm hi1)).trans hv, hv1⟩
    · intro j k u v hu hv
      exact h.pid j k u v (hold hu).2 (hold hv).2
    · intro j u hj0 hj1 hu
      obtain ⟨k, v, hk0, hv, hvp, hvl⟩ := h.father j u hj0 hj1 (hold hu).2
      have hki : k ≠ i := by
        rintro rfl
        rw [ht] at hv
        exact hl (Option.some.inj hv ▸ hvl)
      exact ⟨k, v, hk0, (task_of_ne hki).trans hv, hvp, hvl⟩
    · intro j u hu
      exact h.gone j u (hold hu).2
    · intro j k u v hu hv
      exact h.serial j k u v (hold hu).2 (hold hv).2
    · intro j u hu
      exact h.born j u (hold hu).2
    · intro j u hj hu
      obtain ⟨hji, hu⟩ := hold hu
      have hne : u.page ≠ t.page := fun hp => hji (h.pages j i u t hj hi hu ht hp)
      show Function.update s.memMap t.page 0 u.page = 1
      rw [Function.update_of_ne hne]
      exact h.page j u hj hu
    · intro j k u v hj hk hu hv
      exact h.pages j k u v hj hk (hold hu).2 (hold hv).2

theorem Stays.refl (ht : s.task i = some t) : Stays s i t :=
  ⟨t, ht, rfl, fun h => ⟨h, rfl⟩⟩

theorem Stays.trans (h : Stays s i t) (h' : ∀ u, s.task i = some u → Stays s' i u) : Stays s' i t := by
  obtain ⟨u, hu, hus, huz⟩ := h
  obtain ⟨w, hw, hws, hwz⟩ := h' u hu
  refine ⟨w, hw, hws.trans hus, fun hz => ?_⟩
  obtain ⟨hz, hc⟩ := huz hz
  exact ⟨(hwz hz).1, (hwz hz).2.trans hc⟩

/-- What a task is to the account of the exit codes. -/
def Task.Alike (u v : Task) : Prop :=
  u.serial = v.serial ∧ u.exitCode = v.exitCode ∧ (u.state = .zombie ↔ v.state = .zombie) ∧
    ∀ n c, u.pc = .reaped n c ↔ v.pc = .reaped n c

theorem Task.Alike.refl : t.Alike t :=
  ⟨rfl, rfl, Iff.rfl, fun _ _ => Iff.rfl⟩

/-- Every task stays what it is to this account. -/
theorem Codes.of_alike (h : Codes s) (hexits : s'.exits = s.exits) (hreaped : s'.reaped = s.reaped)
    (hdelivered : s'.delivered = s.delivered) (hended : s'.ended = s.ended) (hborn : s'.born = s.born)
    (hback : ∀ i u, s'.task i = some u → ∃ v, s.task i = some v ∧ u.Alike v)
    (hforth : ∀ i v, s.task i = some v → ∃ u, s'.task i = some u ∧ u.Alike v) : Codes s' := by
  refine ⟨?_, ?_, ?_, ?_, ?_, ?_, ?_, ?_, ?_, ?_, ?_⟩
  · intro j u hu hz
    obtain ⟨v, hv, hs, hc, hzv, -⟩ := hback j u hu
    rw [hexits, hs, hc]
    exact h.zombie j v hv (hzv.1 hz)
  · intro j u hu hz
    obtain ⟨v, hv, hs, -, hzv, -⟩ := hback j u hu
    rw [hexits, hs]
    exact h.alive j v hv fun hv => hz (hzv.2 hv)
  · rw [hexits, hborn]
    exact h.exits_lt
  · intro n c hn
    rw [hexits] at hn
    rw [hreaped]
    rcases h.exits n c hn with ⟨j, v, hv, hvn⟩ | hn
    · obtain ⟨u, hu, hs, -⟩ := hforth j v hv
      exact .inl ⟨j, u, hu, hs.trans hvn⟩
    · exact .inr hn
  · intro r hr
    rw [hreaped] at hr
    refine ⟨hexits ▸ (h.reaped r hr).1, fun j u hu => ?_⟩
    obtain ⟨v, hv, hs, -⟩ := hback j u hu
    rw [hs]
    exact (h.reaped r hr).2 j v hv
  · rw [hreaped]
    exact h.nodup
  · rw [hdelivered, hreaped]
    exact h.delivered
  · rw [hdelivered]
    exact h.once
  · intro j u n c hu hpc
    obtain ⟨v, hv, hs, -, -, hp⟩ := hback j u hu
    rw [hdelivered, hreaped, hs]
    exact h.given j v n c hv ((hp n c).1 hpc)
  · intro r hr
    rw [hreaped] at hr
    rw [hdelivered, hended]
    rcases h.pending r hr with hd | he | ⟨j, v, hv, hvs, hvp⟩
    · exact .inl hd
    · exact .inr (.inl he)
    · obtain ⟨u, hu, hs, -, -, hp⟩ := hforth j v hv
      exact .inr (.inr ⟨j, u, hu, hs.trans hvs, (hp _ _).2 hvp⟩)
  · intro r hr
    rw [hended] at hr
    rw [hreaped, hdelivered]
    refine ⟨(h.ended r hr).1, (h.ended r hr).2.1, fun j u c hu hc => ?_⟩
    obtain ⟨v, hv, -, -, -, hp⟩ := hback j u hu
    exact (h.ended r hr).2.2 j v c hv ((hp _ _).1 hc)

/-- Two calls of `waitpid` never hold the same child. -/
theorem Codes.holder_unique (hI : Inv s) (h : Codes s) (ht : s.task i = some t) (hu : s.task j = some u)
    {n : ℕ} {c d : BitVec 32} (htn : t.pc = .reaped n c) (hun : u.pc = .reaped n d) : i = j := by
  obtain ⟨-, q, hq, hqn, -, hqt⟩ := h.given i t n c ht htn
  obtain ⟨-, r, hr, hrn, -, hru⟩ := h.given j u n d hu hun
  have hqr : q = r := List.inj_on_of_nodup_map h.nodup hq hr (hqn.trans hrn.symm)
  exact hI.serial i j t u ht hu (hqt.symm.trans (hqr ▸ hru))

theorem Codes.update (h : Codes s) (ht : s.task i = some t) (ha : w.Alike t) :
    Codes (s.setTask i (some w)) := by
  refine h.of_alike rfl rfl rfl rfl rfl ?_ ?_
  · intro j u hu
    rcases task_cases hu with ⟨rfl, rfl⟩ | ⟨-, hu⟩
    · exact ⟨t, ht, ha⟩
    · exact ⟨u, hu, .refl⟩
  · intro j v hv
    by_cases hji : j = i
    · subst hji
      rw [ht] at hv
      exact ⟨w, task_self, Option.some.inj hv ▸ ha⟩
    · exact ⟨v, (task_of_ne hji).trans hv, .refl⟩

theorem Stays.update (ht : s.task i = some t) (hserial : w.serial = t.serial)
    (hzombie : t.state = .zombie → w.state = .zombie ∧ w.exitCode = t.exitCode)
    (hu : s.task j = some u) : Stays (s.setTask i (some w)) j u := by
  by_cases hji : j = i
  · subst hji
    rw [ht] at hu
    cases hu
    exact ⟨w, task_self, hserial, hzombie⟩
  · exact ⟨u, (task_of_ne hji).trans hu, rfl, fun hz => ⟨hz, rfl⟩⟩

/-- The task is at none of the places where `waitpid` or `do_exit` have begun something. -/
def Pc.Plain (c : Pc) : Prop :=
  c = .user ∨ ∃ pid options, c = .waiting pid options

theorem Pc.Plain.ne {c : Pc} (h : c.Plain) :
    c ≠ .gone ∧ (∀ code, c ≠ .exiting code) ∧ ∀ n code, c ≠ .reaped n code := by
  rcases h with rfl | ⟨_, _, rfl⟩
  · exact ⟨nofun, nofun, nofun⟩
  · exact ⟨nofun, nofun, nofun⟩

/-- A task changes its signals, its group, its state or the place where it is. -/
theorem Good.update (hI : Inv s) (hC : Codes s) (ht : s.task i = some t) (hpid : w.pid = t.pid)
    (hfather : w.father = t.father) (hserial : w.serial = t.serial) (hpage : w.page = t.page)
    (hcode : w.exitCode = t.exitCode) (hzombie : w.state = .zombie ↔ t.state = .zombie)
    (hpc : w.pc = t.pc ∨ t.pc.Plain ∧ w.pc.Plain) :
    Good s (s.setTask i (some w)) := by
  have hgone := hI.gone i t ht
  refine ⟨hI.update ht hpid hfather hserial hpage ?_ ?_, hC.update ht ⟨hserial, hcode, hzombie, ?_⟩,
    fun j u hu => .inl (.update ht hserial (fun h => ⟨hzombie.2 h, hcode⟩) hu)⟩
  · rcases hpc with hpc | ⟨h, h'⟩
    · rw [hzombie, hpc, hgone]
    · rw [hzombie, hgone]
      exact iff_of_false h.ne.1 h'.ne.1
  · intro hl
    refine .inl ⟨fun hz => hl.1 (hzombie.1 hz), fun code hc => ?_⟩
    rcases hpc with hpc | ⟨-, h'⟩
    · exact hl.2 code (hpc ▸ hc)
    · exact h'.ne.2.1 code hc
  · intro n c
    rcases hpc with hpc | ⟨h, h'⟩
    · rw [hpc]
    · exact iff_of_false (h'.ne.2.2 n c) (h.ne.2.2 n c)

theorem current_eq_some (h : s.current p = some t) :
    s.task p = some t ∧ p ≠ 0 ∧ t.state = .running := by
  obtain ⟨ht, hc⟩ := Option.filter_eq_some_iff.1 h
  obtain ⟨h1, h2⟩ := of_decide_eq_true hc
  exact ⟨ht, h1, h2⟩

theorem user_eq_some (h : s.user p = some t) :
    s.task p = some t ∧ p ≠ 0 ∧ t.state = .running ∧ t.pc = .user := by
  obtain ⟨ht, hc⟩ := Option.filter_eq_some_iff.1 h
  obtain ⟨h1, h2, h3⟩ := current_eq_some ht
  exact ⟨h1, h2, h3, of_decide_eq_true hc⟩

end Update

end Linux011.Family
