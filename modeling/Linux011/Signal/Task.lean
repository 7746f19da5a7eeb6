import Linux011.Lib.Sizes
import Linux011.Lib.Transition
import Mathlib.Data.Fintype.Basic
import Mathlib.Data.Int.Init
import Mathlib.Data.List.FinRange

/-!
# Signals of a task

`kernel/signal.c`, and the part of `ret_from_sys_call` that delivers signals. Signal `i + 1` has index
`i`, in the bitmaps and in `sigaction[]`.

1. `Task`, the system calls, `doSignal` and `retFromSysCall`.
2. The system `signals`.
-/

namespace Linux011.Signal

/-! ## The code -/

/-- A bitmap of signals. -/
abbrev SigSet := BitVec 32

structure Sigaction where
  saHandler : BitVec 32
  saMask : SigSet
  saFlags : BitVec 32
  saRestorer : BitVec 32
  deriving DecidableEq

def saNomask : BitVec 32 := 0x40000000

def saOneshot : BitVec 32 := 0x80000000

/-- `1 << (signr - 1)`. -/
def sigBit (i : Fin 32) : SigSet := 1 <<< i.val

/-- The index of `SIGKILL`. -/
def sigkill : Fin 32 := 8

/-- The index of `SIGCHLD`. -/
def sigchld : Fin 32 := 16

/-- The index of `SIGSTOP`. -/
def sigstop : Fin 32 := 18

/-- `_BLOCKABLE`. -/
def blockable : SigSet := ~~~(sigBit sigkill ||| sigBit sigstop)

/-- The fields of a task that concern signals. -/
structure Task where
  signal : SigSet
  blocked : SigSet
  sigaction : Fin 32 → Sigaction

/-- What the system call has pushed. -/
structure Regs where
  eax : BitVec 32
  ecx : BitVec 32
  edx : BitVec 32
  eip : BitVec 32
  cs : BitVec 32
  eflags : BitVec 32
  esp : BitVec 32
  ss : BitVec 32
  deriving DecidableEq

/-- What becomes of a signal: nothing, the end of the task, or a handler, with the words that
`do_signal` puts on the stack of the user. -/
inductive Delivery
  | ignored
  | exits (code : BitVec 32)
  | handler (regs : Regs) (frame : List (BitVec 32))
  deriving DecidableEq

namespace Task

/-- `sys_ssetmask`. -/
def sysSsetmask (t : Task) (newmask : BitVec 32) : Task × BitVec 32 :=
  ({ t with blocked := newmask &&& ~~~sigBit sigkill }, t.blocked)

/-- The index of `signum`, if `sys_signal` and `sys_sigaction` accept it. -/
def sigIndex (signum : ℤ) : Option (Fin 32) :=
  if h : signum < 1 ∨ 32 < signum ∨ signum = 9 then none
  else some ⟨(signum - 1).toNat, by omega⟩

def setAction (t : Task) (i : Fin 32) (sa : Sigaction) : Task :=
  { t with sigaction := Function.update t.sigaction i sa }

/-- `sys_signal`. -/
def sysSignal (t : Task) (signum : ℤ) (handler restorer : BitVec 32) : Task × BitVec 32 :=
  match sigIndex signum with
  | none => (t, -1)
  | some i => (t.setAction i ⟨handler, 0, saOneshot ||| saNomask, restorer⟩, (t.sigaction i).saHandler)

/-- `sys_sigaction`, with what it has read from `action`, and what it writes to `oldaction`. -/
def sysSigaction (t : Task) (signum : ℤ) (action : Sigaction) :
    Task × BitVec 32 × Option Sigaction :=
  match sigIndex signum with
  | none => (t, -1, none)
  | some i =>
    let mask := if action.saFlags &&& saNomask ≠ 0 then 0 else action.saMask ||| sigBit i
    (t.setAction i { action with saMask := mask }, 0, some (t.sigaction i))

/-- `do_signal` for the signal with index `i`. -/
def doSignal (t : Task) (i : Fin 32) (r : Regs) : Task × Delivery :=
  let sa := t.sigaction i
  if sa.saHandler = 1 then (t, .ignored)
  else if sa.saHandler = 0 then (t, if i = sigchld then .ignored else .exits (sigBit i))
  else
    let t' := if sa.saFlags &&& saOneshot ≠ 0 then t.setAction i { sa with saHandler := 0 } else t
    let mask := if sa.saFlags &&& saNomask ≠ 0 then [] else [t.blocked]
    let frame := [sa.saRestorer, BitVec.ofNat 32 (i + 1)] ++ mask ++
      [r.eax, r.ecx, r.edx, r.eflags, r.eip]
    ({ t' with blocked := t.blocked ||| sa.saMask },
      .handler
        { r with
          eip := sa.saHandler
          esp := r.esp - BitVec.ofNat 32 (4 * frame.length) }
        frame)

/-- `bsfl`: the lowest bit that is set. -/
def bsf (w : SigSet) : Option (Fin 32) := (List.finRange 32).find? fun i => w.getLsbD i

/-- The signal that `ret_from_sys_call` chooses, unless the task is `task[0]`, or it returns to the
kernel or to another stack. -/
def select (t : Task) (task0 : Bool) (r : Regs) : Option (Fin 32) :=
  if task0 ∨ r.cs.setWidth 16 ≠ 0x0f#16 ∨ r.ss.setWidth 16 ≠ 0x17#16 then none
  else bsf (t.signal &&& ~~~t.blocked)

/-- `ret_from_sys_call`. -/
def retFromSysCall (t : Task) (task0 : Bool) (r : Regs) : Task × Option Delivery :=
  match t.select task0 r with
  | none => (t, none)
  | some i =>
    let (t, d) := { t with signal := t.signal &&& ~~~sigBit i }.doSignal i r
    (t, some d)

/-- The test by which `schedule` wakes a task up from an interruptible sleep. -/
def wakes (t : Task) : Prop := t.signal &&& ~~~(blockable &&& t.blocked) ≠ 0

instance (t : Task) : Decidable t.wakes := inferInstanceAs (Decidable (_ ≠ _))

end Task

/-! ## The system -/

/-- A task, and how it has ended. -/
structure State where
  task : Task
  exitCode : Option (BitVec 32)

inductive Event
  | ssetmask (newmask : BitVec 32)
  | signal (signum : ℤ) (handler restorer : BitVec 32)
  | sigaction (signum : ℤ) (action : Sigaction)
  | raise (i : Fin 32)
  | ret (task0 : Bool) (regs : Regs)

namespace State

def next (s : State) (e : Event) : Option State :=
  if s.exitCode.isSome then none
  else
    match e with
    | .ssetmask newmask => some { s with task := (s.task.sysSsetmask newmask).1 }
    | .signal signum handler restorer =>
      some { s with task := (s.task.sysSignal signum handler restorer).1 }
    | .sigaction signum action => some { s with task := (s.task.sysSigaction signum action).1 }
    | .raise i => some { s with task := { s.task with signal := s.task.signal ||| sigBit i } }
    | .ret task0 regs =>
      match s.task.retFromSysCall task0 regs with
      | (t, some (.exits code)) => some ⟨t, some code⟩
      | (t, _) => some { s with task := t }

/-- The first task, from which all others inherit: no signals, and no actions. -/
def boot : State := ⟨⟨0, 0, fun _ => ⟨0, 0, 0, 0⟩⟩, none⟩

end State

/-- A task that calls the system calls and gets signals. -/
def signals : System State Event where
  init s := s = .boot
  step s e s' := s.next e = some s'

end Linux011.Signal
