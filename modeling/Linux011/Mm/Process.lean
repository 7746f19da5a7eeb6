import Linux011.Lib.Transition
import Linux011.Mm.Memory

/-!
# Processes and their memory

The parts of `kernel/fork.c`, `kernel/exit.c`, `fs/exec.c` and of the page-fault handlers that are
about tasks, and the system whose steps they are. Task `nr` owns the linear addresses from
`nr * 0x4000000` on (`start_code`, and the base of both its segments). A page fault that loads a page
from disk sleeps, so it is two steps: in between the page is the task's `loading`.

1. `fork`, `doExit`, `release`, `exec`.
2. `doNoPage` with `sharePage`, `loaded`, `wpFault`, `verify`, `access`.
3. `getPipe` and `freePipe`, the pages of pipe buffers.
-/

namespace Linux011.Mm

/-- The fields of a `task_struct` that matter for its memory, and the frame it is in. -/
structure Task where
  page : ℕ
  zombie : Bool
  codeLimit : ℕ
  dataLimit : ℕ
  executable : Option ℕ
  endData : ℕ
  loading : Option (ℕ × ℕ)

/-- Memory, `task[]`, and the frames of pipe buffers. -/
structure State where
  mem : Mem
  task : ℕ → Option Task
  pipes : List ℕ

namespace State

/-- `task[nr] = …`. -/
def setTask (s : State) (nr : ℕ) (t : Option Task) : State :=
  { s with task := Function.update s.task nr t }

/-- `start_code`. -/
def startCode (nr : ℕ) : ℕ := nr * 2 ^ 26

/-! ## Tasks come and go -/

/-- The two calls of `free_page_tables` in `do_exit` and `do_execve`, for the code and the data
segment. -/
def freeSegments (m : Mem) (nr : ℕ) (t : Task) : Except Panic Mem := do
  let m ← freePageTables m (startCode nr) t.codeLimit
  freePageTables m (startCode nr) t.dataLimit

/-- `do_exit` of task `nr`, as far as memory goes. -/
def doExit (s : State) (nr : ℕ) : Except Panic State :=
  match s.task nr with
  | none => .ok s
  | some t => do
    let m ← freeSegments s.mem nr t
    return { s with mem := m }.setTask nr
      (some { t with zombie := true, executable := none, loading := none })

/-- What follows a function that may have run out of memory in task `nr`: `oom` is `do_exit`. -/
def orOom (s : State) (nr : ℕ) : Except Stop Mem → Except Panic State
  | .ok m => .ok { s with mem := m }
  | .error (.noMemory m) => doExit { s with mem := m } nr
  | .error (.panic p) => .error p

/-- `release`. -/
def release (s : State) (nr : ℕ) : Except Panic State :=
  match s.task nr with
  | none => .ok s
  | some t => do
    let m ← freePage s.mem t.page
    return { s with mem := m }.setTask nr none

/-- `find_empty_process`. -/
def findEmptyProcess (s : State) : Option ℕ :=
  (List.range' 1 63).find? fun nr => (s.task nr).isNone

/-- `copy_process` in task `nr`, with `copy_mem`. The task structure of the child is a copy of the
parent's in a frame of its own; where memory runs out everything is given back. -/
def fork (s : State) (nr : ℕ) : Except Panic State :=
  match s.task nr, findEmptyProcess s with
  | none, _ | _, none => .ok s
  | some t, some child =>
    match getFreePage s.mem with
    | none => .ok s
    | some (p, m) =>
      if t.dataLimit < t.codeLimit then .error .badDataLimit
      else
        match copyPageTables m (startCode nr) (startCode child) t.dataLimit with
        | .ok m => .ok ({ s with mem := m }.setTask child (some { t with page := p }))
        | .error (.panic e) => .error e
        | .error (.noMemory m) => do
          let m ← freePageTables m (startCode child) t.dataLimit
          let m ← freePage m p
          return { s with mem := m }

/-- `do_execve` with no arguments and no environment: the old pages go, and the segment limits and
the extent of the new program are those of its header. -/
def exec (s : State) (nr inode aText aData : ℕ) : Except Panic State :=
  match s.task nr with
  | none => .ok s
  | some t => do
    let m ← freeSegments s.mem nr t
    return { s with mem := m }.setTask nr (some { t with
      codeLimit := (aText + 4095) / 4096 * 4096
      dataLimit := 0x4000000
      executable := some inode
      endData := aText + aData })

/-! ## Page faults -/

/-- The loop of `share_page` for the task `nr` with executable `exe`, over the slots in the list. -/
def shareLoop (s : State) (nr exe address : ℕ) (m : Mem) : List ℕ → Except Stop (Bool × Mem)
  | [] => .ok (false, m)
  | p :: ps =>
    match s.task p with
    | none => shareLoop s nr exe address m ps
    | some q =>
      if p = nr ∨ q.executable ≠ some exe then shareLoop s nr exe address m ps
      else
        match tryToShare m address (startCode p) (startCode nr) with
        | .error e => .error e
        | .ok (true, m') => .ok (true, m')
        | .ok (false, m') => shareLoop s nr exe address m' ps

/-- `share_page`, from `LAST_TASK` down; `iCount` is `executable->i_count`. -/
def sharePage (s : State) (nr exe address iCount : ℕ) : Except Stop (Bool × Mem) :=
  if iCount < 2 then .ok (false, s.mem)
  else shareLoop s nr exe address s.mem (List.range' 1 63).reverse

/-- `do_no_page` in task `nr`, up to the point where it has to wait for the disk. -/
def doNoPage (s : State) (nr address iCount : ℕ) : Except Panic State :=
  match s.task nr with
  | none => .ok s
  | some t =>
    let page := address / 4096 * 4096
    let tmp := page - startCode nr
    match t.executable with
    | none => orOom s nr (getEmptyPage s.mem page)
    | some exe =>
      if t.endData ≤ tmp then orOom s nr (getEmptyPage s.mem page)
      else
        match sharePage s nr exe tmp iCount with
        | .error e => orOom s nr (.error e)
        | .ok (true, m) => .ok { s with mem := m }
        | .ok (false, m) =>
          match getFreePage m with
          | none => doExit { s with mem := m } nr
          | some (f, m) => .ok ({ s with mem := m }.setTask nr (some { t with loading := some (f, page) }))

/-- The rest of `do_no_page`: `bread_page` has put `content` into the page. -/
def loaded (s : State) (nr : ℕ) (content : ℕ → Word) : Except Panic State :=
  match s.task nr with
  | none => .ok s
  | some t =>
    match t.loading with
    | none => .ok s
    | some (page, address) =>
      let m := s.mem.fill page content
      let s := s.setTask nr (some { t with loading := none })
      match putPage m page address with
      | some m => .ok { s with mem := m }
      | none => do
        let m ← freePage m page
        doExit { s with mem := m } nr

/-- The write fault of task `nr` at a present, protected page. -/
def wpFault (s : State) (nr address : ℕ) : Except Panic State :=
  orOom s nr (doWpPage s.mem address)

/-- `write_verify` in task `nr`. -/
def verify (s : State) (nr address : ℕ) : Except Panic State :=
  orOom s nr (writeVerify s.mem address)

/-- A read, or a store of `v` to word `j` of the page, through a present entry. -/
def access (s : State) (address : ℕ) (store : Option (ℕ × Word)) : State :=
  let d := dirIndex address
  let i := tblIndex address
  let m := s.mem.write (pageOf (pde s.mem d)) i (touch (pte s.mem d i) store.isSome)
  match store with
  | none => { s with mem := m }
  | some (j, v) => { s with mem := m.write (pageOf (pte s.mem d i)) j v }

/-! ## Pipes -/

/-- `get_pipe_inode` takes a page for the buffer. -/
def getPipe (s : State) : State :=
  match getFreePage s.mem with
  | none => s
  | some (f, m) => { s with mem := m, pipes := f :: s.pipes }

/-- `iput` of a pipe inode gives it back. -/
def freePipe (s : State) (f : ℕ) : Except Panic State := do
  let m ← freePage s.mem f
  return { s with mem := m, pipes := s.pipes.erase f }

end State

/-! ## The system -/

/-- What may happen next. -/
inductive Op
  | fork (nr : ℕ)
  | exit (nr : ℕ)
  | release (nr : ℕ)
  | exec (nr inode aText aData aBss : ℕ)
  | noPage (nr offset iCount : ℕ)
  | loaded (nr : ℕ) (content : ℕ → Word)
  | wpFault (nr offset : ℕ)
  | verify (nr address : ℕ)
  | access (nr offset : ℕ) (store : Option (ℕ × Word))
  | getPipe
  | freePipe (f : ℕ)

namespace State

/-- Task `nr` is one that runs, and is not waiting for a page. -/
def Running (s : State) (nr : ℕ) : Prop :=
  nr < 64 ∧ ∃ t, s.task nr = some t ∧ t.zombie = false ∧ t.loading = none

/-- A process, not task 0, accesses the byte at `offset` of its data segment. -/
def Accesses (s : State) (nr offset : ℕ) : Prop :=
  1 ≤ nr ∧ Running s nr ∧ ∃ t, s.task nr = some t ∧ offset < t.dataLimit

/-- The entry for a linear address. -/
def entryAt (s : State) (address : ℕ) : Word := pte s.mem (dirIndex address) (tblIndex address)

/-- When an operation can happen. Task 0 only forks and pauses. -/
def Enabled (s : State) : Op → Prop
  | .fork nr => Running s nr
  | .exit nr => 1 ≤ nr ∧ Running s nr
  | .release nr => 1 ≤ nr ∧ nr < 64 ∧ ∃ t, s.task nr = some t ∧ t.zombie = true
  | .exec nr _ aText aData aBss =>
    1 ≤ nr ∧ Running s nr ∧ 0 < aText ∧ aText + aData + aBss ≤ 0x3000000
  | .noPage nr offset _ =>
    Accesses s nr offset ∧ present (entryAt s (startCode nr + offset)) = false
  | .loaded nr _ => 1 ≤ nr ∧ nr < 64
  | .wpFault nr offset =>
    Accesses s nr offset ∧ present (entryAt s (startCode nr + offset)) = true ∧
      writable (entryAt s (startCode nr + offset)) = false
  | .verify nr _ => 1 ≤ nr ∧ Running s nr
  | .access nr offset store =>
    Accesses s nr offset ∧ present (entryAt s (startCode nr + offset)) = true ∧
      (store.isSome = true → writable (entryAt s (startCode nr + offset)) = true)
  | .getPipe => True
  | .freePipe f => f ∈ s.pipes

/-- What an operation does. -/
def run (s : State) : Op → Except Panic State
  | .fork nr => s.fork nr
  | .exit nr => s.doExit nr
  | .release nr => s.release nr
  | .exec nr inode aText aData _ => s.exec nr inode aText aData
  | .noPage nr offset iCount => s.doNoPage nr (startCode nr + offset) iCount
  | .loaded nr content => s.loaded nr content
  | .wpFault nr offset => s.wpFault nr (startCode nr + offset)
  | .verify nr address => s.verify nr address
  | .access nr offset store => .ok (s.access (startCode nr + offset) store)
  | .getPipe => .ok s.getPipe
  | .freePipe f => s.freePipe f

/-- The state after `mem_init(lo, hi)`: the identity map of `head.s`, and task 0 with its 640 KB. -/
def Init (lo : ℕ) (s : State) : Prop :=
  ∃ m hi, s.mem = memInit m lo hi ∧ lowPages ≤ lo ∧ lo ≤ hi ∧ hi ≤ lowPages + pagingPages ∧
    (∀ d < 4, m.phys 0 d = entry (d + 1)) ∧ (∀ d, 4 ≤ d → d < 1024 → m.phys 0 d = 0) ∧
    (∀ d < 4, ∀ i < 1024, m.phys (d + 1) i = entry (1024 * d + i)) ∧
    (∃ p, s.task 0 = some ⟨p, false, 0xA0000, 0xA0000, none, 0, none⟩) ∧
    (∀ nr, nr ≠ 0 → s.task nr = none) ∧ s.pipes = []

end State

/-- The memory of the system, with the frames from `lo` on allocatable. -/
def memory (lo : ℕ) : System State Op where
  init := State.Init lo
  step s e s' := s.Enabled e ∧ s.run e = .ok s'

end Linux011.Mm
