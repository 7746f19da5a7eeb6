import Linux011.Lib.Transition
import Mathlib.Algebra.BigOperators.Pi
import Mathlib.Algebra.GroupWithZero.Nat

/-!
# Pipes

`read_pipe` and `write_pipe` of `fs/pipe.c`, with the closing of descriptors (`sys_close`, `iput`).
A call may be left at the test of its inner loop (`sleep_on`) and before each byte it copies (a page
fault in `put_fs_byte` or `get_fs_byte`).

1. `Inode`, `Proc`, `State`; `sent` and `log` record what went in and out.
2. `Proc.resume`: a call from one such place to the next; `State.next`.
3. `Undisturbed`, `Clear`: the conditions on the steps.
-/

namespace Linux011.Pipe

abbrev Byte := BitVec 8

inductive End
  | read
  | write
  deriving DecidableEq

/-- The inode of a pipe. -/
structure Inode where
  /-- The page at `inode->i_size`. -/
  page : ℕ → Byte
  /-- `PIPE_HEAD`. -/
  head : ℕ
  /-- `PIPE_TAIL`. -/
  tail : ℕ
  iCount : BitVec 16

/-- `PIPE_SIZE`. -/
def Inode.size (i : Inode) : ℕ :=
  (i.head + 4096 - i.tail) % 4096

/-- The bytes from `PIPE_TAIL` to `PIPE_HEAD`. -/
def Inode.ring (i : Inode) : List Byte :=
  (List.range i.size).map fun k => i.page ((i.tail + k) % 4096)

inductive Pc
  /-- At the test of the inner loop, perhaps in `sleep_on`. -/
  | test
  /-- Before the copy of the byte at `size`, `left` bytes of the chunk being left. -/
  | copy (size left : ℕ)
  | done (result : ℤ)
  deriving DecidableEq

def Pc.isDone : Pc → Bool
  | .done _ => true
  | _ => false

/-- A call of `read_pipe` or `write_pipe`. -/
structure Proc where
  side : End
  /-- The argument `count`. -/
  want : ℕ
  count : ℕ
  /-- `read` or `written`. -/
  moved : ℕ
  /-- The bytes from where `buf` of `write_pipe` points now. -/
  rest : List Byte
  pc : Pc
  /-- The number of the next byte to be copied, in the order of all bytes of the pipe. -/
  pos : ℕ
  /-- `PIPE_TAIL` or `PIPE_HEAD` when the chunk was taken, before the call moved it. -/
  start : ℕ

/-- The bytes of the chunk that are still to be copied. -/
def Proc.left (pr : Proc) : ℕ :=
  match pr.pc with
  | .copy _ left => left
  | _ => 0

structure State (ι : Type*) where
  inode : Inode
  /-- The descriptors each process has for each end. -/
  refs : ι → End → ℕ
  fCount : End → ℕ
  proc : ι → Option Proc
  /-- `SIGPIPE` in `signal`. -/
  sigpipe : ι → Bool
  /-- The bytes that calls of `write_pipe` have made room for, in that order. -/
  sent : List Byte
  /-- How many bytes calls of `read_pipe` have claimed. -/
  claimed : ℕ
  /-- The bytes copied to readers, with their numbers, in the order of the copies. -/
  log : List (ℕ × Byte)

/-- The chunk: up to the end of the page, what is wanted, and what is there. -/
def chunk (start count size : ℕ) : ℕ :=
  min (min (4096 - start) count) size

variable {ι : Type*} [DecidableEq ι]

def State.setProc (s : State ι) (p : ι) (pr : Proc) : State ι :=
  { s with proc := Function.update s.proc p (some pr) }

/-- `read_pipe` from one place where it can be left to the next. -/
def State.readPipe (s : State ι) (p : ι) (pr : Proc) : Option (State ι) :=
  match pr.pc with
  | .test =>
    if pr.count = 0 then some (s.setProc p { pr with pc := .done pr.moved })
    else if s.inode.size = 0 then
      if s.inode.iCount ≠ 2 then some (s.setProc p { pr with pc := .done pr.moved }) else some s
    else
      let chars := chunk s.inode.tail pr.count s.inode.size
      let s' := s.setProc p { pr with
        count := pr.count - chars, moved := pr.moved + chars, pc := .copy s.inode.tail chars,
        pos := s.claimed, start := s.inode.tail }
      some { s' with
        inode := { s.inode with tail := (s.inode.tail + chars) % 4096 }
        claimed := s.claimed + chars }
  | .copy _ 0 => some (s.setProc p { pr with pc := .test })
  | .copy size (left + 1) =>
    let s' := s.setProc p { pr with pc := .copy (size + 1) left, pos := pr.pos + 1 }
    some { s' with log := s.log ++ [(pr.pos, s.inode.page size)] }
  | .done _ => none

/-- `written?written:-1`. -/
def Proc.broken (pr : Proc) : ℤ :=
  if pr.moved = 0 then -1 else pr.moved

/-- `write_pipe` from one place where it can be left to the next. -/
def State.writePipe (s : State ι) (p : ι) (pr : Proc) : Option (State ι) :=
  match pr.pc with
  | .test =>
    if pr.count = 0 then some (s.setProc p { pr with pc := .done pr.moved })
    else if 4095 - s.inode.size = 0 then
      if s.inode.iCount ≠ 2 then
        let s' := s.setProc p { pr with pc := .done pr.broken }
        some { s' with sigpipe := Function.update s.sigpipe p true }
      else some s
    else
      let chars := chunk s.inode.head pr.count (4095 - s.inode.size)
      let s' := s.setProc p { pr with
        count := pr.count - chars, moved := pr.moved + chars, pc := .copy s.inode.head chars,
        pos := s.sent.length, start := s.inode.head }
      some { s' with
        inode := { s.inode with head := (s.inode.head + chars) % 4096 }
        sent := s.sent ++ pr.rest.take chars }
  | .copy _ 0 => some (s.setProc p { pr with pc := .test })
  | .copy size (left + 1) =>
    match pr.rest with
    | [] => none
    | b :: rest =>
      let s' := s.setProc p { pr with
        rest := rest, pc := .copy (size + 1) left, pos := pr.pos + 1 }
      some { s' with inode := { s.inode with page := Function.update s.inode.page size b } }
  | .done _ => none

inductive Event (ι : Type*)
  /-- A process calls `read` for `count` bytes. -/
  | read (p : ι) (count : ℕ)
  /-- A process calls `write` with the bytes. -/
  | write (p : ι) (buf : List Byte)
  /-- A call goes on. -/
  | run (p : ι)
  | dup (p : ι) (side : End)
  | close (p : ι) (side : End)
  | fork (p child : ι)

/-- The process that makes the step. -/
def Event.proc : Event ι → ι
  | .read p _ | .write p _ | .run p | .dup p _ | .close p _ | .fork p _ => p

/-- The process is not in a call. -/
def State.idle (s : State ι) (p : ι) : Bool :=
  (s.proc p).all fun pr => pr.pc.isDone

def State.call (s : State ι) (p : ι) (side : End) (want : ℕ) (buf : List Byte) : State ι :=
  s.setProc p ⟨side, want, want, 0, buf, .test, 0, 0⟩

/-- `sys_close`, with the `iput` of the inode when no descriptor is left for the end. -/
def State.sysClose (s : State ι) (p : ι) (side : End) : State ι :=
  let fCount := s.fCount side - 1
  let s' := { s with
    refs := Function.update s.refs p (Function.update (s.refs p) side (s.refs p side - 1))
    fCount := Function.update s.fCount side fCount }
  if fCount = 0 then { s' with inode := { s.inode with iCount := s.inode.iCount - 1 } } else s'

/-- The descriptors added: by `dup` one for an end, by `fork` all that the parent has. -/
def State.addRefs (s : State ι) (p : ι) (n : End → ℕ) : State ι :=
  { s with
    refs := Function.update s.refs p fun e => s.refs p e + n e
    fCount := fun e => s.fCount e + n e }

def State.next (s : State ι) : Event ι → Option (State ι)
  | .read p count =>
    if s.idle p ∧ 0 < s.refs p .read then some (s.call p .read count []) else none
  | .write p buf =>
    if s.idle p ∧ 0 < s.refs p .write then some (s.call p .write buf.length buf) else none
  | .run p =>
    match s.proc p with
    | none => none
    | some pr =>
      match pr.side with
      | .read => s.readPipe p pr
      | .write => s.writePipe p pr
  | .dup p side =>
    if s.idle p ∧ 0 < s.refs p side then some (s.addRefs p (Pi.single side 1)) else none
  | .close p side => if s.idle p ∧ 0 < s.refs p side then some (s.sysClose p side) else none
  | .fork p child =>
    if s.idle p ∧ s.idle child ∧ s.refs child .read = 0 ∧ s.refs child .write = 0 then
      some (s.addRefs child (s.refs p))
    else none

/-- A pipe that process `p` has just made. -/
def created (p : ι) (page : ℕ → Byte) : State ι where
  inode := ⟨page, 0, 0, 2⟩
  refs q _ := if q = p then 1 else 0
  fCount _ := 1
  proc _ := none
  sigpipe _ := false
  sent := []
  claimed := 0
  log := []

/-- The runs of the processes that have the pipe. -/
def pipes (ι : Type*) [DecidableEq ι] : System (State ι) (Event ι) where
  init s := ∃ p page, s = created p page
  step s e s' := s.next e = some s'

/-! ## Conditions -/

/-- Nothing else happens while a process is in the middle of a chunk: no page fault gives the
processor away. -/
def Undisturbed (s : State ι) (e : Event ι) : Prop :=
  ∀ q, ∀ qr ∈ s.proc q, qr.left ≠ 0 → q = e.proc

/-- The chunk that `pr` takes is there also with the pointer of `qr` put back to where `qr`, which is in
the middle of its chunk, has found it: for a reader `PIPE_HEAD`, for a writer `PIPE_TAIL`. -/
def Proc.ClearOf (s : State ι) (pr qr : Proc) : Prop :=
  qr.left ≠ 0 →
    (pr.side = .read → qr.side = .write →
      chunk s.inode.tail pr.count s.inode.size ≤ Inode.size { s.inode with head := qr.start }) ∧
    (pr.side = .write → qr.side = .read →
      chunk s.inode.head pr.count (4095 - s.inode.size) ≤
        4095 - Inode.size { s.inode with tail := qr.start })

/-- No chunk is taken that is there only because a page fault has left a call between the move of its
pointer and the move of its data. -/
def Clear (s : State ι) : Event ι → Prop
  | .run p => ∀ pr ∈ s.proc p, pr.pc = .test → ∀ q, ∀ qr ∈ s.proc q, pr.ClearOf s qr
  | _ => True

end Linux011.Pipe
