import Linux011.Lib.Count
import Linux011.Lib.Sizes
import Mathlib.Data.Fintype.BigOperators
import Mathlib.Data.List.FinRange

/-!
# Open files

The system calls on descriptors in `fs/open.c`, `fs/fcntl.c` and `fs/read_write.c`, and the end of
`open_namei`. `ι` is the type of the inodes of the file systems. What a path leads to is a parameter
of `open` (`Lookup`), and so is what the drivers do (`Outcome`).

1. `Inode`, `Task`, `File`, `State`.
2. `permission`, `openNamei`, `sysOpen`, `sysClose`, `dupfd`, `sysFcntl`, `forkFiles`.
3. `sysLseek`, `sysRead`, `sysWrite` and `fileWrite`, with positions of 32 bits.
-/

namespace Linux011.Fs

abbrev Byte := BitVec 8

inductive Errno
  | eperm
  | enoent
  | eio
  | ebadf
  | eacces
  | eexist
  | eisdir
  | einval
  | emfile
  | enospc
  | espipe
  deriving DecidableEq

/-- The bytes of a file, zero where none was written. -/
structure Contents where
  size : ℕ
  data : ℕ → Byte

structure Inode where
  iMode : BitVec 16
  iUid : BitVec 16
  iGid : BitVec 8
  iNlinks : BitVec 8
  iDev : BitVec 16
  /-- `i_zone[0]`, the device of a special file. -/
  iRdev : BitVec 16
  iPipe : Bool
  contents : Contents

/-- `NR_OPEN`. -/
abbrev Fd := Fin 20

/-- An index into `file_table`. -/
abbrev FileNr := Fin 64

structure Task where
  euid : BitVec 16
  egid : BitVec 16
  umask : BitVec 16
  leader : Bool
  tty : ℤ
  closeOnExec : BitVec 32
  filp : Fd → Option FileNr

structure File (ι : Type*) where
  fMode : BitVec 16
  fFlags : BitVec 16
  fCount : BitVec 16
  fInode : Option ι
  /-- `off_t`, which is signed. -/
  fPos : BitVec 32

structure State (ι : Type*) where
  task : Fin 64 → Option Task
  file : FileNr → File ι
  inode : ι → Option Inode

/-! ## Modes and flags -/

def isReg (mode : BitVec 16) : Bool := mode &&& 0o170000#16 == 0o100000#16

def isDir (mode : BitVec 16) : Bool := mode &&& 0o170000#16 == 0o040000#16

def isChr (mode : BitVec 16) : Bool := mode &&& 0o170000#16 == 0o020000#16

def isBlk (mode : BitVec 16) : Bool := mode &&& 0o170000#16 == 0o060000#16

def oAccmode : BitVec 16 := 0o3

def oWronly : BitVec 16 := 0o1

def oRdwr : BitVec 16 := 0o2

def oCreat : BitVec 16 := 0o100

def oExcl : BitVec 16 := 0o200

def oTrunc : BitVec 16 := 0o1000

def oAppend : BitVec 16 := 0o2000

def oNonblock : BitVec 16 := 0o4000

def mayWrite : BitVec 16 := 2

def major (dev : BitVec 16) : ℕ := dev.toNat / 256

def minor (dev : BitVec 16) : ℕ := dev.toNat % 256

/-- `ACC_MODE`. The last of its characters is negative. -/
def accMode (flag : BitVec 16) : BitVec 16 :=
  match (flag &&& oAccmode).toNat with
  | 0 => 0o4
  | 1 => 0o2
  | 2 => 0o6
  | _ => 0xffff

variable {ι : Type*} [DecidableEq ι]

/-! ## `open` -/

/-- `permission`. -/
def permission (t : Task) (n : Inode) (mask : BitVec 16) : Bool :=
  if n.iDev ≠ 0 ∧ n.iNlinks = 0 then false
  else
    let mode :=
      if t.euid = n.iUid then n.iMode >>> 6
      else if t.egid = n.iGid.setWidth 16 then n.iMode >>> 3
      else n.iMode
    mode &&& mask &&& 0o7 == mask || t.euid == 0

/-- What the path of `open` leads to. -/
inductive Lookup (ι : Type*)
  /-- `dir_namei` fails. -/
  | noDir
  /-- The path ends with a slash. -/
  | directory (dir : ι)
  /-- There is no such entry in `dir`; `new` is the result of `new_inode`, and `room` says if
  `add_entry` succeeds. -/
  | missing (dir : Inode) (new : Option ι) (room : Bool)
  /-- The entry names an inode; `none` if `iget` fails. -/
  | found (i : Option ι)

/-- `truncate` -/
def truncate (n : Inode) : Inode :=
  if isReg n.iMode || isDir n.iMode then { n with contents := ⟨0, fun _ => 0⟩ } else n

/-- The flags that `open_namei` works with. -/
def openFlag (flag : BitVec 16) : BitVec 16 :=
  if flag &&& oTrunc ≠ 0 ∧ flag &&& oAccmode = 0 then flag ||| oWronly else flag

def State.setInode (s : State ι) (i : ι) (n : Inode) : State ι :=
  { s with inode := Function.update s.inode i (some n) }

def State.setTask (s : State ι) (p : Fin 64) (t : Task) : State ι :=
  { s with task := Function.update s.task p (some t) }

def State.setFile (s : State ι) (f : FileNr) (x : File ι) : State ι :=
  { s with file := Function.update s.file f x }

/-- A file that `open_namei` creates. -/
def newInode (t : Task) (dev mode : BitVec 16) : Inode where
  iMode := mode
  iUid := t.euid
  iGid := t.egid.setWidth 8
  iNlinks := 1
  iDev := dev
  iRdev := 0
  iPipe := false
  contents := ⟨0, fun _ => 0⟩

/-- `open_namei`. -/
def openNamei (s : State ι) (t : Task) (flag mode : BitVec 16) (l : Lookup ι) :
    Except Errno (State ι × ι) :=
  let flag := openFlag flag
  let mode := mode &&& (0o777 &&& ~~~t.umask) ||| 0o100000
  match l with
  | .noDir => .error .enoent
  | .directory dir =>
    if flag &&& (oAccmode ||| oCreat ||| oTrunc) = 0 then .ok (s, dir) else .error .eisdir
  | .missing dir new room =>
    if flag &&& oCreat = 0 then .error .enoent
    else if !permission t dir mayWrite then .error .eacces
    else match new with
      | none => .error .enospc
      | some i => if room then .ok (s.setInode i (newInode t dir.iDev mode), i) else .error .enospc
  | .found i =>
    if flag &&& oExcl ≠ 0 then .error .eexist
    else match i with
      | none => .error .eacces
      | some i =>
        match s.inode i with
        | none => .error .eacces
        | some n =>
          if (isDir n.iMode ∧ flag &&& oAccmode ≠ 0) ∨ permission t n (accMode flag) = false then
            .error .eperm
          else .ok (if flag &&& oTrunc ≠ 0 then s.setInode i (truncate n) else s, i)

/-- `~(1<<fd)` of `close_on_exec`. -/
def Task.clearCloseOnExec (t : Task) (fd : Fd) : Task :=
  { t with closeOnExec := t.closeOnExec &&& ~~~(1#32 <<< fd.val) }

def Task.setFilp (t : Task) (fd : Fd) (f : Option FileNr) : Task :=
  { t with filp := Function.update t.filp fd f }

/-- The first free descriptor from `arg` on. -/
def Task.freeFd (t : Task) (arg : ℕ) : Option Fd :=
  (List.finRange 20).find? fun fd => arg ≤ fd.val && (t.filp fd).isNone

/-- The first free entry of `file_table`. -/
def State.freeFile (s : State ι) : Option FileNr :=
  (List.finRange 64).find? fun f => (s.file f).fCount == 0

/-- The terminal that `sys_open` gives the task, or `none` where there is none to open. -/
def openTty (t : Task) (n : Inode) : Option Task :=
  if isChr n.iMode then
    if major n.iRdev = 4 then
      some (if t.leader ∧ t.tty < 0 then { t with tty := minor n.iRdev } else t)
    else if major n.iRdev = 5 ∧ t.tty < 0 then none
    else some t
  else some t

/-- `sys_open` by the task `p`. -/
def sysOpen (s : State ι) (p : Fin 64) (t : Task) (flag mode : BitVec 16) (l : Lookup ι) :
    State ι × Except Errno ℕ :=
  match t.freeFd 0 with
  | none => (s, .error .einval)
  | some fd =>
    let t := t.clearCloseOnExec fd
    match s.freeFile with
    | none => (s.setTask p t, .error .einval)
    | some f =>
      match openNamei s t flag (mode &&& (0o777 &&& ~~~t.umask)) l with
      | .error e => (s.setTask p t, .error e)
      | .ok (s, i) =>
        match s.inode i with
        | none => (s.setTask p t, .error .eacces)
        | some n =>
          match openTty t n with
          | none => (s.setTask p t, .error .eperm)
          | some t =>
            ((s.setFile f ⟨n.iMode, flag, 1, some i, 0⟩).setTask p (t.setFilp fd (some f)), .ok fd)

/-- `sys_creat`. -/
def sysCreat (s : State ι) (p : Fin 64) (t : Task) (mode : BitVec 16) (l : Lookup ι) :
    State ι × Except Errno ℕ :=
  sysOpen s p t (oCreat ||| oTrunc) mode l

/-! ## Descriptors -/

/-- `current->filp[fd]`, for a number from the user. -/
def Task.file (t : Task) (fd : ℕ) : Option (Fd × FileNr) :=
  if h : fd < 20 then (t.filp ⟨fd, h⟩).map fun f => (⟨fd, h⟩, f) else none

def State.modifyFile (s : State ι) (f : FileNr) (g : File ι → File ι) : State ι :=
  s.setFile f (g (s.file f))

/-- `sys_close`, of a file that has a name: then `iput` leaves it as it is. -/
def sysClose (s : State ι) (p : Fin 64) (t : Task) (fd : ℕ) : State ι × Except Errno ℕ :=
  if h : fd < 20 then
    let t := t.clearCloseOnExec ⟨fd, h⟩
    match t.filp ⟨fd, h⟩ with
    | none => (s.setTask p t, .error .einval)
    | some f =>
      ((s.modifyFile f fun x => { x with fCount := x.fCount - 1 }).setTask p (t.setFilp ⟨fd, h⟩ none),
        .ok 0)
  else (s, .error .einval)

/-- `dupfd`. -/
def dupfd (s : State ι) (p : Fin 64) (t : Task) (fd arg : ℕ) : State ι × Except Errno ℕ :=
  match t.file fd with
  | none => (s, .error .ebadf)
  | some (_, f) =>
    if 20 ≤ arg then (s, .error .einval)
    else match t.freeFd arg with
      | none => (s, .error .emfile)
      | some new =>
        ((s.modifyFile f fun x => { x with fCount := x.fCount + 1 }).setTask p
          ((t.clearCloseOnExec new).setFilp new (some f)), .ok new)

/-- `sys_dup2`. -/
def sysDup2 (s : State ι) (p : Fin 64) (t : Task) (oldfd newfd : ℕ) : State ι × Except Errno ℕ :=
  let s := (sysClose s p t newfd).1
  match s.task p with
  | none => (s, .error .ebadf)
  | some t => dupfd s p t oldfd newfd

/-- `sys_dup`. -/
def sysDup (s : State ι) (p : Fin 64) (t : Task) (fildes : ℕ) : State ι × Except Errno ℕ :=
  dupfd s p t fildes 0

/-- The commands of `sys_fcntl`. -/
inductive Cmd
  | dupfd
  | getfd
  | setfd
  | getfl
  | setfl
  | other
  deriving DecidableEq

/-- `sys_fcntl`. -/
def sysFcntl (s : State ι) (p : Fin 64) (t : Task) (fd : ℕ) (cmd : Cmd) (arg : BitVec 32) :
    State ι × Except Errno ℕ :=
  match t.file fd with
  | none => (s, .error .ebadf)
  | some (fd, f) =>
    match cmd with
    | .dupfd => dupfd s p t fd arg.toNat
    | .getfd => (s, .ok ((t.closeOnExec >>> fd.val) &&& 1).toNat)
    | .setfd =>
      if arg &&& 1 ≠ 0 then
        (s.setTask p { t with closeOnExec := t.closeOnExec ||| 1#32 <<< fd.val }, .ok 0)
      else (s.setTask p (t.clearCloseOnExec fd), .ok 0)
    | .getfl => (s, .ok (s.file f).fFlags.toNat)
    | .setfl =>
      (s.modifyFile f fun x =>
        { x with
          fFlags := x.fFlags &&& ~~~(oAppend ||| oNonblock) |||
            arg.setWidth 16 &&& (oAppend ||| oNonblock) }, .ok 0)
    | .other => (s, .error .eperm)

/-- `if (f) f->f_count++`. -/
def addRef (file : FileNr → File ι) : Option FileNr → FileNr → File ι
  | none => file
  | some f => Function.update file f { file f with fCount := (file f).fCount + 1 }

/-- The loop of `copy_process` over the descriptors of the child. -/
def forkFiles (t : Task) (file : FileNr → File ι) : FileNr → File ι :=
  (List.finRange 20).foldl (fun file fd => addRef file (t.filp fd)) file

/-- `copy_process` of `t` into the free slot `nr`. -/
def copyProcess (s : State ι) (t : Task) (nr : Fin 64) : State ι :=
  { s with file := forkFiles t s.file }.setTask nr { t with leader := false }

/-! ## Reading and writing -/

/-- What the drivers do: the bytes that there is room for, the result of a driver call and the position it
leaves, and the files after a write to the device they are on. -/
structure Outcome (ι : Type*) where
  room : ℕ
  ret : Except Errno ℕ
  pos : BitVec 32
  disk : ι → Contents

/-- The position that `lseek` asks for, a sum of 32 bits. -/
def seekPos (pos size offset : BitVec 32) : ℕ → Option (BitVec 32)
  | 0 => some offset
  | 1 => some (pos + offset)
  | 2 => some (size + offset)
  | _ => none

/-- `sys_lseek`. -/
def sysLseek (s : State ι) (t : Task) (fd : ℕ) (offset : BitVec 32) (origin : ℕ) :
    State ι × Except Errno ℕ :=
  match t.file fd with
  | none => (s, .error .ebadf)
  | some (_, f) =>
    match (s.file f).fInode.bind s.inode with
    | none => (s, .error .ebadf)
    | some n =>
      if ¬ (1 ≤ major n.iDev ∧ major n.iDev ≤ 3) then (s, .error .ebadf)
      else if n.iPipe then (s, .error .espipe)
      else match seekPos (s.file f).fPos (.ofNat 32 n.contents.size) offset origin with
        | none => (s, .error .einval)
        | some pos =>
          if pos.msb then (s, .error .einval)
          else (s.modifyFile f fun x => { x with fPos := pos }, .ok pos.toNat)

/-- The bytes that a read of `count` bytes at `pos` gets. -/
def Contents.read (c : Contents) (pos : ℤ) (count : ℕ) : List Byte :=
  (List.range (min count (c.size - pos).toNat)).map fun k => c.data (pos.toNat + k)

/-- How many bytes `sys_read` asks `file_read` for: the sum is compared as unsigned, and the rest of the
file is an `int`. -/
def readCount (count pos size : BitVec 32) : ℤ :=
  if size < count + pos then (size - pos).toInt else count.toInt

/-- `sys_read`. -/
def sysRead (s : State ι) (t : Task) (fd : ℕ) (count : BitVec 32) (w : Outcome ι) :
    State ι × Except Errno (List Byte) :=
  if count.msb then (s, .error .einval)
  else match t.file fd with
    | none => (s, .error .einval)
    | some (_, f) =>
      if count = 0 then (s, .ok [])
      else match (s.file f).fInode.bind s.inode with
        | none => (s, .error .einval)
        | some n =>
          if n.iPipe then
            (s, if (s.file f).fMode &&& 1 ≠ 0 then w.ret.map fun _ => [] else .error .eio)
          else if isChr n.iMode ∨ isBlk n.iMode then
            (s.modifyFile f fun x => { x with fPos := w.pos }, w.ret.map fun _ => [])
          else if isDir n.iMode ∨ isReg n.iMode then
            let count := readCount count (s.file f).fPos (.ofNat 32 n.contents.size)
            let bytes := n.contents.read (s.file f).fPos.toNat count.toNat
            (s.modifyFile f fun x => { x with fPos := x.fPos + .ofNat 32 bytes.length }, .ok bytes)
          else (s, .error .einval)

/-- The file after `bytes` are written at `pos`. -/
def Contents.write (c : Contents) (pos : ℕ) (bytes : List Byte) : Contents where
  size := if bytes = [] then c.size else max c.size (pos + bytes.length)
  data := fun k => if pos ≤ k then bytes.getD (k - pos) (c.data k) else c.data k

/-- Where `file_write` starts. -/
def State.writePos (s : State ι) (f : FileNr) (n : Inode) : ℕ :=
  if (s.file f).fFlags &&& oAppend ≠ 0 then n.contents.size else (s.file f).fPos.toNat

/-- `file_write`, which ends where there is no room. -/
def fileWrite (s : State ι) (f : FileNr) (i : ι) (n : Inode) (buf : List Byte) (room : ℕ) :
    State ι × Except Errno ℕ :=
  let pos := s.writePos f n
  let bytes := buf.take room
  let append := (s.file f).fFlags &&& oAppend ≠ 0
  let s := s.setInode i { n with contents := n.contents.write pos bytes }
  let s := if append then s else s.modifyFile f fun x => { x with fPos := .ofNat 32 (pos + bytes.length) }
  (s, if bytes = [] then .error .eperm else .ok bytes.length)

/-- The bytes that the zones of an inode hold: `_bmap` panics for a block behind them. -/
def maxSize : ℕ := (7 + 512 + 512 * 512) * 1024

/-- A write of `buf` to a regular file does not panic. -/
def State.Fits (s : State ι) (t : Task) (fd : ℕ) (buf : List Byte) (room : ℕ) : Prop :=
  ∀ f i n, t.file fd = some f → (s.file f.2).fInode = some i → s.inode i = some n → isReg n.iMode →
    s.writePos f.2 n + min (room + 1) buf.length ≤ maxSize

/-- Every file after a write to the device. -/
def State.setContents (s : State ι) (disk : ι → Contents) : State ι :=
  { s with inode := fun j => (s.inode j).map fun n => { n with contents := disk j } }

/-- `sys_write`. A write to a block device may change every file. -/
def sysWrite (s : State ι) (t : Task) (fd : ℕ) (buf : List Byte) (w : Outcome ι) :
    State ι × Except Errno ℕ :=
  match t.file fd with
  | none => (s, .error .einval)
  | some (_, f) =>
    if buf = [] then (s, .ok 0)
    else match (s.file f).fInode with
      | none => (s, .error .einval)
      | some i =>
        match s.inode i with
        | none => (s, .error .einval)
        | some n =>
          if n.iPipe then (s, if (s.file f).fMode &&& 2 ≠ 0 then w.ret else .error .eio)
          else if isChr n.iMode then (s.modifyFile f fun x => { x with fPos := w.pos }, w.ret)
          else if isBlk n.iMode then
            ((s.setContents w.disk).modifyFile f fun x => { x with fPos := w.pos }, w.ret)
          else if isReg n.iMode then fileWrite s f i n buf w.room
          else (s, .error .einval)

end Linux011.Fs
