import Linux011.Exec.Install
import Linux011.Exec.Script
import Linux011.Exec.Tables
import Linux011.Fs.File

/-!
# Executing a program

`do_execve`, with both of its error labels, the `#!` section and all that follows the point of no
return. The functions of the file system are a parameter, on a state `σ` of their own; `ι`, `β` and
`φ` are the types of its inodes, buffers and entries of `file_table`.

1. `Task`, `Machine`, `Files`, `Env`.
2. `execError1`, `execError2`, `commit`, `loadBinary`, `splice`, `openExec`, `restart`.
3. `doExecve`.
-/

namespace Linux011.Execve

open Bytes Args

/-! ## Data -/

def ENOENT : ℤ := 2

def ENOEXEC : ℤ := 8

def ENOMEM : ℤ := 12

def EACCES : ℤ := 13

/-- What is read of an inode. -/
structure Inode where
  iDev : BitVec 16
  iMode : BitVec 16
  iUid : BitVec 16
  iGid : BitVec 8
  iSize : BitVec 32
  /-- `i_zone[0]`. -/
  iZone : BitVec 16

/-- The fields of `current` that are used. -/
structure Task (ι φ : Type) extends Process where
  startStack : BitVec 32
  euid : BitVec 16
  egid : BitVec 16
  executable : Option ι
  saHandler : Fin 32 → BitVec 32
  filp : Fin 20 → Option φ
  closeOnExec : BitVec 32
  usedMath : Bool

/-- Why the call does not return: a panic of its own, what stops `copy_strings`, a panic of the memory
functions or of the file system. -/
inductive Stop
  | supervisor
  | copy (e : Halt)
  | memory (e : Mm.Panic)
  | files

/-- The functions of the file system, which may not return. `close` is what is left of `sys_close` once
the descriptor is free. -/
structure Files (σ ι β φ : Type) where
  inode : σ → ι → Inode
  data : σ → β → ℕ → Byte
  namei : Memory → Addr → σ → Option (Option ι × σ)
  bread : BitVec 16 → BitVec 16 → σ → Option (Option β × σ)
  brelse : β → σ → Option σ
  iput : ι → σ → Option σ
  close : φ → σ → Option σ

/-- Where the compiler puts the variables of `do_execve` that are used by their address. -/
structure Locals where
  buf : Addr
  filename : Addr
  iArg : Addr
  iName : Addr

/-- What the call meets: the free pages, its frame on the kernel's stack, and what a page of the new
program holds that is not there yet. -/
structure Env where
  supply : ℕ → Bool
  locals : Locals
  rest : Memory

/-- The state of the call. `page[]` and the register `fs` are in `args`, the saved registers of the
process are `eip` and `esp`. -/
structure Machine (σ ι φ : Type) where
  task : Task ι φ
  args : Args
  files : σ
  kernel : Memory
  user : Memory
  /-- `last_task_used_math == current`. -/
  mathOwner : Bool
  eip : BitVec 32
  esp : BitVec 32

/-- `p`, `argc` and `envc`. -/
structure Vars where
  p : BitVec 32
  argc : ℤ
  envc : ℤ

/-! ## Counting -/

def countFrom (m : Memory) : ℕ → Addr → Option ℕ
  | 0, _ => none
  | n + 1, a => if getLong m a = 0 then some 0 else (countFrom m n (a + 4)).map (· + 1)

/-- `count`. -/
def count (m : Memory) (argv : Addr) : Except Stop ℤ :=
  if argv = 0 then .ok 0
  else
    match countFrom m (2 ^ 30) argv with
    | none => .error (.copy .endless)
    | some n => .ok n

/-! ## The frame of the call -/

/-- The variables of the section are put where they are. -/
def Locals.store (l : Locals) (k : Memory) (s : Script) : Memory :=
  let k : Memory := fun a => if (a - l.buf).toNat < 1023 then s.buf (a - l.buf).toNat else k a
  let k := putLong k l.iArg (match s.iArg with
    | none => 0
    | some i => l.buf + BitVec.ofNat 32 i)
  putLong k l.iName (l.buf + BitVec.ofNat 32 s.iName)

/-! ## Files -/

variable {σ ι β φ : Type}

/-- The test of the execute permissions. -/
def mayExecute (t : Task ι φ) (n : Inode) : Bool :=
  let i := if t.euid = n.iUid then n.iMode >>> 6
    else if t.egid = n.iGid.setWidth 16 then n.iMode >>> 3 else n.iMode
  i.getLsbD 0 || (n.iMode &&& 0o111 != 0 && t.euid == 0)

/-- `e_uid`. -/
def effectiveUid (t : Task ι φ) (n : Inode) : BitVec 16 :=
  if n.iMode &&& 0o4000 ≠ 0 then n.iUid else t.euid

/-- `e_gid`. -/
def effectiveGid (t : Task ι φ) (n : Inode) : BitVec 16 :=
  if n.iMode &&& 0o2000 ≠ 0 then n.iGid.setWidth 16 else t.egid

/-- The header at the start of a block. -/
def header (data : ℕ → Byte) : Exec :=
  let long k := data (k + 3) ++ data (k + 2) ++ data (k + 1) ++ data k
  ⟨long 0, long 4, long 8, long 12, long 16, long 20, long 24, long 28⟩

def isScript (data : ℕ → Byte) : Bool := data 0 == 0x23 && data 1 == 0x21

/-! ## The call -/

section Call

variable (F : Files σ ι β φ) (e : Env)

/-- A call into the file system. -/
def call {α : Type} : Option α → Except Stop α
  | none => .error .files
  | some a => .ok a

/-- `exec_error1`. -/
def execError1 (x : Machine σ ι φ) (retval : ℤ) : Except Stop (ℤ × Machine σ ι φ) :=
  match freePages x.args.mem x.args.page with
  | .ok m => .ok (retval, { x with args := { x.args with mem := m } })
  | .error e => .error (.memory e)

/-- `exec_error2`. -/
def execError2 (x : Machine σ ι φ) (inode : ι) (retval : ℤ) : Except Stop (ℤ × Machine σ ι φ) := do
  let files ← call (F.iput inode x.files)
  execError1 { x with files := files } retval

/-- A call of `copy_strings`. -/
def copy (x : Machine σ ι φ) (fromKmem : ℕ) (argc : ℤ) (argv : Addr) (p : BitVec 32) :
    Except Stop (BitVec 32 × Machine σ ι φ) :=
  match copyStrings e.supply ⟨x.user, x.kernel⟩ fromKmem argc argv p x.args with
  | .ok (p, s) => .ok (p, { x with args := s })
  | .error h => .error (.copy h)

/-- `free_page_tables` of a segment. -/
def freeSegment (m : Mm.Mem) (d : Descriptor) : Except Stop Mm.Mem :=
  match Mm.freePageTables m d.getBase.toNat d.getLimit.toNat with
  | .ok m => .ok m
  | .error e => .error (.memory e)

/-- What the process reads: the pages that are there, and else what will be there. -/
def userMemory (m : Mm.Mem) (base : BitVec 32) (rest : Memory) : Memory := fun a =>
  let address := (base + a).toNat
  let e := Mm.pte m (Mm.dirIndex address) (Mm.tblIndex address)
  if Mm.present e then Mm.byteOf (m.phys (Mm.pageOf e)) (a.toNat % 4096) else rest a

/-- `sys_close(i)`, if the bit of `i` is set. -/
def closeOne (t : Task ι φ) (r : (Fin 20 → Option φ) × σ) (i : Fin 20) :
    Except Stop ((Fin 20 → Option φ) × σ) :=
  if t.closeOnExec.getLsbD i then
    match r.1 i with
    | none => .ok r
    | some f => do
      let files ← call (F.close f r.2)
      return (Function.update r.1 i none, files)
  else .ok r

/-- `iput(current->executable)`, if there is one. -/
def putExecutable (x : Machine σ ι φ) : Except Stop σ :=
  match x.task.executable with
  | none => .ok x.files
  | some old => call (F.iput old x.files)

/-- From the point of no return on. From the change of the segments on the bytes that the call itself
writes are in `user`. -/
def commit (x : Machine σ ι φ) (inode : ι) (ex : Exec) (eUid eGid : BitVec 16) (v : Vars) :
    Except Stop (ℤ × Machine σ ι φ) := do
  let files ← putExecutable F x
  let (filp, files) ← (List.finRange 20).foldlM (closeOne F x.task) (x.task.filp, files)
  let m ← freeSegment x.args.mem x.task.code
  let m ← freeSegment m x.task.data
  let dataBase := x.task.code.getBase
  let m := putPages m x.args.page (dataBase + 0x4000000)
  let p := v.p + (0x4000000 - 0x20000)
  match createTables (userMemory m dataBase e.rest) p v.argc v.envc with
  | .error h => .error (.copy h)
  | .ok (p, user) =>
    return (0, { x with
      task := { changeLdt x.task.toProcess ex.aText with
        endCode := ex.aText
        endData := ex.aData + ex.aText
        brk := ex.aBss + (ex.aData + ex.aText)
        startStack := p &&& 0xfffff000
        euid := eUid
        egid := eGid
        executable := some inode
        saHandler := fun _ => 0
        filp := filp
        closeOnExec := 0
        usedMath := false }
      args := { x.args with mem := m, fs := .user }
      files := files
      user := clearTail user 4096 (ex.aText + ex.aData)
      mathOwner := false
      eip := ex.aEntry
      esp := p })

/-- A file that is not a script, or one whose interpreter is a script again; `shBang` tells that the
arguments are copied. -/
def loadBinary (shBang : Bool) (argv envp : Addr) (x : Machine σ ι φ) (inode : ι) (ex : Exec)
    (eUid eGid : BitVec 16) (v : Vars) : Except Stop (ℤ × Machine σ ι φ) :=
  match checkHeader ex (F.inode x.files inode).iSize with
  | .error _ => execError2 F x inode (-ENOEXEC)
  | .ok () =>
    if shBang then commit F e x inode ex eUid eGid v
    else do
      let (p, x) ← copy e x 0 v.envc envp v.p
      let (p, x) ← copy e x 0 v.argc argv p
      if p = 0 then execError2 F x inode (-ENOMEM)
      else commit F e x inode ex eUid eGid { v with p := p }

/-- The `#!` section, for a script with the interpreter `s`; `next` is what follows
`restart_interp`. -/
def splice (next : ι → Vars → Machine σ ι φ → Except Stop (ℤ × Machine σ ι φ)) (argv envp : Addr)
    (x : Machine σ ι φ) (s : Script) (v : Vars) : Except Stop (ℤ × Machine σ ι φ) := do
  let x := { x with kernel := e.locals.store x.kernel s }
  let (p, x) ← copy e x 0 v.envc envp v.p
  let argc := v.argc - 1
  let (p, x) ← copy e x 0 argc (argv + 4) p
  let (p, x) ← copy e x 1 1 e.locals.filename p
  let argc := argc + 1
  let (p, argc, x) ← match s.iArg with
    | none => .ok (p, argc, x)
    | some _ => do
      let (p, x) ← copy e x 2 1 e.locals.iArg p
      .ok (p, argc + 1, x)
  let (p, x) ← copy e x 2 1 e.locals.iName p
  let argc := argc + 1
  if p = 0 then execError1 x (-ENOMEM)
  else do
    let oldFs := x.args.fs
    let x := { x with args := x.args.setFs .kernel }
    let (inode, files) ←
      call (F.namei x.kernel (e.locals.buf + BitVec.ofNat 32 s.interp) x.files)
    let x := { x with files := files, args := x.args.setFs oldFs }
    match inode with
    | none => execError1 x (-ENOENT)
    | some inode => next inode { v with p := p, argc := argc } x

/-- The tests from `restart_interp` on, and the first block of the file for what follows, with `e_uid`
and `e_gid`. -/
def openExec (x : Machine σ ι φ) (inode : ι)
    (next : Machine σ ι φ → β → BitVec 16 → BitVec 16 → Except Stop (ℤ × Machine σ ι φ)) :
    Except Stop (ℤ × Machine σ ι φ) :=
  let n := F.inode x.files inode
  if ¬ Fs.isReg n.iMode then execError2 F x inode (-EACCES)
  else if ¬ mayExecute x.task n then execError2 F x inode (-ENOEXEC)
  else do
    let (bh, files) ← call (F.bread n.iDev n.iZone x.files)
    let x := { x with files := files }
    match bh with
    | none => execError2 F x inode (-EACCES)
    | some bh => next x bh (effectiveUid x.task n) (effectiveGid x.task n)

/-- What follows `restart_interp` when `sh_bang` is set. -/
def restartInterp (argv envp : Addr) (inode : ι) (v : Vars) (x : Machine σ ι φ) :
    Except Stop (ℤ × Machine σ ι φ) :=
  openExec F x inode fun x bh eUid eGid => do
    let ex := header (F.data x.files bh)
    let files ← call (F.brelse bh x.files)
    loadBinary F e true argv envp { x with files := files } inode ex eUid eGid v

/-- What follows `restart_interp` at first. -/
def restart (argv envp : Addr) (inode : ι) (v : Vars) (x : Machine σ ι φ) :
    Except Stop (ℤ × Machine σ ι φ) :=
  openExec F x inode fun x bh eUid eGid =>
    let data := F.data x.files bh
    if isScript data then do
      let files ← call (F.brelse bh x.files)
      let files ← call (F.iput inode files)
      let x := { x with files := files }
      match parse data with
      | none => execError1 x (-ENOEXEC)
      | some s => splice F e (restartInterp F e argv envp) argv envp x s v
    else do
      let files ← call (F.brelse bh x.files)
      loadBinary F e false argv envp { x with files := files } inode (header data) eUid eGid v

/-- `page[]` is cleared, and the parameter `filename` is on the kernel's stack. -/
def enter (filename : Addr) (x : Machine σ ι φ) : Machine σ ι φ := { x with
  args := { x.args with page := fun _ => 0 }
  kernel := putLong x.kernel e.locals.filename filename }

/-- `do_execve`, called with the code segment `cs`. -/
def doExecve (cs : BitVec 32) (filename argv envp : Addr) (x : Machine σ ι φ) :
    Except Stop (ℤ × Machine σ ι φ) :=
  if 0xffff &&& cs ≠ 0xf then .error .supervisor
  else do
    let x := enter e filename x
    let m := Segments.of ⟨x.user, x.kernel⟩ x.args.fs
    let (inode, files) ← call (F.namei m filename x.files)
    let x := { x with files := files }
    match inode with
    | none => return (-ENOENT, x)
    | some inode => do
      let argc ← count m argv
      let envc ← count m envp
      restart F e argv envp inode ⟨0x1FFFC, argc, envc⟩ x

end Call

end Linux011.Execve
