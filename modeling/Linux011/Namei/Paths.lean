import Linux011.Fs.DirMap

/-!
# Paths

`iput`, `get_empty_inode` and `iget` of `fs/inode.c`, `find_entry`, `get_dir` and `namei` of
`fs/namei.c`, in a process that no other comes between. All blocks of inodes can be read, and the
directories, which are not changed here, are those of `Linux011.Zones.Dir`.

1. `MInode`, `SuperBlock`, `State`.
2. `iput`, `getEmptyInode`, `iget`.
3. `findEntry`, `getDir`, `namei`.
4. `mount`.
-/

namespace Linux011.Namei

open Linux011.Fs (Byte)
open Linux011.Zones (Name Dir)

abbrev Dev := BitVec 16

/-- An index into `inode_table`. -/
abbrev Ino := Fin 32

/-- An index into `super_block`. -/
abbrev Sb := Fin 8

/-! ## Data -/

/-- Why a call does not return. -/
inductive Halt
  /-- "No root inode" -/
  | noRoot
  /-- "No cwd inode" -/
  | noCwd
  /-- "iput: trying to free free inode" -/
  | iputFree
  /-- "No free inodes in mem" -/
  | noInodes
  /-- "iget with dev==0" -/
  | noDev
  /-- "trying to read inode without dev", or to write one. -/
  | noDevice
  /-- A null pointer is followed. -/
  | null
  /-- A search through a directory does not return. -/
  | scan (f : Zones.Fault)
  /-- It runs for ever, or for longer than it is watched. -/
  | endless
  deriving DecidableEq

/-- What is on the disk of an inode. Its size and zones are part of the directory. -/
structure DInode where
  iMode : BitVec 16
  iUid : BitVec 16
  iGid : BitVec 8
  iNlinks : BitVec 8
  deriving DecidableEq

structure MInode extends DInode where
  iDev : Dev
  iNum : BitVec 16
  iCount : ℕ
  iDirt : Bool
  iPipe : Bool
  iMount : Bool

/-- After `memset`. -/
def MInode.zero : MInode :=
  ⟨⟨0, 0, 0, 0⟩, 0, 0, 0, false, false, false⟩

structure SuperBlock where
  sDev : Dev
  sImount : Option Ino

structure State where
  inode : Ino → MInode
  super : Sb → SuperBlock
  /-- `last_inode` of `get_empty_inode`. -/
  lastInode : Ino
  /-- The inodes on the disks. -/
  dinode : Dev → BitVec 16 → DInode

/-- The directories on the disks. -/
abbrev Files := Dev → BitVec 16 → Dir

/-- The fields of `current` that are used. -/
structure Current where
  root : Option Ino
  pwd : Option Ino
  euid : BitVec 16
  egid : BitVec 16

namespace State

variable (s : State)

def setInode (i : Ino) (m : MInode) : State :=
  { s with inode := Function.update s.inode i m }

/-- `get_super`. -/
def getSuper (dev : Dev) : Option Sb :=
  if dev = 0 then none else (List.finRange 8).find? fun sb => (s.super sb).sDev = dev

/-! ## References to inodes -/

/-- `write_inode`. -/
def writeInode (i : Ino) : Except Halt State :=
  let m := s.inode i
  if m.iDirt = false ∨ m.iDev = 0 then .ok s
  else
    match s.getSuper m.iDev with
    | none => .error .noDevice
    | some _ => .ok { s.setInode i { m with iDirt := false } with
        dinode := Function.update s.dinode m.iDev
          (Function.update (s.dinode m.iDev) m.iNum m.toDInode) }

/-- `read_inode`. -/
def readInode (i : Ino) : Except Halt State :=
  let m := s.inode i
  match s.getSuper m.iDev with
  | none => .error .noDevice
  | some _ => .ok (s.setInode i { m with toDInode := s.dinode m.iDev m.iNum })

/-- `sync_inodes`, of all that `sync_dev` does. -/
def syncInodes : Except Halt State :=
  (List.finRange 32).foldlM
    (fun s i => if (s.inode i).iDirt ∧ (s.inode i).iPipe = false then s.writeInode i else .ok s) s

/-- `inode->i_count--`. -/
def drop (i : Ino) : State :=
  s.setInode i { s.inode i with iCount := (s.inode i).iCount - 1 }

/-- `iput` from `repeat` on. What becomes of the blocks of a file without links is not part of the
state. -/
def iputRepeat (i : Ino) : Except Halt State :=
  if 1 < (s.inode i).iCount then .ok (s.drop i)
  else if (s.inode i).iNlinks = 0 then .ok (s.setInode i .zero)
  else do
    let s ← s.writeInode i
    return s.drop i

/-- `iput`. -/
def iput (i : Ino) : Except Halt State :=
  let m := s.inode i
  if m.iCount = 0 then .error .iputFree
  else if m.iPipe then
    if 1 < m.iCount then .ok (s.drop i)
    else .ok (s.setInode i { m with iCount := 0, iDirt := false, iPipe := false })
  else if m.iDev = 0 then .ok (s.drop i)
  else if Fs.isBlk m.iMode then do
    let s ← s.syncInodes
    s.iputRepeat i
  else s.iputRepeat i

/-- The search of `get_empty_inode` from `last_inode` on, so many entries before its end: the inode,
and `last_inode`. -/
def scanEmpty : ℕ → Ino → Option Ino → Option Ino × Ino
  | 0, last, inode => (inode, last)
  | n + 1, last, inode =>
    let last := last + 1
    if (s.inode last).iCount ≠ 0 then scanEmpty n last inode
    else if (s.inode last).iDirt = false then (some last, last)
    else scanEmpty n last (some last)

/-- `get_empty_inode`. An inode that is dirty is written once, unless it has no device. -/
def getEmptyInode : Except Halt (Ino × State) :=
  let (inode, last) := s.scanEmpty 32 s.lastInode none
  let s := { s with lastInode := last }
  match inode with
  | none => .error .noInodes
  | some i =>
    let m : MInode := s.inode i
    if m.iDirt = true ∧ m.iDev = 0 then .error .endless
    else do
      let s ← s.writeInode i
      return (i, s.setInode i { MInode.zero with iCount := 1 })

/-- The slot of the inode. -/
def findInode (dev : Dev) (nr : BitVec 16) : Option Ino :=
  (List.finRange 32).find? fun i => (s.inode i).iDev = dev ∧ (s.inode i).iNum = nr

/-- The super block of what is mounted on the inode. -/
def findMount (i : Ino) : Option Sb :=
  (List.finRange 8).find? fun sb => (s.super sb).sImount = some i

/-- `i_count++`. -/
def grab (i : Ino) : State :=
  s.setInode i { s.inode i with iCount := (s.inode i).iCount + 1 }

/-- The loop of `iget`. -/
def igetLoop (empty : Ino) : ℕ → Dev → BitVec 16 → State → Except Halt (Ino × State)
  | 0, _, _, _ => .error .endless
  | n + 1, dev, nr, s =>
    match s.findInode dev nr with
    | none => do
      let s ← (s.setInode empty { s.inode empty with iDev := dev, iNum := nr }).readInode empty
      return (empty, s)
    | some i =>
      let s := s.grab i
      let mount := if (s.inode i).iMount then s.findMount i else none
      match mount with
      | none => do
        let s ← s.iput empty
        return (i, s)
      | some sb => do
        let s ← s.iput i
        igetLoop empty n (s.super sb).sDev 1 s

/-- `iget`, which goes so often from a directory to what is mounted on it. -/
def iget (fuel : ℕ) (dev : Dev) (nr : BitVec 16) : Except Halt (Ino × State) :=
  if dev = 0 then .error .noDev
  else do
    let (empty, s) ← s.getEmptyInode
    igetLoop empty fuel dev nr s

/-! ## Names -/

variable (k : Files) (fuel : ℕ) (c : Current)

/-- The directory of an inode. -/
def dirOf (i : Ino) : Dir := k (s.inode i).iDev (s.inode i).iNum

/-- `..` in `find_entry`: the name, and the directory. -/
def dotdot (dir : Ino) (name : Name) : Except Halt (Name × Ino × State) :=
  if name ≠ [0x2e, 0x2e] then .ok (name, dir, s)
  else if c.root = some dir then .ok ([0x2e], dir, s)
  else if (s.inode dir).iNum ≠ 1 then .ok (name, dir, s)
  else
    match s.getSuper (s.inode dir).iDev with
    | none => .error .null
    | some sb =>
      match (s.super sb).sImount with
      | none => .ok (name, dir, s)
      | some mnt => do
        let s ← s.iput dir
        return (name, mnt, s.grab mnt)

/-- `find_entry`: the inode number of the entry, and the directory. The number of entries is that of
the directory before `..`. -/
def findEntry (dir : Ino) (name : Name) : Except Halt (Option (BitVec 16) × Ino × State) :=
  let name := name.take 14
  let entries := (s.dirOf k dir).entries
  if name = [] then .ok (none, dir, s)
  else do
    let (name, dir, s) ← s.dotdot c dir name
    let d := s.dirOf k dir
    match d.scan name entries (entries + 1) with
    | .error f => .error (.scan f)
    | .ok none => return (none, dir, s)
    | .ok (some q) => return (some (BitVec.ofNat 16 (d.vol.entry q.1 (8 * q.2))), dir, s)

/-- `permission`. -/
def permission (n : MInode) (mask : BitVec 16) : Bool :=
  if n.iDev ≠ 0 ∧ n.iNlinks = 0 then false
  else
    let mode :=
      if c.euid = n.iUid then n.iMode >>> 6
      else if c.egid = n.iGid.setWidth 16 then n.iMode >>> 3
      else n.iMode
    mode &&& mask &&& 7 == mask || c.euid == 0

/-- The inode that an entry of the directory names. The directory is released. -/
def follow (dir : Ino) (inr : BitVec 16) : Except Halt (Ino × State) := do
  let idev := (s.inode dir).iDev
  let s ← s.iput dir
  s.iget fuel idev inr

/-- The names of a path, one before each slash, and the last one. -/
def components : List Byte → List Name
  | [] => [[]]
  | b :: path =>
    if b = 0x2f then [] :: components path
    else
      match components path with
      | [] => [[b]]
      | name :: names => (b :: name) :: names

/-- The loop of `get_dir`: all names but the last one are looked up. -/
def dirLoop : List Name → Ino → State → Except Halt (Option Ino × State)
  | names, i, s =>
    if ¬ Fs.isDir (s.inode i).iMode ∨ permission c (s.inode i) 1 = false then do
      let s ← s.iput i
      return (none, s)
    else
      match names with
      | name :: next :: rest => do
        let (r, dir, s) ← s.findEntry k c i name
        match r with
        | none => do
          let s ← s.iput dir
          return (none, s)
        | some inr => do
          let (i, s) ← s.follow fuel dir inr
          dirLoop (next :: rest) i s
      | _ => .ok (some i, s)

/-- Whether the pointer is null, or points to an inode that is not in use. -/
def missing : Option Ino → Bool
  | none => true
  | some i => (s.inode i).iCount == 0

def getDir (path : List Byte) : Except Halt (Option Ino × State) :=
  if s.missing c.root then .error .noRoot
  else if s.missing c.pwd then .error .noCwd
  else
    match path, c.root, c.pwd with
    | b :: rest, some root, some pwd =>
      if b = 0x2f then dirLoop k fuel c (components rest) root (s.grab root)
      else dirLoop k fuel c (components path) pwd (s.grab pwd)
    | _, _, _ => .ok (none, s)

/-- The last name of a path. -/
def basename (path : List Byte) : Name := (components path).getLastD []

def namei (path : List Byte) : Except Halt (Option Ino × State) := do
  let (r, s) ← s.getDir k fuel c path
  match r with
  | none => return (none, s)
  | some dir =>
    let name := basename path
    if name = [] then return (some dir, s)
    else do
      let (r, dir, s) ← s.findEntry k c dir name
      match r with
      | none => do
        let s ← s.iput dir
        return (none, s)
      | some inr => do
        let (i, s) ← s.follow fuel dir inr
        return (some i, s.setInode i { s.inode i with iDirt := true })

/-! ## Mounting -/

/-- `sys_mount` once it has the directory, and the super block of the device. -/
def mount (dir : Ino) (sb : Sb) : Option State :=
  let m := s.inode dir
  if m.iCount ≠ 1 ∨ m.iNum = 1 then none
  else if ¬ Fs.isDir m.iMode then none
  else if (s.super sb).sImount ≠ none then none
  else if m.iMount then none
  else some { s.setInode dir { m with iMount := true, iDirt := true } with
    super := Function.update s.super sb { s.super sb with sImount := some dir } }

end State

end Linux011.Namei
