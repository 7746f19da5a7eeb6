import Linux011.Blk.Request

/-!
# The driver of the hard disk

`kernel/blk_drv/hd.c`, without `sys_setup`, which fills in `Disks`. The queue is the list of requests
from `CURRENT` on. A turn of `do_hd_request` from `repeat` on is a step, and so is what an interrupt does
up to its `do_hd_request`. What the controller reports is part of the event.

1. `Disks`, `Request`, `Registers`, `State`. What is only remembered is said to be so.
2. `endRequest`, `badRwIntr`, `hdOut`, `doHdRequest`.
3. `readIntr`, `writeIntr`, `recalIntr`; `next`, the system `disk`.
-/

namespace Linux011.Hd

open Blk (Cmd)

abbrev Word := BitVec 32

abbrev Byte := BitVec 8

/-- `struct hd_i_struct`, without `lzone`. -/
structure Info where
  head : Word
  sect : Word
  cyl : Word
  wpcom : Word
  ctl : Word

/-- `struct hd_struct`: a partition, or the whole disk. -/
structure Partition where
  startSect : Word
  nrSects : Word

/-- `NR_HD`, `hd_info` and `hd`. -/
structure Disks where
  nrHd : ℕ
  info : ℕ → Info
  hd : ℕ → Partition

/-- What `hd_interrupt` calls. -/
inductive Handler
  | read
  | write
  | recal
  deriving DecidableEq

/-- What has set `reset` or `recalibrate`. -/
inductive Cause
  | boot
  /-- The controller. -/
  | device
  /-- The errors of a request. -/
  | errors (id : ℕ)
  deriving DecidableEq

/-- The sector `sector` of a disk, to or from the memory at `buffer`. -/
structure Transfer where
  cmd : Cmd
  buffer : Word
  drive : ℕ
  sector : ℕ
  deriving DecidableEq

/-- Remembered of a request: what was asked for, what was transferred, and all its errors. -/
structure Account where
  sector : Word
  buffer : Word
  transfers : List Transfer
  errors : ℕ
  deriving DecidableEq

/-- A request of `make_request`; `waiting`, `bh` and `next` are for the queue. -/
structure Request where
  /-- Remembered: the requests are numbered. -/
  id : ℕ
  dev : BitVec 16
  cmd : Cmd
  errors : ℕ
  sector : Word
  nrSectors : Word
  buffer : Word
  /-- `bh->b_lock` -/
  bLock : Bool
  account : Account

/-- The registers of the controller. -/
structure Registers where
  ctl : Byte
  precomp : Byte
  nsector : Byte
  sector : Byte
  lcyl : Byte
  hcyl : Byte
  current : Byte
  command : Byte
  deriving DecidableEq

def winRestore : Byte := 0x10
def winRead : Byte := 0x20
def winWrite : Byte := 0x30
def winSpecify : Byte := 0x91

def maxErrors : ℕ := 7

namespace Registers

variable (r : Registers)

def drive : ℕ := r.current.toNat / 16 % 2

def head : ℕ := r.current.toNat % 16

def cyl : ℕ := r.hcyl.toNat * 256 + r.lcyl.toNat

/-- The sector of the disk that the registers denote. Sectors of a track are counted from 1. -/
def absolute (d : Disks) : ℕ :=
  (r.cyl * (d.info r.drive).head.toNat + r.head) * (d.info r.drive).sect.toNat + r.sector.toNat - 1

end Registers

/-- What the driver does not survive. -/
inductive Fault
  /-- It uses `CURRENT` when it is null. -/
  | null
  | requestListDestroyed
  | blockNotLocked
  /-- A division by zero. -/
  | divide
  | badSector
  | notReady
  deriving DecidableEq

structure State where
  /-- From `CURRENT` on. -/
  queue : List Request
  /-- Set, and remembered by what. -/
  reset : Option Cause
  recalibrate : Option Cause
  doHd : Option Handler
  /-- At `repeat` in `do_hd_request`. -/
  atRepeat : Bool
  /-- The last command, if there was one. -/
  regs : Option Registers
  /-- How many of its sectors are done. -/
  moved : ℕ
  /-- What was sent to the controller last. -/
  data : Word
  /-- Remembered: how many requests there were. -/
  added : ℕ
  /-- Remembered: the completed requests, and if they are up to date. -/
  ended : List (Request × Bool)
  /-- Remembered: the requests for which the controller was reset or recalibrated, and why. -/
  decided : List (ℕ × Cause)

/-- Counts an error. -/
def Request.fail (r : Request) : Request :=
  { r with
    errors := r.errors + 1
    account := { r.account with errors := r.account.errors + 1 } }

def Request.major (r : Request) : ℕ := r.dev.toNat / 256

def Request.minor (r : Request) : ℕ := r.dev.toNat % 256

namespace State

variable (s : State)

def endRequest (uptodate : Bool) : Except Fault State :=
  match s.queue with
  | [] => .error .null
  | r :: q => .ok { s with queue := q, ended := s.ended ++ [(r, uptodate)] }

/-- `bad_rw_intr`. After `end_request`, `CURRENT` is another request, or null. -/
def badRwIntr : Except Fault State :=
  match s.queue with
  | [] => .error .null
  | r :: q => do
    let s := { s with queue := r.fail :: q }
    let s ← if maxErrors ≤ r.fail.errors then s.endRequest false else pure s
    match s.queue with
    | [] => .error .null
    | c :: _ => pure (if maxErrors / 2 < c.errors then { s with reset := some (.errors r.id) } else s)

/-- `hd_out`, when the controller is `ready`. -/
def hdOut (d : Disks) (ready : Bool) (drive nsect sect head cyl : Word) (cmd : Byte)
    (intr : Handler) : Except Fault State :=
  let info := d.info drive.toNat
  if 1 < drive ∨ 15 < head then .error .badSector
  else if !ready then .error .notReady
  else
    .ok { s with
      doHd := some intr
      moved := 0
      regs := some {
        ctl := info.ctl.setWidth 8
        precomp := (info.wpcom >>> 2).setWidth 8
        nsector := nsect.setWidth 8
        sector := sect.setWidth 8
        lcyl := cyl.setWidth 8
        hcyl := (cyl >>> 8).setWidth 8
        current := (0xa0 ||| drive <<< 4 ||| head).setWidth 8
        command := cmd } }

/-- `reset_hd`. -/
def resetHd (d : Disks) (ready : Bool) (nr : Word) : Except Fault State :=
  let info := d.info nr.toNat
  s.hdOut d ready nr info.sect info.sect (info.head - 1) info.cyl winSpecify .recal

/-- Remembered: the decision for `CURRENT`. -/
def decideFor (r : Request) (c : Cause) : State := { s with decided := s.decided ++ [(r.id, c)] }

/-- `do_hd_request` from `repeat` on, to its end or to another `goto repeat`. When a sector can be
written, the controller sets `DRQ_STAT`. -/
def doHdRequest (d : Disks) (ready drq : Bool) : Except Fault State :=
  match s.queue with
  | [] => .ok { s with atRepeat := false }
  | r :: _ =>
    if r.major ≠ 3 then .error .requestListDestroyed
    else if !r.bLock then .error .blockNotLocked
    else if 5 * d.nrHd ≤ r.minor ∨ (d.hd r.minor).nrSects < r.sector + 2 then s.endRequest false
    else
      let drive := BitVec.ofNat 32 (r.minor / 5)
      let info := d.info (r.minor / 5)
      let block := r.sector + (d.hd r.minor).startSect
      if info.sect = 0 ∨ info.head = 0 then .error .divide
      else
        let sec := block % info.sect + 1
        let head := block / info.sect % info.head
        let cyl := block / info.sect / info.head
        match s.reset with
        | some c =>
          ({ s with reset := none, recalibrate := some c, atRepeat := false }.decideFor r c).resetHd d ready
            drive
        | none =>
          match s.recalibrate with
          | some c =>
            ({ s with recalibrate := none, atRepeat := false }.decideFor r c).hdOut d ready drive info.sect
              0 0 0 winRestore .recal
          | none =>
            match r.cmd with
            | .write => do
              let s ← s.hdOut d ready drive r.nrSectors sec head cyl winWrite .write
              if drq then pure { s with data := r.buffer, atRepeat := false } else s.badRwIntr
            | .read =>
              { s with atRepeat := false }.hdOut d ready drive r.nrSectors sec head cyl winRead .read

/-! ## Interrupts -/

/-- A sector of the last command is done. -/
def transfer (d : Disks) (cmd : Cmd) (buffer : Word) : List Transfer :=
  match s.regs with
  | none => []
  | some g => [⟨cmd, buffer, g.drive, g.absolute d + s.moved⟩]

end State

/-- A sector is read: `errors` is counted for each. -/
def Request.read (r : Request) (ts : List Transfer) : Request :=
  { r with
    errors := 0
    buffer := r.buffer + 512
    sector := r.sector + 1
    nrSectors := r.nrSectors - 1
    account := { r.account with transfers := r.account.transfers ++ ts } }

/-- A sector is written. -/
def Request.wrote (r : Request) (ts : List Transfer) : Request :=
  { r with
    nrSectors := r.nrSectors - 1
    account := { r.account with transfers := r.account.transfers ++ ts } }

/-- To the sector to be written next. -/
def Request.forth (r : Request) : Request :=
  { r with sector := r.sector + 1, buffer := r.buffer + 512 }

namespace State

variable (s : State)

/-- `win_result` is that all is well. -/
def readIntr (d : Disks) (ok : Bool) : Except Fault State :=
  if !ok then do
    let s ← s.badRwIntr
    pure { s with atRepeat := true }
  else
    match s.queue with
    | [] => .error .null
    | r :: q =>
      let r := r.read (s.transfer d .read r.buffer)
      let s := { s with queue := r :: q, moved := s.moved + 1 }
      if r.nrSectors ≠ (0 : Word) then .ok { s with doHd := some .read }
      else do
        let s ← s.endRequest true
        pure { s with atRepeat := true }

def writeIntr (d : Disks) (ok : Bool) : Except Fault State :=
  if !ok then do
    let s ← s.badRwIntr
    pure { s with atRepeat := true }
  else
    match s.queue with
    | [] => .error .null
    | r :: q =>
      let r := r.wrote (s.transfer d .write s.data)
      let s := { s with moved := s.moved + 1 }
      if r.nrSectors ≠ (0 : Word) then
        .ok { s with queue := r.forth :: q, doHd := some .write, data := r.forth.buffer }
      else do
        let s ← { s with queue := r :: q }.endRequest true
        pure { s with atRepeat := true }

def recalIntr (ok : Bool) : Except Fault State := do
  let s ← if ok then pure s else s.badRwIntr
  pure { s with atRepeat := true }

/-- `hd_interrupt`, which takes the handler out of `do_hd`. `unexpected_hd_interrupt` only prints. -/
def interrupt (d : Disks) (ok : Bool) : Except Fault State :=
  let s' := { s with doHd := none }
  match s.doHd with
  | none => .ok s'
  | some .read => s'.readIntr d ok
  | some .write => s'.writeIntr d ok
  | some .recal => s'.recalIntr ok

end State

/-! ## The system -/

inductive Event
  /-- `make_request` of a block of a partition, and its place behind `CURRENT` and `k` others. -/
  | add (minor : Byte) (cmd : Cmd) (block buffer : Word) (k : ℕ)
  /-- A turn of `do_hd_request`. -/
  | turn (ready drq : Bool)
  | interrupt (ok : Bool)

namespace State

variable (s : State)

/-- The request that `make_request` makes. -/
def made (minor : Byte) (cmd : Cmd) (block buffer : Word) : Request where
  id := s.added
  dev := 0x0300 ||| minor.setWidth 16
  cmd := cmd
  errors := 0
  sector := block <<< 1
  nrSectors := 2
  buffer := buffer
  bLock := true
  account := ⟨block <<< 1, buffer, [], 0⟩

/-- `add_request` calls `do_hd_request` if there is nothing else to do. -/
def add (minor : Byte) (cmd : Cmd) (block buffer : Word) (k : ℕ) : State :=
  let r := s.made minor cmd block buffer
  match s.queue with
  | [] => { s with queue := [r], atRepeat := true, added := s.added + 1 }
  | c :: q => { s with queue := c :: (q.take k ++ r :: q.drop k), added := s.added + 1 }

/-- Nothing else happens in `do_hd_request`. -/
def next (d : Disks) : Event → Option (Except Fault State)
  | .add minor cmd block buffer k =>
    if s.atRepeat then none else some (.ok (s.add minor cmd block buffer k))
  | .turn ready drq => if s.atRepeat then some (s.doHdRequest d ready drq) else none
  | .interrupt ok => if s.atRepeat then none else some (s.interrupt d ok)

theorem next_cases {d : Disks} {s : State} {e : Event} {x : Except Fault State}
    (hs : s.next d e = some x) :
    (∃ minor cmd block buffer k, e = .add minor cmd block buffer k ∧ s.atRepeat = false ∧
      x = .ok (s.add minor cmd block buffer k)) ∨
    (∃ ready drq, e = .turn ready drq ∧ s.atRepeat = true ∧ s.doHdRequest d ready drq = x) ∨
    ∃ ok, e = .interrupt ok ∧ s.atRepeat = false ∧ s.interrupt d ok = x := by
  unfold State.next at hs
  cases e with
  | add minor cmd block buffer k =>
    dsimp only at hs
    split at hs
    · cases hs
    · next hrep => exact .inl ⟨minor, cmd, block, buffer, k, rfl, eq_false_of_ne_true hrep,
      (Option.some.inj hs).symm⟩
  | turn ready drq =>
    dsimp only at hs
    split at hs
    · next hrep => exact .inr (.inl ⟨ready, drq, rfl, hrep, Option.some.inj hs⟩)
    · cases hs
  | interrupt ok =>
    dsimp only at hs
    split at hs
    · cases hs
    · next hrep => exact .inr (.inr ⟨ok, rfl, eq_false_of_ne_true hrep, Option.some.inj hs⟩)

/-- `reset` and `recalibrate` are set at first. -/
def boot : State where
  queue := []
  reset := some .boot
  recalibrate := some .boot
  doHd := none
  atRepeat := false
  regs := none
  moved := 0
  data := 0
  added := 0
  ended := []
  decided := []

end State

def disk (d : Disks) : System State Event where
  init s := s = .boot
  step s e s' := s.next d e = some (.ok s')

/-- A step that the driver survives. -/
def State.go (d : Disks) (s : State) (e : Event) : Option State :=
  match s.next d e with
  | some (.ok s') => some s'
  | _ => none

theorem next_of_go {d : Disks} {s s' : State} {e : Event} (h : s.go d e = some s') : s.next d e = some (.ok s') := by
  unfold State.go at h
  split at h
  · next t ht =>
    cases h
    exact ht
  · cases h

/-- What a run ends with. -/
theorem exec_any {d : Disks} {ok : State → Event → Prop} [∀ s e, Decidable (ok s e)]
    {es : List Event} {P : State → Bool}
    (h : (System.execWhen (State.go d) ok .boot es).any (P ·) = true) :
    ∃ s, (disk d).ReachableWhen ok s ∧ P s = true := by
  obtain ⟨s, hs, hP⟩ := (Option.any_eq_true _ _).1 h
  exact ⟨s, (System.ReachableWhen.init rfl).exec (fun _ _ _ h => next_of_go h) hs, hP⟩

end Linux011.Hd
