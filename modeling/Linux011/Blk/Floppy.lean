import Linux011.Blk.Hd

/-!
# The driver of the floppy disks

`kernel/blk_drv/floppy.c`, without `floppy_change`. What an interrupt, a timer or a new request makes the
driver do is a step; `Answer` is what the hardware does meanwhile. Of the motors
(`ticks_to_floppy_on`), only the time that they need is there.

1. `Kind`, `Request`, `State`. What is only remembered is said to be so.
2. `outputBytes`, `result`. `resetFloppy`, `recalibrateFloppy`, `transfer`, `doFdRequest`.
3. The interrupts; `next`, the system `floppies`.
-/

namespace Linux011.Floppy

open Blk (Cmd)
open Hd (Word Byte Cause Fault)

/-- `struct floppy_struct`, without `track` and `gap`. -/
structure Kind where
  size : ℕ
  sect : ℕ
  head : ℕ
  stretch : ℕ
  rate : Byte
  spec1 : Byte

/-- `floppy_type`, and what is in memory behind it. -/
def floppyType (behind : ℕ → Kind) (n : ℕ) : Kind :=
  [⟨0, 0, 0, 0, 0x00, 0x00⟩,
    ⟨720, 9, 2, 0, 0x02, 0xDF⟩,
    ⟨2400, 15, 2, 0, 0x00, 0xDF⟩,
    ⟨720, 9, 2, 1, 0x02, 0xDF⟩,
    ⟨1440, 9, 2, 0, 0x02, 0xDF⟩,
    ⟨720, 9, 2, 1, 0x01, 0xDF⟩,
    ⟨1440, 9, 2, 0, 0x01, 0xDF⟩,
    ⟨2880, 18, 2, 0, 0x00, 0xCF⟩].getD n (behind n)

/-- What `floppy_interrupt` calls. -/
inductive Handler
  | rw
  | seek
  | recal
  | reset
  deriving DecidableEq

/-- What a timer calls. -/
inductive Timer
  | floppyOn
  | transfer
  deriving DecidableEq

/-- A request of `make_request`. The number of sectors is not looked at. -/
structure Request where
  /-- Remembered: the requests are numbered. -/
  id : ℕ
  dev : BitVec 16
  cmd : Cmd
  errors : ℕ
  sector : Word
  buffer : Word
  /-- `bh->b_lock` -/
  bLock : Bool

def Request.major (r : Request) : ℕ := r.dev.toNat / 256

def Request.minor (r : Request) : ℕ := r.dev.toNat % 256

/-- What the hardware does in a step: if it takes the bytes of each command, and what it answers. -/
structure Answer where
  /-- `FD_SENSEI` -/
  sense : Bool
  /-- The number of bytes that `result` gets; none if it takes too long. -/
  reply : Option ℕ
  st0 : Byte
  st1 : Byte
  st2 : Byte
  /-- `FD_SPECIFY` of `reset_interrupt`. -/
  setup : Bool
  /-- `FD_SPECIFY` of `transfer`. -/
  specify : Bool
  /-- `FD_RECALIBRATE` of `recalibrate_floppy`. -/
  recalibrate : Bool
  /-- The command of `transfer` or of `setup_rw_floppy`. -/
  command : Bool
  /-- `ticks_to_floppy_on` -/
  ticks : ℕ
  /-- `current_drive == (current_DOR & 3)` -/
  selected : Bool

structure State where
  /-- From `CURRENT` on. -/
  queue : List Request
  /-- Set, and remembered by what. -/
  reset : Option Cause
  recalibrate : Option Cause
  seek : Bool
  /-- `ST0` to `ST2` of `reply_buffer`. -/
  st0 : Byte
  st1 : Byte
  st2 : Byte
  /-- `*floppy` -/
  kind : Kind
  /-- Unknown after a reset, as `curRate`. -/
  curSpec1 : Option Byte
  curRate : Option Byte
  currentDrive : Byte
  sector : Byte
  head : Byte
  track : Byte
  seekTrack : Byte
  currentTrack : Byte
  command : Byte
  doFloppy : Option Handler
  /-- The timers of the driver. -/
  timers : List Timer
  /-- Remembered: how many requests there were. -/
  added : ℕ
  /-- Remembered: the completed requests, and if they are up to date. -/
  ended : List (Request × Bool)
  /-- Remembered: the requests for which there was a reset or a recalibration, and why. -/
  decided : List (ℕ × Cause)

def maxErrors : ℕ := 8

def fdRead : Byte := 0xE6
def fdWrite : Byte := 0xC5

namespace State

variable (s : State) (a : Answer)

def endRequest (uptodate : Bool) : Except Fault State :=
  match s.queue with
  | [] => .error .null
  | r :: q => .ok { s with queue := q, ended := s.ended ++ [(r, uptodate)] }

/-- Some calls of `output_byte`; `ok` if the controller takes all the bytes. -/
def outputBytes (ok : Bool) : State :=
  if s.reset.isSome || ok then s else { s with reset := some .device }

/-- `result`: what it returns is none for -1. -/
def result : Option ℕ × State :=
  if s.reset.isSome then (none, s)
  else
    (a.reply, { s with
      st0 := a.st0
      st1 := a.st1
      st2 := a.st2
      reset := if a.reply.isSome then none else some .device })

/-- Remembered: the decision for `CURRENT`. -/
def decideFor (c : Cause) : State :=
  match s.queue with
  | [] => s
  | r :: _ => { s with decided := s.decided ++ [(r.id, c)] }

/-- `reset_floppy`; `c` has set `reset`. -/
def resetFloppy (c : Cause) : State :=
  { s with
    reset := none
    curSpec1 := none
    curRate := none
    recalibrate := some c
    doFloppy := some .reset }.decideFor c

/-- `if (reset) do_fd_request()`: see `doFdRequest_reset`. -/
def orReset : State :=
  match s.reset with
  | some c => { s with seek := false }.resetFloppy c
  | none => s

/-- `recalibrate_floppy`; `c` has set `recalibrate`. -/
def recalibrateFloppy (c : Cause) : State :=
  (({ s with
    recalibrate := none
    currentTrack := 0
    doFloppy := some .recal }.decideFor c).outputBytes a.recalibrate).orReset

/-- `setup_rw_floppy`, with `setup_DMA`, which uses `CURRENT->buffer`. -/
def setupRwFloppy : Except Fault State :=
  match s.queue with
  | [] => .error .null
  | _ :: _ => .ok ({ s with doFloppy := some .rw }.outputBytes a.command).orReset

/-- `transfer` from `if (!seek)` on. -/
def seekOrRw : Except Fault State :=
  if s.seek then .ok ({ s with doFloppy := some .seek }.outputBytes a.command).orReset
  else s.setupRwFloppy a

def transfer : Except Fault State :=
  let s :=
    if s.curSpec1 ≠ some s.kind.spec1 then
      { s with curSpec1 := some s.kind.spec1 }.outputBytes a.specify
    else s
  let s := { s with curRate := some s.kind.rate }
  if s.reset.isSome then .ok s.orReset else s.seekOrRw a

def floppyOnInterrupt : Except Fault State :=
  if a.selected then s.transfer a else .ok { s with timers := s.timers ++ [.transfer] }

/-- `add_timer(ticks_to_floppy_on(current_drive),&floppy_on_interrupt)`. -/
def addFloppyOn : Except Fault State :=
  if a.ticks = 0 then s.floppyOnInterrupt a else .ok { s with timers := s.timers ++ [.floppyOn] }

end State

/-- `do_fd_request` from `repeat` on, for a queue. -/
def fromRepeat (behind : ℕ → Kind) (a : Answer) : State → List Request → Except Fault State
  | s, [] => .ok { s with queue := [] }
  | s, r :: q =>
    if r.major ≠ 2 then .error .requestListDestroyed
    else if !r.bLock then .error .blockNotLocked
    else
      let kind := floppyType behind (r.minor / 4)
      let drive := BitVec.ofNat 8 (r.minor % 4)
      let seek := s.seek || s.currentDrive != drive
      if kind.size < (r.sector + 2).toNat then
        fromRepeat behind a { s with
          kind := kind
          seek := seek
          currentDrive := drive
          ended := s.ended ++ [(r, false)] } q
      else if kind.sect = 0 ∨ kind.head = 0 then .error .divide
      else
        let block := r.sector.toNat / kind.sect
        let track := BitVec.ofNat 8 (block / kind.head)
        let seekTrack := track <<< kind.stretch
        { s with
          queue := r :: q
          kind := kind
          currentDrive := drive
          sector := BitVec.ofNat 8 (r.sector.toNat % kind.sect + 1)
          head := BitVec.ofNat 8 (block % kind.head)
          track := track
          seekTrack := seekTrack
          seek := seek || seekTrack != s.currentTrack
          command := match r.cmd with
            | .read => fdRead
            | .write => fdWrite }.addFloppyOn a

namespace State

variable (s : State) (behind : ℕ → Kind) (a : Answer)

def doFdRequest : Except Fault State :=
  let s := { s with seek := false }
  match s.reset with
  | some c => .ok (s.resetFloppy c)
  | none =>
    match s.recalibrate with
    | some c => .ok (s.recalibrateFloppy a c)
    | none => fromRepeat behind a s s.queue

/-! ## Interrupts -/

/-- `bad_flp_intr`. After `end_request`, `CURRENT` is another request, or null. -/
def badFlpIntr : Except Fault State :=
  match s.queue with
  | [] => .error .null
  | r :: q => do
    let r := { r with errors := r.errors + 1 }
    let s := { s with queue := r :: q }
    let s ← if maxErrors < r.errors then s.endRequest false else pure s
    match s.queue with
    | [] => .error .null
    | c :: _ =>
      pure (if maxErrors / 2 < c.errors then { s with reset := some (.errors r.id) }
        else { s with recalibrate := some (.errors r.id) })

/-- The test of `rw_interrupt`, with what `result` returns. -/
def rwGood (n : Option ℕ) : Bool :=
  n == some 7 && s.st0 &&& 0xf8 == 0 && s.st1 &&& 0xbf == 0 && s.st2 &&& 0x73 == 0

def rwInterrupt : Except Fault State :=
  let (n, s) := s.result a
  if s.rwGood n then do
    let s ← s.endRequest true
    s.doFdRequest behind a
  else do
    let s ← if s.st1 &&& 0x02 ≠ 0 then s.endRequest false else s.badFlpIntr
    s.doFdRequest behind a

/-- The test of `seek_interrupt`. -/
def seekGood (n : Option ℕ) : Bool :=
  n == some 2 && s.st0 &&& 0xF8 == 0x20 && s.st1 == s.seekTrack

def seekInterrupt : Except Fault State :=
  let (n, s) := (s.outputBytes a.sense).result a
  if s.seekGood n then { s with currentTrack := s.st1 }.setupRwFloppy a
  else do
    let s ← s.badFlpIntr
    s.doFdRequest behind a

/-- The test of `recal_interrupt`. -/
def recalGood (n : Option ℕ) : Bool :=
  n == some 2 && s.st0 &&& 0xE0 != 0x60

def recalInterrupt : Except Fault State :=
  let (n, s) := (s.outputBytes a.sense).result a
  let s := if s.recalGood n then { s with recalibrate := none } else { s with reset := some .device }
  s.doFdRequest behind a

def unexpectedFloppyInterrupt : State :=
  let (n, s) := (s.outputBytes a.sense).result a
  if s.recalGood n then { s with recalibrate := some .device } else { s with reset := some .device }

def resetInterrupt : Except Fault State :=
  let (_, s) := (s.outputBytes a.sense).result a
  (s.outputBytes a.setup).doFdRequest behind a

/-- `floppy_interrupt`, which takes the handler out of `do_floppy`. -/
def interrupt : Except Fault State :=
  let s' := { s with doFloppy := none }
  match s.doFloppy with
  | none => .ok (s'.unexpectedFloppyInterrupt a)
  | some .rw => s'.rwInterrupt behind a
  | some .seek => s'.seekInterrupt behind a
  | some .recal => s'.recalInterrupt behind a
  | some .reset => s'.resetInterrupt behind a

/-- A timer fires. -/
def fire : Timer → Except Fault State
  | .floppyOn => s.floppyOnInterrupt a
  | .transfer => s.transfer a

end State

/-! ## The system -/

inductive Event
  /-- `make_request` of a block, and its place behind `CURRENT` and `k` others. -/
  | add (minor : Byte) (cmd : Cmd) (block buffer : Word) (k : ℕ) (a : Answer)
  /-- The timer at this place fires. -/
  | timer (n : ℕ) (a : Answer)
  | interrupt (a : Answer)

namespace State

variable (s : State) (behind : ℕ → Kind)

/-- The request that `make_request` makes. -/
def made (minor : Byte) (cmd : Cmd) (block buffer : Word) : Request where
  id := s.added
  dev := 0x0200 ||| minor.setWidth 16
  cmd := cmd
  errors := 0
  sector := block <<< 1
  buffer := buffer
  bLock := true

/-- `add_request` calls `do_fd_request` if there is no other request. -/
def add (minor : Byte) (cmd : Cmd) (block buffer : Word) (k : ℕ) (a : Answer) : Except Fault State :=
  let r := s.made minor cmd block buffer
  match s.queue with
  | [] => { s with queue := [r], added := s.added + 1 }.doFdRequest behind a
  | c :: q => .ok { s with queue := c :: (q.take k ++ r :: q.drop k), added := s.added + 1 }

def next : Event → Option (Except Fault State)
  | .add minor cmd block buffer k a => some (s.add behind minor cmd block buffer k a)
  | .timer n a => s.timers[n]?.map ({ s with timers := s.timers.eraseIdx n }.fire a)
  | .interrupt a => some (s.interrupt behind a)

def boot : State where
  queue := []
  reset := none
  recalibrate := none
  seek := false
  st0 := 0
  st1 := 0
  st2 := 0
  kind := ⟨0, 0, 0, 0, 0x00, 0x00⟩
  curSpec1 := none
  curRate := none
  currentDrive := 0
  sector := 0
  head := 0
  track := 0
  seekTrack := 0
  currentTrack := 255
  command := 0
  doFloppy := none
  timers := []
  added := 0
  ended := []
  decided := []

end State

/-- `behind` is what is in memory behind the table of the kinds. -/
def floppies (behind : ℕ → Kind) : System State Event where
  init s := s = .boot
  step s e s' := s.next behind e = some (.ok s')

end Linux011.Floppy
