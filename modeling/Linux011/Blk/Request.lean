import Linux011.Lib.Chain
import Linux011.Lib.Sizes
import Linux011.Lib.Transition
import Mathlib.Data.List.FinRange

/-!
# Requests to block devices

`kernel/blk_drv/ll_rw_blk.c`, and `end_request` of `kernel/blk_drv/blk.h`. A process may be left
where it sleeps, for the lock of a buffer or for a slot, and where interrupts matter: before it
searches for a slot, and between this and the `cli` of `add_request`. In these two places only
`end_request` can come between, but the other processes are not kept out.

1. `Request`, `BufferHead`, `State`.
2. `makeRequest`, `lockBuffer`, `search`, `addRequest`; `endRequest`.
3. `State.next`, `requests`.
-/

namespace Linux011.Blk

/-- A pointer into `request`. -/
abbrev Slot := Fin 32

/-- An index into `blk_dev`. -/
abbrev Major := Fin 7

inductive Cmd
  | read
  | write
  deriving DecidableEq

def Cmd.code : Cmd → ℕ
  | .read => 0
  | .write => 1

/-- What `ll_rw_block` is asked for. -/
inductive Rw
  | read
  | write
  | reada
  | writea
  deriving DecidableEq

def Rw.cmd : Rw → Cmd
  | .read | .reada => .read
  | .write | .writea => .write

def Rw.ahead : Rw → Bool
  | .reada | .writea => true
  | .read | .write => false

/-- `bh` is the buffer, of which there are `β`. The fields `buffer` and `waiting` are for the drivers. -/
structure Request (β : Type*) where
  dev : ℤ
  cmd : Cmd
  errors : ℕ
  sector : BitVec 32
  nrSectors : BitVec 32
  bh : Option β
  next : Option Slot
  /-- The requests are numbered as they are put on a queue. -/
  id : ℕ

structure BufferHead where
  dev : BitVec 16
  blocknr : BitVec 32
  lock : Bool
  dirt : Bool
  uptodate : Bool

/-- Where a process is. -/
inductive Pc (β : Type*)
  | out
  /-- In the `sleep_on` of `lock_buffer`. -/
  | locking (major : Major) (cmd : Cmd) (ahead : Bool) (b : β)
  /-- In `make_request` at `repeat`, with the buffer locked. -/
  | repeating (major : Major) (cmd : Cmd) (ahead : Bool) (b : β)
  /-- Before the `cli` of `add_request`, with the slot filled up. -/
  | adding (major : Major) (req : Slot) (b : β)

structure State (ι β : Type*) where
  request : Slot → Request β
  /-- `current_request` of each `blk_dev`. -/
  current : Major → Option Slot
  /-- The `request_fn` that are not null. -/
  driver : Major → Bool
  bh : β → BufferHead
  proc : ι → Pc β
  /-- How many requests were put on a queue. -/
  added : ℕ
  /-- The requests that `end_request` has completed. -/
  completed : List ℕ

namespace State

variable {ι β : Type*} [DecidableEq ι] [DecidableEq β] (s : State ι β)

def setProc (p : ι) (c : Pc β) : State ι β :=
  { s with proc := Function.update s.proc p c }

def setBh (b : β) (h : BufferHead) : State ι β :=
  { s with bh := Function.update s.bh b h }

def setRequest (i : Slot) (r : Request β) : State ι β :=
  { s with request := Function.update s.request i r }

def unlockBuffer (b : β) : State ι β :=
  s.setBh b { s.bh b with lock := false }

/-! ## The queue -/

/-- `IN_ORDER`. -/
def inOrder (i j : Slot) : Bool :=
  let s1 := s.request i
  let s2 := s.request j
  s1.cmd.code < s2.cmd.code || s1.cmd = s2.cmd &&
    (s1.dev < s2.dev || s1.dev = s2.dev && s1.sector.ult s2.sector)

/-- The loop of `add_request`; `none` is that it does not come to an end in so many turns. -/
def place (req : Slot) : ℕ → Slot → Option Slot
  | 0, _ => none
  | n + 1, tmp =>
    match (s.request tmp).next with
    | none => some tmp
    | some next =>
      if (s.inOrder tmp req || !s.inOrder tmp next) && s.inOrder req next then some tmp
      else place req n next

/-- `if (req->bh) req->bh->b_dirt = 0`. -/
def clean : Option β → State ι β
  | some b => s.setBh b { s.bh b with dirt := false }
  | none => s

/-- `add_request`, from the `cli` on. -/
def addRequest (major : Major) (req : Slot) : Option (State ι β) :=
  let r := s.request req
  let s := { s.setRequest req { r with next := none, id := s.added } with added := s.added + 1 }
  let s := s.clean r.bh
  match s.current major with
  | none => some { s with current := Function.update s.current major (some req) }
  | some tmp => (s.place req 32 tmp).map fun tmp =>
    let t := s.request tmp
    let s := s.setRequest req { s.request req with next := t.next }
    s.setRequest tmp { s.request tmp with next := some req }

/-- What `end_request` does to the buffer. -/
def finish (uptodate : Bool) : Option β → State ι β
  | some b => s.setBh b { s.bh b with uptodate := uptodate, lock := false }
  | none => s

/-- `end_request`; `none` is that there is no request to end. -/
def endRequest (major : Major) (uptodate : Bool) : Option (State ι β) :=
  (s.current major).map fun i =>
    let r := s.request i
    let s := s.finish uptodate r.bh
    { s.setRequest i { r with dev := -1 } with
      current := Function.update s.current major r.next
      completed := s.completed ++ [r.id] }

/-! ## Making a request -/

/-- The search for an empty request: writes leave the last third of them to the reads. -/
def search (cmd : Cmd) : Option Slot :=
  (List.finRange 32).reverse.find? fun i =>
    (cmd = .read || i.val < 32 * 2 / 3) && (s.request i).dev < 0

/-- `make_request` from `repeat` up to `add_request`. -/
def repeats (p : ι) (major : Major) (cmd : Cmd) (ahead : Bool) (b : β) : State ι β :=
  match s.search cmd with
  | some i =>
    let h := s.bh b
    (s.setRequest i ⟨h.dev.toNat, cmd, 0, h.blocknr <<< 1, 2, some b, none, 0⟩).setProc p
      (.adding major i b)
  | none =>
    if ahead then (s.unlockBuffer b).setProc p .out
    else s

/-- `lock_buffer` and the test after it. -/
def lockBuffer (p : ι) (major : Major) (cmd : Cmd) (ahead : Bool) (b : β) : State ι β :=
  let h := s.bh b
  if h.lock then s.setProc p (.locking major cmd ahead b)
  else
    let s := s.setBh b { h with lock := true }
    if cmd = .write && !h.dirt || cmd = .read && h.uptodate then (s.unlockBuffer b).setProc p .out
    else s.setProc p (.repeating major cmd ahead b)

def makeRequest (p : ι) (major : Major) (rw : Rw) (b : β) : State ι β :=
  if rw.ahead && (s.bh b).lock then s
  else s.lockBuffer p major rw.cmd rw.ahead b

/-- `MAJOR(bh->b_dev)`, if there is such a device. -/
def major (b : β) : Option Major :=
  let n := (s.bh b).dev.toNat / 256
  if h : n < 7 then if s.driver ⟨n, h⟩ then some ⟨n, h⟩ else none
  else none

def llRwBlock (p : ι) (rw : Rw) (b : β) : State ι β :=
  match s.major b with
  | some major => s.makeRequest p major rw b
  | none => s

end State

inductive Event (ι β : Type*)
  | llRwBlock (p : ι) (rw : Rw) (b : β)
  /-- The process goes on from where it was left. -/
  | run (p : ι)
  | endRequest (major : Major) (uptodate : Bool)
  /-- A driver has done a part of the request in service. -/
  | advance (major : Major) (errors : ℕ) (sector nrSectors : BitVec 32)
  /-- The rest of the kernel uses a buffer. -/
  | use (b : β) (h : BufferHead)

namespace State

variable {ι β : Type*} [DecidableEq ι] [DecidableEq β] (s : State ι β)

def run (p : ι) : Option (State ι β) :=
  match s.proc p with
  | .out => none
  | .locking major cmd ahead b => some (s.lockBuffer p major cmd ahead b)
  | .repeating major cmd ahead b => some (s.repeats p major cmd ahead b)
  | .adding major req _ => (s.addRequest major req).map fun s => s.setProc p .out

def next : State ι β → Event ι β → Option (State ι β)
  | s, .llRwBlock p rw b =>
    match s.proc p with
    | .out => some (s.llRwBlock p rw b)
    | _ => none
  | s, .run p => s.run p
  | s, .endRequest major uptodate => s.endRequest major uptodate
  | s, .advance major errors sector nrSectors => (s.current major).map fun i =>
    s.setRequest i { s.request i with errors := errors, sector := sector, nrSectors := nrSectors }
  | s, .use b h => some (s.setBh b { h with lock := (s.bh b).lock })

end State

/-- `blk_dev_init`, with all buffers unlocked. -/
def initial {ι β : Type*} (driver : Major → Bool) (bh : β → BufferHead) : State ι β where
  request _ := ⟨-1, .read, 0, 0, 0, none, none, 0⟩
  current _ := none
  driver := driver
  bh b := { bh b with lock := false }
  proc _ := .out
  added := 0
  completed := []

def requests (ι β : Type*) [DecidableEq ι] [DecidableEq β] : System (State ι β) (Event ι β) where
  init s := ∃ driver bh, s = initial driver bh
  step s e s' := s.next e = some s'

end Linux011.Blk
