import Linux011.Buffer.Cache
import Linux011.Lib.Transition

/-!
# Processes in the buffer cache

The functions of `fs/buffer.c` and `ll_rw_block` as frames with a program counter. A step of the
process that runs is one frame's code up to the next call, return or `sleep_on`, or a part of it that
no interrupt can tell from the whole. The process is only left where it sleeps, or between two calls;
the drivers may work between any two steps. A process that sleeps may be resumed at any time, which
includes the times at which `wake_up` lets it.

1. `Frame`, one constructor for each function, and `Next`, what a frame does next.
2. `exec`, by functions.
3. `State`, `Event`, `State.next`, and the system `bufferCache`.
-/

namespace Linux011.Buffer

/-! ## Frames -/

/-- The program counter of `get_hash_table`. -/
inductive GetHashTablePc (n : ℕ)
  | find
  | wait (bh : Fin n)

/-- The program counter of `getblk`: at `repeat`, back from `get_hash_table`, at the free list, in its
loop, with a victim (also after `sync_dev`), or with the buffer to return. -/
inductive GetblkPc (n : ℕ)
  | atRepeat
  | hash
  | free
  | scan (tmp : Fin n) (bh : Option (Fin n))
  | victim (bh : Fin n)
  | sync (bh : Fin n)
  | ret (bh : Fin n)

/-- The program counter of `bread`. -/
inductive BreadPc (n : ℕ)
  | start
  | getblk
  | got (bh : Fin n)
  | reading (bh : Fin n)
  | wait (bh : Fin n)
  | releasing
  | failed
  | null

/-- The program counter of `breada`; `tmp` is a block that is only read ahead. -/
inductive BreadaPc (n : ℕ)
  | start
  | getblk
  | got (bh : Fin n)
  | reading (bh : Fin n)
  | ahead (bh : Fin n)
  | getAhead (bh : Fin n)
  | gotAhead (bh tmp : Fin n)
  | readAhead (bh tmp : Fin n)
  | drop (bh tmp : Fin n)
  | wait (bh : Fin n)
  | releasing
  | failed
  | null

/-- The program counter of `make_request`; `scan k` looks for an empty request below entry `k`. -/
inductive MakeRequestPc
  | start
  | lock
  | scan (k : ℕ)

/-- The program counter of `sync_dev`, in its first or `second` loop. -/
inductive SyncDevPc
  | loop (second : Bool) (i : ℕ)
  | wait (second : Bool) (i : ℕ)
  | writing (second : Bool) (i : ℕ)
  | inodes

/-- The program counter of `sys_sync`. -/
inductive SysSyncPc
  | start
  | inodes
  | wait (i : ℕ)
  | writing (i : ℕ)

/-- The program counter of `sync_inodes`, with that of `write_inode`. -/
inductive SyncInodesPc (n : ℕ)
  | loop
  | reading
  | got (bh : Fin n)
  | modifying (bh : Fin n)
  | release (bh : Fin n)
  | releasing
  | null

/-- The program counter of `file_write`, in its loop over blocks. -/
inductive FileWritePc (n : ℕ)
  | loop
  | reading
  | got (bh : Fin n)
  | copying (bh : Fin n)
  | releasing

/-- An activation of a function: its arguments and where it is. `modify` is the use that most holders
make of a buffer, stores to its data and then `b_dirt = 1`; `file_write` sets `b_dirt` first. -/
inductive Frame (n : ℕ)
  | getHashTable (dev : Dev) (block : Block) (pc : GetHashTablePc n)
  | getblk (dev : Dev) (block : Block) (pc : GetblkPc n)
  | bread (dev : Dev) (block : Block) (pc : BreadPc n)
  | breada (dev : Dev) (first : Block) (rest : List Block) (pc : BreadaPc n)
  | brelse (buf : Option (Fin n))
  | llRwBlock (rw : Rw) (bh : Fin n)
  | makeRequest (major : Fin 7) (rw : Rw) (bh : Fin n) (pc : MakeRequestPc)
  | syncDev (dev : Dev) (pc : SyncDevPc)
  | sysSync (pc : SysSyncPc)
  | syncInodes (pc : SyncInodesPc n)
  | fileWrite (dev : Dev) (blocks : List Block) (pc : FileWritePc n)
  | modify (bh : Fin n)

/-- The buffer whose data the frame may store to. -/
def Frame.touches {n : ℕ} : Frame n → Option (Fin n)
  | .modify bh | .fileWrite _ _ (.copying bh) => some bh
  | _ => none

/-- What a frame does next: go on, call, return (null for `void`), or sleep. -/
inductive Next (n : ℕ)
  | goto (f : Frame n)
  | call (f g : Frame n)
  | ret (v : Option (Fin n))
  | sleep (f : Frame n)
  | panic

/-- What the code under study leaves open: which inodes `sync_inodes` finds dirty, and what holders
store. -/
inductive Choice (α : Type*)
  | go
  | inode (dev : Dev) (block : Block)
  | wait
  | write (i : Fin 2) (v : α)

/-- What a caller does with a returned value. -/
def Frame.receive {n : ℕ} (v : Option (Fin n)) : Frame n → Frame n
  | .getblk dev block .hash =>
    match v with
    | some bh => .getblk dev block (.ret bh)
    | none => .getblk dev block .free
  | .getblk dev block (.sync bh) => .getblk dev block (.victim bh)
  | .bread dev block .getblk =>
    match v with
    | some bh => .bread dev block (.got bh)
    | none => .bread dev block .null
  | .bread dev block (.reading bh) => .bread dev block (.wait bh)
  | .bread dev block .releasing => .bread dev block .failed
  | .breada dev first rest .getblk =>
    match v with
    | some bh => .breada dev first rest (.got bh)
    | none => .breada dev first rest .null
  | .breada dev first rest (.reading bh) => .breada dev first rest (.ahead bh)
  | .breada dev first rest (.getAhead bh) =>
    match v with
    | some tmp => .breada dev first rest (.gotAhead bh tmp)
    | none => .breada dev first rest (.ahead bh)
  | .breada dev first rest (.readAhead bh tmp) => .breada dev first rest (.drop bh tmp)
  | .breada dev first rest .releasing => .breada dev first rest .failed
  | .syncDev dev (.writing second i) => .syncDev dev (.loop second (i + 1))
  | .syncDev dev .inodes => .syncDev dev (.loop true 0)
  | .sysSync .inodes => .sysSync (.wait 0)
  | .sysSync (.writing i) => .sysSync (.wait (i + 1))
  | .syncInodes .reading =>
    match v with
    | some bh => .syncInodes (.got bh)
    | none => .syncInodes .null
  | .syncInodes (.modifying bh) => .syncInodes (.release bh)
  | .syncInodes .releasing => .syncInodes .loop
  | .fileWrite dev blocks .reading =>
    match v with
    | some bh => .fileWrite dev blocks (.got bh)
    | none => .fileWrite dev [] .loop
  | .fileWrite dev blocks .releasing => .fileWrite dev blocks .loop
  | f => f

/-! ## The code -/

namespace Cache

variable {α : Type*} {n : ℕ}

/-- `get_hash_table`. -/
def getHashTable (c : Cache α n) (dev : Dev) (block : Block) :
    GetHashTablePc n → Cache α n × Next n
  | .find =>
    match c.findBuffer dev block with
    | none => (c, .ret none)
    | some bh => (c.setCount bh (c.bCount bh + 1), .goto (.getHashTable dev block (.wait bh)))
  | .wait bh =>
    if c.bLock bh then (c, .sleep (.getHashTable dev block (.wait bh)))
    else if c.Carries bh dev block then (c, .ret (some bh))
    else (c.setCount bh (c.bCount bh - 1), .goto (.getHashTable dev block .find))

/-- The body of the loop of `getblk` at `tmp`: the best victim so far, and whether to stop. -/
def better (c : Cache α n) (tmp : Fin n) (bh : Option (Fin n)) : Option (Fin n) × Bool :=
  if c.bCount tmp ≠ 0 then (bh, false)
  else
    match bh with
    | none => (some tmp, c.badness tmp = 0)
    | some b => if c.badness tmp < c.badness b then (some tmp, c.badness tmp = 0) else (bh, false)

/-- `getblk`. -/
def getblk (c : Cache α n) (dev : Dev) (block : Block) : GetblkPc n → Cache α n × Next n
  | .atRepeat => (c, .call (.getblk dev block .hash) (.getHashTable dev block .find))
  | .free => (c, .goto (.getblk dev block (.scan c.freeList none)))
  | .scan tmp bh =>
    let (bh, stop) := c.better tmp bh
    let tmp := c.bNextFree tmp
    if stop = false ∧ tmp ≠ some c.freeList then
      match tmp with
      | some tmp => (c, .goto (.getblk dev block (.scan tmp bh)))
      | none => (c, .panic)
    else
      match bh with
      | none => (c, .sleep (.getblk dev block .atRepeat))
      | some bh => (c, .goto (.getblk dev block (.victim bh)))
  | .victim bh =>
    if c.bLock bh then (c, .sleep (.getblk dev block (.victim bh)))
    else if c.bCount bh ≠ 0 then (c, .goto (.getblk dev block .atRepeat))
    else if c.bDirt bh then
      (c, .call (.getblk dev block (.sync bh)) (.syncDev (c.bDev bh) (.loop false 0)))
    else if (c.findBuffer dev block).isSome then (c, .goto (.getblk dev block .atRepeat))
    else
      match c.reassign bh dev block with
      | some c => (c, .goto (.getblk dev block (.ret bh)))
      | none => (c, .panic)
  | .ret bh => (c, .ret (some bh))
  | .hash => (c, .goto (.getblk dev block .hash))
  | .sync bh => (c, .goto (.getblk dev block (.sync bh)))

/-- `bread`. -/
def bread (c : Cache α n) (dev : Dev) (block : Block) : BreadPc n → Cache α n × Next n
  | .start => (c, .call (.bread dev block .getblk) (.getblk dev block .atRepeat))
  | .got bh =>
    if c.bUptodate bh then (c, .ret (some bh))
    else (c, .call (.bread dev block (.reading bh)) (.llRwBlock .read bh))
  | .wait bh =>
    if c.bLock bh then (c, .sleep (.bread dev block (.wait bh)))
    else if c.bUptodate bh then (c, .ret (some bh))
    else (c, .call (.bread dev block .releasing) (.brelse (some bh)))
  | .failed => (c, .ret none)
  | .null => (c, .panic)
  | pc => (c, .goto (.bread dev block pc))

/-- `breada`. The read-ahead asks for `bh`, not for `tmp`. -/
def breada (c : Cache α n) (dev : Dev) (first : Block) (rest : List Block) :
    BreadaPc n → Cache α n × Next n
  | .start => (c, .call (.breada dev first rest .getblk) (.getblk dev first .atRepeat))
  | .got bh =>
    if c.bUptodate bh then (c, .goto (.breada dev first rest (.ahead bh)))
    else (c, .call (.breada dev first rest (.reading bh)) (.llRwBlock .read bh))
  | .ahead bh =>
    match rest with
    | [] => (c, .goto (.breada dev first [] (.wait bh)))
    | next :: rest =>
      (c, .call (.breada dev first rest (.getAhead bh)) (.getblk dev next .atRepeat))
  | .gotAhead bh tmp =>
    if c.bUptodate tmp then (c, .goto (.breada dev first rest (.drop bh tmp)))
    else (c, .call (.breada dev first rest (.readAhead bh tmp)) (.llRwBlock .readA bh))
  | .drop bh tmp => (c.setCount tmp (c.bCount tmp - 1), .goto (.breada dev first rest (.ahead bh)))
  | .wait bh =>
    if c.bLock bh then (c, .sleep (.breada dev first rest (.wait bh)))
    else if c.bUptodate bh then (c, .ret (some bh))
    else (c, .call (.breada dev first rest .releasing) (.brelse (some bh)))
  | .failed => (c, .ret none)
  | .null => (c, .panic)
  | pc => (c, .goto (.breada dev first rest pc))

/-- `brelse`. -/
def brelse (c : Cache α n) : Option (Fin n) → Cache α n × Next n
  | none => (c, .ret none)
  | some buf =>
    if c.bLock buf then (c, .sleep (.brelse (some buf)))
    else (c.setCount buf (c.bCount buf - 1), if c.bCount buf = 0 then .panic else .ret none)

/-- `ll_rw_block`: nothing happens without a driver. -/
def llRwBlock (c : Cache α n) (rw : Rw) (bh : Fin n) : Cache α n × Next n :=
  if h : major (c.bDev bh) < 7 then
    if c.requestFn ⟨major (c.bDev bh), h⟩ then
      (c, .goto (.makeRequest ⟨major (c.bDev bh), h⟩ rw bh .start))
    else (c, .ret none)
  else (c, .ret none)

/-- Where the search for an empty request starts: the last third is only for reads. -/
def lastRequest : Cmd → ℕ
  | .read => 32
  | .write => 32 * 2 / 3

/-- `make_request`. -/
def makeRequest (c : Cache α n) (major : Fin 7) (rw : Rw) (bh : Fin n) :
    MakeRequestPc → Cache α n × Next n
  | .start =>
    if rw.ahead ∧ c.bLock bh then (c, .ret none) else (c, .goto (.makeRequest major rw bh .lock))
  | .lock =>
    if c.bLock bh then (c, .sleep (.makeRequest major rw bh .lock))
    else if (rw.cmd = .write ∧ c.bDirt bh = false) ∨ (rw.cmd = .read ∧ c.bUptodate bh) then
      (c, .ret none)
    else (c.setLock bh true, .goto (.makeRequest major rw bh (.scan (lastRequest rw.cmd))))
  | .scan 0 =>
    if rw.ahead then (c.setLock bh false, .ret none)
    else (c, .sleep (.makeRequest major rw bh (.scan (lastRequest rw.cmd))))
  | .scan (k + 1) =>
    if c.slotFree k then (c.addRequest major (c.request k rw.cmd bh), .ret none)
    else (c, .goto (.makeRequest major rw bh (.scan k)))

/-- `sync_dev`. -/
def syncDev (c : Cache α n) (dev : Dev) : SyncDevPc → Cache α n × Next n
  | .loop second i =>
    if h : i < n then
      if c.bDev ⟨i, h⟩ ≠ dev then (c, .goto (.syncDev dev (.loop second (i + 1))))
      else (c, .goto (.syncDev dev (.wait second i)))
    else if second then (c, .ret none)
    else (c, .call (.syncDev dev .inodes) (.syncInodes .loop))
  | .wait second i =>
    if h : i < n then
      if c.bLock ⟨i, h⟩ then (c, .sleep (.syncDev dev (.wait second i)))
      else if c.bDev ⟨i, h⟩ = dev ∧ c.bDirt ⟨i, h⟩ then
        (c, .call (.syncDev dev (.writing second i)) (.llRwBlock .write ⟨i, h⟩))
      else (c, .goto (.syncDev dev (.loop second (i + 1))))
    else (c, .panic)
  | pc => (c, .goto (.syncDev dev pc))

/-- `sys_sync`. -/
def sysSync (c : Cache α n) : SysSyncPc → Cache α n × Next n
  | .start => (c, .call (.sysSync .inodes) (.syncInodes .loop))
  | .wait i =>
    if h : i < n then
      if c.bLock ⟨i, h⟩ then (c, .sleep (.sysSync (.wait i)))
      else if c.bDirt ⟨i, h⟩ then (c, .call (.sysSync (.writing i)) (.llRwBlock .write ⟨i, h⟩))
      else (c, .goto (.sysSync (.wait (i + 1))))
    else (c, .ret none)
  | pc => (c, .goto (.sysSync pc))

/-- `sync_inodes`, as far as it uses buffers: it may wait for inodes, and writes each dirty one to
its block. -/
def syncInodes (c : Cache α n) (ch : Choice α) : SyncInodesPc n → Cache α n × Next n
  | .loop =>
    match ch with
    | .inode dev block => (c, .call (.syncInodes .reading) (.bread dev block .start))
    | .wait => (c, .sleep (.syncInodes .loop))
    | _ => (c, .ret none)
  | .got bh => (c, .call (.syncInodes (.modifying bh)) (.modify bh))
  | .release bh => (c, .call (.syncInodes .releasing) (.brelse (some bh)))
  | .null => (c, .panic)
  | pc => (c, .goto (.syncInodes pc))

/-- A holder's stores, and `b_dirt = 1` after the last. -/
def modify (c : Cache α n) (ch : Choice α) (bh : Fin n) : Cache α n × Next n :=
  match ch with
  | .write i v => (c.setData bh i v, .goto (.modify bh))
  | _ => (c.setDirt bh true, .ret none)

/-- `file_write`, as far as it uses buffers: `blocks` are those that `create_block` finds. While it
copies from user space it may have to wait for a page. -/
def fileWrite (c : Cache α n) (ch : Choice α) (dev : Dev) (blocks : List Block) :
    FileWritePc n → Cache α n × Next n
  | .loop =>
    match blocks with
    | [] => (c, .ret none)
    | block :: blocks => (c, .call (.fileWrite dev blocks .reading) (.bread dev block .start))
  | .got bh => (c.setDirt bh true, .goto (.fileWrite dev blocks (.copying bh)))
  | .copying bh =>
    match ch with
    | .write i v => (c.setData bh i v, .goto (.fileWrite dev blocks (.copying bh)))
    | .wait => (c, .sleep (.fileWrite dev blocks (.copying bh)))
    | _ => (c, .call (.fileWrite dev blocks .releasing) (.brelse (some bh)))
  | pc => (c, .goto (.fileWrite dev blocks pc))

/-- One step of the innermost frame. -/
def exec (c : Cache α n) (ch : Choice α) : Frame n → Cache α n × Next n
  | .getHashTable dev block pc => c.getHashTable dev block pc
  | .getblk dev block pc => c.getblk dev block pc
  | .bread dev block pc => c.bread dev block pc
  | .breada dev first rest pc => c.breada dev first rest pc
  | .brelse buf => c.brelse buf
  | .llRwBlock rw bh => c.llRwBlock rw bh
  | .makeRequest major rw bh pc => c.makeRequest major rw bh pc
  | .syncDev dev pc => c.syncDev dev pc
  | .sysSync pc => c.sysSync pc
  | .syncInodes pc => c.syncInodes ch pc
  | .fileWrite dev blocks pc => c.fileWrite ch dev blocks pc
  | .modify bh => c.modify ch bh

end Cache

/-! ## The system -/

/-- A task, below `NR_TASKS`. -/
abbrev Pid := Fin 64

/-- A buffer that a process got for `(dev, block)` and has not released. -/
structure Held (n : ℕ) where
  bh : Fin n
  dev : Dev
  block : Block
  deriving DecidableEq

/-- The cache, the calls each process is in (innermost first) and the buffers it holds, the process
that runs, and, for the specification only, what was last stored in every block. -/
structure State (α : Type*) (n : ℕ) where
  cache : Cache α n
  stack : Pid → List (Frame n)
  held : Pid → List (Held n)
  cur : Option Pid
  store : Dev → Block → Fin 2 → α

/-- What a process may call. -/
inductive Call (n : ℕ)
  | getHashTable (dev : Dev) (block : Block)
  | getblk (dev : Dev) (block : Block)
  | bread (dev : Dev) (block : Block)
  | breada (dev : Dev) (first : Block) (rest : List Block)
  | brelse (buf : Option (Fin n))
  | syncDev (dev : Dev)
  | sysSync
  | fileWrite (dev : Dev) (blocks : List Block)
  | modify (bh : Fin n)

/-- The first frame of a call. -/
def Call.frame {n : ℕ} : Call n → Frame n
  | .getHashTable dev block => .getHashTable dev block .find
  | .getblk dev block => .getblk dev block .atRepeat
  | .bread dev block => .bread dev block .start
  | .breada dev first rest => .breada dev first rest .start
  | .brelse buf => .brelse buf
  | .syncDev dev => .syncDev dev (.loop false 0)
  | .sysSync => .sysSync .start
  | .fileWrite dev blocks => .fileWrite dev blocks .loop
  | .modify bh => .modify bh

/-- What the value `v` of a finished call gives to the process. -/
def Frame.gives (v : Option (Fin n)) : Frame n → List (Held n)
  | .getHashTable dev block _ | .getblk dev block _ | .bread dev block _ | .breada dev block _ _ =>
    match v with
    | some bh => [⟨bh, dev, block⟩]
    | none => []
  | _ => []

/-- What may happen next. -/
inductive Event (α : Type*) (n : ℕ)
  | schedule (p : Pid)
  | yield
  | start (c : Call n)
  | run (ch : Choice α)
  | transfer (m : Fin 7)
  | complete (m : Fin 7) (uptodate : Bool)

namespace State

variable {α : Type*} {n : ℕ}

def setStack (s : State α n) (p : Pid) (fs : List (Frame n)) : State α n :=
  { s with stack := Function.update s.stack p fs }

def setHeld (s : State α n) (p : Pid) (hs : List (Held n)) : State α n :=
  { s with held := Function.update s.held p hs }

/-- What is stored in which block after a step of `f`. -/
def stored (s : State α n) (ch : Choice α) (f : Frame n) : Dev → Block → Fin 2 → α :=
  match f.touches, ch with
  | some bh, .write i v =>
    let dev := s.cache.bDev bh
    let block := s.cache.bBlocknr bh
    Function.update s.store dev (Function.update (s.store dev) block
      (Function.update (s.store dev block) i v))
  | _, _ => s.store

/-- The process `p` with the calls `f :: fs` makes a step. After a panic nothing runs. -/
def run (s : State α n) (p : Pid) (f : Frame n) (fs : List (Frame n)) (ch : Choice α) :
    Option (State α n) :=
  let s' : State α n := { s with cache := (s.cache.exec ch f).1, store := s.stored ch f }
  match (s.cache.exec ch f).2 with
  | .goto f => some (s'.setStack p (f :: fs))
  | .call f g => some (s'.setStack p (g :: f :: fs))
  | .sleep f => some { s'.setStack p (f :: fs) with cur := none }
  | .ret v =>
    match fs with
    | [] => some ((s'.setStack p []).setHeld p (f.gives v ++ s.held p))
    | g :: fs => some (s'.setStack p (g.receive v :: fs))
  | .panic => none

/-- What a process gives away when it starts a call. -/
def giveUp (hs : List (Held n)) : Call n → List (Held n)
  | .brelse (some bh) => hs.eraseP (·.bh = bh)
  | _ => hs

def next (s : State α n) : Event α n → Option (State α n)
  | .schedule p => if s.cur = none then some { s with cur := some p } else none
  | .yield =>
    match s.cur with
    | some p => if (s.stack p).isEmpty then some { s with cur := none } else none
    | none => none
  | .start c =>
    match s.cur with
    | some p =>
      if (s.stack p).isEmpty then
        some ((s.setStack p [c.frame]).setHeld p (giveUp (s.held p) c))
      else none
    | none => none
  | .run ch =>
    match s.cur with
    | some p =>
      match s.stack p with
      | f :: fs => s.run p f fs ch
      | [] => none
    | none => none
  | .transfer m => (s.cache.transfer m).map fun c => { s with cache := c }
  | .complete m uptodate => (s.cache.endRequest m uptodate).map fun c => { s with cache := c }

/-- A list of events, one after the other. -/
def steps (s : State α n) : List (Event α n) → Option (State α n)
  | [] => some s
  | e :: es => (s.next e).bind fun s => s.steps es

/-- The state after `buffer_init` and `blk_dev_init`; what the numbers of the buffers and their data
are is left to chance. -/
def boot [NeZero n] (blocknr : Fin n → Block) (data : Fin n → Fin 2 → α) (requestFn : Fin 7 → Bool)
    (disk : Dev → BitVec 32 → α) : State α n where
  cache :=
    { Queues.init blocknr with
      bUptodate := fun _ => false
      bDirt := fun _ => false
      bCount := fun _ => 0
      bLock := fun _ => false
      bData := data
      requestFn := requestFn
      currentRequest := fun _ => []
      disk := disk }
  stack _ := []
  held _ := []
  cur := none
  store dev block i := disk dev (sectorOf block i)

/-- The states after boot. No driver is ever registered for major 0. -/
def Init [NeZero n] (s : State α n) : Prop :=
  ∃ blocknr data requestFn disk, requestFn 0 = false ∧ s = boot blocknr data requestFn disk

end State

/-- The system. -/
def bufferCache (α : Type*) (n : ℕ) [NeZero n] : System (State α n) (Event α n) where
  init := State.Init
  step s e s' := s.next e = some s'

/-- What a list of events leads to is reachable. -/
theorem reachable_steps {α : Type*} {n : ℕ} [NeZero n] {s s' : State α n}
    (h : (bufferCache α n).Reachable s) :
    ∀ {es : List (Event α n)}, s.steps es = some s' → (bufferCache α n).Reachable s' := by
  intro es
  induction es generalizing s with
  | nil => rintro ⟨⟩; exact h
  | cons e es ih =>
    intro hs
    obtain ⟨t, ht, hs⟩ := Option.bind_eq_some_iff.1 hs
    exact ih (h.next ht) hs

end Linux011.Buffer
