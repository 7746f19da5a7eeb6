import Linux011.Buffer.Queues

/-!
# The buffer cache and the request queues

All fields of the buffer heads, the data they point to, the request queue of each block device and
the disks. A block is two sectors, of contents `α`.

1. `Cache`, and `Cache.badness`, the order in which `getblk` looks for a victim.
2. `reassign`: `getblk` gives a victim to another block.
3. Requests: `inOrder`, `addRequest` with its elevator, and what the drivers do, `transfer` and
   `endRequest`.
-/

namespace Linux011.Buffer

/-- What `make_request` is asked for. -/
inductive Rw
  | read
  | write
  | readA
  | writeA
  deriving DecidableEq

/-- `cmd` of a request, `READ` or `WRITE`. -/
inductive Cmd
  | read
  | write
  deriving DecidableEq

/-- `rw_ahead`. -/
def Rw.ahead : Rw → Bool
  | .read | .write => false
  | .readA | .writeA => true

def Rw.cmd : Rw → Cmd
  | .read | .readA => .read
  | .write | .writeA => .write

/-- An entry of `request[]` in use, the one at `slot`. `buffer` counts the sectors from `b_data` on. -/
structure Request (n : ℕ) where
  slot : ℕ
  dev : Dev
  cmd : Cmd
  sector : BitVec 32
  nrSectors : ℕ
  buffer : ℕ
  bh : Fin n

/-- `IN_ORDER`: reads before writes, then by device and sector. -/
def inOrder {n : ℕ} (s₁ s₂ : Request n) : Bool :=
  match s₁.cmd, s₂.cmd with
  | .read, .write => true
  | .write, .read => false
  | _, _ => s₁.dev < s₂.dev || (s₁.dev = s₂.dev && s₁.sector < s₂.sector)

/-- `MAJOR`. -/
def major (dev : Dev) : ℕ := dev.toNat / 256

/-- The number of sector `i` of a block, `b_blocknr << 1` and the next. -/
def sectorOf (block : Block) (i : Fin 2) : BitVec 32 := block <<< 1 + BitVec.ofNat 32 i

/-- The buffer heads and their data, `request_fn` and `current_request` of the block devices with
the requests behind it, and the sectors of every disk. -/
structure Cache (α : Type*) (n : ℕ) extends Queues n where
  bUptodate : Fin n → Bool
  bDirt : Fin n → Bool
  bCount : Fin n → BitVec 8
  bLock : Fin n → Bool
  bData : Fin n → Fin 2 → α
  requestFn : Fin 7 → Bool
  currentRequest : Fin 7 → List (Request n)
  disk : Dev → BitVec 32 → α

namespace Cache

variable {α : Type*} {n : ℕ}

/-- `BADNESS`. -/
def badness (c : Cache α n) (bh : Fin n) : ℕ := 2 * (c.bDirt bh).toNat + (c.bLock bh).toNat

def setCount (c : Cache α n) (bh : Fin n) (k : BitVec 8) : Cache α n :=
  { c with bCount := Function.update c.bCount bh k }

def setDirt (c : Cache α n) (bh : Fin n) (v : Bool) : Cache α n :=
  { c with bDirt := Function.update c.bDirt bh v }

def setLock (c : Cache α n) (bh : Fin n) (v : Bool) : Cache α n :=
  { c with bLock := Function.update c.bLock bh v }

def setUptodate (c : Cache α n) (bh : Fin n) (v : Bool) : Cache α n :=
  { c with bUptodate := Function.update c.bUptodate bh v }

def setData (c : Cache α n) (bh : Fin n) (i : Fin 2) (v : α) : Cache α n :=
  { c with bData := Function.update c.bData bh (Function.update (c.bData bh) i v) }

def setDisk (c : Cache α n) (dev : Dev) (sector : BitVec 32) (v : α) : Cache α n :=
  { c with disk := Function.update c.disk dev (Function.update (c.disk dev) sector v) }

def setQueue (c : Cache α n) (m : Fin 7) (q : List (Request n)) : Cache α n :=
  { c with currentRequest := Function.update c.currentRequest m q }

/-- The end of `getblk`: `bh`, clean and unused, becomes the buffer of `(dev, block)`. -/
def reassign (c : Cache α n) (bh : Fin n) (dev : Dev) (block : Block) : Option (Cache α n) :=
  let c := ((c.setCount bh 1).setDirt bh false).setUptodate bh false
  match c.toQueues.move bh dev block with
  | none => none
  | some q => some { c with toQueues := q }

/-! ## Requests -/

/-- Entry `k` of `request[]` is empty: its `dev` is -1. -/
def slotFree (c : Cache α n) (k : ℕ) : Bool :=
  decide (∀ m, ∀ r ∈ c.currentRequest m, r.slot ≠ k)

/-- How `make_request` fills in entry `k`. -/
def request (c : Cache α n) (k : ℕ) (cmd : Cmd) (bh : Fin n) : Request n where
  slot := k
  dev := c.bDev bh
  cmd := cmd
  sector := c.bBlocknr bh <<< 1
  nrSectors := 2
  buffer := 0
  bh := bh

/-- The loop of `add_request` in a queue `tmp :: rest`. -/
def elevator (req : Request n) : Request n → List (Request n) → List (Request n)
  | tmp, [] => [tmp, req]
  | tmp, next :: rest =>
    if (inOrder tmp req || !inOrder tmp next) && inOrder req next then tmp :: req :: next :: rest
    else tmp :: elevator req next rest

/-- `add_request`. -/
def addRequest (c : Cache α n) (m : Fin 7) (req : Request n) : Cache α n :=
  (c.setDirt req.bh false).setQueue m
    (match c.currentRequest m with
    | [] => [req]
    | tmp :: rest => elevator req tmp rest)

/-- The driver of `m` moves the next sector of its current request. -/
def transfer (c : Cache α n) (m : Fin 7) : Option (Cache α n) :=
  match c.currentRequest m with
  | [] => none
  | r :: rs =>
    if r.nrSectors = 0 then none
    else
      let i := Fin.ofNat 2 r.buffer
      let c := match r.cmd with
        | .read => c.setData r.bh i (c.disk r.dev r.sector)
        | .write => c.setDisk r.dev r.sector (c.bData r.bh i)
      some (c.setQueue m
        ({ r with
          sector := r.sector + 1
          buffer := r.buffer + 1
          nrSectors := r.nrSectors - 1 } :: rs))

/-- `end_request`. The driver ends a request with success once it has moved all its sectors, and
with failure at any time. -/
def endRequest (c : Cache α n) (m : Fin 7) (uptodate : Bool) : Option (Cache α n) :=
  match c.currentRequest m with
  | [] => none
  | r :: rs =>
    if uptodate = true ∧ r.nrSectors ≠ 0 then none
    else some (((c.setUptodate r.bh uptodate).setLock r.bh false).setQueue m rs)

/-- The elevator loses no request. -/
theorem elevator_perm (req tmp : Request n) (rest : List (Request n)) :
    (elevator req tmp rest).Perm (req :: tmp :: rest) := by
  induction rest generalizing tmp with
  | nil => exact List.Perm.swap req tmp []
  | cons next rest ih =>
    unfold elevator
    split
    · exact List.Perm.swap req tmp _
    · exact ((ih next).cons tmp).trans (List.Perm.swap req tmp _)

/-- The queue of `m` after `add_request`. -/
theorem addRequest_perm (c : Cache α n) (m : Fin 7) (req : Request n) :
    ((c.addRequest m req).currentRequest m).Perm (req :: c.currentRequest m) := by
  simp only [addRequest, setQueue, Function.update_self]
  split
  · next h => rw [show c.currentRequest m = [] from h]
  · next tmp rest h => rw [show c.currentRequest m = tmp :: rest from h]; exact elevator_perm ..

end Cache

end Linux011.Buffer
