import Linux011.Buffer.Process
import Mathlib.Data.List.Chain

/-!
# Calls and steps

What the steps of the system are, read once for all invariants.

1. `Frame.kind`, the function and the arguments of a frame, and `Frame.awaits`, the calls that a
   frame waits for. `exec_next`: a step keeps the kind of its frame and calls what it then awaits.
2. `Continues`: the stacks before and after a step. `run_eq_some`, `Steps`, and the inversion lemmas
   of the events.
3. `Typed`: in a stack, every frame awaits the one it called. `Typed.next`.
-/

namespace Linux011.Buffer

variable {α : Type*} {n : ℕ}

/-! ## Kinds -/

/-- A function with its arguments; `transfer` is `ll_rw_block` and its tail call `make_request`. -/
inductive Kind (n : ℕ)
  | getHashTable (dev : Dev) (block : Block)
  | getblk (dev : Dev) (block : Block)
  | bread (dev : Dev) (block : Block)
  | breada (dev : Dev) (first : Block)
  | brelse (buf : Option (Fin n))
  | transfer (rw : Rw) (bh : Fin n)
  | syncDev (dev : Dev)
  | sysSync
  | syncInodes
  | fileWrite (dev : Dev)
  | modify (bh : Fin n)

namespace Frame

def kind : Frame n → Kind n
  | .getHashTable dev block _ => .getHashTable dev block
  | .getblk dev block _ => .getblk dev block
  | .bread dev block _ => .bread dev block
  | .breada dev first _ _ => .breada dev first
  | .brelse buf => .brelse buf
  | .llRwBlock rw bh => .transfer rw bh
  | .makeRequest _ rw bh _ => .transfer rw bh
  | .syncDev dev _ => .syncDev dev
  | .sysSync _ => .sysSync
  | .syncInodes _ => .syncInodes
  | .fileWrite dev _ _ => .fileWrite dev
  | .modify bh => .modify bh

/-- The frame has called a function of this kind and is waiting for it. -/
def awaits : Frame n → Kind n → Prop
  | .getblk dev block .hash, k => k = .getHashTable dev block
  | .getblk _ _ (.sync _), k => ∃ dev, k = .syncDev dev
  | .bread dev block .getblk, k => k = .getblk dev block
  | .bread _ _ (.reading bh), k => k = .transfer .read bh
  | .bread _ _ .releasing, k => ∃ bh, k = .brelse (some bh)
  | .breada dev first _ .getblk, k => k = .getblk dev first
  | .breada _ _ _ (.reading bh), k => k = .transfer .read bh
  | .breada dev _ _ (.getAhead _), k => ∃ block, k = .getblk dev block
  | .breada _ _ _ (.readAhead bh _), k => k = .transfer .readA bh
  | .breada _ _ _ .releasing, k => ∃ bh, k = .brelse (some bh)
  | .syncDev _ (.writing _ i), k => ∃ h : i < n, k = .transfer .write ⟨i, h⟩
  | .syncDev _ .inodes, k => k = .syncInodes
  | .sysSync (.writing i), k => ∃ h : i < n, k = .transfer .write ⟨i, h⟩
  | .sysSync .inodes, k => k = .syncInodes
  | .syncInodes .reading, k => ∃ dev block, k = .bread dev block
  | .syncInodes (.modifying bh), k => k = .modify bh
  | .syncInodes .releasing, k => ∃ bh, k = .brelse (some bh)
  | .fileWrite dev _ .reading, k => ∃ block, k = .bread dev block
  | .fileWrite _ _ .releasing, k => ∃ bh, k = .brelse (some bh)
  | _, _ => False

@[simp] theorem receive_kind (v : Option (Fin n)) (f : Frame n) : (f.receive v).kind = f.kind := by
  unfold receive
  split <;> first | rfl | (split <;> rfl)

end Frame

/-! ## What a frame stands for -/

/-- The references to `b` that the frame will give back or return. -/
def Frame.refs (b : Fin n) : Frame n → ℕ
  | .getHashTable _ _ (.wait bh) => if bh = b then 1 else 0
  | .getblk _ _ (.ret bh) => if bh = b then 1 else 0
  | .bread _ _ (.got bh) | .bread _ _ (.reading bh) | .bread _ _ (.wait bh) => if bh = b then 1 else 0
  | .breada _ _ _ (.got bh) | .breada _ _ _ (.reading bh) | .breada _ _ _ (.ahead bh)
  | .breada _ _ _ (.getAhead bh) | .breada _ _ _ (.wait bh) => if bh = b then 1 else 0
  | .breada _ _ _ (.gotAhead bh tmp) | .breada _ _ _ (.readAhead bh tmp)
  | .breada _ _ _ (.drop bh tmp) => (if bh = b then 1 else 0) + if tmp = b then 1 else 0
  | .brelse (some bh) => if bh = b then 1 else 0
  | .syncInodes (.got bh) | .syncInodes (.modifying bh) | .syncInodes (.release bh)
  | .fileWrite _ _ (.got bh) | .fileWrite _ _ (.copying bh) => if bh = b then 1 else 0
  | _ => 0

theorem Frame.refs_brelse (b bh : Fin n) : (Frame.brelse (some bh)).refs b = if bh = b then 1 else 0 := by
  simp [Frame.refs]

/-- The frame has locked `b` and not yet made its request. -/
def Frame.owns (b : Fin n) : Frame n → ℕ
  | .makeRequest _ _ bh (.scan _) => if bh = b then 1 else 0
  | _ => 0

/-- `getblk` is about to return. -/
def Frame.atRet : Frame n → Bool
  | .getblk _ _ (.ret _) => true
  | _ => false

/-- What the frame knows about its buffer. -/
def Cache.FrameOk (c : Cache α n) : Frame n → Prop
  | .getblk dev block (.ret bh) => c.Carries bh dev block
  | .bread dev block (.got bh) | .bread dev block (.reading bh) | .bread dev block (.wait bh) =>
    c.Carries bh dev block
  | .makeRequest m rw bh pc =>
    (rw = .read → m.val = major (c.bDev bh) ∧ c.requestFn m = true) ∧
      (∀ k, pc = .scan k → (c.bUptodate bh = true ↔ rw.cmd = .write))
  | .syncInodes (.got bh) | .syncInodes (.modifying bh) | .syncInodes (.release bh)
  | .fileWrite _ _ (.got bh) | .fileWrite _ _ (.copying bh) | .modify bh => c.bUptodate bh = true
  | _ => True

/-- What a returned buffer is. -/
def Cache.ValueOk (c : Cache α n) (bh : Fin n) : Kind n → Prop
  | .getHashTable dev block | .getblk dev block => c.Carries bh dev block
  | .bread dev block => c.Carries bh dev block ∧ c.bUptodate bh = true
  | .breada _ _ => True
  | _ => False

namespace Next

/-- What follows belongs to the same call, and a callee is awaited. -/
def Keeps (k : Kind n) : Next n → Prop
  | .goto f | .sleep f => f.kind = k
  | .call f g => f.kind = k ∧ f.awaits g.kind
  | .ret _ | .panic => True

def refs (b : Fin n) : Next n → ℕ
  | .goto f | .sleep f => f.refs b
  | .call f g => g.refs b + f.refs b
  | .ret (some bh) => if bh = b then 1 else 0
  | .ret none | .panic => 0

def owns (b : Fin n) : Next n → ℕ
  | .goto f | .sleep f => f.owns b
  | .call f g => g.owns b + f.owns b
  | .ret _ | .panic => 0

def atRet : Next n → Bool
  | .goto f | .sleep f => f.atRet
  | .call f g => f.atRet || g.atRet
  | .ret _ | .panic => false

def Ok (c : Cache α n) (k : Kind n) : Next n → Prop
  | .goto f | .sleep f => c.FrameOk f
  | .call f g => c.FrameOk f ∧ c.FrameOk g
  | .ret (some bh) => c.ValueOk bh k
  | .ret none | .panic => True

end Next

/-! ## Outcomes -/

/-- A step that keeps what its frame stands for. -/
structure Quiet (c : Cache α n) (f : Frame n) (nx : Next n) : Prop where
  keeps : nx.Keeps f.kind
  owns : ∀ b, nx.owns b = f.owns b
  atRet : nx.atRet = false
  ok : c.FrameOk f → nx.Ok c f.kind
  idle : f.touches = none ∨ nx = .sleep f

/-- What a step can do to the cache. -/
inductive Outcome (c : Cache α n) (ch : Choice α) : Frame n → Cache α n × Next n → Prop
  | quiet {f : Frame n} {nx : Next n} : Quiet c f nx → (∀ b, nx.refs b = f.refs b) →
      Outcome c ch f (c, nx)
  | take {dev : Dev} {block : Block} {bh : Fin n} : c.findBuffer dev block = some bh →
      Outcome c ch (.getHashTable dev block .find)
        (c.setCount bh (c.bCount bh + 1), .goto (.getHashTable dev block (.wait bh)))
  | drop {f : Frame n} {nx : Next n} (bh : Fin n) : Quiet c f nx →
      (∀ b, f.refs b = nx.refs b + if bh = b then 1 else 0) →
      Outcome c ch f (c.setCount bh (c.bCount bh - 1), nx)
  | reassign {dev : Dev} {block : Block} {bh : Fin n} {c' : Cache α n} : c.bLock bh = false →
      c.bCount bh = 0 → c.bDirt bh = false → c.findBuffer dev block = none →
      c.reassign bh dev block = some c' →
      Outcome c ch (.getblk dev block (.victim bh)) (c', .goto (.getblk dev block (.ret bh)))
  | lock {m : Fin 7} {rw : Rw} {bh : Fin n} : c.bLock bh = false →
      ¬((rw.cmd = .write ∧ c.bDirt bh = false) ∨ (rw.cmd = .read ∧ c.bUptodate bh = true)) →
      Outcome c ch (.makeRequest m rw bh .lock)
        (c.setLock bh true, .goto (.makeRequest m rw bh (.scan (Cache.lastRequest rw.cmd))))
  | unlock {m : Fin 7} {rw : Rw} {bh : Fin n} : rw.ahead = true →
      Outcome c ch (.makeRequest m rw bh (.scan 0)) (c.setLock bh false, .ret none)
  | enqueue {m : Fin 7} {rw : Rw} {bh : Fin n} {k : ℕ} : c.slotFree k = true →
      Outcome c ch (.makeRequest m rw bh (.scan (k + 1)))
        (c.addRequest m (c.request k rw.cmd bh), .ret none)
  | store {f : Frame n} {bh : Fin n} {i : Fin 2} {v : α} : f.touches = some bh → ch = .write i v →
      Outcome c ch f (c.setData bh i v, .goto f)
  | mark {dev : Dev} {blocks : List Block} {bh : Fin n} :
      Outcome c ch (.fileWrite dev blocks (.got bh))
        (c.setDirt bh true, .goto (.fileWrite dev blocks (.copying bh)))
  | copied {dev : Dev} {blocks : List Block} {bh : Fin n} : (∀ i v, ch ≠ .write i v) →
      Outcome c ch (.fileWrite dev blocks (.copying bh))
        (c, .call (.fileWrite dev blocks .releasing) (.brelse (some bh)))
  | dirty {bh : Fin n} : (∀ i v, ch ≠ .write i v) →
      Outcome c ch (.modify bh) (c.setDirt bh true, .ret none)

/-- A step stays within its call. -/
theorem Outcome.keeps {c c' : Cache α n} {ch : Choice α} {f : Frame n} {nx : Next n}
    (h : Outcome c ch f (c', nx)) : nx.Keeps f.kind := by
  generalize hr : (c', nx) = r at h
  cases h with
  | quiet hq => cases hr; exact hq.keeps
  | drop _ hq => cases hr; exact hq.keeps
  | unlock | enqueue | dirty => cases hr; trivial
  | copied => cases hr; exact ⟨rfl, _, rfl⟩
  | _ => cases hr; rfl

namespace Cache

variable (c : Cache α n) (ch : Choice α)

/-- Outcomes without an effect, with all that is to check read off by `simp`. -/
theorem quiet_of {f : Frame n} {nx : Next n} (keeps : nx.Keeps f.kind)
    (refs : ∀ b, nx.refs b = f.refs b) (owns : ∀ b, nx.owns b = f.owns b) (atRet : nx.atRet = false)
    (ok : c.FrameOk f → nx.Ok c f.kind) (idle : f.touches = none) : Outcome c ch f (c, nx) :=
  .quiet ⟨keeps, owns, atRet, ok, .inl idle⟩ refs

theorem getHashTable_outcome (dev : Dev) (block : Block) (pc : GetHashTablePc n) :
    Outcome c ch (.getHashTable dev block pc) (c.getHashTable dev block pc) := by
  cases pc with
  | find =>
    simp only [getHashTable]
    split
    · exact quiet_of c ch trivial (fun _ => rfl) (fun _ => rfl) rfl (fun _ => trivial) rfl
    · next bh h => exact .take h
  | wait bh =>
    simp only [getHashTable]
    split
    · exact quiet_of c ch rfl (fun _ => rfl) (fun _ => rfl) rfl (fun h => h) rfl
    split
    · next h =>
      exact quiet_of c ch trivial (fun _ => rfl) (fun _ => rfl) rfl (fun _ => h) rfl
    · exact .drop bh ⟨rfl, fun _ => rfl, rfl, fun h => h, .inl rfl⟩ fun b => by
        simp [Frame.refs, Next.refs]

theorem getblk_outcome (dev : Dev) (block : Block) (pc : GetblkPc n) :
    Outcome c ch (.getblk dev block pc) (c.getblk dev block pc) := by
  cases pc with
  | scan tmp bh =>
    simp only [getblk]
    split <;> split
    all_goals
      exact quiet_of c ch (by trivial) (fun _ => rfl) (fun _ => rfl) rfl (fun _ => trivial) rfl
  | victim bh =>
    simp only [getblk]
    split
    · exact quiet_of c ch rfl (fun _ => rfl) (fun _ => rfl) rfl (fun h => h) rfl
    next hl =>
    split
    · exact quiet_of c ch rfl (fun _ => rfl) (fun _ => rfl) rfl (fun h => h) rfl
    next hc =>
    split
    · exact quiet_of c ch ⟨rfl, _, rfl⟩ (fun _ => rfl) (fun _ => rfl) rfl
        (fun _ => ⟨trivial, trivial⟩) rfl
    next hd =>
    split
    · exact quiet_of c ch rfl (fun _ => rfl) (fun _ => rfl) rfl (fun h => h) rfl
    next hf =>
    split
    · next c' h =>
      exact .reassign (by simpa using hl) (by simpa using hc) (by simpa using hd)
        (by simpa using hf) h
    · exact quiet_of c ch trivial (fun _ => rfl) (fun _ => rfl) rfl (fun _ => trivial) rfl
  | atRepeat =>
    exact quiet_of c ch ⟨rfl, rfl⟩ (fun _ => rfl) (fun _ => rfl) rfl (fun _ => ⟨trivial, trivial⟩)
      rfl
  | ret bh => exact quiet_of c ch trivial (fun _ => rfl) (fun _ => rfl) rfl (fun h => h) rfl
  | _ => exact quiet_of c ch rfl (fun _ => rfl) (fun _ => rfl) rfl (fun h => h) rfl

theorem bread_outcome (dev : Dev) (block : Block) (pc : BreadPc n) :
    Outcome c ch (.bread dev block pc) (c.bread dev block pc) := by
  cases pc with
  | start =>
    exact quiet_of c ch ⟨rfl, rfl⟩ (fun _ => rfl) (fun _ => rfl) rfl (fun _ => ⟨trivial, trivial⟩)
      rfl
  | got bh =>
    simp only [bread]
    split
    · next hu =>
      exact quiet_of c ch trivial (fun _ => rfl) (fun _ => rfl) rfl (fun h => ⟨h, hu⟩) rfl
    · exact quiet_of c ch ⟨rfl, rfl⟩ (fun b => by simp [Next.refs, Frame.refs]) (fun _ => rfl) rfl
        (fun h => ⟨h, trivial⟩) rfl
  | wait bh =>
    simp only [bread]
    split
    · exact quiet_of c ch rfl (fun _ => rfl) (fun _ => rfl) rfl (fun h => h) rfl
    split
    · next hu =>
      exact quiet_of c ch trivial (fun _ => rfl) (fun _ => rfl) rfl (fun h => ⟨h, hu⟩) rfl
    · exact quiet_of c ch ⟨rfl, _, rfl⟩ (fun _ => rfl) (fun _ => rfl) rfl
        (fun _ => ⟨trivial, trivial⟩) rfl
  | failed | null =>
    exact quiet_of c ch trivial (fun _ => rfl) (fun _ => rfl) rfl (fun _ => trivial) rfl
  | _ => exact quiet_of c ch rfl (fun _ => rfl) (fun _ => rfl) rfl (fun h => h) rfl

theorem breada_outcome (dev : Dev) (first : Block) (rest : List Block) (pc : BreadaPc n) :
    Outcome c ch (.breada dev first rest pc) (c.breada dev first rest pc) := by
  cases pc with
  | start =>
    exact quiet_of c ch ⟨rfl, rfl⟩ (fun _ => rfl) (fun _ => rfl) rfl (fun _ => ⟨trivial, trivial⟩)
      rfl
  | got bh =>
    simp only [breada]
    split
    · exact quiet_of c ch rfl (fun _ => rfl) (fun _ => rfl) rfl (fun h => h) rfl
    · exact quiet_of c ch ⟨rfl, rfl⟩ (fun b => by simp [Next.refs, Frame.refs]) (fun _ => rfl) rfl
        (fun _ => ⟨trivial, trivial⟩) rfl
  | ahead bh =>
    cases rest with
    | nil => exact quiet_of c ch rfl (fun _ => rfl) (fun _ => rfl) rfl (fun h => h) rfl
    | cons next rest =>
      exact quiet_of c ch ⟨rfl, _, rfl⟩ (fun b => by simp [Next.refs, Frame.refs])
        (fun _ => rfl) rfl (fun _ => ⟨trivial, trivial⟩) rfl
  | gotAhead bh tmp =>
    simp only [breada]
    split
    · exact quiet_of c ch rfl (fun _ => rfl) (fun _ => rfl) rfl (fun h => h) rfl
    · exact quiet_of c ch ⟨rfl, rfl⟩ (fun b => by simp [Next.refs, Frame.refs]) (fun _ => rfl) rfl
        (fun _ => ⟨trivial, trivial⟩) rfl
  | drop bh tmp =>
    exact .drop tmp ⟨rfl, fun _ => rfl, rfl, fun h => h, .inl rfl⟩ fun b => rfl
  | wait bh =>
    simp only [breada]
    split
    · exact quiet_of c ch rfl (fun _ => rfl) (fun _ => rfl) rfl (fun h => h) rfl
    split
    · exact quiet_of c ch trivial (fun _ => rfl) (fun _ => rfl) rfl (fun _ => trivial) rfl
    · exact quiet_of c ch ⟨rfl, _, rfl⟩ (fun _ => rfl) (fun _ => rfl) rfl
        (fun _ => ⟨trivial, trivial⟩) rfl
  | failed | null =>
    exact quiet_of c ch trivial (fun _ => rfl) (fun _ => rfl) rfl (fun _ => trivial) rfl
  | _ => exact quiet_of c ch rfl (fun _ => rfl) (fun _ => rfl) rfl (fun h => h) rfl

theorem brelse_outcome (buf : Option (Fin n)) :
    Outcome c ch (.brelse buf) (c.brelse buf) := by
  cases buf with
  | none => exact quiet_of c ch trivial (fun _ => rfl) (fun _ => rfl) rfl (fun _ => trivial) rfl
  | some buf =>
    simp only [brelse]
    split
    · exact quiet_of c ch rfl (fun _ => rfl) (fun _ => rfl) rfl (fun h => h) rfl
    · refine .drop buf ?_ fun b => ?_
      · split <;> exact ⟨trivial, fun _ => rfl, rfl, fun _ => trivial, .inl rfl⟩
      · split <;> simp [Frame.refs_brelse, Next.refs]

theorem llRwBlock_outcome (rw : Rw) (bh : Fin n) :
    Outcome c ch (.llRwBlock rw bh) (c.llRwBlock rw bh) := by
  simp only [llRwBlock]
  split
  · next hm =>
    split
    · next hf =>
      exact quiet_of c ch rfl (fun _ => rfl) (fun _ => rfl) rfl
        (fun _ => ⟨fun _ => ⟨rfl, hf⟩, by simp⟩) rfl
    · exact quiet_of c ch trivial (fun _ => rfl) (fun _ => rfl) rfl (fun _ => trivial) rfl
  · exact quiet_of c ch trivial (fun _ => rfl) (fun _ => rfl) rfl (fun _ => trivial) rfl

theorem makeRequest_outcome (m : Fin 7) (rw : Rw) (bh : Fin n) (pc : MakeRequestPc) :
    Outcome c ch (.makeRequest m rw bh pc) (c.makeRequest m rw bh pc) := by
  cases pc with
  | start =>
    simp only [makeRequest]
    split
    · exact quiet_of c ch trivial (fun _ => rfl) (fun _ => rfl) rfl (fun _ => trivial) rfl
    · exact quiet_of c ch rfl (fun _ => rfl) (fun _ => rfl) rfl (fun h => ⟨h.1, by simp⟩) rfl
  | lock =>
    simp only [makeRequest]
    split
    · exact quiet_of c ch rfl (fun _ => rfl) (fun _ => rfl) rfl (fun h => h) rfl
    next hl =>
    split
    · exact quiet_of c ch trivial (fun _ => rfl) (fun _ => rfl) rfl (fun _ => trivial) rfl
    · next hg => exact .lock (by simpa using hl) hg
  | scan k =>
    cases k with
    | zero =>
      simp only [makeRequest]
      split
      · next ha => exact .unlock ha
      · exact quiet_of c ch rfl (fun _ => rfl) (fun _ => rfl) rfl
          (fun h => ⟨h.1, fun _ _ => h.2 _ rfl⟩) rfl
    | succ k =>
      simp only [makeRequest]
      split
      · next hk => exact .enqueue hk
      · exact quiet_of c ch rfl (fun _ => rfl) (fun _ => rfl) rfl
          (fun h => ⟨h.1, fun _ _ => h.2 _ rfl⟩) rfl

theorem syncDev_outcome (dev : Dev) (pc : SyncDevPc) :
    Outcome c ch (.syncDev dev pc) (c.syncDev dev pc) := by
  cases pc with
  | loop second i =>
    simp only [syncDev]
    split
    · split <;>
        exact quiet_of c ch rfl (fun _ => rfl) (fun _ => rfl) rfl (fun _ => trivial) rfl
    split
    · exact quiet_of c ch trivial (fun _ => rfl) (fun _ => rfl) rfl (fun _ => trivial) rfl
    · exact quiet_of c ch ⟨rfl, rfl⟩ (fun _ => rfl) (fun _ => rfl) rfl
        (fun _ => ⟨trivial, trivial⟩) rfl
  | wait second i =>
    simp only [syncDev]
    split
    · split
      · exact quiet_of c ch rfl (fun _ => rfl) (fun _ => rfl) rfl (fun _ => trivial) rfl
      split
      · exact quiet_of c ch ⟨rfl, _, rfl⟩ (fun _ => rfl) (fun _ => rfl) rfl
          (fun _ => ⟨trivial, trivial⟩) rfl
      · exact quiet_of c ch rfl (fun _ => rfl) (fun _ => rfl) rfl (fun _ => trivial) rfl
    · exact quiet_of c ch trivial (fun _ => rfl) (fun _ => rfl) rfl (fun _ => trivial) rfl
  | _ => exact quiet_of c ch rfl (fun _ => rfl) (fun _ => rfl) rfl (fun _ => trivial) rfl

theorem sysSync_outcome (pc : SysSyncPc) :
    Outcome c ch (.sysSync pc) (c.sysSync pc) := by
  cases pc with
  | start =>
    exact quiet_of c ch ⟨rfl, rfl⟩ (fun _ => rfl) (fun _ => rfl) rfl (fun _ => ⟨trivial, trivial⟩)
      rfl
  | wait i =>
    simp only [sysSync]
    split
    · split
      · exact quiet_of c ch rfl (fun _ => rfl) (fun _ => rfl) rfl (fun _ => trivial) rfl
      split
      · exact quiet_of c ch ⟨rfl, _, rfl⟩ (fun _ => rfl) (fun _ => rfl) rfl
          (fun _ => ⟨trivial, trivial⟩) rfl
      · exact quiet_of c ch rfl (fun _ => rfl) (fun _ => rfl) rfl (fun _ => trivial) rfl
    · exact quiet_of c ch trivial (fun _ => rfl) (fun _ => rfl) rfl (fun _ => trivial) rfl
  | _ => exact quiet_of c ch rfl (fun _ => rfl) (fun _ => rfl) rfl (fun _ => trivial) rfl

theorem syncInodes_outcome (pc : SyncInodesPc n) :
    Outcome c ch (.syncInodes pc) (c.syncInodes ch pc) := by
  cases pc with
  | loop =>
    cases ch with
    | inode dev block =>
      exact quiet_of c _ ⟨rfl, _, _, rfl⟩ (fun _ => rfl) (fun _ => rfl) rfl
        (fun _ => ⟨trivial, trivial⟩) rfl
    | wait => exact quiet_of c _ rfl (fun _ => rfl) (fun _ => rfl) rfl (fun _ => trivial) rfl
    | go | write =>
      exact quiet_of c _ trivial (fun _ => rfl) (fun _ => rfl) rfl (fun _ => trivial) rfl
  | got bh =>
    exact quiet_of c ch ⟨rfl, rfl⟩ (fun b => by simp [Next.refs, Frame.refs])
      (fun _ => rfl) rfl (fun h => ⟨h, h⟩) rfl
  | release bh =>
    exact quiet_of c ch ⟨rfl, _, rfl⟩ (fun _ => rfl) (fun _ => rfl) rfl
      (fun _ => ⟨trivial, trivial⟩) rfl
  | null => exact quiet_of c ch trivial (fun _ => rfl) (fun _ => rfl) rfl (fun _ => trivial) rfl
  | _ => exact quiet_of c ch rfl (fun _ => rfl) (fun _ => rfl) rfl (fun h => h) rfl

theorem fileWrite_outcome (dev : Dev) (blocks : List Block) (pc : FileWritePc n) :
    Outcome c ch (.fileWrite dev blocks pc) (c.fileWrite ch dev blocks pc) := by
  cases pc with
  | loop =>
    cases blocks with
    | nil => exact quiet_of c ch trivial (fun _ => rfl) (fun _ => rfl) rfl (fun _ => trivial) rfl
    | cons block blocks =>
      exact quiet_of c ch ⟨rfl, _, rfl⟩ (fun _ => rfl) (fun _ => rfl) rfl
        (fun _ => ⟨trivial, trivial⟩) rfl
  | got bh => exact .mark
  | copying bh =>
    cases ch with
    | write i v => exact .store rfl rfl
    | wait => exact .quiet ⟨rfl, fun _ => rfl, rfl, fun h => h, .inr rfl⟩ fun _ => rfl
    | go | inode => exact .copied (by simp)
  | _ => exact quiet_of c ch rfl (fun _ => rfl) (fun _ => rfl) rfl (fun h => h) rfl

/-- **What a step does is one of the outcomes.** -/
theorem exec_outcome (f : Frame n) : Outcome c ch f (c.exec ch f) := by
  cases f with
  | getHashTable dev block pc => exact getHashTable_outcome c ch dev block pc
  | getblk dev block pc => exact getblk_outcome c ch dev block pc
  | bread dev block pc => exact bread_outcome c ch dev block pc
  | breada dev first rest pc => exact breada_outcome c ch dev first rest pc
  | brelse buf => exact brelse_outcome c ch buf
  | llRwBlock rw bh => exact llRwBlock_outcome c ch rw bh
  | makeRequest m rw bh pc => exact makeRequest_outcome c ch m rw bh pc
  | syncDev dev pc => exact syncDev_outcome c ch dev pc
  | sysSync pc => exact sysSync_outcome c ch pc
  | syncInodes pc => exact syncInodes_outcome c ch pc
  | fileWrite dev blocks pc => exact fileWrite_outcome c ch dev blocks pc
  | modify bh =>
    cases ch with
    | write i v => exact .store rfl rfl
    | _ => exact .dirty (by simp)

/-- A step stays within its call. -/
theorem exec_next (f : Frame n) : (c.exec ch f).2.Keeps f.kind := (c.exec_outcome ch f).keeps

end Cache

/-! ## Steps -/

/-- From the calls below a frame and what it does next, the stack after its step. -/
inductive Continues : Next n → List (Frame n) → List (Frame n) → Prop
  | goto (f : Frame n) (fs : List (Frame n)) : Continues (.goto f) fs (f :: fs)
  | sleep (f : Frame n) (fs : List (Frame n)) : Continues (.sleep f) fs (f :: fs)
  | call (f g : Frame n) (fs : List (Frame n)) : Continues (.call f g) fs (g :: f :: fs)
  | finish (v : Option (Fin n)) : Continues (.ret v) [] []
  | ret (v : Option (Fin n)) (g : Frame n) (fs : List (Frame n)) :
      Continues (.ret v) (g :: fs) (g.receive v :: fs)

namespace State

variable {s s' : State α n}

/-- The step of a process, in terms of its stack. -/
theorem run_eq_some {p : Pid} {f : Frame n} {fs : List (Frame n)} {ch : Choice α}
    (h : s.run p f fs ch = some s') :
    s'.cache = (s.cache.exec ch f).1 ∧ s'.store = s.stored ch f ∧
    (∃ fs', Continues (s.cache.exec ch f).2 fs fs' ∧ s'.stack = Function.update s.stack p fs') ∧
    (∃ hs, s'.held = Function.update s.held p hs ∧ (hs = s.held p ∧ (∀ v, (s.cache.exec ch f).2 = .ret v → fs ≠ []) ∨
      ∃ v, fs = [] ∧ (s.cache.exec ch f).2 = .ret v ∧ hs = f.gives v ++ s.held p)) ∧
    (s'.cur = s.cur ∨ s'.cur = none ∧ ∃ f', (s.cache.exec ch f).2 = .sleep f') := by
  have hsame : s.held = Function.update s.held p (s.held p) := by simp
  unfold run at h
  dsimp only at h
  split at h
  · next f' hn =>
    cases h
    exact ⟨rfl, rfl, ⟨_, hn ▸ .goto f' fs, rfl⟩, ⟨_, hsame, .inl ⟨rfl, by simp [hn]⟩⟩, .inl rfl⟩
  · next f' g hn =>
    cases h
    exact ⟨rfl, rfl, ⟨_, hn ▸ .call f' g fs, rfl⟩, ⟨_, hsame, .inl ⟨rfl, by simp [hn]⟩⟩, .inl rfl⟩
  · next f' hn =>
    cases h
    exact ⟨rfl, rfl, ⟨_, hn ▸ .sleep f' fs, rfl⟩, ⟨_, hsame, .inl ⟨rfl, by simp [hn]⟩⟩, .inr ⟨rfl, f', hn⟩⟩
  · next v hn =>
    cases fs with
    | nil =>
      cases h
      exact ⟨rfl, rfl, ⟨_, hn ▸ .finish v, rfl⟩, ⟨_, rfl, .inr ⟨v, rfl, hn, rfl⟩⟩, .inl rfl⟩
    | cons g fs =>
      cases h
      exact ⟨rfl, rfl, ⟨_, hn ▸ .ret v g fs, rfl⟩, ⟨_, hsame, .inl ⟨rfl, by simp⟩⟩, .inl rfl⟩
  · cases h

/-- A step of the process `p` with the calls `f :: fs`: one of the outcomes of `f`, and what follows from
`nx` for the stack and the buffers that the process holds. -/
structure Steps (s s' : State α n) (p : Pid) (f : Frame n) (fs : List (Frame n)) (ch : Choice α)
    (nx : Next n) : Prop where
  frame : s.stack p = f :: fs
  outcome : Outcome s.cache ch f (s'.cache, nx)
  store : s'.store = s.stored ch f
  stack : ∃ fs', Continues nx fs fs' ∧ s'.stack = Function.update s.stack p fs'
  held : ∃ hs, s'.held = Function.update s.held p hs ∧
    (hs = s.held p ∧ (∀ v, nx = .ret v → fs ≠ []) ∨
      ∃ v, fs = [] ∧ nx = .ret v ∧ hs = f.gives v ++ s.held p)
  sleep : ∀ f', nx = .sleep f' → s.stored ch f = s.store

/-- A frame that goes to sleep stores nothing. -/
theorem stored_of_sleep {f f' : Frame n} {ch : Choice α} (h : (s.cache.exec ch f).2 = .sleep f') :
    s.stored ch f = s.store := by
  cases f with
  | modify bh => cases ch <;> simp [Cache.exec, Cache.modify] at h
  | fileWrite dev blocks pc =>
    cases pc with
    | copying bh => cases ch <;> first | rfl | simp [Cache.exec, Cache.fileWrite] at h
    | _ => rfl
  | _ => rfl

theorem Steps.of_run {p : Pid} {f : Frame n} {fs : List (Frame n)} {ch : Choice α}
    (hf : s.stack p = f :: fs) (h : s.run p f fs ch = some s') :
    Steps s s' p f fs ch (s.cache.exec ch f).2 := by
  obtain ⟨hcache, hstore, hstack, hheld, -⟩ := run_eq_some h
  refine ⟨hf, ?_, hstore, hstack, hheld, fun f' => stored_of_sleep⟩
  rw [show (s'.cache, (s.cache.exec ch f).2) = s.cache.exec ch f by rw [hcache]]
  exact s.cache.exec_outcome ch f

theorem next_schedule {p : Pid} (h : s.next (.schedule p) = some s') :
    s.cur = none ∧ s' = { s with cur := some p } := by
  dsimp only [next] at h
  split at h
  · next hc => exact ⟨hc, by simpa using h.symm⟩
  · cases h

theorem next_yield (h : s.next .yield = some s') :
    ∃ p, s.cur = some p ∧ s.stack p = [] ∧ s' = { s with cur := none } := by
  dsimp only [next] at h
  split at h
  · next p hp =>
    split at h
    · next he => exact ⟨p, hp, by simpa using he, by simpa using h.symm⟩
    · cases h
  · cases h

theorem next_start {c : Call n} (h : s.next (.start c) = some s') :
    ∃ p, s.cur = some p ∧ s.stack p = [] ∧
      s' = (s.setStack p [c.frame]).setHeld p (giveUp (s.held p) c) := by
  dsimp only [next] at h
  split at h
  · next p hp =>
    split at h
    · next he => exact ⟨p, hp, by simpa using he, by simpa using h.symm⟩
    · cases h
  · cases h

theorem next_run {ch : Choice α} (h : s.next (.run ch) = some s') :
    ∃ p f fs, s.cur = some p ∧ s.stack p = f :: fs ∧ s.run p f fs ch = some s' := by
  dsimp only [next] at h
  split at h
  · next p hp =>
    split at h
    · next f fs hs => exact ⟨p, f, fs, hp, hs, h⟩
    · cases h
  · cases h

theorem next_transfer {m : Fin 7} (h : s.next (.transfer m) = some s') :
    ∃ c, s.cache.transfer m = some c ∧ s' = { s with cache := c } := by
  obtain ⟨c, hc, rfl⟩ := Option.map_eq_some_iff.1 h
  exact ⟨c, hc, rfl⟩

theorem next_complete {m : Fin 7} {uptodate : Bool} (h : s.next (.complete m uptodate) = some s') :
    ∃ c, s.cache.endRequest m uptodate = some c ∧ s' = { s with cache := c } := by
  obtain ⟨c, hc, rfl⟩ := Option.map_eq_some_iff.1 h
  exact ⟨c, hc, rfl⟩

end State

/-! ## Typed stacks -/

/-- Every frame of the stack awaits the one above it. -/
def Typed (fs : List (Frame n)) : Prop := List.IsChain (fun g f => f.awaits g.kind) fs

/-- A step keeps its stack typed. -/
theorem Typed.continues {c : Cache α n} {ch : Choice α} {f : Frame n} {fs fs' : List (Frame n)}
    (h : Typed (f :: fs)) (hn : Continues (c.exec ch f).2 fs fs') : Typed fs' := by
  have hk := c.exec_next ch f
  generalize (c.exec ch f).2 = nx at hn hk
  unfold Typed at h ⊢
  rw [List.isChain_cons] at h
  cases hn with
  | goto f' | sleep f' =>
    exact List.isChain_cons.2 ⟨fun g hg => by rw [show f'.kind = f.kind from hk]; exact h.1 g hg, h.2⟩
  | call f' g =>
    refine List.isChain_cons.2 ⟨fun g' hg' => ?_, List.isChain_cons.2 ⟨fun g hg => ?_, h.2⟩⟩
    · cases hg'
      exact hk.2
    · rw [hk.1]; exact h.1 g hg
  | finish v => exact List.isChain_nil
  | ret v g fs =>
    have h2 := List.isChain_cons.1 h.2
    exact List.isChain_cons.2 ⟨fun g' hg' => by rw [Frame.receive_kind]; exact h2.1 g' hg', h2.2⟩

namespace State

variable {s s' : State α n}

/-- The stacks of all processes stay typed. -/
theorem typed_next (h : ∀ p, Typed (s.stack p)) {e : Event α n} (hs : s.next e = some s') (p : Pid) :
    Typed (s'.stack p) := by
  cases e with
  | schedule q => obtain ⟨-, rfl⟩ := next_schedule hs; exact h p
  | yield => obtain ⟨_, -, -, rfl⟩ := next_yield hs; exact h p
  | start c =>
    obtain ⟨q, -, -, rfl⟩ := next_start hs
    by_cases hp : p = q
    · subst hp
      simp only [setStack, setHeld, Function.update_self]
      exact List.isChain_singleton _
    · simpa [setStack, setHeld, hp] using h p
  | run ch =>
    obtain ⟨q, f, fs, -, hq, hr⟩ := next_run hs
    obtain ⟨-, -, ⟨fs', hc, hst⟩, -⟩ := run_eq_some hr
    rw [hst]
    by_cases hp : p = q
    · subst hp
      rw [Function.update_self]
      exact Typed.continues (hq ▸ h p) hc
    · rw [Function.update_of_ne hp]
      exact h p
  | transfer m => obtain ⟨c, -, rfl⟩ := next_transfer hs; exact h p
  | complete m ok => obtain ⟨c, -, rfl⟩ := next_complete hs; exact h p

end State

end Linux011.Buffer
