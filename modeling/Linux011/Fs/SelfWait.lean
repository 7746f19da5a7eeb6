import Linux011.Buffer.Calls
import Linux011.Fs.Code

/-!
# No process waits for itself

Inodes and super blocks are locked around `bread`, which may have to write a dirty buffer, and with
it all inodes, to find an empty one. A process then waits for the inode that it has locked itself.

1. What a frame holds and waits for; `State.NoSelfWait`.
2. `State.free`: where a process holds a lock, it does not get there.
3. `Follows`: what a step does next, function by function. `exec_follows`.
4. `Apart`: between the locks of a process and what it waits for. `never_waits_for_itself`.
-/

namespace Linux011.Inodes

open Buffer (Dev Block Pid Cache)

variable {α : Type*} {n : ℕ}

/-! ## Locks -/

namespace Frame

/-- The inode that a frame has locked. -/
def heldInode : Frame n → Option Ino
  | .readInode _ .lock | .writeInode _ .lock => none
  | .readInode inode _ | .writeInode inode _ => some inode
  | _ => none

/-- The super block that a frame has locked. -/
def heldSuper : Frame n → Option Sb
  | .putSuper _ (.release sb _) | .putSuper _ (.releasing sb _) => some sb
  | .readSuper _ (.first s) | .readSuper _ (.copy s _) | .readSuper _ (.copied s)
  | .readSuper _ (.magic s) | .readSuper _ (.map _ s _ _) | .readSuper _ (.reading _ s _ _)
  | .readSuper _ (.gotMap _ s _ _ _) | .readSuper _ (.check s _) | .readSuper _ (.release s _)
  | .readSuper _ (.releasing s _) | .readSuper _ (.fail s) => some s
  | _ => none

/-- The inode for which a frame is in `wait_on_inode` or `lock_inode`. -/
def waitsInode : Frame n → Option Ino
  | .readInode inode .lock | .writeInode inode .lock => some inode
  | .syncInodes (.wait i) | .invalidateInodes _ i => if h : i < 32 then some ⟨i, h⟩ else none
  | .iput inode .wait | .iput inode .waitBlk | .iput inode .waitDirty => some inode
  | .getEmptyInode (.wait inode) => some inode
  | .iget _ _ (.wait _ i) => some i
  | _ => none

/-- The super block for which a frame is in `wait_on_super` or `lock_super`. -/
def waitsSuper : Frame n → Option Sb
  | .getSuper _ (.wait s) | .putSuper _ (.lock s) | .readSuper _ (.lock s) => some s
  | _ => none

end Frame

/-- The inodes that a process with these calls has locked. -/
def inodesHeld (fs : List (Frame n)) : List Ino := fs.filterMap Frame.heldInode

def supersHeld (fs : List (Frame n)) : List Sb := fs.filterMap Frame.heldSuper

/-- No process sleeps for an inode or a super block that it has locked itself. -/
def State.NoSelfWait (s : State α n) : Prop :=
  ∀ p f fs, s.stack p = f :: fs →
    (∀ i, f.waitsInode = some i → (s.tables.inode i).iLock = true → i ∉ inodesHeld (f :: fs)) ∧
    (∀ b, f.waitsSuper = some b → (s.tables.super b).sLock = true → b ∉ supersHeld (f :: fs))

/-! ## Where it does not happen -/

/-- `getblk` has found no better victim than a dirty buffer and is about to call `sync_dev`. -/
def Frame.callsSyncDev (t : Tables α n) : Frame n → Bool
  | .buf (.getblk _ _ (.victim bh)) =>
    !t.cache.bLock bh && t.cache.bCount bh == 0 && t.cache.bDirt bh
  | _ => false

/-- The device whose super block a frame looks for. -/
def Frame.looksFor : Frame n → Option Dev
  | .getSuper dev _ => some dev
  | _ => none

/-- In the step that comes, a process that has locked an inode does not call `sync_dev`, and one
that has locked a super block does not look for the device of that super block. -/
def State.free (s : State α n) : Bool :=
  match s.cur with
  | none => true
  | some p =>
    match s.stack p with
    | [] => true
    | f :: fs =>
      (!f.callsSyncDev s.tables || (inodesHeld fs).isEmpty) &&
        (supersHeld fs).all fun b => f.looksFor ≠ some (s.tables.super b).sDev

/-- The condition on a step. -/
def Freely (s : State α n) : Event α n → Prop
  | .run _ => s.free = true
  | _ => True

/-! ## Calls under a lock -/

/-- The functions of the buffer cache that are called with an inode locked, unless `getblk` calls
`sync_dev`. -/
def quietKind : Buffer.Kind n → Bool
  | .getHashTable _ _ | .getblk _ _ | .bread _ _ | .breada _ _ | .brelse _ | .transfer _ _ => true
  | _ => false

namespace Frame

/-- The functions that are called with an inode locked. -/
def quiet : Frame n → Bool
  | .buf f => quietKind f.kind
  | .getSuper _ _ => true
  | _ => false

/-- The functions that are called with a super block locked. -/
def inner : Frame n → Bool
  | .buf _ | .getSuper _ _ | .writeInode _ _ | .syncInodes _ => true
  | _ => false

theorem receive_kind (v : Val n) (f : Frame n) :
    (f.receive v).quiet = f.quiet ∧ (f.receive v).inner = f.inner ∧
      (f.receive v).waitsSuper = f.waitsSuper := by
  unfold receive
  split
  all_goals first
    | exact ⟨rfl, rfl, rfl⟩
    | (split <;> first | exact ⟨rfl, rfl, rfl⟩ | (split <;> exact ⟨rfl, rfl, rfl⟩))
    | (split <;> exact ⟨by simp [quiet], rfl, rfl⟩)

@[simp] theorem receive_quiet (v : Val n) (f : Frame n) : (f.receive v).quiet = f.quiet :=
  (receive_kind v f).1

@[simp] theorem receive_inner (v : Val n) (f : Frame n) : (f.receive v).inner = f.inner :=
  (receive_kind v f).2.1

@[simp] theorem receive_waitsSuper (v : Val n) (f : Frame n) :
    (f.receive v).waitsSuper = f.waitsSuper :=
  (receive_kind v f).2.2

/-- Where a process waits for an inode, it was not called with one locked. -/
theorem not_quiet_of_waitsInode {f : Frame n} {i : Ino} (h : f.waitsInode = some i) :
    f.quiet = false := by
  unfold waitsInode at h
  split at h <;> first | rfl | cases h

theorem heldInode_of_waitsInode {f : Frame n} {i : Ino} (h : f.waitsInode = some i) :
    f.heldInode = none := by
  unfold waitsInode at h
  split at h <;> first | rfl | cases h

theorem heldSuper_of_waitsSuper {f : Frame n} {b : Sb} (h : f.waitsSuper = some b) :
    f.heldSuper = none := by
  unfold waitsSuper at h
  split at h <;> first | rfl | cases h

end Frame

/-- The next place of a frame. -/
structure Continues (t : Tables α n) (f f' : Frame n) : Prop where
  quiet : f'.quiet = f.quiet
  inner : f'.inner = f.inner
  waits : f.inner = true → ∀ b, f'.waitsSuper = some b →
    f.waitsSuper = some b ∨ f.looksFor = some (t.super b).sDev

/-- A call, from `f` and with `f'` as the caller's next place. -/
structure Calls (t : Tables α n) (f f' g : Frame n) : Prop extends Continues t f f' where
  quiet_call : f.quiet = true → g.quiet = true ∨ f.callsSyncDev t = true
  inner_call : f.inner = true → g.inner = true
  locked : f'.heldInode.isSome → g.quiet = true
  lockedSuper : f'.heldSuper.isSome → g.inner = true
  start : g.waitsSuper = none

/-- What a step may do next. -/
def Follows (t : Tables α n) (f : Frame n) : Next n → Prop
  | .goto f' | .sleep f' => Continues t f f'
  | .call f' g => Calls t f f' g
  | .ret _ | .panic => True

namespace Tables

variable (t : Tables α n) (ch : Chance α)

theorem getblk_call {c : Cache α n} {dev : Dev} {block : Block} {pc : Buffer.GetblkPc n}
    {f g : Buffer.Frame n} (h : (c.getblk dev block pc).2 = .call f g) :
    quietKind g.kind = true ∨
      ∃ bh, pc = .victim bh ∧ c.bLock bh = false ∧ c.bCount bh = 0 ∧ c.bDirt bh = true := by
  cases pc with
  | victim bh =>
    right
    refine ⟨bh, rfl, ?_⟩
    simp only [Cache.getblk] at h
    split at h
    · cases h
    next hl =>
    split at h
    · cases h
    next hc =>
    split at h
    · next hd => exact ⟨by simpa using hl, by simpa using hc, hd⟩
    split at h
    · cases h
    · split at h <;> cases h
  | atRepeat =>
    obtain ⟨rfl, rfl⟩ := by simpa [Cache.getblk] using h
    exact .inl rfl
  | scan tmp bh =>
    simp only [Cache.getblk] at h
    split at h <;> split at h <;> cases h
  | _ => cases h

/-- Of the quiet functions only `getblk` waits for one that is not. -/
theorem awaits_quiet {f : Buffer.Frame n} {k : Buffer.Kind n} (h : f.awaits k)
    (hq : quietKind f.kind = true) :
    quietKind k = true ∨ ∃ dev block, f.kind = .getblk dev block := by
  unfold Buffer.Frame.awaits at h
  split at h
  · exact .inl (by rw [h]; rfl)
  · exact .inr ⟨_, _, rfl⟩
  all_goals first
    | exact absurd hq Bool.false_ne_true
    | exact .inl (by rw [h]; rfl)
    | exact .inl (by obtain ⟨_, rfl⟩ := h; rfl)
    | exact h.elim

/-- The calls of the buffer cache. -/
theorem call_quiet {f f' g : Buffer.Frame n} (h : (t.cache.exec ch.buf f).2 = .call f' g)
    (hq : quietKind f.kind = true) :
    quietKind g.kind = true ∨ (Frame.buf f).callsSyncDev t = true := by
  have hk := t.cache.exec_next ch.buf f
  rw [h] at hk
  rcases awaits_quiet hk.2 (by rw [hk.1]; exact hq) with hg | ⟨dev, block, hb⟩
  · exact .inl hg
  · rw [hk.1] at hb
    cases f with
    | getblk dev' block' pc =>
      rcases getblk_call h with hg | ⟨bh, rfl, hl, hc, hd⟩
      · exact .inl hg
      · exact .inr (by simp [Frame.callsSyncDev, hl, hc, hd])
    | _ => cases hb

theorem buf_follows (f : Buffer.Frame n) :
    Follows t (.buf f) (lift (t.cache.exec ch.buf f).2) := by
  have hk := t.cache.exec_next ch.buf f
  have hq : ∀ f' g, (t.cache.exec ch.buf f).2 = .call f' g → quietKind f.kind = true →
      quietKind g.kind = true ∨ (Frame.buf f).callsSyncDev t = true :=
    fun f' g => t.call_quiet ch
  obtain ⟨o, ho⟩ : ∃ o, o = (t.cache.exec ch.buf f).2 := ⟨_, rfl⟩
  rw [← ho] at hk hq ⊢
  cases o with
  | goto f' | sleep f' => exact ⟨congrArg quietKind hk, rfl, (fun _ b hb => by cases hb)⟩
  | call f' g =>
    have hc : Continues t (.buf f) (.buf f') :=
      ⟨congrArg quietKind hk.1, rfl, (fun _ b hb => by cases hb)⟩
    unfold lift
    split
    · cases ‹_›
    · next f'' g' heq =>
      obtain ⟨rfl, rfl⟩ := by simpa using heq
      exact ⟨hc, hq _ _ rfl, fun _ => rfl, by simp [Frame.heldInode], fun _ => rfl, rfl⟩
    · next f'' g' hn heq =>
      obtain ⟨rfl, rfl⟩ := by simpa using heq
      exact ⟨hc, hq _ _ rfl, fun _ => rfl, by simp [Frame.heldInode], fun _ => rfl, rfl⟩
    · cases ‹_›
    · cases ‹_›
    · cases ‹_›
  | ret v => trivial
  | panic => trivial

theorem getSuper_follows (dev : Dev) (pc : GetSuperPc) :
    Follows t (.getSuper dev pc) (t.getSuper dev pc).2 := by
  cases pc with
  | scan s =>
    simp only [getSuper]
    split
    · trivial
    split
    · split
      · next hd =>
        refine ⟨rfl, rfl, fun _ b hb => .inr ?_⟩
        obtain rfl := Option.some.inj hb
        exact congrArg some hd.symm
      · exact ⟨rfl, rfl, (fun _ b hb => by cases hb)⟩
    · trivial
  | wait s =>
    simp only [getSuper]
    split
    · exact ⟨rfl, rfl, fun _ b hb => .inl hb⟩
    split
    · trivial
    · exact ⟨rfl, rfl, (fun _ b hb => by cases hb)⟩

/-- Every call of `read_inode` is made with the inode locked. -/
theorem readInode_follows (inode : Ino) (pc : InodePc n) :
    Follows t (.readInode inode pc) (t.readInode ch inode pc).2 := by
  cases pc with
  | lock =>
    simp only [readInode]
    split <;> exact ⟨rfl, rfl, (fun h => by cases h)⟩
  | super | bread sb | copy bh =>
    exact ⟨⟨rfl, rfl, (fun h => by cases h)⟩, (fun h => by cases h), (fun h => by cases h),
      fun _ => rfl, (fun h => by cases h), rfl⟩
  | brelse => exact ⟨rfl, rfl, (fun h => by cases h)⟩
  | unlock | panic => trivial

theorem writeInode_follows (inode : Ino) (pc : InodePc n) :
    Follows t (.writeInode inode pc) (t.writeInode inode pc).2 := by
  cases pc with
  | lock =>
    simp only [writeInode]
    split
    · exact ⟨rfl, rfl, (fun _ b hb => by cases hb)⟩
    split
    · trivial
    · exact ⟨rfl, rfl, (fun _ b hb => by cases hb)⟩
  | super | bread sb | copy bh =>
    exact ⟨⟨rfl, rfl, (fun _ b hb => by cases hb)⟩, (fun h => by cases h), fun _ => rfl,
      fun _ => rfl, (fun h => by cases h), rfl⟩
  | brelse => exact ⟨rfl, rfl, (fun _ b hb => by cases hb)⟩
  | unlock | panic => trivial

theorem syncInodes_follows (pc : SyncInodesPc) :
    Follows t (.syncInodes pc) (t.syncInodes pc).2 := by
  cases pc with
  | wait i =>
    simp only [syncInodes]
    split
    · split
      · exact ⟨rfl, rfl, (fun _ b hb => by cases hb)⟩
      split
      · exact ⟨⟨rfl, rfl, (fun _ b hb => by cases hb)⟩, (fun h => by cases h), fun _ => rfl,
          (fun h => by cases h), (fun h => by cases h), rfl⟩
      · exact ⟨rfl, rfl, (fun _ b hb => by cases hb)⟩
    · trivial
  | writing i => exact ⟨rfl, rfl, (fun _ b hb => by cases hb)⟩

/-- With its super block locked, `put_super` calls `brelse` only. -/
theorem putSuper_follows (dev : Dev) (pc : PutSuperPc) :
    Follows t (.putSuper dev pc) (t.putSuper dev pc).2 := by
  cases pc with
  | start =>
    simp only [putSuper]
    split
    · trivial
    · exact ⟨⟨rfl, rfl, (fun h => by cases h)⟩, (fun h => by cases h), (fun h => by cases h),
        (fun h => by cases h), (fun h => by cases h), rfl⟩
  | got sb =>
    simp only [putSuper]
    split
    · trivial
    · exact ⟨rfl, rfl, (fun h => by cases h)⟩
  | lock sb =>
    simp only [putSuper]
    split <;> exact ⟨rfl, rfl, (fun h => by cases h)⟩
  | release sb k =>
    simp only [putSuper]
    split
    · exact ⟨⟨rfl, rfl, (fun h => by cases h)⟩, (fun h => by cases h), (fun h => by cases h),
        (fun h => by cases h), fun _ => rfl, rfl⟩
    · trivial
  | super | releasing sb k => exact ⟨rfl, rfl, (fun h => by cases h)⟩
  | done => trivial

/-- With its super block locked, `read_super` calls `bread` and `brelse` only. -/
theorem readSuper_follows (dev : Dev) (pc : ReadSuperPc n) :
    Follows t (.readSuper dev pc) (t.readSuper ch dev pc).2 := by
  have hcalls {f' g : Frame n} (hq : f'.quiet = false) (hi : f'.inner = false)
      (hn : f'.heldInode = none) (hs : f'.heldSuper.isSome → g.inner = true)
      (hw : g.waitsSuper = none) : Calls t (.readSuper dev pc) f' g :=
    ⟨⟨hq, hi, (fun h => by cases h)⟩, (fun h => by cases h), (fun h => by cases h),
      (fun h => by rw [hn] at h; cases h), hs, hw⟩
  cases pc with
  | start =>
    simp only [readSuper]
    split
    · trivial
    · exact hcalls rfl rfl rfl (fun h => by cases h) rfl
  | look => exact hcalls rfl rfl rfl (fun h => by cases h) rfl
  | slot =>
    simp only [readSuper]
    split
    · trivial
    · exact ⟨rfl, rfl, (fun h => by cases h)⟩
  | lock s | magic s =>
    simp only [readSuper]
    split <;> exact ⟨rfl, rfl, (fun h => by cases h)⟩
  | first s | copy s bh => exact hcalls rfl rfl rfl (fun _ => rfl) rfl
  | map z s i block =>
    simp only [readSuper]
    split
    · exact hcalls rfl rfl rfl (fun _ => rfl) rfl
    · exact ⟨rfl, rfl, (fun h => by cases h)⟩
  | gotMap z s i block bh =>
    simp only [readSuper]
    split
    · exact ⟨rfl, rfl, (fun h => by cases h)⟩
    · trivial
  | check s block =>
    simp only [readSuper]
    split
    · exact ⟨rfl, rfl, (fun h => by cases h)⟩
    · trivial
  | release s k =>
    simp only [readSuper]
    split
    · exact hcalls rfl rfl rfl (fun _ => rfl) rfl
    · exact ⟨rfl, rfl, (fun h => by cases h)⟩
  | disk | super | copied s | reading z s i block | releasing s k =>
    exact ⟨rfl, rfl, (fun h => by cases h)⟩
  | fail s | done s => trivial

end Tables

/-- The functions that lock nothing themselves and are called with nothing locked. -/
def Frame.plain : Frame n → Bool
  | .invalidateInodes _ _ | .invalidateBuffers _ _ | .checkDiskChange _ _ | .freeBlock _ _ _
  | .freeInd _ _ _ _ | .truncate _ _ | .freeInode _ _ | .iput _ _ | .getEmptyInode _
  | .iget _ _ _ | .newBlock _ _ | .bmap _ _ _ _ | .findEntry _ _ _ | .addEntry _ _ _
  | .emptyDir _ _ | .withEntry _ _ _ _ => true
  | _ => false

/-- The next places of such a function. -/
def StaysPlain : Next n → Prop
  | .goto f' | .sleep f' => f'.plain = true
  | .call f' g => f'.plain = true ∧ g.waitsSuper = none
  | .ret _ | .panic => True

theorem Frame.of_plain {f : Frame n} (h : f.plain = true) :
    f.quiet = false ∧ f.inner = false ∧ f.heldInode = none ∧ f.heldSuper = none := by
  unfold plain at h
  split at h
  all_goals first
    | exact ⟨rfl, rfl, rfl, rfl⟩
    | cases h

theorem follows_of_plain {t : Tables α n} {f : Frame n} {o : Next n} (hf : f.plain = true)
    (ho : StaysPlain o) : Follows t f o := by
  obtain ⟨hq, hi, -, -⟩ := Frame.of_plain hf
  have hgo {f' : Frame n} (h : f'.plain = true) : Continues t f f' := by
    obtain ⟨hq', hi', -, -⟩ := Frame.of_plain h
    exact ⟨hq'.trans hq.symm, hi'.trans hi.symm, fun h => by rw [hi] at h; cases h⟩
  cases o with
  | goto f' | sleep f' => exact hgo ho
  | call f' g =>
    obtain ⟨-, -, hn, hs⟩ := Frame.of_plain ho.1
    exact ⟨hgo ho.1, (fun h => by rw [hq] at h; cases h), (fun h => by rw [hi] at h; cases h),
      (fun h => by rw [hn] at h; cases h), (fun h => by rw [hs] at h; cases h), ho.2⟩
  | ret v | panic => trivial

namespace Tables

variable (t : Tables α n) (ch : Chance α)

theorem invalidateInodes_plain (dev : Dev) (i : ℕ) : StaysPlain (t.invalidateInodes dev i).2 := by
  simp only [invalidateInodes]
  split_ifs <;> trivial

theorem invalidateBuffers_plain (dev : Dev) (pc : InvalidateBuffersPc) :
    StaysPlain (t.invalidateBuffers dev pc).2 := by
  cases pc <;> simp only [invalidateBuffers] <;> split_ifs <;> trivial

theorem checkDiskChange_plain (dev : Dev) (pc : CheckDiskChangePc) :
    StaysPlain (t.checkDiskChange ch dev pc).2 := by
  cases pc <;> simp only [checkDiskChange] <;> (try split_ifs) <;> trivial

theorem freeBlock_plain (dev : Dev) (block : Block) (pc : FreeBlockPc n) :
    StaysPlain (t.freeBlock ch dev block pc).2 := by
  cases pc with
  | clear sb =>
    simp only [freeBlock]
    split
    · trivial
    · split <;> trivial
  | _ =>
    simp only [freeBlock]
    try split_ifs
    all_goals trivial

theorem freeInd_plain (double : Bool) (dev : Dev) (block : Block) (pc : FreeIndPc n) :
    StaysPlain (t.freeInd ch double dev block pc).2 := by
  cases pc <;> simp only [freeInd] <;> (try split_ifs) <;> trivial

theorem truncate_plain (inode : Ino) (pc : TruncatePc) : StaysPlain (t.truncate inode pc).2 := by
  cases pc <;> simp only [truncate] <;> (try split_ifs) <;> trivial

theorem freeInode_plain (inode : Ino) (pc : FreeInodePc) :
    StaysPlain (t.freeInode inode pc).2 := by
  cases pc with
  | check sb =>
    simp only [freeInode]
    split
    · trivial
    · split <;> trivial
  | _ =>
    simp only [freeInode]
    try split_ifs
    all_goals trivial

theorem iput_plain (inode : Ino) (pc : IputPc) : StaysPlain (t.iput inode pc).2 := by
  cases pc <;> simp only [iput] <;> (try split_ifs) <;> trivial

theorem getEmptyInode_plain (pc : GetEmptyInodePc) : StaysPlain (t.getEmptyInode pc).2 := by
  cases pc with
  | pick =>
    simp only [getEmptyInode]
    split <;> trivial
  | _ =>
    simp only [getEmptyInode]
    try split_ifs
    all_goals trivial

theorem iget_plain (dev : Dev) (nr : BitVec 16) (pc : IgetPc) :
    StaysPlain (t.iget dev nr pc).2 := by
  cases pc with
  | wait empty i =>
    simp only [iget]
    split
    · trivial
    split
    · trivial
    split
    · split <;> trivial
    · trivial
  | _ =>
    simp only [iget]
    try split_ifs
    all_goals trivial

theorem newBlock_plain (dev : Dev) (pc : NewBlockPc n) : StaysPlain (t.newBlock ch dev pc).2 := by
  cases pc with
  | check sb =>
    simp only [newBlock]
    split
    · trivial
    · split_ifs <;> trivial
  | _ =>
    simp only [newBlock]
    try split_ifs
    all_goals trivial

theorem bmap_plain (create : Bool) (inode : Ino) (block : Block) (pc : BmapPc n) :
    StaysPlain (t.bmap ch create inode block pc).2 := by
  cases pc <;> simp only [bmap] <;> (try split_ifs) <;> trivial

theorem findEntry_plain (dir : Ino) (name : Name) (pc : FindEntryPc n) :
    StaysPlain (t.findEntry ch dir name pc).2 := by
  cases pc with
  | start =>
    simp only [findEntry]
    split
    · trivial
    · trivial
    · split <;> trivial
  | got entries sb =>
    simp only [findEntry]
    split <;> trivial
  | _ =>
    simp only [findEntry]
    try split_ifs
    all_goals trivial

theorem addEntry_plain (dir : Ino) (name : Name) (pc : AddEntryPc n) :
    StaysPlain (t.addEntry ch dir name pc).2 := by
  cases pc with
  | start =>
    simp only [addEntry]
    split
    · trivial
    all_goals split <;> trivial
  | scan bh i k =>
    simp only [addEntry]
    split
    · trivial
    split
    · split <;> trivial
    · trivial
  | _ =>
    simp only [addEntry]
    try split_ifs
    all_goals trivial

theorem emptyDir_plain (inode : Ino) (pc : EmptyDirPc n) :
    StaysPlain (t.emptyDir ch inode pc).2 := by
  cases pc <;> simp only [emptyDir] <;> (try split_ifs) <;> trivial

theorem withEntry_plain (add : Bool) (dir : Ino) (name : Name) (pc : WithEntryPc n) :
    StaysPlain (t.withEntry add dir name pc).2 := by
  cases pc with
  | start =>
    simp only [withEntry]
    split <;> trivial
  | _ => trivial

/-- What a step may do, for all functions. -/
theorem exec_follows (f : Frame n) : Follows t f (t.exec ch f).2 := by
  cases f with
  | buf f => exact t.buf_follows ch f
  | getSuper dev pc => exact t.getSuper_follows dev pc
  | readInode inode pc => exact t.readInode_follows ch inode pc
  | writeInode inode pc => exact t.writeInode_follows inode pc
  | syncInodes pc => exact t.syncInodes_follows pc
  | putSuper dev pc => exact t.putSuper_follows dev pc
  | readSuper dev pc => exact t.readSuper_follows ch dev pc
  | invalidateInodes dev i => exact follows_of_plain rfl (t.invalidateInodes_plain dev i)
  | invalidateBuffers dev pc => exact follows_of_plain rfl (t.invalidateBuffers_plain dev pc)
  | checkDiskChange dev pc => exact follows_of_plain rfl (t.checkDiskChange_plain ch dev pc)
  | freeBlock dev block pc => exact follows_of_plain rfl (t.freeBlock_plain ch dev block pc)
  | freeInd double dev block pc =>
    exact follows_of_plain rfl (t.freeInd_plain ch double dev block pc)
  | truncate inode pc => exact follows_of_plain rfl (t.truncate_plain inode pc)
  | freeInode inode pc => exact follows_of_plain rfl (t.freeInode_plain inode pc)
  | iput inode pc => exact follows_of_plain rfl (t.iput_plain inode pc)
  | getEmptyInode pc => exact follows_of_plain rfl (t.getEmptyInode_plain pc)
  | iget dev nr pc => exact follows_of_plain rfl (t.iget_plain dev nr pc)
  | newBlock dev pc => exact follows_of_plain rfl (t.newBlock_plain ch dev pc)
  | bmap create inode block pc => exact follows_of_plain rfl (t.bmap_plain ch create inode block pc)
  | findEntry dir name pc => exact follows_of_plain rfl (t.findEntry_plain ch dir name pc)
  | addEntry dir name pc => exact follows_of_plain rfl (t.addEntry_plain ch dir name pc)
  | emptyDir inode pc => exact follows_of_plain rfl (t.emptyDir_plain ch inode pc)
  | withEntry add dir name pc => exact follows_of_plain rfl (t.withEntry_plain add dir name pc)

end Tables

/-! ## The locks of a process -/

/-- Between a frame and one that it was called from. -/
structure Apart (f g : Frame n) : Prop where
  inode : g.heldInode.isSome → f.quiet = true
  super : ∀ b, g.heldSuper = some b → f.inner = true ∧ f.waitsSuper ≠ some b

theorem mem_inodesHeld {fs : List (Frame n)} {i : Ino} :
    i ∈ inodesHeld fs ↔ ∃ f ∈ fs, f.heldInode = some i := List.mem_filterMap

theorem mem_supersHeld {fs : List (Frame n)} {b : Sb} :
    b ∈ supersHeld fs ↔ ∃ f ∈ fs, f.heldSuper = some b := List.mem_filterMap

/-- A step keeps the frames apart, if it neither calls `sync_dev` nor looks for a super block against
the locks of the process. -/
theorem Apart.follows {t : Tables α n} {f : Frame n} {fs : List (Frame n)} {o : Next n}
    (h : Outcome.Nested Apart (f :: fs)) (ho : Follows t f o)
    (hsync : f.callsSyncDev t = true → inodesHeld fs = [])
    (hsup : ∀ b ∈ supersHeld fs, f.looksFor ≠ some (t.super b).sDev) :
    Outcome.Fits Apart fs o := by
  have hgo {f' : Frame n} (hc : Continues t f f') : ∀ g ∈ fs, Apart f' g := by
    intro g hg
    have hr := h.rel hg
    refine ⟨fun hi => hc.quiet.trans (hr.inode hi), fun b hb => ?_⟩
    obtain ⟨hin, hne⟩ := hr.super b hb
    refine ⟨hc.inner.trans hin, fun hw => ?_⟩
    rcases hc.waits hin b hw with hw | hl
    · exact hne hw
    · exact hsup b (mem_supersHeld.2 ⟨g, hg, hb⟩) hl
  cases o with
  | goto f' | sleep f' => exact hgo ho
  | call f' g =>
    refine ⟨hgo ho.toContinues, ⟨ho.locked, fun b hb => ?_⟩, fun k hk => ?_⟩
    · exact ⟨ho.lockedSuper (by rw [hb]; rfl), by rw [ho.start]; exact Option.some_ne_none b |>.symm⟩
    · have hr := h.rel hk
      refine ⟨fun hi => ?_, fun b hb => ?_⟩
      · rcases ho.quiet_call (hr.inode hi) with hq | hd
        · exact hq
        · obtain ⟨i, hi⟩ := Option.isSome_iff_exists.1 hi
          have hmem := mem_inodesHeld.2 ⟨k, hk, hi⟩
          rw [hsync hd] at hmem
          cases hmem
      · exact ⟨ho.inner_call (hr.super b hb).1,
          by rw [ho.start]; exact (Option.some_ne_none b).symm⟩
  | ret v | panic => trivial

theorem Apart.receive (v : Val n) {f g : Frame n} (h : Apart f g) : Apart (f.receive v) g :=
  ⟨fun hi => by rw [Frame.receive_quiet]; exact h.inode hi, fun b hb => by
    rw [Frame.receive_inner, Frame.receive_waitsSuper]
    exact h.super b hb⟩

/-- In the stack of every process. -/
def State.Apart (s : State α n) : Prop := ∀ p, Outcome.Nested Inodes.Apart (s.stack p)

theorem State.Apart.setStack {s : State α n} (h : s.Apart) {p : Pid} {fs : List (Frame n)}
    (hfs : Outcome.Nested Inodes.Apart fs) : (s.setStack p fs).Apart := by
  intro q
  rcases eq_or_ne q p with rfl | hq
  · rw [show (s.setStack q fs).stack q = fs from Function.update_self ..]
    exact hfs
  · rw [show (s.setStack p fs).stack q = s.stack q from Function.update_of_ne hq ..]
    exact h q

theorem State.Apart.run {s s' : State α n} (h : s.Apart) {p : Pid} {f : Frame n}
    {fs : List (Frame n)} {ch : Chance α} (hcur : s.cur = some p) (hp : s.stack p = f :: fs)
    (hfree : s.free = true) (hs : s.run p f fs ch = some s') : s'.Apart := by
  have hn := h p
  rw [hp] at hn
  unfold State.free at hfree
  simp only [hcur, hp, Bool.and_eq_true, Bool.or_eq_true, Bool.not_eq_true', List.isEmpty_iff,
    List.all_eq_true, decide_eq_true_eq] at hfree
  unfold State.run at hs
  obtain ⟨fs', hr, rfl⟩ := Option.map_eq_some_iff.1 hs
  refine h.setStack (hn.resume (fun v g k => Inodes.Apart.receive v) ?_ hr)
  refine Inodes.Apart.follows hn (s.tables.exec_follows ch f) (fun hc => ?_) hfree.2
  rcases hfree.1 with hf | hf
  · rw [hc] at hf
    cases hf
  · exact hf

theorem State.Apart.next {s s' : State α n} (h : s.Apart) {e : Event α n} (hok : Freely s e)
    (hs : s.next e = some s') : s'.Apart := by
  cases e with
  | schedule p =>
    simp only [State.next] at hs
    split at hs
    · obtain rfl := Option.some.inj hs
      exact h
    · cases hs
  | yield | touch x =>
    simp only [State.next] at hs
    split at hs
    · split at hs
      · obtain rfl := Option.some.inj hs
        exact h
      · cases hs
    · cases hs
  | start c =>
    simp only [State.next] at hs
    split at hs
    · split at hs
      · obtain rfl := Option.some.inj hs
        exact h.setStack (List.pairwise_singleton _ _)
      · cases hs
    · cases hs
  | run ch =>
    simp only [State.next] at hs
    split at hs
    · next p hcur =>
      split at hs
      · next f fs hp => exact h.run hcur hp hok hs
      · cases hs
    · cases hs
  | transfer m | complete m uptodate =>
    obtain ⟨c, -, rfl⟩ := Option.map_eq_some_iff.1 hs
    exact h

/-- Frames that are apart do not wait for each other's locks, and none waits for its own. -/
theorem State.Apart.noSelfWait {s : State α n} (h : s.Apart) : s.NoSelfWait := by
  intro p f fs hp
  have hn := h p
  rw [hp] at hn
  refine ⟨fun i hw _ hmem => ?_, fun b hw _ hmem => ?_⟩
  · obtain ⟨g, hg, hheld⟩ := mem_inodesHeld.1 hmem
    rcases List.mem_cons.1 hg with rfl | hg
    · rw [Frame.heldInode_of_waitsInode hw] at hheld
      cases hheld
    · have hq := (hn.rel hg).inode (by rw [hheld]; rfl)
      rw [Frame.not_quiet_of_waitsInode hw] at hq
      cases hq
  · obtain ⟨g, hg, hheld⟩ := mem_supersHeld.1 hmem
    rcases List.mem_cons.1 hg with rfl | hg
    · rw [Frame.heldSuper_of_waitsSuper hw] at hheld
      cases hheld
    · exact ((hn.rel hg).super b hheld).2 hw

/-- In a run in which no process calls `sync_dev` with an inode locked, or looks for a super block
that it has locked, no process waits for itself. -/
theorem never_waits_for_itself {s : State α n}
    (h : (fileSystem α n).ReachableWhen Freely s) : s.NoSelfWait := by
  refine State.Apart.noSelfWait (h.invariant (I := State.Apart) (fun s hs p => ?_) ?_)
  · rw [hs.stack p]
    exact List.Pairwise.nil
  · exact fun s e s' hI hok hs => hI.next hok hs

/-! ## From boot -/

instance (s : State α n) (e : Event α n) : Decidable (Freely s e) :=
  match e with
  | .run _ => inferInstanceAs (Decidable (s.free = true))
  | .schedule _ | .yield | .start _ | .touch _ | .transfer _ | .complete _ _ =>
    inferInstanceAs (Decidable True)

/-- A disk with one block of each map, and directories only. -/
def reads : Chance Unit where
  buf := .go
  dInode := ⟨0o040755, 0, 2, fun _ => 0⟩
  dSuper := ⟨32, 100, 1, 1, 5, 0x137f⟩
  word := 0
  map := 0
  bit := false
  wait := false

/-- Three buffers, the tables empty, and a driver for the hard disk. -/
def boot : State Unit 3 where
  tables :=
    { cache := (Buffer.State.boot (fun _ => 0) (fun _ _ => ()) (fun m => m = 3) fun _ _ => ()).cache
      inode := fun _ => .zero
      super := fun _ => ⟨⟨0, 0, 0, 0, 0, 0⟩, fun _ => none, fun _ => none, 0, none, none, false⟩
      lastInode := 0
      rootDev := 0x301 }
  stack _ := []
  cur := none

def runs (k : ℕ) : List (Event Unit 3) := List.replicate k (.run reads)

/-- The driver reads a block while process 0 sleeps. -/
def transferred : List (Event Unit 3) :=
  [.transfer 3, .transfer 3, .complete 3 true, .schedule 0]

/-- `read_super`, and `iget` of the root. -/
def mounted : List (Event Unit 3) :=
  [.schedule 0, .start (.readSuper 0x301)] ++ runs 28 ++ transferred ++ runs 18 ++ transferred ++
    runs 17 ++ transferred ++ runs 4 ++
    [.start (.iget 0x301 1)] ++ runs 54 ++ transferred ++ runs 5

/-- The root is changed and released, which leaves its block dirty, and another inode is read. -/
def lastBuffer : List (Event Unit 3) :=
  [.touch (.inode 1 ⟨reads.dInode, 0x301, 1, 1, false, true, false, false⟩), .start (.iput 1)] ++
    runs 18 ++ [.start (.iget 0x301 40)] ++ runs 63 ++ transferred ++ runs 1

theorem boot_init : boot.Init := ⟨fun _ => rfl, rfl, fun _ => rfl, fun _ => rfl⟩

/-- Nobody waits while the root is mounted. -/
theorem never_waits_for_itself_mounted : ∃ s : State Unit 3, s.stack 0 = [] ∧
    (s.tables.super 0).sDev = 0x301 ∧ (s.tables.inode 1).iNum = 1 ∧ s.NoSelfWait := by
  have hrun : (System.execWhen State.next Freely boot mounted).any (fun s =>
      (s.stack 0).isEmpty && decide ((s.tables.super 0).sDev = 0x301 ∧
        (s.tables.inode 1).iNum = 1)) = true := by
    decide +kernel
  obtain ⟨s, hs, hstate⟩ := (Option.any_eq_true _ _).1 hrun
  obtain ⟨hstack, hdev⟩ := Bool.and_eq_true_iff.1 hstate
  obtain ⟨hdev, hnum⟩ := of_decide_eq_true hdev
  have hreach : (fileSystem Unit 3).ReachableWhen Freely s :=
    .exec (fun _ _ _ h => h) (.init boot_init) hs
  exact ⟨s, List.isEmpty_iff.1 hstack, hdev, hnum, never_waits_for_itself hreach⟩

/-- Process `p` sleeps for an inode that it has locked. -/
def State.waitsForItself (s : State α n) (p : Pid) : Bool :=
  match s.stack p with
  | [] => false
  | f :: fs =>
    f.waitsInode.any fun i => (s.tables.inode i).iLock && decide (i ∈ inodesHeld (f :: fs))

theorem State.not_noSelfWait {s : State α n} {p : Pid} (h : s.waitsForItself p = true) :
    ¬s.NoSelfWait := by
  intro hn
  unfold State.waitsForItself at h
  split at h
  · cases h
  · next f fs hp =>
    obtain ⟨i, hi, h⟩ := (Option.any_eq_true _ _).1 h
    obtain ⟨hl, hm⟩ := Bool.and_eq_true_iff.1 h
    exact (hn p f fs hp).1 i hi hl (of_decide_eq_true hm)

/-- The only unused buffer is dirty when `read_inode` needs one. -/
theorem waits_for_itself : ¬∀ s : State Unit 3, (fileSystem Unit 3).Reachable s → s.NoSelfWait := by
  intro hall
  have hrun : (System.execWhen State.next (fun _ _ => True) boot (mounted ++ lastBuffer)).any
      (·.waitsForItself 0) = true := by
    decide +kernel
  obtain ⟨s, hs, hself⟩ := (Option.any_eq_true _ _).1 hrun
  have hreach : (fileSystem Unit 3).Reachable s := .exec (fun _ _ _ h => h) (.init boot_init) hs
  exact State.not_noSelfWait hself (hall s hreach)

end Linux011.Inodes
