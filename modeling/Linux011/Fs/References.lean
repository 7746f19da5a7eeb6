import Mathlib.Algebra.BigOperators.Group.Finset.Basic
import Linux011.Fs.Code

/-!
# References to inodes

`i_count` is the number of references, which the callers of the functions of `fs/inode.c` keep.

1. `Use`: the tables and the references that the processes keep between their calls; `usage`.
2. `Frame.inodeRefs`: the references of a frame. `Frame.needs`: an inode that a frame uses, with a
   reference of one of its callers.
3. `Effect`: what a step does to an entry of the table. `Does`: what it does to the references.
   `exec_does`.
-/

namespace Linux011.Inodes

open Buffer (Dev Block Pid Cache)

variable {α : Type*} {n : ℕ}

/-! ## Processes and their references -/

/-- What the processes keep between their calls: descriptors, directories, and mount points. -/
structure Use (α : Type*) (n : ℕ) where
  state : State α n
  held : Pid → Ino → ℕ

/-- `step` is a step of `fileSystem` that starts nothing. The other events are what a system call
does between two calls:
`change` the fields of an inode, as in `sys_chmod`, and mark it `dirt`; fill in a `newInode`; make a
`pipe` of an inode, or give it up as `get_pipe_inode` does without a page; `share` a reference, as
`sys_fork` does, or `give` it away, as `sys_mount` does; `touch` a super block or a buffer. -/
inductive UseEvent (α : Type*) (n : ℕ)
  | step (e : Event α n)
  | call (c : Call n)
  | change (i : Ino) (d : DInode) (mount dirt : Bool)
  | newInode (i : Ino) (d : DInode) (dev : Dev) (nr : BitVec 16)
  | pipe (i : Ino)
  | noPage (i : Ino)
  | share (i : Ino) (q : Pid)
  | give (i : Ino) (q : Pid)
  | touch (x : Touch n)

/-- The inode that a call gets, and the calls that take the reference over; `find_entry` may give back
another. -/
def Call.target : Call n → Option Ino
  | .bmap i _ | .createBlock i _ | .findEntry i _ | .addEntry i _ | .emptyDir i | .truncate i
  | .iput i => some i
  | _ => none

def Call.takes : Call n → Bool
  | .findEntry _ _ | .iput _ => true
  | _ => false

/-- The functions that are called by the functions of the model only. -/
def Call.static : Call n → Bool
  | .readInode _ | .writeInode _ | .freeInode _ => true
  | _ => false

/-- The references that the process gets back from the step of its frame. -/
def returned (f : Frame n) (fs : List (Frame n)) (o : Next n) : Option Ino :=
  match f, o with
  | .findEntry dir _ _, .ret _ => some dir
  | _, .ret (.inode i) => if fs.isEmpty then some i else none
  | _, _ => none

namespace Use

/-- The number of references of a process changes. -/
def set (held : Pid → Ino → ℕ) (p : Pid) (i : Ino) (k : ℕ) : Pid → Ino → ℕ :=
  Function.update held p (Function.update (held p) i k)

def add (held : Pid → Ino → ℕ) (p : Pid) : Option Ino → Pid → Ino → ℕ
  | some i => set held p i (held p i + 1)
  | none => held

/-- The references after a step of `fileSystem`. -/
def collect (u : Use α n) : Event α n → Pid → Ino → ℕ
  | .run ch =>
    match u.state.cur with
    | none => u.held
    | some p =>
      match u.state.stack p with
      | [] => u.held
      | f :: fs => add u.held p (returned f fs (u.state.tables.exec ch f).2)
  | _ => u.held

/-- The process that runs, if it is in no call. -/
def caller (s : State α n) : Option Pid :=
  s.cur.filter fun p => (s.stack p).isEmpty

def next (u : Use α n) : UseEvent α n → Option (Use α n)
  | .step (.start _) | .step (.touch _) => none
  | .step e => (u.state.next e).map fun s => ⟨s, u.collect e⟩
  | .call c =>
    match caller u.state with
    | none => none
    | some p =>
      if c.static ∨ c.target.any (fun i => u.held p i = 0) then none
      else
        (u.state.next (.start c)).map fun s =>
          ⟨s, if c.takes then c.target.elim u.held fun i => set u.held p i (u.held p i - 1)
            else u.held⟩
  | .change i d mount dirt =>
    match caller u.state with
    | none => none
    | some p =>
      let m := u.state.tables.inode i
      if u.held p i = 0 then none
      else
        (u.state.next (.touch (.inode i
          { m with toDInode := d, iMount := mount, iDirt := m.iDirt || dirt }))).map (⟨·, u.held⟩)
  | .newInode i d dev nr =>
    match caller u.state with
    | none => none
    | some p =>
      let m := u.state.tables.inode i
      if u.held p i = 0 ∨ m.iDev ≠ 0 ∨ dev = 0 then none
      else
        (u.state.next (.touch (.inode i
          { m with toDInode := d, iDev := dev, iNum := nr, iDirt := true }))).map (⟨·, u.held⟩)
  | .pipe i =>
    match caller u.state with
    | none => none
    | some p =>
      let m := u.state.tables.inode i
      if u.held p i = 0 ∨ m.iDev ≠ 0 ∨ m.iCount ≠ 1 then none
      else
        (u.state.next (.touch (.inode i { m with iCount := 2, iPipe := true }))).map
          (⟨·, add u.held p (some i)⟩)
  | .noPage i =>
    match caller u.state with
    | none => none
    | some p =>
      let m := u.state.tables.inode i
      if u.held p i = 0 ∨ m.iDev ≠ 0 ∨ m.iCount ≠ 1 ∨ m.iPipe ∨ m.iLock then none
      else
        (u.state.next (.touch (.inode i { m with iCount := 0 }))).map
          (⟨·, set u.held p i (u.held p i - 1)⟩)
  | .share i q =>
    match caller u.state with
    | none => none
    | some p =>
      let m := u.state.tables.inode i
      if u.held p i = 0 then none
      else
        (u.state.next (.touch (.inode i { m with iCount := m.iCount + 1 }))).map
          (⟨·, add u.held q (some i)⟩)
  | .give i q =>
    match caller u.state with
    | none => none
    | some p =>
      if u.held p i = 0 then none
      else some ⟨u.state, add (set u.held p i (u.held p i - 1)) q (some i)⟩
  | .touch x =>
    match x with
    | .inode _ _ => none
    | x => (u.state.next (.touch x)).map (⟨·, u.held⟩)

end Use

/-- The system, from an empty inode table on. -/
def usage (α : Type*) (n : ℕ) : System (Use α n) (UseEvent α n) where
  init u := u.state.Init ∧ (∀ i, u.state.tables.inode i = .zero) ∧ u.held = fun _ _ => 0
  step u e u' := u.next e = some u'

/-! ## Frames -/

/-- Without a device. -/
def MInode.stray (m : MInode) : Bool := m.iDev == 0 && !m.iPipe

namespace Frame

/-- The references to `i` that a frame gives back or returns. -/
def inodeRefs (i : Ino) : Frame n → ℕ
  | .iput _ .freeing | .iput _ .done => 0
  | .iput j _ | .freeInode j _ => if j = i then 1 else 0
  | .iget _ _ (.scan e _) | .iget _ _ (.wait e _) | .iget _ _ (.putting e _)
  | .iget _ _ (.mounted e _) | .iget _ _ (.reading e) => if e = i then 1 else 0
  | .iget _ _ (.ret j) | .iget _ _ (.done j) => if j = i then 1 else 0
  | .findEntry _ _ (.putting _ _) | .findEntry _ _ (.mounted _ _) => 0
  | .findEntry dir _ _ => if dir = i then 1 else 0
  | .withEntry false dir _ .start => if dir = i then 1 else 0
  | _ => 0

/-- The inode that a frame locks or changes with a reference of a caller. -/
def needs : Frame n → Option Ino
  | .readInode i _ | .truncate i _ | .bmap true i _ _ | .bmap false i _ (.zone _)
  | .bmap false i _ (.gotZone _ _) | .addEntry i _ _ | .withEntry true i _ _ => some i
  | _ => none

/-- An inode without a device that the step marks dirty, or a dirty one that it gives device 0. -/
def strands (t : Tables α n) : Frame n → Option Ino
  | .bmap _ i _ (.gotZone _ z) => if z ≠ 0 ∧ (t.inode i).stray then some i else none
  | .addEntry i _ (.scan _ k l) =>
    if l < 64 ∧ (t.inode i).iSize.toNat ≤ k * 16 ∧ (t.inode i).stray then some i else none
  | .truncate i .done => if (t.inode i).stray then some i else none
  | .iget dev _ (.scan e k) => if dev = 0 ∧ 32 ≤ k ∧ (t.inode e).iDirt then some e else none
  | _ => none

/-- The reference that `find_entry` leaves to its caller. -/
def leaves (i : Ino) : Frame n → ℕ
  | .findEntry dir _ _ => if dir = i then 1 else 0
  | _ => 0

/-- The inode that `free_inode` clears. -/
def frees (t : Tables α n) : Frame n → Option Ino
  | .freeInode i .start => if (t.inode i).iDev = 0 then some i else none
  | .freeInode i (.check _) => some i
  | _ => none

/-- The inode that the step takes another reference to. -/
def grabs (t : Tables α n) : Frame n → Option Ino
  | .iget dev nr (.wait _ i) =>
    let m := t.inode i
    if m.iLock = false ∧ m.iDev = dev ∧ m.iNum = nr then some i else none
  | .findEntry _ _ (.mounted _ m) => some m
  | _ => none

/-- A frame without references of its own or of a caller. -/
def light : Frame n → Bool
  | .readInode _ _ | .truncate _ _ | .freeInode _ _ | .iput _ _ | .iget _ _ _ | .bmap true _ _ _
  | .bmap _ _ _ (.zone _) | .bmap _ _ _ (.gotZone _ _) | .findEntry _ _ _ | .addEntry _ _ _
  | .withEntry _ _ _ _ => false
  | _ => true

theorem of_light {f : Frame n} (h : f.light = true) :
    (∀ i, f.inodeRefs i = 0) ∧ f.needs = none ∧ ∀ i, f ≠ .iput i .repeat := by
  cases f with
  | bmap create i block pc =>
    cases create
    · cases pc <;> first | exact ⟨fun _ => rfl, rfl, fun _ h => by cases h⟩ | cases h
    · cases h
  | _ => first | exact ⟨fun _ => rfl, rfl, fun _ h => by cases h⟩ | cases h

end Frame

/-- The reference in a returned value. -/
def Val.inodeRefs (i : Ino) : Val n → ℕ
  | .inode j => if j = i then 1 else 0
  | _ => 0

/-! ## Steps -/

/-- What a step of `f` does to entry `j` of the table. -/
inductive Effect (t : Tables α n) (f : Frame n) (j : Ino) : MInode → Prop
  | keep (d : DInode) : Effect t f j { t.inode j with toDInode := d }
  | clean : Effect t f j { t.inode j with iDirt := false }
  | revoke : Effect t f j { t.inode j with iDev := 0, iDirt := false }
  | lock (h : f.needs = some j ∨ (t.inode j).iDirt = true) :
      Effect t f j { t.inode j with iLock := true }
  | unlock : Effect t f j { t.inode j with iLock := false }
  | mark (d : DInode) (h : f.needs = some j) (hs : (t.inode j).stray = true → f.strands t = some j) :
      Effect t f j { t.inode j with toDInode := d, iDirt := true }
  | drop (hl : (t.inode j).iLock = false) (hc : (t.inode j).iCount ≠ 0)
      (h : (t.inode j).iCount = 1 → (t.inode j).iDirt = false ∨ (t.inode j).stray = true) :
      Effect t f j { t.inode j with iCount := (t.inode j).iCount - 1 }
  | close (hl : (t.inode j).iLock = false) :
      Effect t f j { t.inode j with iCount := 0, iDirt := false, iPipe := false }
  | free : Effect t f j .zero
  | take : Effect t f j { MInode.zero with iCount := 1 }
  | grab (h : f.grabs t = some j) : Effect t f j { t.inode j with iCount := (t.inode j).iCount + 1 }
  | name (dev : Dev) (nr : BitVec 16)
      (h : dev = 0 → (t.inode j).iDirt = true → f.strands t = some j) :
      Effect t f j { t.inode j with iDev := dev, iNum := nr }

/-- The next frames need no reference that is not there. -/
def Backs (f : Frame n) : Next n → Prop
  | .goto f' | .sleep f' => ∀ i, f'.needs = some i → f.needs = some i
  | .call f' g => (∀ i, f'.needs = some i → f.needs = some i) ∧
      ∀ i, g.needs = some i → f.needs = some i ∨ 0 < f'.inodeRefs i
  | .ret _ | .panic => True

/-- `iput` is at `repeat` with an inode that is not locked, and neither sleeps nor calls there. -/
def Ready (t : Tables α n) : Next n → Prop
  | .goto f => ∀ i, f = .iput i .repeat → (t.inode i).iLock = false
  | .sleep f => ∀ i, f ≠ .iput i .repeat
  | .call f g => ∀ i, f ≠ .iput i .repeat ∧ g ≠ .iput i .repeat
  | .ret _ | .panic => True

/-- `iput` is at `repeat`. -/
def Frame.isRepeat : Frame n → Bool
  | .iput _ .repeat => true
  | _ => false

/-- No frame that goes on is. -/
def Next.noRepeat : Next n → Bool
  | .goto f | .sleep f => !f.isRepeat
  | .call f g => !f.isRepeat && !g.isRepeat
  | .ret _ | .panic => true

/-- What a step does to the inodes and the references. -/
structure Does (t : Tables α n) (f : Frame n) (r : Tables α n × Next n) : Prop where
  effect : ∀ j, Effect t f j (r.1.inode j)
  refs : ∀ j, r.2.weight (Frame.inodeRefs j) (fun v => v.inodeRefs j + f.leaves j) +
    (t.inode j).iCount.toNat ≤ f.inodeRefs j + (r.1.inode j).iCount.toNat
  backs : Backs f r.2
  ready : Ready r.1 r.2

variable {t : Tables α n} {f : Frame n} {i j : Ino} {o : Next n}

theorem Effect.refl : Effect t f j (t.inode j) := .keep (t.inode j).toDInode

theorem ready_of (h : o.noRepeat = true) : Ready t o := by
  have hne {f : Frame n} (hf : (!f.isRepeat) = true) (i : Ino) : f ≠ .iput i .repeat := by
    rintro rfl
    cases hf
  cases o with
  | goto f => exact fun i hi => absurd hi (hne h i)
  | sleep f => exact hne h
  | call f g =>
    obtain ⟨hf, hg⟩ := Bool.and_eq_true_iff.1 h
    exact fun i => ⟨hne hf i, hne hg i⟩
  | ret v => trivial
  | panic => trivial

/-- A step of which only one entry of the table shows something. -/
theorem Effect.setInode {t' : Tables α n} {m : MInode} (h : Effect t f i m)
    (ht : t'.inode = (t.setInode i m).inode) (j : Ino) : Effect t f j (t'.inode j) := by
  rw [ht]
  unfold Tables.setInode
  dsimp only
  by_cases hj : j = i
  · subst hj
    rw [Function.update_self]
    exact h
  · rw [Function.update_of_ne hj]
    exact .refl

/-- What follows is without references. -/
def Light : Next n → Prop
  | .goto f | .sleep f => f.light = true
  | .call f g => f.light = true ∧ g.light = true
  | .ret v => ∀ i, v.inodeRefs i = 0
  | .panic => True

theorem Light.backs (h : Light o) : Backs f o := by
  cases o with
  | goto f' | sleep f' =>
    intro i hi
    rw [(Frame.of_light h).2.1] at hi
    cases hi
  | call f' g =>
    refine ⟨fun i hi => ?_, fun i hi => ?_⟩
    · rw [(Frame.of_light h.1).2.1] at hi
      cases hi
    · rw [(Frame.of_light h.2).2.1] at hi
      cases hi
  | ret | panic => trivial

theorem Light.ready (h : Light o) : Ready t o := by
  cases o with
  | goto f' => exact fun i hi => absurd hi ((Frame.of_light h).2.2 i)
  | sleep f' => exact (Frame.of_light h).2.2
  | call f' g => exact fun i => ⟨(Frame.of_light h.1).2.2 i, (Frame.of_light h.2).2.2 i⟩
  | ret | panic => trivial

theorem Light.weight (h : Light o) (hf : f.light = true) (j : Ino) :
    o.weight (Frame.inodeRefs j) (fun v => v.inodeRefs j + f.leaves j) = 0 := by
  have hl : f.leaves j = 0 := by
    unfold Frame.leaves
    split
    · cases hf
    · rfl
  cases o with
  | goto f' | sleep f' => exact (Frame.of_light h).1 j
  | call f' g =>
    change g.inodeRefs j + f'.inodeRefs j = 0
    rw [(Frame.of_light h.1).1, (Frame.of_light h.2).1]
  | ret v =>
    change v.inodeRefs j + f.leaves j = 0
    rw [h j, hl]
  | panic => rfl

/-- A step of a frame without references that leaves the counts alone. -/
theorem does_of_light {r : Tables α n × Next n} (hf : f.light = true)
    (he : ∀ j, Effect t f j (r.1.inode j)) (hc : ∀ j, (r.1.inode j).iCount = (t.inode j).iCount)
    (ho : Light r.2) : Does t f r where
  effect := he
  refs j := by
    rw [ho.weight hf, hc]
    omega
  backs := ho.backs
  ready := ho.ready

/-! ## Functions without references -/

namespace Tables

variable (t : Tables α n) (ch : Chance α)

theorem does_of_same {r : Tables α n × Next n} (hf : f.light = true) (hi : r.1.inode = t.inode)
    (ho : Light r.2) : Does t f r :=
  does_of_light hf (fun j => by rw [hi]; exact .refl) (fun j => by rw [hi]) ho

theorem buf_does (f : Buffer.Frame n) : Does t (.buf f) (t.exec ch (.buf f)) := by
  refine t.does_of_same rfl rfl ?_
  change Light (lift (t.cache.exec ch.buf f).2)
  cases (t.cache.exec ch.buf f).2 with
  | goto f' | sleep f' => rfl
  | call f' g =>
    unfold lift
    split
    · cases ‹_›
    · exact ⟨rfl, rfl⟩
    · exact ⟨rfl, rfl⟩
    · cases ‹_›
    · cases ‹_›
    · cases ‹_›
  | ret v => exact fun _ => rfl
  | panic => trivial

theorem getSuper_does (dev : Dev) (pc : GetSuperPc) :
    Does t (.getSuper dev pc) (t.getSuper dev pc) := by
  cases pc <;> simp only [getSuper] <;> split_ifs <;>
    first | exact t.does_of_same rfl rfl rfl | exact t.does_of_same rfl rfl fun _ => rfl

theorem invalidateBuffers_does (dev : Dev) (pc : InvalidateBuffersPc) :
    Does t (.invalidateBuffers dev pc) (t.invalidateBuffers dev pc) := by
  cases pc <;> simp only [invalidateBuffers] <;> split_ifs <;>
    first | exact t.does_of_same rfl rfl rfl | exact t.does_of_same rfl rfl fun _ => rfl

theorem checkDiskChange_does (dev : Dev) (pc : CheckDiskChangePc) :
    Does t (.checkDiskChange dev pc) (t.checkDiskChange ch dev pc) := by
  cases pc <;> simp only [checkDiskChange] <;> (try split_ifs) <;>
    first
    | exact t.does_of_same rfl rfl rfl
    | exact t.does_of_same rfl rfl ⟨rfl, rfl⟩
    | exact t.does_of_same rfl rfl fun _ => rfl

theorem putSuper_does (dev : Dev) (pc : PutSuperPc) :
    Does t (.putSuper dev pc) (t.putSuper dev pc) := by
  cases pc <;> simp only [putSuper] <;> (try split_ifs) <;>
    first
    | exact t.does_of_same rfl rfl rfl
    | exact t.does_of_same rfl rfl ⟨rfl, rfl⟩
    | exact t.does_of_same rfl rfl fun _ => rfl

theorem readSuper_does (dev : Dev) (pc : ReadSuperPc n) :
    Does t (.readSuper dev pc) (t.readSuper ch dev pc) := by
  cases pc with
  | slot =>
    simp only [readSuper]
    split
    · exact t.does_of_same rfl rfl fun _ => rfl
    · exact t.does_of_same rfl rfl rfl
  | map z s i block =>
    simp only [readSuper]
    split
    · exact t.does_of_same rfl rfl ⟨rfl, rfl⟩
    · cases z <;> exact t.does_of_same rfl rfl rfl
  | gotMap z s i block bh =>
    simp only [readSuper]
    split
    · refine t.does_of_same rfl ?_ rfl
      unfold setMap
      dsimp only
      split <;> rfl
    · exact t.does_of_same rfl rfl trivial
  | _ =>
    simp only [readSuper]
    try split_ifs
    all_goals first
      | exact t.does_of_same rfl rfl rfl
      | exact t.does_of_same rfl rfl ⟨rfl, rfl⟩
      | exact t.does_of_same rfl rfl fun _ => rfl

theorem freeBlock_does (dev : Dev) (block : Block) (pc : FreeBlockPc n) :
    Does t (.freeBlock dev block pc) (t.freeBlock ch dev block pc) := by
  cases pc with
  | clear sb =>
    simp only [freeBlock]
    split
    · exact t.does_of_same rfl rfl trivial
    · split <;> exact t.does_of_same rfl rfl fun _ => rfl
  | _ =>
    simp only [freeBlock]
    try split_ifs
    all_goals first
      | exact t.does_of_same rfl rfl rfl
      | exact t.does_of_same rfl rfl trivial
      | exact t.does_of_same rfl rfl ⟨rfl, rfl⟩
      | exact t.does_of_same rfl rfl fun _ => rfl

theorem freeInd_does (double : Bool) (dev : Dev) (block : Block) (pc : FreeIndPc n) :
    Does t (.freeInd double dev block pc) (t.freeInd ch double dev block pc) := by
  cases double <;> cases pc <;> simp only [freeInd] <;> (try split_ifs) <;>
    first
    | exact t.does_of_same rfl rfl rfl
    | exact t.does_of_same rfl rfl ⟨rfl, rfl⟩
    | exact t.does_of_same rfl rfl fun _ => rfl

theorem newBlock_does (dev : Dev) (pc : NewBlockPc n) :
    Does t (.newBlock dev pc) (t.newBlock ch dev pc) := by
  cases pc with
  | check sb =>
    simp only [newBlock]
    split
    · exact t.does_of_same rfl rfl fun _ => rfl
    · split_ifs
      · exact t.does_of_same rfl rfl fun _ => rfl
      · exact t.does_of_same rfl rfl fun _ => rfl
      · exact t.does_of_same rfl rfl ⟨rfl, rfl⟩
  | _ =>
    simp only [newBlock]
    try split_ifs
    all_goals first
      | exact t.does_of_same rfl rfl rfl
      | exact t.does_of_same rfl rfl trivial
      | exact t.does_of_same rfl rfl ⟨rfl, rfl⟩
      | exact t.does_of_same rfl rfl fun _ => rfl

theorem emptyDir_does (inode : Ino) (pc : EmptyDirPc n) :
    Does t (.emptyDir inode pc) (t.emptyDir ch inode pc) := by
  cases pc <;> simp only [emptyDir] <;> (try split_ifs) <;>
    first
    | exact t.does_of_same rfl rfl rfl
    | exact t.does_of_same rfl rfl ⟨rfl, rfl⟩
    | exact t.does_of_same rfl rfl fun _ => rfl

theorem syncInodes_does (pc : SyncInodesPc) :
    Does t (.syncInodes pc) (t.syncInodes pc) := by
  cases pc <;> simp only [syncInodes] <;> (try split_ifs) <;>
    first
    | exact t.does_of_same rfl rfl rfl
    | exact t.does_of_same rfl rfl ⟨rfl, rfl⟩
    | exact t.does_of_same rfl rfl fun _ => rfl

/-! ## Functions that change an entry -/

/-- A change of one entry that leaves its count alone. -/
theorem does_of_setInode {r : Tables α n × Next n} {i : Ino} {m : MInode} (hf : f.light = true)
    (hi : r.1.inode = (t.setInode i m).inode) (he : Effect t f i m)
    (hc : m.iCount = (t.inode i).iCount) (ho : Light r.2) : Does t f r := by
  refine does_of_light hf (he.setInode hi) (fun j => ?_) ho
  rw [hi]
  unfold setInode
  dsimp only
  by_cases hj : j = i
  · rw [hj, Function.update_self, hc]
  · rw [Function.update_of_ne hj]

/-- Only an inode that is dirty is locked. -/
theorem writeInode_does (inode : Ino) (pc : InodePc n) :
    Does t (.writeInode inode pc) (t.writeInode inode pc) := by
  cases pc with
  | lock =>
    simp only [writeInode]
    split
    · exact t.does_of_same rfl rfl rfl
    split
    · exact t.does_of_setInode rfl rfl .unlock rfl fun _ => rfl
    next h =>
    refine t.does_of_setInode rfl rfl (.lock (.inr ?_)) rfl rfl
    simpa using fun hd => h (.inl hd)
  | copy bh => exact t.does_of_setInode rfl rfl .clean rfl ⟨rfl, rfl⟩
  | unlock => exact t.does_of_setInode rfl rfl .unlock rfl fun _ => rfl
  | super | bread sb => exact t.does_of_same rfl rfl ⟨rfl, rfl⟩
  | brelse => exact t.does_of_same rfl rfl rfl
  | panic => exact t.does_of_same rfl rfl trivial

theorem invalidateInodes_does (dev : Dev) (i : ℕ) :
    Does t (.invalidateInodes dev i) (t.invalidateInodes dev i) := by
  simp only [invalidateInodes]
  split
  · split
    · exact t.does_of_same rfl rfl rfl
    split
    · exact t.does_of_setInode rfl rfl .revoke rfl rfl
    · exact t.does_of_same rfl rfl rfl
  · exact t.does_of_same rfl rfl fun _ => rfl

/-- A step that leaves the inodes alone. -/
theorem does_of_inode {r : Tables α n × Next n} (hi : r.1.inode = t.inode)
    (hr : ∀ j, r.2.weight (Frame.inodeRefs j) (fun v => v.inodeRefs j + f.leaves j) ≤ f.inodeRefs j)
    (hb : Backs f r.2) (ho : Ready r.1 r.2) : Does t f r where
  effect j := by
    rw [hi]
    exact .refl
  refs j := by
    rw [hi]
    exact Nat.add_le_add_right (hr j) _
  backs := hb
  ready := ho

/-- A step that changes one entry. -/
theorem does_of_entry {r : Tables α n × Next n} {i : Ino} {m : MInode}
    (hi : r.1.inode = (t.setInode i m).inode) (he : Effect t f i m)
    (hc : r.2.weight (Frame.inodeRefs i) (fun v => v.inodeRefs i + f.leaves i) +
      (t.inode i).iCount.toNat ≤ f.inodeRefs i + m.iCount.toNat)
    (hr : ∀ j, j ≠ i →
      r.2.weight (Frame.inodeRefs j) (fun v => v.inodeRefs j + f.leaves j) ≤ f.inodeRefs j)
    (hb : Backs f r.2) (ho : Ready r.1 r.2) : Does t f r where
  effect := he.setInode hi
  refs j := by
    rw [hi]
    unfold setInode
    dsimp only
    by_cases hj : j = i
    · subst hj
      rw [Function.update_self]
      exact hc
    · rw [Function.update_of_ne hj]
      exact Nat.add_le_add_right (hr j hj) _
  backs := hb
  ready := ho

/-- A step that changes one entry, and not its count. -/
theorem does_of_fields {r : Tables α n × Next n} {i : Ino} {m : MInode}
    (hi : r.1.inode = (t.setInode i m).inode) (he : Effect t f i m)
    (hc : m.iCount = (t.inode i).iCount)
    (hr : ∀ j, r.2.weight (Frame.inodeRefs j) (fun v => v.inodeRefs j + f.leaves j) ≤ f.inodeRefs j)
    (hb : Backs f r.2) (ho : Ready r.1 r.2) : Does t f r := by
  refine t.does_of_entry hi he ?_ (fun j _ => hr j) hb ho
  rw [hc]
  exact Nat.add_le_add_right (hr i) _

theorem readInode_does (inode : Ino) (pc : InodePc n) :
    Does t (.readInode inode pc) (t.readInode ch inode pc) := by
  cases pc with
  | lock =>
    simp only [readInode]
    split
    · exact t.does_of_inode rfl (fun _ => le_rfl) (fun _ h => h) (ready_of rfl)
    · exact t.does_of_fields rfl (.lock (.inl rfl)) rfl (fun _ => le_rfl) (fun _ h => h) (ready_of rfl)
  | super | bread sb =>
    exact t.does_of_inode rfl (fun _ => le_rfl) ⟨fun _ h => h, fun _ h => by cases h⟩ (ready_of rfl)
  | copy bh =>
    exact t.does_of_fields rfl (.keep ch.dInode) rfl (fun _ => le_rfl)
      ⟨fun _ h => h, fun _ h => by cases h⟩ (ready_of rfl)
  | brelse => exact t.does_of_inode rfl (fun _ => le_rfl) (fun _ h => h) (ready_of rfl)
  | unlock => exact t.does_of_fields rfl .unlock rfl (fun _ => le_rfl) trivial trivial
  | panic => exact t.does_of_inode rfl (fun _ => le_rfl) trivial trivial

theorem truncate_does (inode : Ino) (pc : TruncatePc) :
    Does t (.truncate inode pc) (t.truncate inode pc) := by
  cases pc with
  | start =>
    simp only [truncate]
    split
    · exact t.does_of_inode rfl (fun _ => le_rfl) (fun _ h => h) (ready_of rfl)
    · exact t.does_of_inode rfl (fun _ => le_rfl) trivial trivial
  | zone i =>
    simp only [truncate]
    split
    · split
      · exact t.does_of_inode rfl (fun _ => le_rfl) ⟨fun _ h => h, fun _ h => by cases h⟩ (ready_of rfl)
      · exact t.does_of_inode rfl (fun _ => le_rfl) (fun _ h => h) (ready_of rfl)
    · exact t.does_of_inode rfl (fun _ => le_rfl) ⟨fun _ h => h, fun _ h => by cases h⟩ (ready_of rfl)
  | freeing i | ind | freeingDind =>
    exact t.does_of_inode rfl (fun _ => le_rfl) (fun _ h => h) (ready_of rfl)
  | freed i =>
    exact t.does_of_fields rfl (.keep _) rfl (fun _ => le_rfl) (fun _ h => h) (ready_of rfl)
  | dind =>
    exact t.does_of_inode rfl (fun _ => le_rfl) ⟨fun _ h => h, fun _ h => by cases h⟩ (ready_of rfl)
  | done =>
    obtain ⟨d, hd⟩ : ∃ d : DInode, (t.truncate inode .done).1.inode =
        (t.setInode inode { t.inode inode with toDInode := d, iDirt := true }).inode := by
      refine ⟨{ (t.inode inode).toDInode with
        iZone := Function.update (Function.update (t.inode inode).iZone 7 0) 8 0 }, ?_⟩
      simp only [truncate, clearZone, setInode, Function.update_self, Function.update_idem]
    refine t.does_of_fields hd (.mark d rfl fun hs => ?_) rfl (fun _ => le_rfl) trivial trivial
    exact if_pos hs

theorem freeInode_does (inode : Ino) (pc : FreeInodePc)
    (hfree : ∀ j, Frame.frees t (.freeInode inode pc : Frame n) = some j → (t.inode j).iCount.toNat ≤ 1) :
    Does t (.freeInode inode pc) (t.freeInode inode pc) := by
  cases pc with
  | start =>
    simp only [freeInode]
    split
    · next hdev =>
      refine t.does_of_entry rfl .free ?_ (fun _ _ => Nat.zero_le _) trivial trivial
      have hc := hfree inode (if_pos hdev)
      rw [show Frame.inodeRefs inode (.freeInode inode .start : Frame n) = 1 from if_pos rfl]
      change 0 + (t.inode inode).iCount.toNat ≤ 1 + 0
      omega
    split
    · exact t.does_of_inode rfl (fun _ => Nat.zero_le _) trivial trivial
    · exact t.does_of_inode rfl (fun _ => (Nat.zero_add _).le) ⟨fun _ h => h, fun _ h => by cases h⟩
        (ready_of rfl)
  | super => exact t.does_of_inode rfl (fun _ => le_rfl) (fun _ h => h) (ready_of rfl)
  | check sb =>
    simp only [freeInode]
    split
    · exact t.does_of_inode rfl (fun _ => Nat.zero_le _) trivial trivial
    split
    · exact t.does_of_inode rfl (fun _ => Nat.zero_le _) trivial trivial
    · refine t.does_of_entry rfl .free ?_ (fun _ _ => Nat.zero_le _) trivial trivial
      have hc := hfree inode rfl
      rw [show Frame.inodeRefs inode (.freeInode inode (.check sb) : Frame n) = 1 from if_pos rfl]
      change 0 + (t.inode inode).iCount.toNat ≤ 1 + 0
      omega
  | panic => exact t.does_of_inode rfl (fun _ => Nat.zero_le _) trivial trivial

/-- `iput` gives its reference back. -/
theorem iput_does (inode : Ino) (pc : IputPc)
    (hcount : ∀ j, Frame.inodeRefs j (.iput inode pc : Frame n) ≤ (t.inode j).iCount.toNat)
    (hready : pc = .repeat → (t.inode inode).iLock = false) :
    Does t (.iput inode pc) (t.iput inode pc) := by
  have hdrop : Frame.inodeRefs inode (.iput inode pc : Frame n) = 1 →
      (t.inode inode).iLock = false → (t.inode inode).iCount ≠ 0 →
      ((t.inode inode).iCount = 1 → (t.inode inode).iDirt = false ∨ (t.inode inode).stray = true) →
      Does t (.iput inode pc) (t.drop inode, .ret .void) := by
    intro hone hl hc h
    refine t.does_of_entry rfl (.drop hl hc h) ?_ (fun j _ => Nat.zero_le _) trivial trivial
    rw [hone]
    change 0 + (t.inode inode).iCount.toNat ≤ 1 + ((t.inode inode).iCount - 1).toNat
    bv_omega
  cases pc with
  | wait =>
    simp only [iput]
    split
    · exact t.does_of_inode rfl (fun _ => le_rfl) (fun _ h => h) (ready_of rfl)
    next hl =>
    split
    · exact t.does_of_inode rfl (fun _ => Nat.zero_le _) trivial trivial
    next hc =>
    split
    · next hp =>
      split
      · next h1 =>
        refine hdrop (if_pos rfl) (by simpa using hl) hc fun hone => ?_
        rw [hone] at h1
        exact absurd rfl h1
      · next h1 =>
        refine t.does_of_entry rfl (.close (by simpa using hl)) ?_ (fun j _ => Nat.zero_le _) trivial
          trivial
        rw [show Frame.inodeRefs inode (.iput inode .wait : Frame n) = 1 from if_pos rfl]
        change 0 + (t.inode inode).iCount.toNat ≤ 1 + 0
        bv_omega
    next hp =>
    split
    · next hdev =>
      refine hdrop (if_pos rfl) (by simpa using hl) hc fun _ => .inr ?_
      unfold MInode.stray
      rw [hdev]
      simpa using hp
    split
    · exact t.does_of_inode rfl (fun _ => (Nat.zero_add _).le) ⟨fun _ h => h, fun _ h => by cases h⟩
        (ready_of rfl)
    · refine t.does_of_inode rfl (fun _ => le_rfl) (fun _ h => h) fun i hi => ?_
      cases hi
      simpa using hl
  | syncing => exact t.does_of_inode rfl (fun _ => le_rfl) (fun _ h => h) (ready_of rfl)
  | waitBlk | waitDirty =>
    simp only [iput]
    split
    · exact t.does_of_inode rfl (fun _ => le_rfl) (fun _ h => h) (ready_of rfl)
    · next hl =>
      refine t.does_of_inode rfl (fun _ => le_rfl) (fun _ h => h) fun i hi => ?_
      cases hi
      simpa using hl
  | «repeat» =>
    have hl := hready rfl
    have hc : (t.inode inode).iCount ≠ 0 := by
      have h1 := hcount inode
      rw [show Frame.inodeRefs inode (.iput inode .repeat : Frame n) = 1 from if_pos rfl] at h1
      rintro h0
      rw [h0] at h1
      exact absurd h1 (by decide)
    simp only [iput]
    split
    · next h1 =>
      refine hdrop (if_pos rfl) hl hc fun hone => ?_
      rw [hone] at h1
      exact absurd h1 (by decide)
    next h1 =>
    split
    · exact t.does_of_inode rfl (fun _ => (Nat.zero_add _).le)
        ⟨fun _ h => h, fun i h => .inr (by cases h; exact Nat.lt_of_lt_of_eq Nat.one_pos (if_pos rfl).symm)⟩
        (ready_of rfl)
    split
    · exact t.does_of_inode rfl (fun _ => (Nat.zero_add _).le) ⟨fun _ h => h, fun _ h => by cases h⟩
        (ready_of rfl)
    · next hd => exact hdrop (if_pos rfl) hl hc fun _ => .inl (by simpa using hd)
  | truncating | writing => exact t.does_of_inode rfl (fun _ => le_rfl) (fun _ h => h) (ready_of rfl)
  | free =>
    exact t.does_of_inode rfl (fun _ => le_rfl) ⟨fun _ h => h, fun _ h => by cases h⟩ (ready_of rfl)
  | freeing => exact t.does_of_inode rfl (fun _ => le_rfl) (fun _ h => h) (ready_of rfl)
  | done => exact t.does_of_inode rfl (fun _ => le_rfl) trivial trivial

theorem getEmptyInode_does (pc : GetEmptyInodePc) :
    Does t (.getEmptyInode pc) (t.getEmptyInode pc) := by
  cases pc with
  | pick =>
    simp only [getEmptyInode]
    split
    · exact t.does_of_inode rfl (fun _ => le_rfl) trivial trivial
    · exact t.does_of_inode rfl (fun _ => le_rfl) (fun _ h => by cases h) (ready_of rfl)
  | wait inode =>
    simp only [getEmptyInode]
    split
    · exact t.does_of_inode rfl (fun _ => le_rfl) (fun _ h => h) (ready_of rfl)
    split
    · exact t.does_of_inode rfl (fun _ => le_rfl) ⟨fun _ h => h, fun _ h => by cases h⟩ (ready_of rfl)
    split
    · exact t.does_of_inode rfl (fun _ => le_rfl) (fun _ h => by cases h) (ready_of rfl)
    · next hc =>
      refine t.does_of_entry rfl .take ?_ (fun j hj => ?_) trivial trivial
      · rw [not_not.1 hc]
        change (if inode = inode then 1 else 0) + 0 + 0 ≤ 0 + 1
        rw [if_pos rfl]
      · change (if inode = j then 1 else 0) + 0 ≤ 0
        rw [if_neg (Ne.symm hj)]
  | writing inode => exact t.does_of_inode rfl (fun _ => le_rfl) (fun _ h => h) (ready_of rfl)

/-- A reference more. -/
theorem toNat_succ {c : BitVec 16} (h : c ≠ 0xffff) : (c + 1).toNat = c.toNat + 1 := by
  bv_omega

/-- `iget` has taken a reference to `i`, and gives one back, to `i` or to the empty inode `e`. -/
theorem iget_grab {dev : Dev} {nr : BitVec 16} {e i : Ino} {g h : Frame n}
    (hgrabs : (Frame.iget dev nr (.wait e i) : Frame n).grabs t = some i)
    (hmax : (t.inode i).iCount ≠ 0xffff)
    (hw : ∀ j, h.inodeRefs j + g.inodeRefs j = (if e = j then 1 else 0) + if i = j then 1 else 0)
    (hg : g.needs = none) (hh : h.needs = none)
    (hr : Next.noRepeat (.call g h) = true) :
    Does t (.iget dev nr (.wait e i))
      (t.setInode i { t.inode i with iCount := (t.inode i).iCount + 1 }, .call g h) := by
  refine t.does_of_entry rfl (.grab hgrabs) ?_ (fun j hj => ?_) ⟨fun j hj => ?_, fun j hj => ?_⟩
    (ready_of hr)
  · change h.inodeRefs i + g.inodeRefs i + (t.inode i).iCount.toNat ≤
      (if e = i then 1 else 0) + ((t.inode i).iCount + 1).toNat
    rw [hw, if_pos rfl, toNat_succ hmax]
    omega
  · change h.inodeRefs j + g.inodeRefs j ≤ if e = j then 1 else 0
    rw [hw, if_neg (Ne.symm hj)]
    exact le_rfl
  · rw [hg] at hj
    cases hj
  · rw [hh] at hj
    cases hj

theorem iget_does (dev : Dev) (nr : BitVec 16) (pc : IgetPc)
    (hmax : ∀ j, (Frame.iget dev nr pc : Frame n).grabs t = some j → (t.inode j).iCount ≠ 0xffff) :
    Does t (.iget dev nr pc) (t.iget dev nr pc) := by
  cases pc with
  | start =>
    simp only [iget]
    split
    · exact t.does_of_inode rfl (fun _ => le_rfl) trivial trivial
    · exact t.does_of_inode rfl (fun _ => le_rfl) ⟨fun _ h => h, fun _ h => by cases h⟩ (ready_of rfl)
  | empty => exact t.does_of_inode rfl (fun _ => le_rfl) (fun _ h => h) (ready_of rfl)
  | scan e i =>
    simp only [iget]
    split
    · split <;> exact t.does_of_inode rfl (fun _ => le_rfl) (fun _ h => h) (ready_of rfl)
    · next hi =>
      refine t.does_of_fields rfl (.name dev nr fun h0 hd => ?_) rfl (fun j => (Nat.zero_add _).le)
        ⟨fun _ h => h, fun j h => .inr ?_⟩ (ready_of rfl)
      · exact if_pos ⟨h0, not_lt.1 hi, hd⟩
      · cases h
        exact Nat.lt_of_lt_of_eq Nat.one_pos (if_pos rfl).symm
  | wait e i =>
    simp only [iget]
    split
    · exact t.does_of_inode rfl (fun _ => le_rfl) (fun _ h => h) (ready_of rfl)
    next hl =>
    split
    · exact t.does_of_inode rfl (fun _ => le_rfl) (fun _ h => h) (ready_of rfl)
    next hne =>
    have hgrabs : (Frame.iget dev nr (.wait e i) : Frame n).grabs t = some i :=
      if_pos ⟨Bool.eq_false_iff.2 hl, by simpa only [not_or, not_not] using hne⟩
    have hi := hmax i hgrabs
    split
    · split
      · exact t.iget_grab hgrabs hi (fun _ => rfl) rfl rfl rfl
      · exact t.iget_grab hgrabs hi (fun _ => Nat.add_comm _ _) rfl rfl rfl
    · exact t.iget_grab hgrabs hi (fun _ => rfl) rfl rfl rfl
  | putting e sb | mounted e sb | ret i | reading e =>
    exact t.does_of_inode rfl (fun _ => le_rfl) (fun _ h => h) (ready_of rfl)
  | done i => exact t.does_of_inode rfl (fun _ => le_rfl) trivial trivial

theorem bmap_does (create : Bool) (inode : Ino) (block : Block) (pc : BmapPc n) :
    Does t (.bmap create inode block pc) (t.bmap ch create inode block pc) := by
  cases pc with
  | start =>
    simp only [bmap]
    split
    · exact t.does_of_inode rfl (fun _ => Nat.zero_le _) trivial trivial
    split
    · next hc =>
      refine t.does_of_inode rfl (fun _ => Nat.zero_le _) ⟨fun j h => ?_, fun _ h => by cases h⟩
        (ready_of rfl)
      rw [hc.1] at h ⊢
      exact h
    · refine t.does_of_inode rfl (fun _ => Nat.zero_le _) (fun j h => ?_) (ready_of rfl)
      cases create
      · cases h
      · exact h
  | gotZone k z =>
    simp only [bmap]
    have hneeds : (Frame.bmap create inode block (.gotZone k z) : Frame n).needs = some inode := by
      cases create <;> rfl
    have hback : Backs (Frame.bmap create inode block (.gotZone k z) : Frame n)
        (.goto (.bmap create inode block (.table k))) := by
      intro j h
      cases create
      · cases h
      · exact h
    split
    · next hz =>
      refine t.does_of_fields rfl (.mark _ hneeds fun hs => if_pos ⟨hz, hs⟩) rfl
        (fun _ => Nat.zero_le _) hback (ready_of rfl)
    · exact t.does_of_fields rfl (.keep _) rfl (fun _ => Nat.zero_le _) hback (ready_of rfl)
  | _ =>
    cases create
    all_goals
      simp only [bmap]
      try split_ifs
    all_goals first
      | exact t.does_of_inode rfl (fun _ => Nat.zero_le _) (fun _ h => h) (ready_of rfl)
      | exact t.does_of_inode rfl (fun _ => Nat.zero_le _) ⟨fun _ h => h, fun _ h => by cases h⟩
          (ready_of rfl)
      | exact t.does_of_inode rfl (fun _ => Nat.zero_le _) trivial trivial

theorem findEntry_does (dir : Ino) (name : Name) (pc : FindEntryPc n)
    (hmax : ∀ j, (Frame.findEntry dir name pc).grabs t = some j → (t.inode j).iCount ≠ 0xffff) :
    Does t (.findEntry dir name pc) (t.findEntry ch dir name pc) := by
  cases pc with
  | start =>
    simp only [findEntry]
    split
    · exact t.does_of_inode rfl (fun _ => (Nat.zero_add _).le) trivial trivial
    · exact t.does_of_inode rfl (fun _ => le_rfl) (fun _ h => h) (ready_of rfl)
    · split
      · exact t.does_of_inode rfl (fun _ => (Nat.zero_add _).le)
          ⟨fun _ h => h, fun _ h => by cases h⟩ (ready_of rfl)
      · exact t.does_of_inode rfl (fun _ => le_rfl) (fun _ h => h) (ready_of rfl)
  | got entries sb =>
    simp only [findEntry]
    split
    · exact t.does_of_inode rfl (fun _ => le_rfl) (fun _ h => h) (ready_of rfl)
    · exact t.does_of_inode rfl (fun _ => le_rfl) ⟨fun _ h => h, fun _ h => by cases h⟩ (ready_of rfl)
  | mounted entries m =>
    refine t.does_of_entry rfl (.grab rfl) ?_ (fun j hj => ?_) (fun _ h => h) (ready_of rfl)
    · change (if m = m then 1 else 0) + (t.inode m).iCount.toNat ≤ 0 + ((t.inode m).iCount + 1).toNat
      rw [if_pos rfl, toNat_succ (hmax m rfl)]
      omega
    · change (if m = j then 1 else 0) ≤ 0
      rw [if_neg (Ne.symm hj)]
  | _ =>
    simp only [findEntry]
    try split_ifs
    all_goals first
      | exact t.does_of_inode rfl (fun _ => le_rfl) (fun _ h => h) (ready_of rfl)
      | exact t.does_of_inode rfl (fun _ => (Nat.zero_add _).le)
          ⟨fun _ h => h, fun _ h => by cases h⟩ (ready_of rfl)
      | exact t.does_of_inode rfl (fun _ => (Nat.zero_add _).le) trivial trivial
      | exact t.does_of_inode rfl (fun _ => Nat.zero_le _) trivial trivial

theorem addEntry_does (dir : Ino) (name : Name) (pc : AddEntryPc n) :
    Does t (.addEntry dir name pc) (t.addEntry ch dir name pc) := by
  cases pc with
  | start =>
    simp only [addEntry]
    split
    · exact t.does_of_inode rfl (fun _ => le_rfl) trivial trivial
    all_goals
      split
      · exact t.does_of_inode rfl (fun _ => le_rfl) trivial trivial
      · exact t.does_of_inode rfl (fun _ => le_rfl) ⟨fun _ h => h, fun _ h => by cases h⟩ (ready_of rfl)
  | scan bh i k =>
    simp only [addEntry]
    split
    · exact t.does_of_inode rfl (fun _ => le_rfl) ⟨fun _ h => h, fun _ h => by cases h⟩ (ready_of rfl)
    next hk =>
    by_cases hpast : (t.inode dir).iSize.toNat ≤ i * 16
    · -- The entry behind the end makes the directory longer.
      rw [if_pos hpast, if_pos (.inl hpast)]
      have hmark : Effect t (.addEntry dir name (.scan bh i k)) dir
          { t.inode dir with iSize := BitVec.ofNat 32 ((i + 1) * 16), iDirt := true } :=
        .mark { (t.inode dir).toDInode with iSize := BitVec.ofNat 32 ((i + 1) * 16) } rfl
          fun hs => if_pos ⟨not_le.1 hk, hpast, hs⟩
      split
      · exact t.does_of_fields rfl hmark rfl (fun _ => le_rfl) trivial trivial
      · exact t.does_of_fields rfl hmark rfl (fun _ => le_rfl) trivial trivial
    · rw [if_neg hpast]
      split
      · split <;> exact t.does_of_inode rfl (fun _ => le_rfl) trivial trivial
      · exact t.does_of_inode rfl (fun _ => le_rfl) (fun _ h => h) (ready_of rfl)
  | gotBlock i block =>
    simp only [addEntry]
    split
    · exact t.does_of_inode rfl (fun _ => le_rfl) trivial trivial
    · exact t.does_of_inode rfl (fun _ => le_rfl) ⟨fun _ h => h, fun _ h => by cases h⟩ (ready_of rfl)
  | released i =>
    exact t.does_of_inode rfl (fun _ => le_rfl) ⟨fun _ h => h, fun _ h => .inl h⟩ (ready_of rfl)
  | reading | releasing i | creating i | readingNext i =>
    exact t.does_of_inode rfl (fun _ => le_rfl) (fun _ h => h) (ready_of rfl)
  | null => exact t.does_of_inode rfl (fun _ => le_rfl) trivial trivial

theorem withEntry_does (add : Bool) (dir : Ino) (name : Name) (pc : WithEntryPc n) :
    Does t (.withEntry add dir name pc) (t.withEntry add dir name pc) := by
  cases add
  all_goals cases pc
  case false.start =>
    exact t.does_of_inode rfl (fun _ => le_rfl) ⟨fun _ h => h, fun _ h => by cases h⟩ (ready_of rfl)
  case true.start =>
    exact t.does_of_inode rfl (fun _ => le_rfl) ⟨fun _ h => h, fun _ h => .inl h⟩ (ready_of rfl)
  all_goals first
    | exact t.does_of_inode rfl (fun _ => le_rfl) (fun _ h => h) (ready_of rfl)
    | exact t.does_of_inode rfl (fun _ => le_rfl) ⟨fun _ h => h, fun _ h => by cases h⟩ (ready_of rfl)
    | exact t.does_of_inode rfl (fun _ => le_rfl) trivial trivial

/-- What a step does, for all functions. -/
theorem exec_does (f : Frame n) (hcount : ∀ j, f.inodeRefs j ≤ (t.inode j).iCount.toNat)
    (hready : ∀ i, f = .iput i .repeat → (t.inode i).iLock = false)
    (hfree : ∀ j, f.frees t = some j → (t.inode j).iCount.toNat ≤ 1)
    (hmax : ∀ j, f.grabs t = some j → (t.inode j).iCount ≠ 0xffff) : Does t f (t.exec ch f) := by
  cases f with
  | buf f => exact t.buf_does ch f
  | getSuper dev pc => exact t.getSuper_does dev pc
  | readInode inode pc => exact t.readInode_does ch inode pc
  | writeInode inode pc => exact t.writeInode_does inode pc
  | syncInodes pc => exact t.syncInodes_does pc
  | invalidateInodes dev i => exact t.invalidateInodes_does dev i
  | invalidateBuffers dev pc => exact t.invalidateBuffers_does dev pc
  | checkDiskChange dev pc => exact t.checkDiskChange_does ch dev pc
  | putSuper dev pc => exact t.putSuper_does dev pc
  | readSuper dev pc => exact t.readSuper_does ch dev pc
  | freeBlock dev block pc => exact t.freeBlock_does ch dev block pc
  | freeInd double dev block pc => exact t.freeInd_does ch double dev block pc
  | truncate inode pc => exact t.truncate_does inode pc
  | freeInode inode pc => exact t.freeInode_does inode pc hfree
  | iput inode pc => exact t.iput_does inode pc hcount fun h => hready inode (by rw [h])
  | getEmptyInode pc => exact t.getEmptyInode_does pc
  | iget dev nr pc => exact t.iget_does dev nr pc hmax
  | newBlock dev pc => exact t.newBlock_does ch dev pc
  | bmap create inode block pc => exact t.bmap_does ch create inode block pc
  | findEntry dir name pc => exact t.findEntry_does ch dir name pc hmax
  | addEntry dir name pc => exact t.addEntry_does ch dir name pc
  | emptyDir inode pc => exact t.emptyDir_does ch inode pc
  | withEntry add dir name pc => exact t.withEntry_does add dir name pc

end Tables

end Linux011.Inodes
