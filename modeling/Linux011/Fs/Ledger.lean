import Linux011.Buffer.Account
import Linux011.Fs.SelfWait

/-!
# Buffers are given back

The functions of the file system get buffers by `bread`, `getblk` and `get_hash_table` and give them
back by `brelse`. `b_count` has eight bits, and other processes use the same buffers in between.

1. `Ledger`: what one process and what the others have added to `b_count` since a call; `operation`,
   the runs of a call with its ledger.
2. `Frame.refs`: the references that a frame still has to give back. `Settles`: a step changes
   `b_count` by the change of the references of its frame. `exec_settles`.
3. `Balanced`: a process owes the references of its frames. `buffers_given_back`.
-/

namespace Linux011.Inodes

open Buffer (Dev Block Pid Cache)

variable {α : Type*} {n : ℕ}

/-! ## The ledger -/

/-- `b_count` at the start of a call, and what the process that makes it and all others have added
since. -/
structure Ledger (n : ℕ) where
  before : Fin n → BitVec 8
  own : Fin n → ℤ
  others : Fin n → ℤ

/-- The ledger at the start of a call. -/
def Ledger.opened (s : State α n) : Ledger n := ⟨s.tables.cache.bCount, fun _ => 0, fun _ => 0⟩

/-- By how much `b_count` of `b` differs. -/
def change (t t' : Tables α n) (b : Fin n) : ℤ := (t'.cache.bCount b - t.cache.bCount b).toInt

/-- The process `p` makes a step in a call. -/
def State.moves (p : Pid) (s : State α n) : Event α n → Bool
  | .run _ => s.cur = some p
  | _ => false

/-- The entry for a step from `s` to `s'`. -/
def Ledger.enter (l : Ledger n) (p : Pid) (s : State α n) (e : Event α n) (s' : State α n) :
    Ledger n :=
  if s.moves p e then { l with own := fun b => l.own b + change s.tables s'.tables b }
  else { l with others := fun b => l.others b + change s.tables s'.tables b }

/-- The next state in a call of `p`, which is over when its stack is empty. -/
def inCall (p : Pid) (x : State α n × Ledger n) (e : Event α n) : Option (State α n × Ledger n) :=
  if (x.1.stack p).isEmpty then none
  else (x.1.next e).map fun s => (s, x.2.enter p x.1 e s)

/-- The runs of the call `c` of `p`, whatever the tables are and the other processes do. -/
def operation (α : Type*) (n : ℕ) (p : Pid) (c : Call n) :
    System (State α n × Ledger n) (Event α n) where
  init x := x.1.stack p = [c.frame] ∧ x.2 = .opened x.1
  step x e x' := inCall p x e = some x'

/-- The calls that return no buffer, and store none in the tables. -/
def Call.givesBack : Call n → Bool
  | .bmap _ _ | .createBlock _ _ | .newBlock _ | .findEntry _ _ | .addEntry _ _ | .emptyDir _
  | .readInode _ | .writeInode _ | .getSuper _ | .freeBlock _ _ | .truncate _ | .freeInode _
  | .iput _ | .getEmptyInode | .iget _ _ => true
  | .buf _ | .checkDiskChange _ | .putSuper _ | .readSuper _ => false

/-- What the call of `p` owes to the other users of a buffer: when it is over, `b_count` has changed
by what they did, and meanwhile `p` releases only what it has got. `brelse` then finds no free buffer,
unless the others released what was not theirs or there are more references than `b_count` counts. -/
structure GivenBack (p : Pid) (s : State α n) (l : Ledger n) : Prop where
  finished : s.stack p = [] → ∀ b,
    s.tables.cache.bCount b = l.before b + BitVec.ofInt 8 (l.others b)
  released : ∀ b fs, s.stack p = .buf (.brelse (some b)) :: fs → 1 ≤ l.own b
  counted : ∀ b fs, s.stack p = .buf (.brelse (some b)) :: fs → s.tables.cache.bCount b = 0 →
    (l.before b).toNat + l.others b < 0 ∨ 256 ≤ (l.before b).toNat + l.own b + l.others b

/-- The steps that lose count: `free_block` and `empty_dir` return without releasing their buffer,
and after a hole `empty_dir` goes on with the buffer that it has released. -/
def Frame.losesCount (t : Tables α n) (ch : Chance α) : Frame n → Bool
  | .freeBlock _ _ (.count _ bh) => t.cache.bCount bh ≠ 1
  | .emptyDir _ (.dots _ _) => ch.bit
  | .emptyDir _ (.gotBlock _ _ _ block) => block = 0
  | _ => false

/-- The condition on a step of `p`. -/
def Neatly (p : Pid) (x : State α n × Ledger n) : Event α n → Prop
  | .run ch =>
    x.1.cur = some p → ((x.1.stack p).head?.any fun f => f.losesCount x.1.tables ch) = false
  | _ => True

/-! ## References -/

/-- A reference to `b`, if `bh` is `b`. -/
def ref (b : Fin n) : Option (Fin n) → ℕ
  | some bh => if bh = b then 1 else 0
  | none => 0

/-- The functions of the buffer cache that return a buffer. -/
def givesKind : Buffer.Kind n → Bool
  | .getHashTable _ _ | .getblk _ _ | .bread _ _ | .breada _ _ => true
  | _ => false

namespace Frame

/-- The buffer that a frame outside the buffer cache has got and not yet given back. -/
def buffer : Frame n → Option (Fin n)
  | .readInode _ (.copy bh) | .writeInode _ (.copy bh) => some bh
  | .freeBlock _ _ (.count _ bh) => some bh
  | .freeInd _ _ _ (.entry bh _) | .freeInd _ _ _ (.freeing bh _) => some bh
  | .newBlock _ (.count bh _) => some bh
  | .bmap _ _ _ (.entry _ bh) | .bmap _ _ _ (.creating _ bh) | .bmap _ _ _ (.created _ bh _)
  | .bmap _ _ _ (.release _ bh _) => some bh
  | .findEntry _ _ (.scan _ bh _ _) | .addEntry _ _ (.scan bh _ _) => bh
  | .emptyDir _ (.dots _ bh) | .emptyDir _ (.scan _ bh _ _) => some bh
  | .withEntry _ _ _ (.got bh) => bh
  | _ => none

/-- The references to `b` that a frame will give back or return. -/
def refs (b : Fin n) : Frame n → ℕ
  | .buf f => f.refs b
  | f => ref b f.buffer

/-- The functions that return a buffer. -/
def gives : Frame n → Bool
  | .buf f => givesKind f.kind
  | .findEntry _ _ _ | .addEntry _ _ _ => true
  | _ => false

/-- The frames that wait for a buffer. -/
def takes : Frame n → Bool
  | .buf (.getblk _ _ .hash) | .buf (.bread _ _ .getblk) | .buf (.breada _ _ _ .getblk)
  | .buf (.breada _ _ _ (.getAhead _)) | .buf (.syncInodes .reading)
  | .buf (.fileWrite _ _ .reading) => true
  | .readInode _ (.bread _) | .writeInode _ (.bread _) | .freeBlock _ _ (.hash _)
  | .freeInd _ _ _ .reading | .newBlock _ (.getblk _) | .bmap _ _ _ (.reading _)
  | .findEntry _ _ (.reading _) | .findEntry _ _ (.readingNext _ _) | .addEntry _ _ .reading
  | .addEntry _ _ (.readingNext _) | .emptyDir _ (.reading _) | .emptyDir _ (.readingNext _ _)
  | .withEntry _ _ _ .looking => true
  | _ => false

/-- All but the functions that move references between a process and the super blocks. -/
def keepsCount : Frame n → Bool
  | .checkDiskChange _ _ | .putSuper _ _ | .readSuper _ _ => false
  | _ => true

end Frame

/-- The references to `b` in a returned value. -/
def Val.refs (b : Fin n) : Val n → ℕ
  | .buf bh => ref b bh
  | _ => 0

/-- The value is a buffer. -/
def Val.given : Val n → Bool
  | .buf (some _) => true
  | _ => false

@[simp] theorem refs_brelse (b : Fin n) (bh : Option (Fin n)) :
    (Frame.buf (.brelse bh)).refs b = ref b bh := by
  cases bh <;> rfl

theorem Val.refs_of_not_given {v : Val n} (h : v.given = false) (b : Fin n) : v.refs b = 0 := by
  unfold given at h
  split at h
  · cases h
  · next hv =>
    cases v with
    | buf bh =>
      cases bh with
      | none => rfl
      | some bh => exact absurd rfl (hv bh)
    | _ => rfl

/-! ## What callers take over -/

namespace Frame

@[simp] theorem receive_gives (v : Val n) (f : Frame n) : (f.receive v).gives = f.gives := by
  unfold receive
  split <;> first | rfl | (split <;> first | rfl | simp [gives])

@[simp] theorem receive_keepsCount (v : Val n) (f : Frame n) :
    (f.receive v).keepsCount = f.keepsCount := by
  unfold receive
  split <;> first | rfl | (split <;> rfl)

theorem buf_receive_none (f : Buffer.Frame n) (b : Fin n) : (f.receive none).refs b = f.refs b := by
  cases f <;> first | rfl | (rename_i pc; cases pc <;> rfl)

/-- Without a buffer nothing changes. -/
theorem receive_refs_of_not_given {v : Val n} (hv : v.given = false) (f : Frame n) (b : Fin n) :
    (f.receive v).refs b = f.refs b := by
  cases v with
  | buf bh =>
    cases bh with
    | some bh => cases hv
    | none =>
      unfold receive
      split <;> first | rfl | exact buf_receive_none _ b
  | _ =>
    unfold receive
    split <;> first | rfl | exact buf_receive_none _ b | (split <;> rfl)

/-- A buffer becomes the reference of the frame that waits for it. -/
theorem receive_refs_of_takes {f : Frame n} (hf : f.takes = true) (bh b : Fin n) :
    (f.receive (.buf (some bh))).refs b = f.refs b + ref b (some bh) := by
  unfold takes at hf
  split at hf
  all_goals first
    | exact (Nat.zero_add _).symm
    | rfl
    | cases hf

theorem receive_refs {v : Val n} {f : Frame n} (h : (f.takes || !v.given) = true) (b : Fin n) :
    (f.receive v).refs b = f.refs b + v.refs b := by
  cases hv : v.given with
  | false => rw [receive_refs_of_not_given hv, v.refs_of_not_given hv, Nat.add_zero]
  | true =>
    rw [hv, Bool.not_true, Bool.or_false] at h
    cases v with
    | buf bh =>
      cases bh with
      | some bh => exact receive_refs_of_takes h bh b
      | none => cases hv
    | _ => cases hv

end Frame

/-! ## Steps -/

/-- `f` may be called by `g`. -/
def Frame.below (f g : Frame n) : Bool := f.keepsCount && (g.takes || !f.gives)

/-- `f'` is a later place of the same function as `f`, as far as it matters here. -/
def Frame.later (f f' : Frame n) : Bool := f'.gives == f.gives && f'.keepsCount == f.keepsCount

/-- What a step may do next: a function that gives a buffer is called where it is waited for. -/
def typed (f : Frame n) : Next n → Bool
  | .goto f' | .sleep f' => f.later f'
  | .call f' g => f.later f' && g.below f'
  | .ret v => f.gives || !v.given
  | .panic => true

/-- The references in what follows a step. -/
def nextRefs (o : Next n) (b : Fin n) : ℕ := o.weight (Frame.refs b) (Val.refs b)

/-- `b_count` changes with the references of the frame. -/
structure Settles (t : Tables α n) (f : Frame n) (r : Tables α n × Next n) : Prop where
  change : ∀ b, change t r.1 b = nextRefs r.2 b - f.refs b
  typed : typed f r.2 = true

/-- Outside the buffer cache no step changes `b_count` itself. -/
structure Keeps (t : Tables α n) (f : Frame n) (r : Tables α n × Next n) : Prop where
  count : r.1.cache.bCount = t.cache.bCount
  refs : ∀ b, nextRefs r.2 b = f.refs b
  typed : typed f r.2 = true

theorem Keeps.settles {t : Tables α n} {f : Frame n} {r : Tables α n × Next n} (h : Keeps t f r) :
    Settles t f r := by
  refine ⟨fun b => ?_, h.typed⟩
  rw [h.refs, Inodes.change, h.count, BitVec.sub_self, BitVec.toInt_zero, sub_self]

namespace Tables

variable (t : Tables α n) (ch : Chance α)

theorem getSuper_keeps (dev : Dev) (pc : GetSuperPc) :
    Keeps t (.getSuper dev pc) (t.getSuper dev pc) := by
  cases pc <;> simp only [getSuper] <;> split_ifs <;> exact ⟨rfl, fun _ => rfl, rfl⟩

theorem readInode_keeps (inode : Ino) (pc : InodePc n) :
    Keeps t (.readInode inode pc) (t.readInode ch inode pc) := by
  cases pc <;> simp only [readInode] <;> (try split_ifs) <;> exact ⟨rfl, fun _ => rfl, rfl⟩

theorem writeInode_keeps (inode : Ino) (pc : InodePc n) :
    Keeps t (.writeInode inode pc) (t.writeInode inode pc) := by
  cases pc <;> simp only [writeInode] <;> (try split_ifs) <;> exact ⟨rfl, fun _ => rfl, rfl⟩

theorem syncInodes_keeps (pc : SyncInodesPc) : Keeps t (.syncInodes pc) (t.syncInodes pc) := by
  cases pc <;> simp only [syncInodes] <;> (try split_ifs) <;> exact ⟨rfl, fun _ => rfl, rfl⟩

theorem invalidateInodes_keeps (dev : Dev) (i : ℕ) :
    Keeps t (.invalidateInodes dev i) (t.invalidateInodes dev i) := by
  simp only [invalidateInodes]
  split_ifs <;> exact ⟨rfl, fun _ => rfl, rfl⟩

theorem invalidateBuffers_keeps (dev : Dev) (pc : InvalidateBuffersPc) :
    Keeps t (.invalidateBuffers dev pc) (t.invalidateBuffers dev pc) := by
  cases pc <;> simp only [invalidateBuffers] <;> split_ifs <;> exact ⟨rfl, fun _ => rfl, rfl⟩

/-- `free_block` keeps its buffer where it finds that it is in use. -/
theorem freeBlock_keeps (dev : Dev) (block : Block) (pc : FreeBlockPc n)
    (h : (Frame.freeBlock dev block pc).losesCount t ch = false) :
    Keeps t (.freeBlock dev block pc) (t.freeBlock ch dev block pc) := by
  cases pc with
  | count sb bh =>
    have hb : t.cache.bCount bh = 1 := by simpa [Frame.losesCount] using h
    simp only [freeBlock, if_neg (not_not.2 hb)]
    exact ⟨rfl, fun _ => rfl, rfl⟩
  | clear sb =>
    simp only [freeBlock]
    split
    · exact ⟨rfl, fun _ => rfl, rfl⟩
    · split <;> exact ⟨rfl, fun _ => rfl, rfl⟩
  | _ =>
    simp only [freeBlock]
    try split_ifs
    all_goals exact ⟨rfl, fun _ => rfl, rfl⟩

theorem freeInd_keeps (double : Bool) (dev : Dev) (block : Block) (pc : FreeIndPc n) :
    Keeps t (.freeInd double dev block pc) (t.freeInd ch double dev block pc) := by
  cases pc with
  | entry bh i =>
    simp only [freeInd]
    split_ifs
    · exact ⟨rfl, fun _ => Nat.zero_add _, rfl⟩
    · exact ⟨rfl, fun _ => Nat.zero_add _, rfl⟩
    · exact ⟨rfl, fun _ => rfl, rfl⟩
    · exact ⟨rfl, fun _ => rfl, rfl⟩
  | _ =>
    simp only [freeInd]
    try split_ifs
    all_goals exact ⟨rfl, fun _ => rfl, rfl⟩

theorem truncate_keeps (inode : Ino) (pc : TruncatePc) :
    Keeps t (.truncate inode pc) (t.truncate inode pc) := by
  cases pc <;> simp only [truncate] <;> (try split_ifs) <;> exact ⟨rfl, fun _ => rfl, rfl⟩

theorem freeInode_keeps (inode : Ino) (pc : FreeInodePc) :
    Keeps t (.freeInode inode pc) (t.freeInode inode pc) := by
  cases pc with
  | check sb =>
    simp only [freeInode]
    split
    · exact ⟨rfl, fun _ => rfl, rfl⟩
    · split <;> exact ⟨rfl, fun _ => rfl, rfl⟩
  | _ =>
    simp only [freeInode]
    try split_ifs
    all_goals exact ⟨rfl, fun _ => rfl, rfl⟩

theorem iput_keeps (inode : Ino) (pc : IputPc) : Keeps t (.iput inode pc) (t.iput inode pc) := by
  cases pc <;> simp only [iput] <;> (try split_ifs) <;> exact ⟨rfl, fun _ => rfl, rfl⟩

theorem getEmptyInode_keeps (pc : GetEmptyInodePc) :
    Keeps t (.getEmptyInode pc) (t.getEmptyInode pc) := by
  cases pc with
  | pick =>
    simp only [getEmptyInode]
    split <;> exact ⟨rfl, fun _ => rfl, rfl⟩
  | _ =>
    simp only [getEmptyInode]
    try split_ifs
    all_goals exact ⟨rfl, fun _ => rfl, rfl⟩

theorem iget_keeps (dev : Dev) (nr : BitVec 16) (pc : IgetPc) :
    Keeps t (.iget dev nr pc) (t.iget dev nr pc) := by
  cases pc with
  | wait empty i =>
    simp only [iget]
    split
    · exact ⟨rfl, fun _ => rfl, rfl⟩
    split
    · exact ⟨rfl, fun _ => rfl, rfl⟩
    split
    · split <;> exact ⟨rfl, fun _ => rfl, rfl⟩
    · exact ⟨rfl, fun _ => rfl, rfl⟩
  | _ =>
    simp only [iget]
    try split_ifs
    all_goals exact ⟨rfl, fun _ => rfl, rfl⟩

theorem newBlock_keeps (dev : Dev) (pc : NewBlockPc n) (h : (t.newBlock ch dev pc).2 ≠ .panic) :
    Keeps t (.newBlock dev pc) (t.newBlock ch dev pc) := by
  cases pc with
  | check sb =>
    simp only [newBlock]
    split
    · exact ⟨rfl, fun _ => rfl, rfl⟩
    · split_ifs <;> exact ⟨rfl, fun _ => rfl, rfl⟩
  | count bh j =>
    simp only [newBlock] at h ⊢
    split
    · next hc =>
      rw [if_pos hc] at h
      exact absurd rfl h
    · exact ⟨rfl, fun _ => rfl, rfl⟩
  | _ =>
    simp only [newBlock]
    try split_ifs
    all_goals exact ⟨rfl, fun _ => rfl, rfl⟩

theorem bmap_keeps (create : Bool) (inode : Ino) (block : Block) (pc : BmapPc n) :
    Keeps t (.bmap create inode block pc) (t.bmap ch create inode block pc) := by
  cases pc with
  | entry last bh =>
    simp only [bmap]
    split
    · exact ⟨rfl, fun _ => Nat.zero_add _, rfl⟩
    · exact ⟨rfl, fun _ => rfl, rfl⟩
  | _ =>
    simp only [bmap]
    try split_ifs
    all_goals exact ⟨rfl, fun _ => rfl, rfl⟩

theorem findEntry_keeps (dir : Ino) (name : Name) (pc : FindEntryPc n) :
    Keeps t (.findEntry dir name pc) (t.findEntry ch dir name pc) := by
  cases pc with
  | start =>
    simp only [findEntry]
    split
    · exact ⟨rfl, fun _ => rfl, rfl⟩
    · exact ⟨rfl, fun _ => rfl, rfl⟩
    · split <;> exact ⟨rfl, fun _ => rfl, rfl⟩
  | got entries sb =>
    simp only [findEntry]
    split <;> exact ⟨rfl, fun _ => rfl, rfl⟩
  | scan entries bh i k =>
    simp only [findEntry]
    split_ifs
    · exact ⟨rfl, fun b => refs_brelse b bh, rfl⟩
    · exact ⟨rfl, fun _ => rfl, rfl⟩
    · exact ⟨rfl, fun _ => rfl, rfl⟩
    · exact ⟨rfl, fun b => refs_brelse b bh, rfl⟩
  | _ =>
    simp only [findEntry]
    try split_ifs
    all_goals exact ⟨rfl, fun _ => rfl, rfl⟩

theorem addEntry_keeps (dir : Ino) (name : Name) (pc : AddEntryPc n) :
    Keeps t (.addEntry dir name pc) (t.addEntry ch dir name pc) := by
  cases pc with
  | start =>
    simp only [addEntry]
    split
    · exact ⟨rfl, fun _ => rfl, rfl⟩
    all_goals split <;> exact ⟨rfl, fun _ => rfl, rfl⟩
  | scan bh i k =>
    have hcount : ∀ past : Prop, [Decidable past] → ∀ m : MInode,
        (if past then t.setInode dir m else t).cache = t.cache := by
      intro past _ m
      split <;> rfl
    simp only [addEntry]
    split
    · exact ⟨rfl, fun b => refs_brelse b bh, rfl⟩
    split
    · cases bh with
      | some bh => exact ⟨congrArg (·.bCount) (hcount _ _), fun _ => rfl, rfl⟩
      | none => exact ⟨congrArg (·.bCount) (hcount _ _), fun _ => rfl, rfl⟩
    · exact ⟨congrArg (·.bCount) (hcount _ _), fun _ => rfl, rfl⟩
  | _ =>
    simp only [addEntry]
    try split_ifs
    all_goals exact ⟨rfl, fun _ => rfl, rfl⟩

/-- `empty_dir` keeps its first buffer where it finds bad entries, and uses the one that it has
released after a hole. -/
theorem emptyDir_keeps (inode : Ino) (pc : EmptyDirPc n)
    (h : (Frame.emptyDir inode pc).losesCount t ch = false) :
    Keeps t (.emptyDir inode pc) (t.emptyDir ch inode pc) := by
  cases pc with
  | dots len bh =>
    have hb : ch.bit = false := h
    simp only [emptyDir, hb, Bool.false_eq_true, if_false]
    exact ⟨rfl, fun _ => rfl, rfl⟩
  | gotBlock len bh nr block =>
    have hb : block ≠ 0 := by simpa [Frame.losesCount] using h
    simp only [emptyDir, if_neg hb]
    exact ⟨rfl, fun _ => rfl, rfl⟩
  | _ =>
    simp only [emptyDir]
    try split_ifs
    all_goals exact ⟨rfl, fun _ => rfl, rfl⟩

theorem withEntry_keeps (add : Bool) (dir : Ino) (name : Name) (pc : WithEntryPc n) :
    Keeps t (.withEntry add dir name pc) (t.withEntry add dir name pc) := by
  cases pc with
  | start =>
    simp only [withEntry]
    split <;> exact ⟨rfl, fun _ => rfl, rfl⟩
  | got bh => exact ⟨rfl, fun b => refs_brelse b bh, rfl⟩
  | _ => exact ⟨rfl, fun _ => rfl, rfl⟩

/-- A function that gives a buffer is called where it is waited for. -/
theorem takes_of_awaits {f : Buffer.Frame n} {k : Buffer.Kind n} (h : f.awaits k)
    (hk : givesKind k = true) : (Frame.buf f).takes = true := by
  unfold Buffer.Frame.awaits at h
  split at h
  all_goals first
    | rfl
    | exact h.elim
    | (rw [h] at hk; cases hk)
    | (obtain ⟨_, rfl⟩ := h; cases hk)

/-- Only these functions return a buffer. -/
theorem gives_of_ret {c : Cache α n} {x : Buffer.Choice α} {f : Buffer.Frame n} {bh : Fin n}
    (h : (c.exec x f).2 = .ret (some bh)) : (Frame.buf f).gives = true := by
  cases f with
  | getHashTable dev block pc | getblk dev block pc | bread dev block pc => rfl
  | breada dev first rest pc => rfl
  | brelse buf =>
    cases buf with
    | none => cases h
    | some bh =>
      simp only [Cache.exec, Cache.brelse] at h
      split_ifs at h
      all_goals cases h
  | llRwBlock rw bh =>
    simp only [Cache.exec, Cache.llRwBlock] at h
    split_ifs at h
    all_goals cases h
  | makeRequest m rw bh pc =>
    rcases pc with _ | _ | _ | k <;> simp only [Cache.exec, Cache.makeRequest] at h <;>
      split_ifs at h <;> cases h
  | syncDev dev pc =>
    cases pc <;> simp only [Cache.exec, Cache.syncDev] at h <;> (try split_ifs at h) <;> cases h
  | sysSync pc =>
    cases pc <;> simp only [Cache.exec, Cache.sysSync] at h <;> (try split_ifs at h) <;> cases h
  | syncInodes pc =>
    cases pc <;> simp only [Cache.exec, Cache.syncInodes] at h <;> (try split at h) <;> cases h
  | fileWrite dev blocks pc =>
    cases pc <;> simp only [Cache.exec, Cache.fileWrite] at h <;> (try split at h) <;> cases h
  | modify bh =>
    simp only [Cache.exec, Cache.modify] at h
    split at h <;> cases h

theorem awaits_syncInodes {f : Buffer.Frame n} (h : f.awaits .syncInodes) :
    (∃ dev, f.kind = .syncDev dev) ∨ f.kind = .sysSync := by
  unfold Buffer.Frame.awaits at h
  split at h
  all_goals first
    | exact .inl ⟨_, rfl⟩
    | exact .inr rfl
    | (obtain ⟨_, _, h⟩ := h; cases h)
    | (obtain ⟨_, h⟩ := h; cases h)
    | cases h

/-- `sync_inodes` is called at its start. -/
theorem calls_syncInodes {c : Cache α n} {x : Buffer.Choice α} {f f' : Buffer.Frame n}
    {pc : Buffer.SyncInodesPc n} (h : (c.exec x f).2 = .call f' (.syncInodes pc)) : pc = .loop := by
  have hk := c.exec_next x f
  rw [h] at hk
  have hf := awaits_syncInodes hk.2
  rw [hk.1] at hf
  cases f with
  | syncDev dev pc' =>
    cases pc' <;> simp only [Cache.exec, Cache.syncDev] at h <;> (try split_ifs at h) <;> cases h
    rfl
  | sysSync pc' =>
    cases pc' <;> simp only [Cache.exec, Cache.sysSync] at h <;> (try split_ifs at h) <;> cases h
    rfl
  | _ =>
    rcases hf with ⟨dev, hf⟩ | hf
    all_goals cases hf

theorem buf_settles (f : Buffer.Frame n) : Settles t (.buf f) (t.exec ch (.buf f)) := by
  have hout := t.cache.exec_outcome ch.buf f
  have hk := t.cache.exec_next ch.buf f
  have hret : ∀ bh, (t.cache.exec ch.buf f).2 = .ret (some bh) → (Frame.buf f).gives = true :=
    fun bh => gives_of_ret
  have hsync : ∀ f' pc, (t.cache.exec ch.buf f).2 = .call f' (.syncInodes pc) → pc = .loop :=
    fun f' pc => calls_syncInodes
  change Settles t (.buf f)
    ({ t with cache := (t.cache.exec ch.buf f).1 }, lift (t.cache.exec ch.buf f).2)
  obtain ⟨⟨c', o⟩, ho⟩ : ∃ r, r = t.cache.exec ch.buf f := ⟨_, rfl⟩
  rw [← ho] at hout hk hret hsync ⊢
  have hc := hout.change
  have hlater {f' : Buffer.Frame n} (h : f'.kind = f.kind) :
      (Frame.buf f).later (.buf f') = true := by
    simp [Frame.later, Frame.gives, h, Frame.keepsCount]
  cases o with
  | goto f' | sleep f' => exact ⟨hc, hlater hk⟩
  | call f' g =>
    have hbelow {g' : Frame n} (hg : g'.keepsCount = true)
        (hb : g'.gives = true → (Frame.buf f').takes = true) : g'.below (.buf f') = true := by
      unfold Frame.below
      rw [hg, Bool.true_and, Bool.or_eq_true, Bool.not_eq_true']
      cases hg' : g'.gives with
      | false => exact .inr rfl
      | true => exact .inl (hb hg')
    unfold lift
    split
    · cases ‹_›
    · next f'' pc heq =>
      obtain ⟨rfl, rfl⟩ := by simpa using heq
      obtain rfl := hsync _ _ rfl
      refine ⟨hc, ?_⟩
      rw [typed, hlater hk.1, Bool.true_and]
      exact hbelow rfl fun hg => by cases hg
    · next f'' g' hn heq =>
      obtain ⟨rfl, rfl⟩ := by simpa using heq
      refine ⟨hc, ?_⟩
      rw [typed, hlater hk.1, Bool.true_and]
      exact hbelow rfl fun hg => takes_of_awaits hk.2 hg
    · cases ‹_›
    · cases ‹_›
    · cases ‹_›
  | ret v =>
    cases v with
    | none => exact ⟨hc, Bool.or_true _⟩
    | some bh => exact ⟨hc, by rw [lift, typed, hret bh rfl]; rfl⟩
  | panic => exact ⟨hc, rfl⟩

/-- Of the functions that keep count, only the steps that lose it do. -/
theorem exec_settles {f : Frame n} (hf : f.keepsCount = true)
    (hl : f.losesCount t ch = false) (hp : (t.exec ch f).2 ≠ .panic) :
    Settles t f (t.exec ch f) := by
  cases f with
  | buf f => exact t.buf_settles ch f
  | getSuper dev pc => exact (t.getSuper_keeps dev pc).settles
  | readInode inode pc => exact (t.readInode_keeps ch inode pc).settles
  | writeInode inode pc => exact (t.writeInode_keeps inode pc).settles
  | syncInodes pc => exact (t.syncInodes_keeps pc).settles
  | invalidateInodes dev i => exact (t.invalidateInodes_keeps dev i).settles
  | invalidateBuffers dev pc => exact (t.invalidateBuffers_keeps dev pc).settles
  | checkDiskChange dev pc | putSuper dev pc | readSuper dev pc => cases hf
  | freeBlock dev block pc => exact (t.freeBlock_keeps ch dev block pc hl).settles
  | freeInd double dev block pc => exact (t.freeInd_keeps ch double dev block pc).settles
  | truncate inode pc => exact (t.truncate_keeps inode pc).settles
  | freeInode inode pc => exact (t.freeInode_keeps inode pc).settles
  | iput inode pc => exact (t.iput_keeps inode pc).settles
  | getEmptyInode pc => exact (t.getEmptyInode_keeps pc).settles
  | iget dev nr pc => exact (t.iget_keeps dev nr pc).settles
  | newBlock dev pc => exact (t.newBlock_keeps ch dev pc hp).settles
  | bmap create inode block pc => exact (t.bmap_keeps ch create inode block pc).settles
  | findEntry dir name pc => exact (t.findEntry_keeps ch dir name pc).settles
  | addEntry dir name pc => exact (t.addEntry_keeps ch dir name pc).settles
  | emptyDir inode pc => exact (t.emptyDir_keeps ch inode pc hl).settles
  | withEntry add dir name pc => exact (t.withEntry_keeps add dir name pc).settles

end Tables

/-! ## A call and its ledger -/

/-- The frames of a call that keeps count, each waiting for the one that it called. -/
def Inside (fs : List (Frame n)) : Prop :=
  Outcome.Called (fun f => f.keepsCount = true ∧ f.gives = false) (fun f g => f.below g = true) fs

/-- The process has taken the references that its frames have, and `b_count` is the sum of what
everybody has done. -/
structure Balanced (p : Pid) (x : State α n × Ledger n) : Prop where
  inside : Inside (x.1.stack p)
  own : ∀ b, x.2.own b = Outcome.total (Frame.refs b) (x.1.stack p)
  count : ∀ b, x.1.tables.cache.bCount b = x.2.before b + BitVec.ofInt 8 (x.2.own b + x.2.others b)

theorem Frame.below_keepsCount {f g : Frame n} (h : f.below g = true) : f.keepsCount = true :=
  (Bool.and_eq_true_iff.1 h).1

theorem Inside.keepsCount {f : Frame n} {fs : List (Frame n)} (h : Inside (f :: fs)) :
    f.keepsCount = true := by
  cases fs with
  | nil => exact h.1.1
  | cons g fs => exact Frame.below_keepsCount h.1

/-- A frame may be where it was before. -/
theorem Frame.later.under {f f' : Frame n} {fs : List (Frame n)} (hl : f.later f' = true)
    (h : Inside (f :: fs)) : Outcome.Under (fun f => f.keepsCount = true ∧ f.gives = false)
      (fun f g => f.below g = true) f' fs := by
  obtain ⟨hg, hk⟩ : f'.gives = f.gives ∧ f'.keepsCount = f.keepsCount := by
    simpa [Frame.later] using hl
  refine Outcome.Under.mono h.1 (fun hb => ?_) fun k hb => ?_
  · rwa [hg, hk]
  · unfold Frame.below at hb ⊢
    rwa [hg, hk]

theorem Inside.resume {t : Tables α n} {f : Frame n} {fs fs' : List (Frame n)}
    {r : Tables α n × Next n} (h : Inside (f :: fs)) (hs : Settles t f r)
    (hr : r.2.resume Frame.receive fs = some fs') : Inside fs' := by
  refine Outcome.Called.resume h (fun v g hg => ?_) (fun v g k hg => ?_) ?_ hr
  · rwa [Frame.receive_keepsCount, Frame.receive_gives]
  · unfold Frame.below at hg ⊢
    rwa [Frame.receive_keepsCount, Frame.receive_gives]
  · have ht := hs.typed
    obtain ⟨t', o⟩ := r
    cases o with
    | goto f' | sleep f' => exact Frame.later.under ht h
    | call f' g =>
      obtain ⟨hl, hb⟩ := Bool.and_eq_true_iff.1 ht
      exact ⟨Frame.later.under hl h, hb⟩
    | ret v | panic => trivial

/-- The references of a call change as `b_count` does. -/
theorem Inside.total {t : Tables α n} {f : Frame n} {fs fs' : List (Frame n)}
    {r : Tables α n × Next n} (h : Inside (f :: fs)) (hs : Settles t f r)
    (hr : r.2.resume Frame.receive fs = some fs') (b : Fin n) :
    (Outcome.total (Frame.refs b) fs' : ℤ) =
      Outcome.total (Frame.refs b) (f :: fs) + change t r.1 b := by
  have hgiven : ∀ v g gs, r.2 = .ret v → fs = g :: gs → (g.takes || !v.given) = true := by
    intro v g gs hv hfs
    have ht := hs.typed
    subst hfs
    rw [hv, typed] at ht
    cases hg : v.given with
    | false => exact Bool.or_true _
    | true =>
      rw [hg, Bool.not_true, Bool.or_false] at ht
      have hb := (Bool.and_eq_true_iff.1 h.1).2
      rwa [ht] at hb
  have hlast : ∀ v, r.2 = .ret v → fs = [] → Val.refs b v = 0 := by
    intro v hv hfs
    have ht := hs.typed
    subst hfs
    rw [hv, typed, h.1.2, Bool.false_or, Bool.not_eq_true'] at ht
    exact Val.refs_of_not_given ht b
  have htotal := Outcome.resume_total (w := Frame.refs b) (u := Val.refs b)
    (fun v g gs hv hfs => Frame.receive_refs (hgiven v g gs hv hfs) b) hlast hr
  have hc := hs.change b
  unfold nextRefs at hc
  rw [htotal, Outcome.total_cons, hc]
  omega

theorem bCount_enter (l : Ledger n) (p : Pid) (s : State α n) (e : Event α n) (s' : State α n)
    (b : Fin n) (h : s.tables.cache.bCount b = l.before b + BitVec.ofInt 8 (l.own b + l.others b)) :
    s'.tables.cache.bCount b = (l.enter p s e s').before b +
      BitVec.ofInt 8 ((l.enter p s e s').own b + (l.enter p s e s').others b) := by
  have hd : BitVec.ofInt 8 (change s.tables s'.tables b) =
      s'.tables.cache.bCount b - s.tables.cache.bCount b := BitVec.ofInt_toInt
  have hadd : s'.tables.cache.bCount b = l.before b +
      BitVec.ofInt 8 (l.own b + l.others b + change s.tables s'.tables b) := by
    rw [BitVec.ofInt_add, hd, ← BitVec.add_assoc, ← h, BitVec.add_comm, BitVec.sub_add_cancel]
  unfold Ledger.enter
  split
  · rw [hadd]
    simp only
    congr 2
    omega
  · rw [hadd]
    simp only
    congr 2
    omega

/-- What is not a step of the process leaves its calls alone. -/
theorem State.next_stack {s s' : State α n} {p : Pid} {e : Event α n} (hp : s.stack p ≠ [])
    (hm : s.moves p e = false) (hs : s.next e = some s') : s'.stack p = s.stack p := by
  cases e with
  | schedule q =>
    simp only [State.next] at hs
    split at hs
    · obtain rfl := Option.some.inj hs
      rfl
    · cases hs
  | yield | touch x =>
    simp only [State.next] at hs
    split at hs
    · split at hs
      · obtain rfl := Option.some.inj hs
        rfl
      · cases hs
    · cases hs
  | start c =>
    simp only [State.next] at hs
    split at hs
    · next q hq =>
      split at hs
      · next he =>
        obtain rfl := Option.some.inj hs
        refine Function.update_of_ne ?_ ..
        rintro rfl
        exact hp (List.isEmpty_iff.1 he)
      · cases hs
    · cases hs
  | run ch =>
    simp only [State.next] at hs
    split at hs
    · next q hq =>
      split at hs
      · unfold State.run at hs
        obtain ⟨fs, -, rfl⟩ := Option.map_eq_some_iff.1 hs
        refine Function.update_of_ne ?_ ..
        rintro rfl
        simp [State.moves, hq] at hm
      · cases hs
    · cases hs
  | transfer m | complete m uptodate =>
    obtain ⟨c, -, rfl⟩ := Option.map_eq_some_iff.1 hs
    rfl

/-- A step of the process in its call. -/
theorem State.next_moves {s s' : State α n} {p : Pid} {e : Event α n} (hm : s.moves p e = true)
    (hs : s.next e = some s') : ∃ ch f fs fs', e = .run ch ∧ s.cur = some p ∧ s.stack p = f :: fs ∧
      (s.tables.exec ch f).2.resume Frame.receive fs = some fs' ∧ s'.stack p = fs' ∧
      s'.tables = (s.tables.exec ch f).1 := by
  cases e with
  | run ch =>
    have hcur : s.cur = some p := of_decide_eq_true hm
    simp only [State.next, hcur] at hs
    split at hs
    · next f fs hf =>
      unfold State.run at hs
      obtain ⟨fs', hr, rfl⟩ := Option.map_eq_some_iff.1 hs
      exact ⟨ch, f, fs, fs', rfl, hcur, hf, hr, Function.update_self .., rfl⟩
    · cases hs
  | _ => cases hm

/-- An eight-bit counter is zero at the multiples of 256. -/
theorem dvd_of_count {x : BitVec 8} {k : ℤ} (h : 0 = x + BitVec.ofInt 8 k) :
    (256 : ℤ) ∣ x.toNat + k := by
  have hn := congrArg BitVec.toNat h
  simp only [BitVec.toNat_add, BitVec.toNat_ofInt] at hn
  have h0 : (0 : BitVec 8).toNat = 0 := rfl
  omega

theorem Balanced.step {p : Pid} {x x' : State α n × Ledger n} {e : Event α n} (h : Balanced p x)
    (hok : Neatly p x e) (hs : inCall p x e = some x') : Balanced p x' := by
  obtain ⟨s, l⟩ := x
  unfold inCall at hs
  split at hs
  · cases hs
  next hp =>
  obtain ⟨s', hnext, rfl⟩ := Option.map_eq_some_iff.1 hs
  have hcount : ∀ b, s'.tables.cache.bCount b = (l.enter p s e s').before b +
      BitVec.ofInt 8 ((l.enter p s e s').own b + (l.enter p s e s').others b) :=
    fun b => bCount_enter l p s e s' b (h.count b)
  cases hm : s.moves p e with
  | false =>
    have hst : s'.stack p = s.stack p := State.next_stack (by simpa using hp) hm hnext
    refine ⟨?_, fun b => ?_, hcount⟩
    · rw [hst]
      exact h.inside
    · rw [hst, ← h.own b, Ledger.enter, hm]
      rfl
  | true =>
    obtain ⟨ch, f, fs, fs', rfl, hcur, hf, hr, hst, ht⟩ := State.next_moves hm hnext
    have hin : Inside (f :: fs) := hf ▸ h.inside
    have hl : f.losesCount s.tables ch = false := by
      have hl := hok hcur
      rw [hf] at hl
      exact hl
    have hset := s.tables.exec_settles ch hin.keepsCount hl fun hpanic => by
      rw [hpanic] at hr
      cases hr
    refine ⟨?_, fun b => ?_, hcount⟩
    · rw [hst]
      exact hin.resume hset hr
    · have hown := h.own b
      rw [hf] at hown
      rw [hst, hin.total hset hr b, ← hown, ← ht, Ledger.enter, hm]
      rfl

theorem Balanced.start {p : Pid} {c : Call n} (hc : c.givesBack = true)
    {x : State α n × Ledger n} (h : (operation α n p c).init x) : Balanced p x := by
  obtain ⟨hf, hl⟩ := h
  refine ⟨?_, fun b => ?_, fun b => ?_⟩
  · rw [hf]
    cases c <;> first | exact ⟨⟨rfl, rfl⟩, trivial⟩ | cases hc
  · rw [hf, hl]
    cases c <;> first | rfl | cases hc
  · rw [hl]
    exact (BitVec.add_zero _).symm

/-- With the references of its frames, a process has the one that it releases. -/
theorem Balanced.givenBack {p : Pid} {s : State α n} {l : Ledger n} (h : Balanced p (s, l)) :
    GivenBack p s l := by
  have hreleased : ∀ b fs, s.stack p = .buf (.brelse (some b)) :: fs → 1 ≤ l.own b := by
    intro b fs hf
    have hown : l.own b = Outcome.total (Frame.refs b) (s.stack p) := h.own b
    rw [hf, Outcome.total_cons, refs_brelse, ref, if_pos rfl] at hown
    omega
  refine ⟨fun hf b => ?_, hreleased, fun b fs hf h0 => ?_⟩
  · have hown : l.own b = 0 := by
      rw [h.own b, hf]
      rfl
    rw [h.count b, hown, Int.zero_add]
  · have h1 := hreleased b fs hf
    have hcount : s.tables.cache.bCount b = l.before b + BitVec.ofInt 8 (l.own b + l.others b) :=
      h.count b
    have hdvd := dvd_of_count (h0.symm.trans hcount)
    omega

/-- In a run in which the process makes no step that loses count, its call gives back the buffers
that it took. -/
theorem buffers_given_back {p : Pid} {c : Call n} (hc : c.givesBack = true) {s : State α n}
    {l : Ledger n} (h : (operation α n p c).ReachableWhen (Neatly p) (s, l)) : GivenBack p s l := by
  refine Balanced.givenBack (h.invariant (I := Balanced p) (fun x hx => Balanced.start hc hx) ?_)
  exact fun x e x' hI hok hs => hI.step hok hs

/-! ## From boot -/

instance (p : Pid) (x : State α n × Ledger n) (e : Event α n) : Decidable (Neatly p x e) :=
  match e with
  | .run ch => inferInstanceAs (Decidable (x.1.cur = some p →
      ((x.1.stack p).head?.any fun f => f.losesCount x.1.tables ch) = false))
  | .schedule _ | .yield | .start _ | .touch _ | .transfer _ | .complete _ _ =>
    inferInstanceAs (Decidable True)

/-- The root, with a size of 65 entries, its first block at 7 and the second at `zone`. -/
def longDir (zone : BitVec 16) : MInode :=
  ⟨⟨0o040755, 65 * 16, 2, fun k => if k = 0 then 7 else zone⟩, 0x301, 1, 1, false, false, false,
    false⟩

/-- The root is mounted, and made a long directory. -/
def lengthened (zone : BitVec 16) : List (Event Unit 3) :=
  mounted ++ [.touch (.inode 1 (longDir zone))]

/-- Process 0 calls `empty_dir` for the root. -/
def emptying (s : State Unit 3) : State Unit 3 × Ledger 3 :=
  (s.setStack 0 [(Call.emptyDir 1).frame], .opened s)

theorem emptying_stack (s : State Unit 3) :
    (emptying s).1.stack 0 = [(Call.emptyDir 1).frame] := by
  unfold emptying State.setStack
  exact Function.update_self (0 : Pid) _ s.stack

/-- With two blocks, what was taken is given back. -/
theorem buffers_given_back_emptyDir : ∃ s l,
    (operation Unit 3 0 (.emptyDir 1)).Reachable (s, l) ∧ s.stack 0 = [] ∧ GivenBack 0 s l := by
  have hrun : (System.execWhen State.next (fun _ _ => True) boot (lengthened 8)).any (fun s =>
      (System.execWhen (inCall 0) (Neatly 0) (emptying s)
        (runs 16 ++ transferred ++ runs 85 ++ transferred ++ runs 5)).any fun x =>
          (x.1.stack 0).isEmpty) = true := by
    decide +kernel
  obtain ⟨s, -, hrun⟩ := (Option.any_eq_true _ _).1 hrun
  obtain ⟨⟨s', l⟩, hs, hstack⟩ := (Option.any_eq_true _ _).1 hrun
  have hreach : (operation Unit 3 0 (.emptyDir 1)).ReachableWhen (Neatly 0) (s', l) :=
    .exec (fun _ _ _ h => h) (.init ⟨emptying_stack s, rfl⟩) hs
  exact ⟨s', l, hreach.mono fun _ _ _ => trivial, List.isEmpty_iff.1 hstack,
    buffers_given_back rfl hreach⟩

/-- The process releases a buffer to which it has no reference. -/
def releasesUnowned (p : Pid) (x : State α n × Ledger n) : Bool :=
  match x.1.stack p with
  | .buf (.brelse (some b)) :: _ => decide (x.2.own b < 1)
  | _ => false

theorem not_givenBack {p : Pid} {x : State α n × Ledger n} (h : releasesUnowned p x = true) :
    ¬GivenBack p x.1 x.2 := by
  intro hg
  unfold releasesUnowned at h
  split at h
  · next b fs hf =>
    have h1 := hg.released b fs hf
    have h2 := of_decide_eq_true h
    omega
  · cases h

/-- Without a second block `empty_dir` releases the first one twice. -/
theorem emptyDir_releases_twice : ¬∀ (s s' : State Unit 3) (l : Ledger 3),
    (fileSystem Unit 3).Reachable s → s.stack 0 = [(Call.emptyDir 1).frame] →
    (operation Unit 3 0 (.emptyDir 1)).Leads (fun _ _ => True) (s, .opened s) (s', l) →
    GivenBack 0 s' l := by
  intro hall
  have hrun : (System.execWhen State.next (fun _ _ => True) boot (lengthened 0)).any (fun s =>
      decide (s.cur = some 0) && (s.stack 0).isEmpty &&
        (System.execWhen (inCall 0) (fun _ _ => True) (emptying s)
          (runs 16 ++ transferred ++ runs 71)).any (releasesUnowned 0)) = true := by
    decide +kernel
  obtain ⟨s, hs, h⟩ := (Option.any_eq_true _ _).1 hrun
  obtain ⟨hs0, hrun⟩ := Bool.and_eq_true_iff.1 h
  obtain ⟨hcur, hstack⟩ := Bool.and_eq_true_iff.1 hs0
  obtain ⟨x, hx, htwice⟩ := (Option.any_eq_true _ _).1 hrun
  have hreach : (fileSystem Unit 3).Reachable s := .exec (fun _ _ _ h => h) (.init boot_init) hs
  have hstart : s.next (.start (.emptyDir 1)) = some (emptying s).1 := by
    simp only [State.next, of_decide_eq_true hcur, hstack, if_true]
    rfl
  exact not_givenBack htwice
    (hall (emptying s).1 x.1 x.2 (hreach.next hstart) (emptying_stack s)
      (.exec (fun _ _ _ h => h) hx))

end Linux011.Inodes
