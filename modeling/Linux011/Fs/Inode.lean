import Linux011.Buffer.Process
import Linux011.Fs.File
import Linux011.Lib.CallStack

/-!
# The inode and super block tables

The data of `fs/inode.c` and `fs/super.c`, and the calls of their functions, of `fs/bitmap.c`,
`fs/truncate.c` and of the directory functions in `fs/namei.c`: frames over the frames of the buffer
cache, each with a program counter.

1. `MInode`, `SuperBlock`, `Tables`.
2. The program counters.
3. `Frame`, one constructor for each function, `Frame.receive`: what a caller does with a value.
-/

namespace Linux011.Inodes

open Buffer (Dev Block Pid Cache)

/-- An entry of `inode_table`. -/
abbrev Ino := Fin 32

/-- An entry of `super_block`. -/
abbrev Sb := Fin 8

/-- What is on the disk of an inode, as far as these functions use it. -/
structure DInode where
  iMode : BitVec 16
  iSize : BitVec 32
  iNlinks : BitVec 8
  iZone : Fin 9 → BitVec 16

structure MInode extends DInode where
  iDev : Dev
  iNum : BitVec 16
  iCount : BitVec 16
  iLock : Bool
  iDirt : Bool
  iPipe : Bool
  iMount : Bool

/-- After `memset`. -/
def MInode.zero : MInode := ⟨⟨0, 0, 0, fun _ => 0⟩, 0, 0, 0, false, false, false, false⟩

structure DSuperBlock where
  sNinodes : BitVec 16
  sNzones : BitVec 16
  sImapBlocks : BitVec 16
  sZmapBlocks : BitVec 16
  sFirstdatazone : BitVec 16
  sMagic : BitVec 16

structure SuperBlock (n : ℕ) extends DSuperBlock where
  sImap : Fin 8 → Option (Fin n)
  sZmap : Fin 8 → Option (Fin n)
  sDev : Dev
  sIsup : Option Ino
  sImount : Option Ino
  sLock : Bool

/-- `block` in `read_inode` and `write_inode`: where the inode is on the disk. -/
def DSuperBlock.inodeBlock (sb : DSuperBlock) (num : BitVec 16) : Block :=
  BitVec.ofInt 32 (2 + sb.sImapBlocks.toNat + sb.sZmapBlocks.toNat
    + ((num.toNat : ℤ) - 1).tdiv 32)

/-- The bitmaps in the order in which they are released, the inode maps first. -/
def SuperBlock.map {n : ℕ} (sb : SuperBlock n) (k : Fin 16) : Option (Fin n) :=
  if h : k.val < 8 then sb.sImap ⟨k, h⟩ else sb.sZmap ⟨k - 8, by omega⟩

structure Tables (α : Type*) (n : ℕ) where
  cache : Cache α n
  inode : Ino → MInode
  super : Sb → SuperBlock n
  /-- `last_inode` of `get_empty_inode`. -/
  lastInode : Ino
  /-- `ROOT_DEV`. -/
  rootDev : Dev

/-! ## Frames -/

inductive GetSuperPc
  | scan (s : ℕ)
  | wait (s : Sb)

/-- The program counter of `read_inode` and of `write_inode`; `lock` is in `lock_inode`. -/
inductive InodePc (n : ℕ)
  | lock
  | super
  | bread (sb : Sb)
  | copy (bh : Fin n)
  | brelse
  | unlock
  | panic

inductive SyncInodesPc
  | wait (i : ℕ)
  | writing (i : ℕ)

inductive InvalidateBuffersPc
  | loop (i : ℕ)
  | wait (i : ℕ)

inductive CheckDiskChangePc
  | start
  | changed
  | super (i : ℕ)
  | putting (i : ℕ)
  | inodes
  | buffers
  | done

inductive PutSuperPc
  | start
  | super
  | got (sb : Sb)
  | lock (sb : Sb)
  | release (sb : Sb) (k : ℕ)
  | releasing (sb : Sb) (k : ℕ)
  | done

/-- The program counter of `read_super`; `map z` is the loop over the zone maps or, before it, the
one over the inode maps. -/
inductive ReadSuperPc (n : ℕ)
  | start
  | disk
  | look
  | super
  | slot
  | lock (s : Sb)
  | first (s : Sb)
  | copy (s : Sb) (bh : Fin n)
  | copied (s : Sb)
  | magic (s : Sb)
  | map (z : Bool) (s : Sb) (i : ℕ) (block : Block)
  | reading (z : Bool) (s : Sb) (i : ℕ) (block : Block)
  | gotMap (z : Bool) (s : Sb) (i : ℕ) (block : Block) (bh : Fin n)
  | check (s : Sb) (block : Block)
  | release (s : Sb) (k : ℕ)
  | releasing (s : Sb) (k : ℕ)
  | fail (s : Sb)
  | done (s : Sb)

inductive FreeBlockPc (n : ℕ)
  | start
  | super
  | check (sb : Sb)
  | hash (sb : Sb)
  | count (sb : Sb) (bh : Fin n)
  | brelse (sb : Sb)
  | clear (sb : Sb)
  | panic

/-- The program counter of `free_ind` and of `free_dind`. -/
inductive FreeIndPc (n : ℕ)
  | start
  | reading
  | entry (bh : Fin n) (i : ℕ)
  | freeing (bh : Fin n) (i : ℕ)
  | brelse
  | table
  | freeingTable
  | done

inductive TruncatePc
  | start
  | zone (i : ℕ)
  | freeing (i : ℕ)
  | freed (i : ℕ)
  | ind
  | dind
  | freeingDind
  | done

inductive FreeInodePc
  | start
  | super
  | check (sb : Sb)
  | panic

inductive IputPc
  | wait
  | syncing
  | waitBlk
  | repeat
  | truncating
  | free
  | freeing
  | writing
  | waitDirty
  | done

inductive GetEmptyInodePc
  | pick
  | wait (inode : Ino)
  | writing (inode : Ino)

inductive IgetPc
  | start
  | empty
  | scan (empty : Ino) (i : ℕ)
  | wait (empty i : Ino)
  | putting (empty : Ino) (s : Sb)
  | mounted (empty : Ino) (s : Sb)
  | ret (i : Ino)
  | reading (empty : Ino)
  | done (i : Ino)

/-- The program counter of `new_block`. -/
inductive NewBlockPc (n : ℕ)
  | start
  | super
  | check (sb : Sb)
  | getblk (j : BitVec 16)
  | count (bh : Fin n) (j : BitVec 16)
  | brelse (j : BitVec 16)
  | done (j : BitVec 16)
  | panic

/-- The program counter of `_bmap`; `last` tells the table that holds the block itself from the first
table of a double indirection. -/
inductive BmapPc (n : ℕ)
  | start
  | zone (k : Fin 9)
  | gotZone (k : Fin 9) (z : BitVec 16)
  | table (k : Fin 9)
  | reading (last : Bool)
  | entry (last : Bool) (bh : Fin n)
  | creating (last : Bool) (bh : Fin n)
  | created (last : Bool) (bh : Fin n) (z : BitVec 16)
  | release (last : Bool) (bh : Fin n) (i : BitVec 16)
  | releasing (last : Bool) (i : BitVec 16)
  | released (last : Bool) (i : BitVec 16)
  | hole

/-- What `find_entry` looks for. -/
inductive Name
  | empty
  | dotdot
  | other

/-- The program counter of `find_entry`: `bh` is null after a hole, `i` counts the entries, and `k`
those of the block that `de` has passed. -/
inductive FindEntryPc (n : ℕ)
  | start
  | super (entries : ℕ)
  | got (entries : ℕ) (sb : Sb)
  | putting (entries : ℕ) (m : Ino)
  | mounted (entries : ℕ) (m : Ino)
  | first (entries : ℕ)
  | reading (entries : ℕ)
  | scan (entries : ℕ) (bh : Option (Fin n)) (i k : ℕ)
  | releasing (entries i : ℕ)
  | released (entries i : ℕ)
  | mapping (entries i : ℕ)
  | gotBlock (entries i : ℕ) (block : BitVec 16)
  | readingNext (entries i : ℕ)
  | finish
  | null
  | panic

inductive AddEntryPc (n : ℕ)
  | start
  | reading
  | scan (bh : Option (Fin n)) (i k : ℕ)
  | releasing (i : ℕ)
  | released (i : ℕ)
  | creating (i : ℕ)
  | gotBlock (i : ℕ) (block : BitVec 16)
  | readingNext (i : ℕ)
  | null

/-- The program counter of `empty_dir`; `bh` is never null. -/
inductive EmptyDirPc (n : ℕ)
  | start
  | reading (len : ℕ)
  | dots (len : ℕ) (bh : Fin n)
  | scan (len : ℕ) (bh : Fin n) (nr k : ℕ)
  | releasing (len : ℕ) (bh : Fin n) (nr : ℕ)
  | released (len : ℕ) (bh : Fin n) (nr : ℕ)
  | mapping (len : ℕ) (bh : Fin n) (nr : ℕ)
  | gotBlock (len : ℕ) (bh : Fin n) (nr : ℕ) (block : BitVec 16)
  | readingNext (len : ℕ) (nr : ℕ)
  | finish (empty : Bool)
  | ret (empty : Bool)

/-- The program counter of a caller that releases the buffer it gets. -/
inductive WithEntryPc (n : ℕ)
  | start
  | looking
  | got (bh : Option (Fin n))
  | releasing
  | done

/-- An activation of a function; `withEntry` is a caller of `find_entry` or, when `add`, of
`add_entry`. -/
inductive Frame (n : ℕ)
  | buf (f : Buffer.Frame n)
  | getSuper (dev : Dev) (pc : GetSuperPc)
  | readInode (inode : Ino) (pc : InodePc n)
  | writeInode (inode : Ino) (pc : InodePc n)
  | syncInodes (pc : SyncInodesPc)
  | invalidateInodes (dev : Dev) (i : ℕ)
  | invalidateBuffers (dev : Dev) (pc : InvalidateBuffersPc)
  | checkDiskChange (dev : Dev) (pc : CheckDiskChangePc)
  | putSuper (dev : Dev) (pc : PutSuperPc)
  | readSuper (dev : Dev) (pc : ReadSuperPc n)
  | freeBlock (dev : Dev) (block : Block) (pc : FreeBlockPc n)
  | freeInd (double : Bool) (dev : Dev) (block : Block) (pc : FreeIndPc n)
  | truncate (inode : Ino) (pc : TruncatePc)
  | freeInode (inode : Ino) (pc : FreeInodePc)
  | iput (inode : Ino) (pc : IputPc)
  | getEmptyInode (pc : GetEmptyInodePc)
  | iget (dev : Dev) (nr : BitVec 16) (pc : IgetPc)
  | newBlock (dev : Dev) (pc : NewBlockPc n)
  | bmap (create : Bool) (inode : Ino) (block : Block) (pc : BmapPc n)
  | findEntry (dir : Ino) (name : Name) (pc : FindEntryPc n)
  | addEntry (dir : Ino) (name : Name) (pc : AddEntryPc n)
  | emptyDir (inode : Ino) (pc : EmptyDirPc n)
  | withEntry (add : Bool) (dir : Ino) (name : Name) (pc : WithEntryPc n)

/-- A returned value. -/
inductive Val (n : ℕ)
  | void
  | buf (bh : Option (Fin n))
  | super (s : Option Sb)
  | inode (i : Ino)
  | num (k : BitVec 16)

/-- What a step does next. -/
abbrev Next (n : ℕ) := Outcome (Frame n) (Val n)

/-- What is read in a step: an inode, a super block or a word of a block; the zone map in which
`new_block` finds a zero bit; the answer to a test of what is read, and whether it takes a sleep. -/
structure Chance (α : Type*) where
  buf : Buffer.Choice α
  dInode : DInode
  dSuper : DSuperBlock
  word : BitVec 16
  map : Fin 8
  bit : Bool
  wait : Bool

namespace Frame

variable {n : ℕ}

def receive (v : Val n) : Frame n → Frame n
  | .buf f =>
    match v with
    | .buf bh => .buf (f.receive bh)
    | _ => .buf (f.receive none)
  | .readInode inode .super =>
    match v with
    | .super (some sb) => .readInode inode (.bread sb)
    | _ => .readInode inode .panic
  | .readInode inode (.bread _) =>
    match v with
    | .buf (some bh) => .readInode inode (.copy bh)
    | _ => .readInode inode .panic
  | .readInode inode .brelse => .readInode inode .unlock
  | .writeInode inode .super =>
    match v with
    | .super (some sb) => .writeInode inode (.bread sb)
    | _ => .writeInode inode .panic
  | .writeInode inode (.bread _) =>
    match v with
    | .buf (some bh) => .writeInode inode (.copy bh)
    | _ => .writeInode inode .panic
  | .writeInode inode .brelse => .writeInode inode .unlock
  | .syncInodes (.writing i) => .syncInodes (.wait (i + 1))
  | .checkDiskChange dev (.putting i) => .checkDiskChange dev (.super (i + 1))
  | .checkDiskChange dev .inodes => .checkDiskChange dev .buffers
  | .checkDiskChange dev .buffers => .checkDiskChange dev .done
  | .putSuper dev .super =>
    match v with
    | .super (some sb) => .putSuper dev (.got sb)
    | _ => .putSuper dev .done
  | .putSuper dev (.releasing sb k) => .putSuper dev (.release sb (k + 1))
  | .readSuper dev .disk => .readSuper dev .look
  | .readSuper dev .super =>
    match v with
    | .super (some s) => .readSuper dev (.done s)
    | _ => .readSuper dev .slot
  | .readSuper dev (.first s) =>
    match v with
    | .buf (some bh) => .readSuper dev (.copy s bh)
    | _ => .readSuper dev (.fail s)
  | .readSuper dev (.copied s) => .readSuper dev (.magic s)
  | .readSuper dev (.reading z s i block) =>
    match v with
    | .buf (some bh) => .readSuper dev (.gotMap z s i block bh)
    | _ => .readSuper dev (if z then .check s block else .map true s 0 block)
  | .readSuper dev (.releasing s k) => .readSuper dev (.release s (k + 1))
  | .freeBlock dev block .super =>
    match v with
    | .super (some sb) => .freeBlock dev block (.check sb)
    | _ => .freeBlock dev block .panic
  | .freeBlock dev block (.hash sb) =>
    match v with
    | .buf (some bh) => .freeBlock dev block (.count sb bh)
    | _ => .freeBlock dev block (.clear sb)
  | .freeBlock dev block (.brelse sb) => .freeBlock dev block (.clear sb)
  | .freeInd double dev block .reading =>
    match v with
    | .buf (some bh) => .freeInd double dev block (.entry bh 0)
    | _ => .freeInd double dev block .table
  | .freeInd double dev block (.freeing bh i) => .freeInd double dev block (.entry bh (i + 1))
  | .freeInd double dev block .brelse => .freeInd double dev block .table
  | .freeInd double dev block .freeingTable => .freeInd double dev block .done
  | .truncate inode (.freeing i) => .truncate inode (.freed i)
  | .truncate inode .ind => .truncate inode .dind
  | .truncate inode .freeingDind => .truncate inode .done
  | .freeInode inode .super =>
    match v with
    | .super (some sb) => .freeInode inode (.check sb)
    | _ => .freeInode inode .panic
  | .iput inode .syncing => .iput inode .waitBlk
  | .iput inode .truncating => .iput inode .free
  | .iput inode .freeing => .iput inode .done
  | .iput inode .writing => .iput inode .waitDirty
  | .getEmptyInode (.writing inode) => .getEmptyInode (.wait inode)
  | .iget dev nr .empty =>
    match v with
    | .inode empty => .iget dev nr (.scan empty 0)
    | _ => .iget dev nr .empty
  | .iget dev nr (.putting empty s) => .iget dev nr (.mounted empty s)
  | .iget dev nr (.ret i) => .iget dev nr (.done i)
  | .iget dev nr (.reading empty) => .iget dev nr (.done empty)
  | .newBlock dev .super =>
    match v with
    | .super (some sb) => .newBlock dev (.check sb)
    | _ => .newBlock dev .panic
  | .newBlock dev (.getblk j) =>
    match v with
    | .buf (some bh) => .newBlock dev (.count bh j)
    | _ => .newBlock dev .panic
  | .newBlock dev (.brelse j) => .newBlock dev (.done j)
  | .bmap create inode block (.zone k) =>
    match v with
    | .num z => .bmap create inode block (.gotZone k z)
    | _ => .bmap create inode block (.gotZone k 0)
  | .bmap create inode block (.reading last) =>
    match v with
    | .buf (some bh) => .bmap create inode block (.entry last bh)
    | _ => .bmap create inode block .hole
  | .bmap create inode block (.creating last bh) =>
    match v with
    | .num z => .bmap create inode block (.created last bh z)
    | _ => .bmap create inode block (.created last bh 0)
  | .bmap create inode block (.releasing last i) => .bmap create inode block (.released last i)
  | .findEntry dir name (.super entries) =>
    match v with
    | .super (some sb) => .findEntry dir name (.got entries sb)
    | _ => .findEntry dir name .panic
  | .findEntry dir name (.putting entries m) => .findEntry dir name (.mounted entries m)
  | .findEntry dir name (.reading entries) =>
    match v with
    | .buf (some bh) => .findEntry dir name (.scan entries (some bh) 0 0)
    | _ => .findEntry dir name .null
  | .findEntry dir name (.releasing entries i) => .findEntry dir name (.released entries i)
  | .findEntry dir name (.mapping entries i) =>
    match v with
    | .num z => .findEntry dir name (.gotBlock entries i z)
    | _ => .findEntry dir name (.gotBlock entries i 0)
  | .findEntry dir name (.readingNext entries i) =>
    match v with
    | .buf (some bh) => .findEntry dir name (.scan entries (some bh) i 0)
    | _ => .findEntry dir name (.scan entries none (i + 64) 64)
  | .findEntry dir name .finish => .findEntry dir name .null
  | .addEntry dir name .reading =>
    match v with
    | .buf (some bh) => .addEntry dir name (.scan (some bh) 0 0)
    | _ => .addEntry dir name .null
  | .addEntry dir name (.releasing i) => .addEntry dir name (.released i)
  | .addEntry dir name (.creating i) =>
    match v with
    | .num z => .addEntry dir name (.gotBlock i z)
    | _ => .addEntry dir name (.gotBlock i 0)
  | .addEntry dir name (.readingNext i) =>
    match v with
    | .buf (some bh) => .addEntry dir name (.scan (some bh) i 0)
    | _ => .addEntry dir name (.scan none (i + 64) 64)
  | .emptyDir inode (.reading len) =>
    match v with
    | .buf (some bh) => .emptyDir inode (.dots len bh)
    | _ => .emptyDir inode (.ret false)
  | .emptyDir inode (.releasing len bh nr) => .emptyDir inode (.released len bh nr)
  | .emptyDir inode (.mapping len bh nr) =>
    match v with
    | .num z => .emptyDir inode (.gotBlock len bh nr z)
    | _ => .emptyDir inode (.gotBlock len bh nr 0)
  | .emptyDir inode (.readingNext len nr) =>
    match v with
    | .buf (some bh) => .emptyDir inode (.scan len bh nr 0)
    | _ => .emptyDir inode (.ret false)
  | .emptyDir inode (.finish empty) => .emptyDir inode (.ret empty)
  | .withEntry add dir name .looking =>
    match v with
    | .buf bh => .withEntry add dir name (.got bh)
    | _ => .withEntry add dir name (.got none)
  | .withEntry add dir name .releasing => .withEntry add dir name .done
  | f => f

end Frame

end Linux011.Inodes
