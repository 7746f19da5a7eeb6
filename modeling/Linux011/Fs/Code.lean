import Linux011.Fs.Inode

/-!
# The code of the file system

What the frames do: a step is one frame's code up to the next call, return or `sleep_on`. What a step
reads from a buffer is left to chance.

1. Super blocks and inodes: `getSuper`, `readInode`, `writeInode`, `syncInodes`, `readSuper` and what
   they call; `iput`, `getEmptyInode`, `iget`.
2. Blocks: `freeBlock`, `freeInd`, `truncate`, `newBlock`, `bmap`.
3. Directories: `findEntry`, `addEntry`, `emptyDir`.
4. `Tables.exec`; `State`, `Event`, and the system `fileSystem`.
-/

namespace Linux011.Inodes

open Buffer (Dev Block Pid Cache)

namespace Tables

variable {α : Type*} {n : ℕ}

def setInode (t : Tables α n) (i : Ino) (m : MInode) : Tables α n :=
  { t with inode := Function.update t.inode i m }

def setSuper (t : Tables α n) (s : Sb) (m : SuperBlock n) : Tables α n :=
  { t with super := Function.update t.super s m }

def lockInode (t : Tables α n) (i : Ino) (v : Bool) : Tables α n :=
  t.setInode i { t.inode i with iLock := v }

def lockSuper (t : Tables α n) (s : Sb) (v : Bool) : Tables α n :=
  t.setSuper s { t.super s with sLock := v }

def bread (dev : Dev) (block : Block) : Frame n := .buf (.bread dev block .start)

def brelse (bh : Option (Fin n)) : Frame n := .buf (.brelse bh)

/-- What a frame of the buffer cache does next. The calls of `sync_inodes` are the ones here. -/
def lift : Buffer.Next n → Next n
  | .goto f => .goto (.buf f)
  | .call f (.syncInodes _) => .call (.buf f) (.syncInodes (.wait 0))
  | .call f g => .call (.buf f) (.buf g)
  | .ret v => .ret (.buf v)
  | .sleep f => .sleep (.buf f)
  | .panic => .panic

/-- `get_super`. -/
def getSuper (t : Tables α n) (dev : Dev) : GetSuperPc → Tables α n × Next n
  | .scan s =>
    if dev = 0 then (t, .ret (.super none))
    else if h : s < 8 then
      if (t.super ⟨s, h⟩).sDev = dev then (t, .goto (.getSuper dev (.wait ⟨s, h⟩)))
      else (t, .goto (.getSuper dev (.scan (s + 1))))
    else (t, .ret (.super none))
  | .wait s =>
    if (t.super s).sLock then (t, .sleep (.getSuper dev (.wait s)))
    else if (t.super s).sDev = dev then (t, .ret (.super (some s)))
    else (t, .goto (.getSuper dev (.scan 0)))

/-- `read_inode`. -/
def readInode (t : Tables α n) (ch : Chance α) (inode : Ino) : InodePc n → Tables α n × Next n
  | .lock =>
    if (t.inode inode).iLock then (t, .sleep (.readInode inode .lock))
    else (t.lockInode inode true, .goto (.readInode inode .super))
  | .super =>
    (t, .call (.readInode inode .super) (.getSuper (t.inode inode).iDev (.scan 0)))
  | .bread sb =>
    (t, .call (.readInode inode (.bread sb))
      (bread (t.inode inode).iDev ((t.super sb).inodeBlock (t.inode inode).iNum)))
  | .copy bh =>
    (t.setInode inode { t.inode inode with toDInode := ch.dInode },
      .call (.readInode inode .brelse) (brelse (some bh)))
  | .brelse => (t, .goto (.readInode inode .brelse))
  | .unlock => (t.lockInode inode false, .ret .void)
  | .panic => (t, .panic)

/-- `write_inode`. -/
def writeInode (t : Tables α n) (inode : Ino) : InodePc n → Tables α n × Next n
  | .lock =>
    if (t.inode inode).iLock then (t, .sleep (.writeInode inode .lock))
    else if (t.inode inode).iDirt = false ∨ (t.inode inode).iDev = 0 then
      (t.lockInode inode false, .ret .void)
    else (t.lockInode inode true, .goto (.writeInode inode .super))
  | .super =>
    (t, .call (.writeInode inode .super) (.getSuper (t.inode inode).iDev (.scan 0)))
  | .bread sb =>
    (t, .call (.writeInode inode (.bread sb))
      (bread (t.inode inode).iDev ((t.super sb).inodeBlock (t.inode inode).iNum)))
  | .copy bh =>
    ({ t.setInode inode { t.inode inode with iDirt := false } with cache := t.cache.setDirt bh true },
      .call (.writeInode inode .brelse) (brelse (some bh)))
  | .brelse => (t, .goto (.writeInode inode .brelse))
  | .unlock => (t.lockInode inode false, .ret .void)
  | .panic => (t, .panic)

/-- `sync_inodes`. -/
def syncInodes (t : Tables α n) : SyncInodesPc → Tables α n × Next n
  | .wait i =>
    if h : i < 32 then
      if (t.inode ⟨i, h⟩).iLock then (t, .sleep (.syncInodes (.wait i)))
      else if (t.inode ⟨i, h⟩).iDirt = true ∧ (t.inode ⟨i, h⟩).iPipe = false then
        (t, .call (.syncInodes (.writing i)) (.writeInode ⟨i, h⟩ .lock))
      else (t, .goto (.syncInodes (.wait (i + 1))))
    else (t, .ret .void)
  | .writing i => (t, .goto (.syncInodes (.writing i)))

/-- `invalidate_inodes`. -/
def invalidateInodes (t : Tables α n) (dev : Dev) (i : ℕ) : Tables α n × Next n :=
  if h : i < 32 then
    let m := t.inode ⟨i, h⟩
    if m.iLock then (t, .sleep (.invalidateInodes dev i))
    else if m.iDev = dev then
      (t.setInode ⟨i, h⟩ { m with iDev := 0, iDirt := false }, .goto (.invalidateInodes dev (i + 1)))
    else (t, .goto (.invalidateInodes dev (i + 1)))
  else (t, .ret .void)

/-- `invalidate_buffers`. -/
def invalidateBuffers (t : Tables α n) (dev : Dev) : InvalidateBuffersPc → Tables α n × Next n
  | .loop i =>
    if h : i < n then
      if t.cache.bDev ⟨i, h⟩ ≠ dev then (t, .goto (.invalidateBuffers dev (.loop (i + 1))))
      else (t, .goto (.invalidateBuffers dev (.wait i)))
    else (t, .ret .void)
  | .wait i =>
    if h : i < n then
      if t.cache.bLock ⟨i, h⟩ then (t, .sleep (.invalidateBuffers dev (.wait i)))
      else if t.cache.bDev ⟨i, h⟩ = dev then
        ({ t with cache := (t.cache.setUptodate ⟨i, h⟩ false).setDirt ⟨i, h⟩ false },
          .goto (.invalidateBuffers dev (.loop (i + 1))))
      else (t, .goto (.invalidateBuffers dev (.loop (i + 1))))
    else (t, .ret .void)

/-- `check_disk_change`. `floppy_change` may have to wait for the motor. -/
def checkDiskChange (t : Tables α n) (ch : Chance α) (dev : Dev) :
    CheckDiskChangePc → Tables α n × Next n
  | .start =>
    if Buffer.major dev ≠ 2 then (t, .ret .void)
    else if ch.wait then (t, .sleep (.checkDiskChange dev .start))
    else if ch.bit then (t, .goto (.checkDiskChange dev .changed))
    else (t, .ret .void)
  | .changed => (t, .goto (.checkDiskChange dev (.super 0)))
  | .super i =>
    if h : i < 8 then
      if (t.super ⟨i, h⟩).sDev = dev then
        (t, .call (.checkDiskChange dev (.putting i)) (.putSuper (t.super ⟨i, h⟩).sDev .start))
      else (t, .goto (.checkDiskChange dev (.super (i + 1))))
    else (t, .call (.checkDiskChange dev .inodes) (.invalidateInodes dev 0))
  | .putting i => (t, .goto (.checkDiskChange dev (.putting i)))
  | .inodes => (t, .goto (.checkDiskChange dev .inodes))
  | .buffers => (t, .call (.checkDiskChange dev .buffers) (.invalidateBuffers dev (.loop 0)))
  | .done => (t, .ret .void)

/-- `put_super`. -/
def putSuper (t : Tables α n) (dev : Dev) : PutSuperPc → Tables α n × Next n
  | .start =>
    if dev = t.rootDev then (t, .ret .void)
    else (t, .call (.putSuper dev .super) (.getSuper dev (.scan 0)))
  | .super => (t, .goto (.putSuper dev .super))
  | .got sb =>
    if (t.super sb).sImount.isSome then (t, .ret .void) else (t, .goto (.putSuper dev (.lock sb)))
  | .lock sb =>
    if (t.super sb).sLock then (t, .sleep (.putSuper dev (.lock sb)))
    else
      (t.setSuper sb { t.super sb with sLock := true, sDev := 0 },
        .goto (.putSuper dev (.release sb 0)))
  | .release sb k =>
    if h : k < 16 then
      (t, .call (.putSuper dev (.releasing sb k)) (brelse ((t.super sb).map ⟨k, h⟩)))
    else (t.lockSuper sb false, .ret .void)
  | .releasing sb k => (t, .goto (.putSuper dev (.releasing sb k)))
  | .done => (t, .ret .void)

/-- `s_imap_blocks`, or `s_zmap_blocks`. -/
def mapBlocks (t : Tables α n) (z : Bool) (s : Sb) : ℕ :=
  if z then (t.super s).sZmapBlocks.toNat else (t.super s).sImapBlocks.toNat

/-- `s->s_imap[i] = bh`, or `s->s_zmap[i] = bh`. -/
def setMap (t : Tables α n) (z : Bool) (s : Sb) (i : Fin 8) (bh : Fin n) : Tables α n :=
  let m := t.super s
  if z then t.setSuper s { m with sZmap := Function.update m.sZmap i (some bh) }
  else t.setSuper s { m with sImap := Function.update m.sImap i (some bh) }

/-- `read_super`. A ninth map block would be stored behind the table; the model ends there. -/
def readSuper (t : Tables α n) (ch : Chance α) (dev : Dev) : ReadSuperPc n → Tables α n × Next n
  | .start =>
    if dev = 0 then (t, .ret (.super none))
    else (t, .call (.readSuper dev .disk) (.checkDiskChange dev .start))
  | .disk => (t, .goto (.readSuper dev .disk))
  | .look => (t, .call (.readSuper dev .super) (.getSuper dev (.scan 0)))
  | .super => (t, .goto (.readSuper dev .super))
  | .slot =>
    match (List.finRange 8).find? fun s => (t.super s).sDev = 0 with
    | none => (t, .ret (.super none))
    | some s =>
      (t.setSuper s { t.super s with sDev := dev, sIsup := none, sImount := none },
        .goto (.readSuper dev (.lock s)))
  | .lock s =>
    if (t.super s).sLock then (t, .sleep (.readSuper dev (.lock s)))
    else (t.lockSuper s true, .goto (.readSuper dev (.first s)))
  | .first s => (t, .call (.readSuper dev (.first s)) (bread dev 1))
  | .copy s bh =>
    (t.setSuper s { t.super s with toDSuperBlock := ch.dSuper },
      .call (.readSuper dev (.copied s)) (brelse (some bh)))
  | .copied s => (t, .goto (.readSuper dev (.copied s)))
  | .magic s =>
    if (t.super s).sMagic ≠ 0x137f then (t, .goto (.readSuper dev (.fail s)))
    else
      (t.setSuper s { t.super s with sImap := fun _ => none, sZmap := fun _ => none },
        .goto (.readSuper dev (.map false s 0 2)))
  | .map z s i block =>
    if i < t.mapBlocks z s then
      (t, .call (.readSuper dev (.reading z s i block)) (bread dev block))
    else (t, .goto (.readSuper dev (if z then .check s block else .map true s 0 block)))
  | .reading z s i block => (t, .goto (.readSuper dev (.reading z s i block)))
  | .gotMap z s i block bh =>
    if h : i < 8 then
      (t.setMap z s ⟨i, h⟩ bh, .goto (.readSuper dev (.map z s (i + 1) (block + 1))))
    else (t, .panic)
  | .check s block =>
    if block ≠ 2 + BitVec.ofNat 32 (t.mapBlocks false s) + BitVec.ofNat 32 (t.mapBlocks true s) then
      (t, .goto (.readSuper dev (.release s 0)))
    else (t.lockSuper s false, .ret (.super (some s)))
  | .release s k =>
    if h : k < 16 then
      (t, .call (.readSuper dev (.releasing s k)) (brelse ((t.super s).map ⟨k, h⟩)))
    else (t, .goto (.readSuper dev (.fail s)))
  | .releasing s k => (t, .goto (.readSuper dev (.releasing s k)))
  | .fail s =>
    (t.setSuper s { t.super s with sDev := 0, sLock := false }, .ret (.super none))
  | .done s => (t, .ret (.super (some s)))

/-- `free_block`. -/
def freeBlock (t : Tables α n) (ch : Chance α) (dev : Dev) (block : Block) :
    FreeBlockPc n → Tables α n × Next n
  | .start => (t, .call (.freeBlock dev block .super) (.getSuper dev (.scan 0)))
  | .super => (t, .goto (.freeBlock dev block .super))
  | .check sb =>
    if block.toInt < (t.super sb).sFirstdatazone.toNat ∨ (t.super sb).sNzones.toNat ≤ block.toInt then
      (t, .panic)
    else (t, .call (.freeBlock dev block (.hash sb)) (.buf (.getHashTable dev block .find)))
  | .hash sb => (t, .goto (.freeBlock dev block (.hash sb)))
  | .count sb bh =>
    if t.cache.bCount bh ≠ 1 then (t, .ret .void)
    else
      ({ t with cache := (t.cache.setDirt bh false).setUptodate bh false },
        .call (.freeBlock dev block (.brelse sb)) (brelse (some bh)))
  | .brelse sb => (t, .goto (.freeBlock dev block (.brelse sb)))
  | .clear sb =>
    if ch.bit then (t, .panic)
    else
      let k := (block.toNat - ((t.super sb).sFirstdatazone.toNat - 1)) / 8192
      match (t.super sb).sZmap (Fin.ofNat 8 k) with
      | some bh => ({ t with cache := t.cache.setDirt bh true }, .ret .void)
      | none => (t, .ret .void)
  | .panic => (t, .panic)

/-- `free_ind`, and `free_dind` when `double`. -/
def freeInd (t : Tables α n) (ch : Chance α) (double : Bool) (dev : Dev) (block : Block) :
    FreeIndPc n → Tables α n × Next n
  | .start =>
    if block = 0 then (t, .ret .void)
    else (t, .call (.freeInd double dev block .reading) (bread dev block))
  | .reading => (t, .goto (.freeInd double dev block .reading))
  | .entry bh i =>
    if i < 512 then
      if ch.word ≠ 0 then
        let p := ch.word.setWidth 32
        (t, .call (.freeInd double dev block (.freeing bh i))
          (if double then .freeInd false dev p .start else .freeBlock dev p .start))
      else (t, .goto (.freeInd double dev block (.entry bh (i + 1))))
    else (t, .call (.freeInd double dev block .brelse) (brelse (some bh)))
  | .freeing bh i => (t, .goto (.freeInd double dev block (.freeing bh i)))
  | .brelse => (t, .goto (.freeInd double dev block .brelse))
  | .table => (t, .call (.freeInd double dev block .freeingTable) (.freeBlock dev block .start))
  | .freeingTable => (t, .goto (.freeInd double dev block .freeingTable))
  | .done => (t, .ret .void)

/-- `i_zone[k] = 0`. -/
def clearZone (t : Tables α n) (inode : Ino) (k : Fin 9) : Tables α n :=
  let m := t.inode inode
  t.setInode inode { m with iZone := Function.update m.iZone k 0 }

def truncate (t : Tables α n) (inode : Ino) : TruncatePc → Tables α n × Next n
  | .start =>
    if Fs.isReg (t.inode inode).iMode ∨ Fs.isDir (t.inode inode).iMode then
      (t, .goto (.truncate inode (.zone 0)))
    else (t, .ret .void)
  | .zone i =>
    let m := t.inode inode
    if h : i < 7 then
      if m.iZone ⟨i, by omega⟩ ≠ 0 then
        (t, .call (.truncate inode (.freeing i))
          (.freeBlock m.iDev ((m.iZone ⟨i, by omega⟩).setWidth 32) .start))
      else (t, .goto (.truncate inode (.zone (i + 1))))
    else
      (t, .call (.truncate inode .ind) (.freeInd false m.iDev ((m.iZone 7).setWidth 32) .start))
  | .freeing i => (t, .goto (.truncate inode (.freeing i)))
  | .freed i => (t.clearZone inode (Fin.ofNat 9 i), .goto (.truncate inode (.zone (i + 1))))
  | .ind => (t, .goto (.truncate inode .ind))
  | .dind =>
    let m := t.inode inode
    (t, .call (.truncate inode .freeingDind)
      (.freeInd true m.iDev ((m.iZone 8).setWidth 32) .start))
  | .freeingDind => (t, .goto (.truncate inode .freeingDind))
  | .done =>
    let t := (t.clearZone inode 7).clearZone inode 8
    (t.setInode inode { t.inode inode with iDirt := true }, .ret .void)

/-- `free_inode`. -/
def freeInode (t : Tables α n) (inode : Ino) : FreeInodePc → Tables α n × Next n
  | .start =>
    let m := t.inode inode
    if m.iDev = 0 then (t.setInode inode .zero, .ret .void)
    else if 1 < m.iCount.toNat ∨ m.iNlinks ≠ 0 then (t, .panic)
    else (t, .call (.freeInode inode .super) (.getSuper m.iDev (.scan 0)))
  | .super => (t, .goto (.freeInode inode .super))
  | .check sb =>
    let m := t.inode inode
    if m.iNum.toNat < 1 ∨ (t.super sb).sNinodes.toNat < m.iNum.toNat then (t, .panic)
    else
      match (t.super sb).sImap (Fin.ofNat 8 (m.iNum.toNat / 8192)) with
      | none => (t, .panic)
      | some bh =>
        ({ t.setInode inode .zero with cache := t.cache.setDirt bh true }, .ret .void)
  | .panic => (t, .panic)

/-- `inode->i_count--`. -/
def drop (t : Tables α n) (inode : Ino) : Tables α n :=
  t.setInode inode { t.inode inode with iCount := (t.inode inode).iCount - 1 }

def iput (t : Tables α n) (inode : Ino) : IputPc → Tables α n × Next n
  | .wait =>
    let m := t.inode inode
    if m.iLock then (t, .sleep (.iput inode .wait))
    else if m.iCount = 0 then (t, .panic)
    else if m.iPipe then
      if m.iCount - 1 ≠ 0 then (t.drop inode, .ret .void)
      else (t.setInode inode { m with iCount := 0, iDirt := false, iPipe := false }, .ret .void)
    else if m.iDev = 0 then (t.drop inode, .ret .void)
    else if Fs.isBlk m.iMode then
      (t, .call (.iput inode .syncing) (.buf (.syncDev (m.iZone 0) (.loop false 0))))
    else (t, .goto (.iput inode .repeat))
  | .syncing => (t, .goto (.iput inode .syncing))
  | .waitBlk =>
    if (t.inode inode).iLock then (t, .sleep (.iput inode .waitBlk))
    else (t, .goto (.iput inode .repeat))
  | .repeat =>
    let m := t.inode inode
    if 1 < m.iCount.toNat then (t.drop inode, .ret .void)
    else if m.iNlinks = 0 then (t, .call (.iput inode .truncating) (.truncate inode .start))
    else if m.iDirt then (t, .call (.iput inode .writing) (.writeInode inode .lock))
    else (t.drop inode, .ret .void)
  | .truncating => (t, .goto (.iput inode .truncating))
  | .free => (t, .call (.iput inode .freeing) (.freeInode inode .start))
  | .freeing => (t, .goto (.iput inode .freeing))
  | .writing => (t, .goto (.iput inode .writing))
  | .waitDirty =>
    if (t.inode inode).iLock then (t, .sleep (.iput inode .waitDirty))
    else (t, .goto (.iput inode .repeat))
  | .done => (t, .ret .void)

/-- The loop of `get_empty_inode` over the table, for so many more entries: the last one it has
looked at, and the best one it has found. -/
def pick (t : Tables α n) : ℕ → Ino → Option Ino → Ino × Option Ino
  | 0, last, inode => (last, inode)
  | k + 1, last, inode =>
    let last := last + 1
    let m := t.inode last
    if m.iCount = 0 then
      if m.iDirt = false ∧ m.iLock = false then (last, some last) else t.pick k last (some last)
    else t.pick k last inode

/-- `get_empty_inode`. -/
def getEmptyInode (t : Tables α n) : GetEmptyInodePc → Tables α n × Next n
  | .pick =>
    let (last, inode) := t.pick 32 t.lastInode none
    let t := { t with lastInode := last }
    match inode with
    | none => (t, .panic)
    | some inode => (t, .goto (.getEmptyInode (.wait inode)))
  | .wait inode =>
    let m := t.inode inode
    if m.iLock then (t, .sleep (.getEmptyInode (.wait inode)))
    else if m.iDirt then (t, .call (.getEmptyInode (.writing inode)) (.writeInode inode .lock))
    else if m.iCount ≠ 0 then (t, .goto (.getEmptyInode .pick))
    else (t.setInode inode { MInode.zero with iCount := 1 }, .ret (.inode inode))
  | .writing inode => (t, .goto (.getEmptyInode (.writing inode)))

def iget (t : Tables α n) (dev : Dev) (nr : BitVec 16) : IgetPc → Tables α n × Next n
  | .start =>
    if dev = 0 then (t, .panic) else (t, .call (.iget dev nr .empty) (.getEmptyInode .pick))
  | .empty => (t, .goto (.iget dev nr .empty))
  | .scan empty i =>
    if h : i < 32 then
      let m := t.inode ⟨i, h⟩
      if m.iDev ≠ dev ∨ m.iNum ≠ nr then (t, .goto (.iget dev nr (.scan empty (i + 1))))
      else (t, .goto (.iget dev nr (.wait empty ⟨i, h⟩)))
    else
      (t.setInode empty { t.inode empty with iDev := dev, iNum := nr },
        .call (.iget dev nr (.reading empty)) (.readInode empty .lock))
  | .wait empty i =>
    let m := t.inode i
    if m.iLock then (t, .sleep (.iget dev nr (.wait empty i)))
    else if m.iDev ≠ dev ∨ m.iNum ≠ nr then (t, .goto (.iget dev nr (.scan empty 0)))
    else
      let t := t.setInode i { m with iCount := m.iCount + 1 }
      if m.iMount then
        match (List.finRange 8).find? fun s => (t.super s).sImount = some i with
        | none => (t, .call (.iget dev nr (.ret i)) (.iput empty .wait))
        | some s => (t, .call (.iget dev nr (.putting empty s)) (.iput i .wait))
      else (t, .call (.iget dev nr (.ret i)) (.iput empty .wait))
  | .putting empty s => (t, .goto (.iget dev nr (.putting empty s)))
  | .mounted empty s => (t, .goto (.iget (t.super s).sDev 1 (.scan empty 0)))
  | .ret i => (t, .goto (.iget dev nr (.ret i)))
  | .reading empty => (t, .goto (.iget dev nr (.reading empty)))
  | .done i => (t, .ret (.inode i))

/-- `new_block`. The search for a zero bit in the maps is left to chance. -/
def newBlock (t : Tables α n) (ch : Chance α) (dev : Dev) : NewBlockPc n → Tables α n × Next n
  | .start => (t, .call (.newBlock dev .super) (.getSuper dev (.scan 0)))
  | .super => (t, .goto (.newBlock dev .super))
  | .check sb =>
    match (t.super sb).sZmap ch.map with
    | none => (t, .ret (.num 0))
    | some bh =>
      if ch.bit then (t, .ret (.num 0))
      else
        let t := { t with cache := t.cache.setDirt bh true }
        let j := ch.word
        if (t.super sb).sNzones ≤ j then (t, .ret (.num 0))
        else
          (t, .call (.newBlock dev (.getblk j)) (.buf (.getblk dev (j.setWidth 32) .atRepeat)))
  | .getblk j => (t, .goto (.newBlock dev (.getblk j)))
  | .count bh j =>
    if t.cache.bCount bh ≠ 1 then (t, .panic)
    else
      ({ t with cache := (t.cache.setUptodate bh true).setDirt bh true },
        .call (.newBlock dev (.brelse j)) (brelse (some bh)))
  | .brelse j => (t, .goto (.newBlock dev (.brelse j)))
  | .done j => (t, .ret (.num j))
  | .panic => (t, .panic)

/-- `i_zone[k] = z`, and the inode is dirty. -/
def setZone (t : Tables α n) (inode : Ino) (k : Fin 9) (z : BitVec 16) : Tables α n :=
  let m := t.inode inode
  t.setInode inode { m with iZone := Function.update m.iZone k z, iDirt := true }

/-- The entry of `i_zone` through which a block is found. -/
def zoneOf (block : Block) : Fin 9 :=
  if block.toNat < 7 then Fin.ofNat 9 block.toNat else if block.toNat < 7 + 512 then 7 else 8

/-- `_bmap`. -/
def bmap (t : Tables α n) (ch : Chance α) (create : Bool) (inode : Ino) (block : Block) :
    BmapPc n → Tables α n × Next n
  | .start =>
    let m := t.inode inode
    let k := zoneOf block
    if block.toInt < 0 ∨ 7 + 512 + 512 * 512 ≤ block.toInt then (t, .panic)
    else if create ∧ m.iZone k = 0 then
      (t, .call (.bmap create inode block (.zone k)) (.newBlock m.iDev .start))
    else (t, .goto (.bmap create inode block (.table k)))
  | .zone k => (t, .goto (.bmap create inode block (.zone k)))
  | .gotZone k z =>
    (if z ≠ 0 then t.setZone inode k z else t.clearZone inode k,
      .goto (.bmap create inode block (.table k)))
  | .table k =>
    let m := t.inode inode
    if k.val < 7 ∨ m.iZone k = 0 then (t, .ret (.num (m.iZone k)))
    else
      (t, .call (.bmap create inode block (.reading (k = 7)))
        (bread m.iDev ((m.iZone k).setWidth 32)))
  | .reading last => (t, .goto (.bmap create inode block (.reading last)))
  | .entry last bh =>
    if create ∧ ch.word = 0 then
      (t, .call (.bmap create inode block (.creating last bh))
        (.newBlock (t.inode inode).iDev .start))
    else (t, .goto (.bmap create inode block (.release last bh ch.word)))
  | .creating last bh => (t, .goto (.bmap create inode block (.creating last bh)))
  | .created last bh z =>
    (if z ≠ 0 then { t with cache := t.cache.setDirt bh true } else t,
      .goto (.bmap create inode block (.release last bh z)))
  | .release last bh i =>
    (t, .call (.bmap create inode block (.releasing last i)) (brelse (some bh)))
  | .releasing last i => (t, .goto (.bmap create inode block (.releasing last i)))
  | .released last i =>
    if last ∨ i = 0 then (t, .ret (.num i))
    else
      (t, .call (.bmap create inode block (.reading true))
        (bread (t.inode inode).iDev (i.setWidth 32)))
  | .hole => (t, .ret (.num 0))

/-- The number of entries of a directory. -/
def entries (t : Tables α n) (dir : Ino) : ℕ := (t.inode dir).iSize.toNat / 16

/-- `find_entry`. After a hole `bh` is null, and the comparison of `de` with the end of its block
reads address 0; it holds as for the block before. -/
def findEntry (t : Tables α n) (ch : Chance α) (dir : Ino) (name : Name) :
    FindEntryPc n → Tables α n × Next n
  | .start =>
    match name with
    | .empty => (t, .ret (.buf none))
    | .other => (t, .goto (.findEntry dir name (.first (t.entries dir))))
    | .dotdot =>
      -- at the root of the process it is `.`
      if ch.bit = false ∧ (t.inode dir).iNum = 1 then
        (t, .call (.findEntry dir name (.super (t.entries dir)))
          (.getSuper (t.inode dir).iDev (.scan 0)))
      else (t, .goto (.findEntry dir name (.first (t.entries dir))))
  | .super entries => (t, .goto (.findEntry dir name (.super entries)))
  | .got entries sb =>
    match (t.super sb).sImount with
    | none => (t, .goto (.findEntry dir name (.first entries)))
    | some m => (t, .call (.findEntry dir name (.putting entries m)) (.iput dir .wait))
  | .putting entries m => (t, .goto (.findEntry dir name (.putting entries m)))
  | .mounted entries m =>
    (t.setInode m { t.inode m with iCount := (t.inode m).iCount + 1 },
      .goto (.findEntry m name (.first entries)))
  | .first entries =>
    let m := t.inode dir
    if m.iZone 0 = 0 then (t, .ret (.buf none))
    else
      (t, .call (.findEntry dir name (.reading entries)) (bread m.iDev ((m.iZone 0).setWidth 32)))
  | .reading entries => (t, .goto (.findEntry dir name (.reading entries)))
  | .scan entries bh i k =>
    if i < entries then
      if 64 ≤ k then (t, .call (.findEntry dir name (.releasing entries i)) (brelse bh))
      else if ch.bit then (t, .ret (.buf bh))
      else (t, .goto (.findEntry dir name (.scan entries bh (i + 1) (k + 1))))
    else (t, .call (.findEntry dir name .finish) (brelse bh))
  | .releasing entries i => (t, .goto (.findEntry dir name (.releasing entries i)))
  | .released entries i =>
    (t, .call (.findEntry dir name (.mapping entries i))
      (.bmap false dir (BitVec.ofNat 32 (i / 64)) .start))
  | .mapping entries i => (t, .goto (.findEntry dir name (.mapping entries i)))
  | .gotBlock entries i block =>
    if block = 0 then (t, .goto (.findEntry dir name (.scan entries none (i + 64) 64)))
    else
      (t, .call (.findEntry dir name (.readingNext entries i))
        (bread (t.inode dir).iDev (block.setWidth 32)))
  | .readingNext entries i => (t, .goto (.findEntry dir name (.readingNext entries i)))
  | .finish => (t, .goto (.findEntry dir name .finish))
  | .null => (t, .ret (.buf none))
  | .panic => (t, .panic)

/-- `add_entry`. -/
def addEntry (t : Tables α n) (ch : Chance α) (dir : Ino) (name : Name) :
    AddEntryPc n → Tables α n × Next n
  | .start =>
    let m := t.inode dir
    match name with
    | .empty => (t, .ret (.buf none))
    | .dotdot | .other =>
      if m.iZone 0 = 0 then (t, .ret (.buf none))
      else
        (t, .call (.addEntry dir name .reading) (bread m.iDev ((m.iZone 0).setWidth 32)))
  | .reading => (t, .goto (.addEntry dir name .reading))
  | .scan bh i k =>
    if 64 ≤ k then (t, .call (.addEntry dir name (.releasing i)) (brelse bh))
    else
      let m := t.inode dir
      let past := m.iSize.toNat ≤ i * 16
      let t :=
        if past then
          t.setInode dir { m with iSize := BitVec.ofNat 32 ((i + 1) * 16), iDirt := true }
        else t
      -- `de->inode`, which is zero past the end
      if past ∨ ch.bit then
        match bh with
        | some bh => ({ t with cache := t.cache.setDirt bh true }, .ret (.buf (some bh)))
        | none => (t, .ret (.buf none))
      else (t, .goto (.addEntry dir name (.scan bh (i + 1) (k + 1))))
  | .releasing i => (t, .goto (.addEntry dir name (.releasing i)))
  | .released i =>
    (t, .call (.addEntry dir name (.creating i))
      (.bmap true dir (BitVec.ofNat 32 (i / 64)) .start))
  | .creating i => (t, .goto (.addEntry dir name (.creating i)))
  | .gotBlock i block =>
    if block = 0 then (t, .ret (.buf none))
    else
      (t, .call (.addEntry dir name (.readingNext i))
        (bread (t.inode dir).iDev (block.setWidth 32)))
  | .readingNext i => (t, .goto (.addEntry dir name (.readingNext i)))
  | .null => (t, .ret (.buf none))

/-- `empty_dir`. In `dots`, `ch.bit` is that the first two entries are wrong, in `scan` that the
entry is in use. -/
def emptyDir (t : Tables α n) (ch : Chance α) (inode : Ino) :
    EmptyDirPc n → Tables α n × Next n
  | .start =>
    let m := t.inode inode
    if t.entries inode < 2 ∨ m.iZone 0 = 0 then (t, .ret (.num 0))
    else
      (t, .call (.emptyDir inode (.reading (t.entries inode)))
        (bread m.iDev ((m.iZone 0).setWidth 32)))
  | .reading len => (t, .goto (.emptyDir inode (.reading len)))
  | .dots len bh =>
    if ch.bit then (t, .ret (.num 0)) else (t, .goto (.emptyDir inode (.scan len bh 2 2)))
  | .scan len bh nr k =>
    if nr < len then
      if 64 ≤ k then (t, .call (.emptyDir inode (.releasing len bh nr)) (brelse (some bh)))
      else if ch.bit then (t, .call (.emptyDir inode (.finish false)) (brelse (some bh)))
      else (t, .goto (.emptyDir inode (.scan len bh (nr + 1) (k + 1))))
    else (t, .call (.emptyDir inode (.finish true)) (brelse (some bh)))
  | .releasing len bh nr => (t, .goto (.emptyDir inode (.releasing len bh nr)))
  | .released len bh nr =>
    (t, .call (.emptyDir inode (.mapping len bh nr))
      (.bmap false inode (BitVec.ofNat 32 (nr / 64)) .start))
  | .mapping len bh nr => (t, .goto (.emptyDir inode (.mapping len bh nr)))
  | .gotBlock len bh nr block =>
    -- `bh` is the buffer that was released
    if block = 0 then (t, .goto (.emptyDir inode (.scan len bh (nr + 64) 64)))
    else
      (t, .call (.emptyDir inode (.readingNext len nr))
        (bread (t.inode inode).iDev (block.setWidth 32)))
  | .readingNext len nr => (t, .goto (.emptyDir inode (.readingNext len nr)))
  | .finish empty => (t, .goto (.emptyDir inode (.finish empty)))
  | .ret empty => (t, .ret (.num (if empty then 1 else 0)))

/-- A caller of `find_entry` or `add_entry`, as far as it has to do with the buffer. -/
def withEntry (t : Tables α n) (add : Bool) (dir : Ino) (name : Name) :
    WithEntryPc n → Tables α n × Next n
  | .start =>
    (t, .call (.withEntry add dir name .looking)
      (if add then .addEntry dir name .start else .findEntry dir name .start))
  | .looking => (t, .goto (.withEntry add dir name .looking))
  | .got bh => (t, .call (.withEntry add dir name .releasing) (brelse bh))
  | .releasing => (t, .goto (.withEntry add dir name .releasing))
  | .done => (t, .ret .void)

/-- One step of the innermost frame. -/
def exec (t : Tables α n) (ch : Chance α) : Frame n → Tables α n × Next n
  | .buf f => ({ t with cache := (t.cache.exec ch.buf f).1 }, lift (t.cache.exec ch.buf f).2)
  | .getSuper dev pc => t.getSuper dev pc
  | .readInode inode pc => t.readInode ch inode pc
  | .writeInode inode pc => t.writeInode inode pc
  | .syncInodes pc => t.syncInodes pc
  | .invalidateInodes dev i => t.invalidateInodes dev i
  | .invalidateBuffers dev pc => t.invalidateBuffers dev pc
  | .checkDiskChange dev pc => t.checkDiskChange ch dev pc
  | .putSuper dev pc => t.putSuper dev pc
  | .readSuper dev pc => t.readSuper ch dev pc
  | .freeBlock dev block pc => t.freeBlock ch dev block pc
  | .freeInd double dev block pc => t.freeInd ch double dev block pc
  | .truncate inode pc => t.truncate inode pc
  | .freeInode inode pc => t.freeInode inode pc
  | .iput inode pc => t.iput inode pc
  | .getEmptyInode pc => t.getEmptyInode pc
  | .iget dev nr pc => t.iget dev nr pc
  | .newBlock dev pc => t.newBlock ch dev pc
  | .bmap create inode block pc => t.bmap ch create inode block pc
  | .findEntry dir name pc => t.findEntry ch dir name pc
  | .addEntry dir name pc => t.addEntry ch dir name pc
  | .emptyDir inode pc => t.emptyDir ch inode pc
  | .withEntry add dir name pc => t.withEntry add dir name pc

end Tables

/-! ## The system -/

/-- The calls of which system calls are made. -/
inductive Call (n : ℕ)
  | bmap (inode : Ino) (block : Block)
  | createBlock (inode : Ino) (block : Block)
  | newBlock (dev : Dev)
  | findEntry (dir : Ino) (name : Name)
  | addEntry (dir : Ino) (name : Name)
  | emptyDir (inode : Ino)
  | readInode (inode : Ino)
  | writeInode (inode : Ino)
  | buf (c : Buffer.Call n)
  | getSuper (dev : Dev)
  | checkDiskChange (dev : Dev)
  | putSuper (dev : Dev)
  | readSuper (dev : Dev)
  | freeBlock (dev : Dev) (block : Block)
  | truncate (inode : Ino)
  | freeInode (inode : Ino)
  | iput (inode : Ino)
  | getEmptyInode
  | iget (dev : Dev) (nr : BitVec 16)

/-- The first frame of a call; the callers of `find_entry` and `add_entry` release what they get. -/
def Call.frame {n : ℕ} : Call n → Frame n
  | .bmap inode block => .bmap false inode block .start
  | .createBlock inode block => .bmap true inode block .start
  | .newBlock dev => .newBlock dev .start
  | .findEntry dir name => .withEntry false dir name .start
  | .addEntry dir name => .withEntry true dir name .start
  | .emptyDir inode => .emptyDir inode .start
  | .readInode inode => .readInode inode .lock
  | .writeInode inode => .writeInode inode .lock
  | .buf c => .buf c.frame
  | .getSuper dev => .getSuper dev (.scan 0)
  | .checkDiskChange dev => .checkDiskChange dev .start
  | .putSuper dev => .putSuper dev .start
  | .readSuper dev => .readSuper dev .start
  | .freeBlock dev block => .freeBlock dev block .start
  | .truncate inode => .truncate inode .start
  | .freeInode inode => .freeInode inode .start
  | .iput inode => .iput inode .wait
  | .getEmptyInode => .getEmptyInode .pick
  | .iget dev nr => .iget dev nr .start

/-- What a system call does itself, between its calls: it changes the fields of an inode, of a super
block or of a buffer, but no lock, and not the device of a super block. -/
inductive Touch (n : ℕ)
  | inode (i : Ino) (m : MInode)
  | super (s : Sb) (m : SuperBlock n)
  | buffer (bh : Fin n) (uptodate dirt : Bool)

inductive Event (α : Type*) (n : ℕ)
  | schedule (p : Pid)
  | yield
  | start (c : Call n)
  | touch (x : Touch n)
  | run (ch : Chance α)
  | transfer (m : Fin 7)
  | complete (m : Fin 7) (uptodate : Bool)

/-- The tables, the calls each process is in, and the process that runs. -/
structure State (α : Type*) (n : ℕ) where
  tables : Tables α n
  stack : Pid → List (Frame n)
  cur : Option Pid

namespace State

variable {α : Type*} {n : ℕ}

def setStack (s : State α n) (p : Pid) (fs : List (Frame n)) : State α n :=
  { s with stack := Function.update s.stack p fs }

/-- The process `p` with the calls `f :: fs` makes a step; when it sleeps nobody runs. -/
def run (s : State α n) (p : Pid) (f : Frame n) (fs : List (Frame n)) (ch : Chance α) :
    Option (State α n) :=
  let (tables, next) := s.tables.exec ch f
  (next.resume Frame.receive fs).map fun fs =>
    { s.setStack p fs with
      tables := tables
      cur := match next with
        | .sleep _ => none
        | _ => s.cur }

def touch (t : Tables α n) : Touch n → Tables α n
  | .inode i m => t.setInode i { m with iLock := (t.inode i).iLock }
  | .super s m => t.setSuper s { m with sLock := (t.super s).sLock, sDev := (t.super s).sDev }
  | .buffer bh uptodate dirt =>
    { t with cache := (t.cache.setUptodate bh uptodate).setDirt bh dirt }

def next (s : State α n) : Event α n → Option (State α n)
  | .schedule p => if s.cur = none then some { s with cur := some p } else none
  | .yield =>
    match s.cur with
    | some p => if (s.stack p).isEmpty then some { s with cur := none } else none
    | none => none
  | .start c =>
    match s.cur with
    | some p => if (s.stack p).isEmpty then some (s.setStack p [c.frame]) else none
    | none => none
  | .touch x =>
    match s.cur with
    | some p =>
      if (s.stack p).isEmpty then some { s with tables := touch s.tables x } else none
    | none => none
  | .run ch =>
    match s.cur with
    | some p =>
      match s.stack p with
      | f :: fs => s.run p f fs ch
      | [] => none
    | none => none
  | .transfer m =>
    (s.tables.cache.transfer m).map fun c => { s with tables := { s.tables with cache := c } }
  | .complete m uptodate =>
    (s.tables.cache.endRequest m uptodate).map fun c =>
      { s with tables := { s.tables with cache := c } }

/-- Nobody is in a call, and no inode or super block is locked. -/
structure Init (s : State α n) : Prop where
  stack : ∀ p, s.stack p = []
  cur : s.cur = none
  inode : ∀ i, (s.tables.inode i).iLock = false
  super : ∀ i, (s.tables.super i).sLock = false

end State

/-- The system, from any contents of the tables on. -/
def fileSystem (α : Type*) (n : ℕ) : System (State α n) (Event α n) where
  init := State.Init
  step s e s' := s.next e = some s'

end Linux011.Inodes
