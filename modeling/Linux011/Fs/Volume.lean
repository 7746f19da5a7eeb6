import Linux011.Fs.File

/-!
# The zones of a mounted file system

`fs/bitmap.c` and `_bmap` of `fs/inode.c` on one device, the buffers of its blocks being the blocks
themselves.

1. `Volume`: the zone map, the blocks and the in-core inodes.
2. `newBlock`: `takeZone` up to the call of `getblk`, in which it may sleep, `clearBlock` after it.
3. `bmapPath`, `bmap`: the slots from which a block number of a file is resolved.
4. `Addr`: the place of a zone number in an inode, `Volume.Sound`: no two places hold one zone.
-/

namespace Linux011.Zones

open Linux011.Fs (Byte)

structure Inode where
  iMode : BitVec 16
  /-- `i_zone`, unsigned shorts. -/
  iZone : ℕ → ℕ
  iSize : ℕ

/-- `S_ISREG(inode->i_mode) || S_ISDIR(inode->i_mode)`. -/
def Inode.isFile (i : Inode) : Bool :=
  Fs.isReg i.iMode || Fs.isDir i.iMode

structure Volume where
  /-- `s_firstdatazone`. -/
  firstdatazone : ℕ
  /-- `s_nzones`. -/
  nzones : ℕ
  /-- `s_zmap_blocks`. -/
  zmapBlocks : ℕ
  /-- The bits of `s_zmap`, 8192 in a block. -/
  zmap : ℕ → Bool
  /-- The bytes of each block. -/
  data : ℕ → ℕ → Byte
  inode : ℕ → Inode

/-- Where a zone number is kept: `inode->i_zone[k]`, or the `k`-th short of a table. -/
inductive Slot
  | zone (nr k : ℕ)
  | entry (block k : ℕ)
  deriving DecidableEq

namespace Volume

variable (v : Volume)

/-- `((unsigned short *) bh->b_data)[k]`. -/
def entry (block k : ℕ) : ℕ :=
  (v.data block (2 * k)).toNat + 256 * (v.data block (2 * k + 1)).toNat

def get : Slot → ℕ
  | .zone nr k => (v.inode nr).iZone k
  | .entry block k => v.entry block k

def setInode (nr : ℕ) (i : Inode) : Volume :=
  { v with inode := Function.update v.inode nr i }

def setData (block : ℕ) (b : ℕ → Byte) : Volume :=
  { v with data := Function.update v.data block b }

def setByte (block off : ℕ) (b : Byte) : Volume :=
  v.setData block (Function.update (v.data block) off b)

def set : Slot → ℕ → Volume
  | .zone nr k, z =>
    v.setInode nr { v.inode nr with iZone := Function.update (v.inode nr).iZone k z }
  | .entry block k, z =>
    (v.setByte block (2 * k) (BitVec.ofNat 8 z)).setByte block (2 * k + 1) (BitVec.ofNat 8 (z / 256))

/-! ## Taking a zone -/

/-- `find_first_zero` from bit `j` on. -/
def firstZero (map : ℕ → Bool) : ℕ → ℕ → ℕ
  | 0, j => j
  | n + 1, j => if map j then firstZero map n (j + 1) else j

def findFirstZero (map : ℕ → Bool) : ℕ :=
  firstZero map 8192 0

/-- The loop of `new_block` over the zone map, from block `i` on: the bit it finds. -/
def searchZmap : ℕ → ℕ → Option ℕ
  | 0, _ => none
  | n + 1, i =>
    let j := findFirstZero fun j => v.zmap (i * 8192 + j)
    if i < v.zmapBlocks ∧ j < 8192 then some (i * 8192 + j) else searchZmap n (i + 1)

/-- `new_block` up to `getblk`: the zone it takes, 0 if it fails. -/
def takeZone : ℕ × Volume :=
  match v.searchZmap 8 0 with
  | none => (0, v)
  | some b =>
    let v' := { v with zmap := Function.update v.zmap b true }
    let j := b + v.firstdatazone - 1
    if j ≥ v.nzones then (0, v') else (j, v')

def clearBlock (block : ℕ) : Volume :=
  v.setData block fun _ => 0

end Volume

/-! ## Reading a file -/

/-- The slots `_bmap` goes through for a block of a file: the index into `i_zone` and the index into
each table. `_bmap` panics if the block is too big. -/
def bmapPath (block : ℕ) : Option (ℕ × List ℕ) :=
  if block < 7 then some (block, [])
  else if block < 7 + 512 then some (7, [block - 7])
  else if block < 7 + 512 + 512 * 512 then
    some (8, [(block - 7 - 512) >>> 9, (block - 7 - 512) &&& 511])
  else none

namespace Volume

variable (v : Volume)

/-- `_bmap` from a slot on, without `create`. -/
def walk : Slot → List ℕ → ℕ
  | slot, [] => v.get slot
  | slot, k :: ks => if v.get slot = 0 then 0 else walk (.entry (v.get slot) k) ks

def bmap (nr block : ℕ) : Option ℕ :=
  (bmapPath block).map fun p => v.walk (.zone nr p.1) p.2

/-- The byte `file_read` copies from offset `off`. -/
def readByte (nr off : ℕ) : Option Byte :=
  (v.bmap nr (off / 1024)).map fun z => if z = 0 then 0 else v.data z (off % 1024)

end Volume

/-! ## Places of zone numbers -/

/-- A place of a zone number: a slot of an inode, or a slot of the table in another place. -/
inductive Addr
  | root (nr k : ℕ)
  | child (up : Addr) (k : ℕ)
  deriving DecidableEq

namespace Addr

/-- How many tables are above the place. -/
def depth : Addr → ℕ
  | root _ _ => 0
  | child up _ => up.depth + 1

/-- The inode. -/
def nr : Addr → ℕ
  | root nr _ => nr
  | child up _ => up.nr

/-- How many tables are above a data block that is reached from this place. -/
def levels : Addr → ℕ
  | root _ k => k - 6
  | child up _ => up.levels

/-- The place exists in an inode. -/
def Valid : Addr → Prop
  | root _ k => k < 9
  | child up k => up.Valid ∧ k < 512 ∧ up.depth < up.levels

/-- The slot of the place. -/
def slot (v : Volume) : Addr → Slot
  | root nr k => .zone nr k
  | child up k => .entry (v.get (up.slot v)) k

/-- The zone number kept there. -/
def zone (v : Volume) (a : Addr) : ℕ :=
  v.get (a.slot v)

/-- All tables above it exist. -/
def Live (v : Volume) : Addr → Prop
  | root _ _ => True
  | child up _ => up.Live v ∧ up.zone v ≠ 0

/-- The block of the file whose zone number is kept there. -/
def block : Addr → ℕ
  | root _ k => k
  | child (root _ _) k => 7 + k
  | child (child _ i) k => 7 + 512 + (512 * i + k)

/-- The place below `a` along the indexes `ks`. -/
def extend (a : Addr) (ks : List ℕ) : Addr :=
  ks.foldl child a

end Addr

/-- The place of the zone number of block `block` of a file. -/
def blockAddr (nr block : ℕ) : Option Addr :=
  (bmapPath block).map fun p => (Addr.root nr p.1).extend p.2

namespace Volume

/-- The bit of zone `z` in the zone map. -/
def bitOf (v : Volume) (z : ℕ) : ℕ :=
  z - (v.firstdatazone - 1)

/-- The place exists now: in a regular file or directory, all tables above it being there. -/
structure Holds (v : Volume) (a : Addr) : Prop where
  file : (v.inode a.nr).isFile = true
  valid : a.Valid
  live : a.Live v

/-- The zone is one the map covers, and marked there. -/
structure Marked (v : Volume) (z : ℕ) : Prop where
  first : v.firstdatazone ≤ z
  last : z < v.nzones
  bit : v.zmap (v.bitOf z) = true

/-- Every zone of a file is marked and is in one place only. -/
structure Sound (v : Volume) : Prop where
  firstdatazone_pos : 0 < v.firstdatazone
  nzones_lt : v.nzones < 2 ^ 16
  zmap_zero : v.zmap 0 = true
  marked : ∀ a, v.Holds a → a.zone v ≠ 0 → v.Marked (a.zone v)
  distinct : ∀ a b, v.Holds a → v.Holds b → a.zone v ≠ 0 → a.zone v = b.zone v → a = b

end Volume

/-! ## Reading what was stored -/

/-- The slot lies in the block. -/
def Slot.In : Slot → ℕ → Prop
  | .zone _ _, _ => False
  | .entry block _, block' => block = block'

section Get

variable {v : Volume} {s t : Slot} {block z : ℕ}

theorem get_set_self (hz : z < 2 ^ 16) : (v.set s z).get s = z := by
  cases s with
  | zone nr k => simp [Volume.set, Volume.get, Volume.setInode]
  | entry block k =>
    simp [Volume.set, Volume.get, Volume.entry, Volume.setByte, Volume.setData]
    omega

theorem get_set_of_ne (h : s ≠ t) : (v.set s z).get t = v.get t := by
  cases s with
  | zone nr k =>
    cases t with
    | zone nr' k' =>
      by_cases hnr : nr' = nr
      · subst hnr
        have hk : k' ≠ k := fun hk => h (by rw [hk])
        simp [Volume.set, Volume.get, Volume.setInode, hk]
      · simp [Volume.set, Volume.get, Volume.setInode, hnr]
    | entry block' k' => rfl
  | entry block k =>
    cases t with
    | zone nr' k' => rfl
    | entry block' k' =>
      by_cases hb : block' = block
      · subst hb
        have hk : k' ≠ k := fun hk => h (by rw [hk])
        have h0 : 2 * k' ≠ 2 * k + 1 := by omega
        have h1 : 2 * k' + 1 ≠ 2 * k := by omega
        have h2 : 2 * k' ≠ 2 * k := by omega
        simp [Volume.set, Volume.get, Volume.entry, Volume.setByte, Volume.setData,
          h0, h1, h2]
      · simp [Volume.set, Volume.get, Volume.entry, Volume.setByte, Volume.setData, hb]

theorem get_setData_of_not_in {f : ℕ → Byte} (h : ¬ s.In block) :
    (v.setData block f).get s = v.get s := by
  cases s with
  | zone nr k => rfl
  | entry block' k =>
    have hne : block' ≠ block := h
    simp [Volume.setData, Volume.get, Volume.entry, hne]

theorem get_clearBlock_self (k : ℕ) : (v.clearBlock block).get (.entry block k) = 0 := by
  simp [Volume.clearBlock, Volume.setData, Volume.get, Volume.entry]

theorem set_data_of_not_in (h : ¬ s.In block) : (v.set s z).data block = v.data block := by
  cases s with
  | zone nr k => rfl
  | entry block' k =>
    have hne : block ≠ block' := fun hb => h hb.symm
    simp [Volume.set, Volume.setByte, Volume.setData, hne]

@[simp] theorem set_zmap : (v.set s z).zmap = v.zmap := by
  cases s <;> rfl

@[simp] theorem set_nzones : (v.set s z).nzones = v.nzones := by
  cases s <;> rfl

@[simp] theorem set_firstdatazone : (v.set s z).firstdatazone = v.firstdatazone := by
  cases s <;> rfl

@[simp] theorem set_isFile (nr : ℕ) :
    ((v.set s z).inode nr).isFile = (v.inode nr).isFile := by
  cases s with
  | zone nr' k =>
    by_cases h : nr = nr'
    · subst h; simp [Volume.set, Volume.setInode, Inode.isFile]
    · simp [Volume.set, Volume.setInode, h]
  | entry block k => rfl

end Get

/-! ## Places -/

section Holds

variable {v v' : Volume} {a b : Addr} {k z : ℕ}

theorem Volume.Holds.up (h : v.Holds (a.child k)) : v.Holds a :=
  ⟨h.file, h.valid.1, h.live.1⟩

theorem Volume.Holds.child (h : v.Holds a) (hz : a.zone v ≠ 0) (hk : k < 512)
    (hd : a.depth < a.levels) : v.Holds (a.child k) :=
  ⟨h.file, ⟨h.valid, hk, hd⟩, h.live, hz⟩

/-- Two places have different slots. -/
theorem Volume.Sound.slot_inj (hv : v.Sound) (ha : v.Holds a) (hb : v.Holds b)
    (h : a.slot v = b.slot v) : a = b := by
  cases a with
  | root nr k =>
    cases b with
    | root nr' k' => cases h; rfl
    | child up' k' => cases h
  | child up k =>
    cases b with
    | root nr' k' => cases h
    | child up' k' =>
      injection h with hz hk
      rw [hv.distinct up up' ha.up hb.up ha.live.2 hz, hk]

/-- A place keeps its slot when the zone numbers in the places above it stay. -/
theorem Volume.Holds.keeps (hfile : ∀ nr, (v'.inode nr).isFile = (v.inode nr).isFile)
    (hget : ∀ b, v.Holds b → b.zone v ≠ 0 → v'.get (b.slot v) = b.zone v) (ha : v.Holds a) :
    v'.Holds a ∧ a.slot v' = a.slot v := by
  induction a with
  | root nr k => exact ⟨⟨(hfile _).trans ha.file, ha.valid, trivial⟩, rfl⟩
  | child up k ih =>
    obtain ⟨hup, hslot⟩ := ih ha.up
    have hzone : up.zone v' = up.zone v := by
      unfold Addr.zone
      rw [hslot]
      exact hget up ha.up ha.live.2
    refine ⟨⟨(hfile _).trans ha.file, ha.valid, hup.live, hzone ▸ ha.live.2⟩, ?_⟩
    show Slot.entry (up.zone v') k = Slot.entry (up.zone v) k
    rw [hzone]

/-- No place appears when no place's zone number changes. -/
theorem Volume.Holds.of_keeps (hfile : ∀ nr, (v'.inode nr).isFile = (v.inode nr).isFile)
    (hget : ∀ b, v.Holds b → v'.get (b.slot v) = b.zone v) (ha : v'.Holds a) : v.Holds a := by
  induction a with
  | root nr k => exact ⟨(hfile _).symm.trans ha.file, ha.valid, trivial⟩
  | child up k ih =>
    have hup : v.Holds up := ih ha.up
    have hslot : up.slot v' = up.slot v := (hup.keeps hfile fun b hb _ => hget b hb).2
    have hzone : up.zone v' = up.zone v := by
      unfold Addr.zone
      rw [hslot]
      exact hget up hup
    exact ⟨(hfile _).symm.trans ha.file, ha.valid, hup.live, hzone ▸ ha.live.2⟩

/-- The volumes have the same places with the same zone numbers. -/
structure Volume.Same (v v' : Volume) : Prop where
  holds : ∀ a, v'.Holds a ↔ v.Holds a
  zone : ∀ a, v.Holds a → a.slot v' = a.slot v ∧ a.zone v' = a.zone v

theorem Volume.Same.of_get (hfile : ∀ nr, (v'.inode nr).isFile = (v.inode nr).isFile)
    (hget : ∀ b, v.Holds b → v'.get (b.slot v) = b.zone v) : v.Same v' where
  holds a :=
    ⟨fun h => h.of_keeps hfile hget, fun h => (h.keeps hfile fun b hb _ => hget b hb).1⟩
  zone a ha := by
    have hslot := (ha.keeps hfile fun b hb _ => hget b hb).2
    refine ⟨hslot, ?_⟩
    unfold Addr.zone
    rw [hslot]
    exact hget a ha

/-- What stays of a sound volume whose places stay and whose marks grow. -/
theorem Volume.Sound.of_same (hv : v.Sound) (h : v.Same v')
    (hfirst : v'.firstdatazone = v.firstdatazone) (hnz : v'.nzones = v.nzones)
    (hmap : ∀ b, v.zmap b = true → v'.zmap b = true) : v'.Sound where
  firstdatazone_pos := hfirst ▸ hv.firstdatazone_pos
  nzones_lt := hnz ▸ hv.nzones_lt
  zmap_zero := hmap 0 hv.zmap_zero
  marked a ha hz := by
    have ha' := (h.holds a).1 ha
    rw [(h.zone a ha').2] at hz ⊢
    obtain ⟨h1, h2, h3⟩ := hv.marked a ha' hz
    exact ⟨hfirst ▸ h1, hnz ▸ h2, by unfold Volume.bitOf; rw [hfirst]; exact hmap _ h3⟩
  distinct a b ha hb hz hab := by
    have ha' := (h.holds a).1 ha
    have hb' := (h.holds b).1 hb
    rw [(h.zone a ha').2] at hz hab
    rw [(h.zone b hb').2] at hab
    exact hv.distinct a b ha' hb' hz hab

end Holds

/-! ## Taking, installing and writing a zone -/

theorem firstZero_spec (map : ℕ → Bool) (n j : ℕ) (h : Volume.firstZero map n j < j + n) :
    map (Volume.firstZero map n j) = false := by
  induction n generalizing j with
  | zero => exact absurd h (by simp [Volume.firstZero])
  | succ n ih =>
    unfold Volume.firstZero at h ⊢
    by_cases hj : map j = true
    · rw [if_pos hj] at h ⊢
      exact ih (j + 1) (by omega)
    · rw [if_neg hj]
      simpa using hj

namespace Volume

variable {v v' : Volume} {a : Addr} {z off b : ℕ}

theorem searchZmap_spec {n i : ℕ} (h : v.searchZmap n i = some b) : v.zmap b = false := by
  induction n generalizing i with
  | zero => cases h
  | succ n ih =>
    unfold searchZmap at h
    dsimp only at h
    split_ifs at h with hi
    · obtain rfl := Option.some.inj h
      exact firstZero_spec (fun j => v.zmap (i * 8192 + j)) 8192 0 hi.2
    · exact ih h

/-- What `new_block` takes is a zone whose bit was clear. -/
theorem takeZone_spec (h : v.takeZone = (z, v')) (hz : z ≠ 0) :
    ∃ b, v.zmap b = false ∧ z = b + v.firstdatazone - 1 ∧ z < v.nzones ∧
      v' = { v with zmap := Function.update v.zmap b true } := by
  unfold takeZone at h
  split at h
  · exact absurd (congrArg Prod.fst h).symm hz
  · rename_i b hb
    dsimp only at h
    split_ifs at h with hj
    · exact absurd (congrArg Prod.fst h).symm hz
    · cases h
      exact ⟨b, searchZmap_spec hb, rfl, by omega, rfl⟩

/-- A zone that is marked but in no place. -/
structure Fresh (v : Volume) (z : ℕ) : Prop where
  marked : v.Marked z
  unused : ∀ a, v.Holds a → a.zone v ≠ z

theorem Marked.ne_zero (hv : v.Sound) (h : v.Marked z) : z ≠ 0 := by
  have := hv.firstdatazone_pos
  have := h.first
  omega

theorem Marked.lt (hv : v.Sound) (h : v.Marked z) : z < 2 ^ 16 :=
  h.last.trans hv.nzones_lt

/-- What taking a zone does. -/
structure Takes (v v' : Volume) (z : ℕ) : Prop where
  same : v.Same v'
  sound : v'.Sound
  data : v'.data = v.data
  fresh : v'.Fresh z
  unmarked : ¬ v.Marked z
  marked : ∀ z', v'.Marked z' ↔ z' = z ∨ v.Marked z'

theorem Sound.take (hv : v.Sound) (h : v.takeZone = (z, v')) (hz : z ≠ 0) : v.Takes v' z := by
  obtain ⟨b, hb, hzb, hlt, rfl⟩ := takeZone_spec h hz
  have hb0 : b ≠ 0 := by
    rintro rfl
    rw [hv.zmap_zero] at hb
    cases hb
  have hpos := hv.firstdatazone_pos
  have hbit : v.bitOf z = b := by unfold bitOf; omega
  have hunmarked : ¬ v.Marked z := by
    rintro ⟨-, -, h3⟩
    rw [hbit, hb] at h3
    cases h3
  have hsame : v.Same { v with zmap := Function.update v.zmap b true } :=
    .of_get (fun _ => rfl) fun _ _ => rfl
  have hmap : ∀ b', v.zmap b' = true → Function.update v.zmap b true b' = true := by
    intro b' hb'
    by_cases h : b' = b
    · simp [h]
    · simpa [h] using hb'
  have hmarked : ∀ z', ({ v with zmap := Function.update v.zmap b true } : Volume).Marked z' ↔
      z' = z ∨ v.Marked z' := by
    intro z'
    constructor
    · rintro ⟨h1, h2, h3⟩
      by_cases hz' : z' = z
      · exact .inl hz'
      · have hne : v.bitOf z' ≠ b := by
          have : v.firstdatazone ≤ z' := h1
          unfold bitOf
          omega
        refine .inr ⟨h1, h2, ?_⟩
        change Function.update v.zmap b true (v.bitOf z') = true at h3
        rwa [Function.update_of_ne hne] at h3
    · rintro (rfl | h)
      · refine ⟨show v.firstdatazone ≤ _ by omega, hlt, ?_⟩
        show Function.update v.zmap b true (v.bitOf _) = true
        rw [hbit, Function.update_self]
      · exact ⟨h.first, h.last, hmap _ h.bit⟩
  refine ⟨hsame, hv.of_same hsame rfl rfl hmap, rfl, ⟨(hmarked z).2 (.inl rfl), ?_⟩, hunmarked,
    hmarked⟩
  rintro a ha rfl
  rw [(hsame.zone a ((hsame.holds a).1 ha)).2] at hunmarked hz
  exact hunmarked (hv.marked a ((hsame.holds a).1 ha) hz)

/-- What `_bmap` does with a new zone once it is cleared: its slot gets the zone. -/
def install (v : Volume) (s : Slot) (z : ℕ) : Volume :=
  (v.clearBlock z).set s z

theorem Holds.not_in (ha : v.Holds a) (hz : v.Fresh z) : ¬ (a.slot v).In z := by
  cases a with
  | root nr k => exact id
  | child up k => exact fun h => hz.unused up ha.up h

section Install

variable {s : Slot}

@[simp] theorem install_zmap : (v.install s z).zmap = v.zmap :=
  set_zmap

@[simp] theorem install_nzones : (v.install s z).nzones = v.nzones :=
  set_nzones

@[simp] theorem install_firstdatazone : (v.install s z).firstdatazone = v.firstdatazone :=
  set_firstdatazone

@[simp] theorem install_isFile (nr : ℕ) :
    ((v.install s z).inode nr).isFile = (v.inode nr).isFile :=
  set_isFile nr

theorem Marked.install {y : ℕ} (h : v.Marked y) : (v.install s z).Marked y :=
  ⟨by simpa using h.first, by simpa using h.last, by simpa [bitOf] using h.bit⟩

theorem get_install_self (hv : v.Sound) (hz : v.Fresh z) :
    (v.install (a.slot v) z).get (a.slot v) = z :=
  get_set_self (hz.marked.lt hv)

theorem get_install_of_ne (hv : v.Sound) (ha : v.Holds a) (hz : v.Fresh z) {c : Addr}
    (hc : v.Holds c) (hca : c ≠ a) :
    (v.install (a.slot v) z).get (c.slot v) = c.zone v := by
  have hne : a.slot v ≠ c.slot v := fun h => hca (hv.slot_inj ha hc h).symm
  unfold install
  rw [get_set_of_ne hne]
  exact get_setData_of_not_in (hc.not_in hz)

theorem get_install_entry (ha : v.Holds a) (hz : v.Fresh z) (k : ℕ) : (v.install (a.slot v) z).get (.entry z k) = 0 := by
  have hne : a.slot v ≠ .entry z k := by
    intro h
    exact ha.not_in hz (by rw [h]; rfl)
  unfold install
  rw [get_set_of_ne hne]
  exact get_clearBlock_self k

variable (hv : v.Sound) (ha : v.Holds a) (ha0 : a.zone v = 0) (hz : v.Fresh z)

include hv ha hz

/-- The places after the zone is installed: the old ones, with the zone in its place, and the empty
slots of the new block. -/
theorem holds_install {c : Addr} (hc : (v.install (a.slot v) z).Holds c) :
    (v.Holds c ∧ c.slot (v.install (a.slot v) z) = c.slot v ∧
      c.zone (v.install (a.slot v) z) = if c = a then z else c.zone v) ∨
    ∃ k, c = a.child k ∧ c.zone (v.install (a.slot v) z) = 0 := by
  have hold : ∀ c, v.Holds c → c.slot (v.install (a.slot v) z) = c.slot v →
      c.zone (v.install (a.slot v) z) = if c = a then z else c.zone v := by
    intro c hc hslot
    unfold Addr.zone
    rw [hslot]
    split_ifs with h
    · rw [h]
      exact get_install_self hv hz
    · exact get_install_of_ne hv ha hz hc h
  induction c with
  | root nr k =>
    have hroot : v.Holds (.root nr k) := ⟨(install_isFile _).symm.trans hc.file, hc.valid, trivial⟩
    exact .inl ⟨hroot, rfl, hold _ hroot rfl⟩
  | child up k ih =>
    rcases ih hc.up with ⟨hup, hslot, hzone⟩ | ⟨_, _, hzero⟩
    · by_cases h : up = a
      · subst h
        rw [if_pos rfl] at hzone
        refine .inr ⟨k, rfl, ?_⟩
        show (v.install (up.slot v) z).get (.entry (up.zone (v.install (up.slot v) z)) k) = 0
        rw [hzone]
        exact get_install_entry ha hz k
      · rw [if_neg h] at hzone
        have hchild : v.Holds (up.child k) :=
          ⟨(install_isFile _).symm.trans hc.file, hc.valid, hup.live, hzone ▸ hc.live.2⟩
        have hslot' : (up.child k).slot (v.install (a.slot v) z) = (up.child k).slot v := by
          show Slot.entry (up.zone (v.install (a.slot v) z)) k = Slot.entry (up.zone v) k
          rw [hzone]
        exact .inl ⟨hchild, hslot', hold _ hchild hslot'⟩
    · exact absurd hzero hc.live.2

theorem Sound.install : (v.install (a.slot v) z).Sound := by
  refine ⟨by simpa using hv.firstdatazone_pos, by simpa using hv.nzones_lt,
    by simpa using hv.zmap_zero, ?_, ?_⟩
  · intro c hc hc0
    rcases holds_install hv ha hz hc with ⟨hc', -, h⟩ | ⟨k, -, h⟩
    · rw [h] at hc0 ⊢
      split_ifs at hc0 ⊢ with hca
      · exact hz.marked.install
      · exact (hv.marked c hc' hc0).install
    · exact absurd h hc0
  · intro c d hc hd hc0 hcd
    rcases holds_install hv ha hz hc with ⟨hc', -, h⟩ | ⟨k, -, h⟩
    · rcases holds_install hv ha hz hd with ⟨hd', -, h'⟩ | ⟨k, -, h'⟩
      · rw [h] at hc0 hcd
        rw [h'] at hcd
        split_ifs at hc0 hcd with hca hda hda
        · exact hca.trans hda.symm
        · exact absurd hcd.symm (hz.unused d hd')
        · exact absurd hcd (hz.unused c hc')
        · exact hv.distinct c d hc' hd' hc0 hcd
      · exact absurd (hcd.trans h') hc0
    · exact absurd h hc0

include ha0

theorem install_holds {c : Addr} (hc : v.Holds c) :
    (v.install (a.slot v) z).Holds c ∧ c.slot (v.install (a.slot v) z) = c.slot v ∧
      c.zone (v.install (a.slot v) z) = if c = a then z else c.zone v := by
  have hget : ∀ b, v.Holds b → b.zone v ≠ 0 →
      (v.install (a.slot v) z).get (b.slot v) = b.zone v := by
    intro b hb hbz
    exact get_install_of_ne hv ha hz hb fun h => hbz (h ▸ ha0)
  obtain ⟨h1, h2⟩ : (v.install (a.slot v) z).Holds c ∧
      c.slot (v.install (a.slot v) z) = c.slot v := hc.keeps install_isFile hget
  refine ⟨h1, h2, ?_⟩
  rcases holds_install hv ha hz h1 with ⟨-, -, h3⟩ | ⟨k, rfl, -⟩
  · exact h3
  · exact absurd ha0 hc.live.2

end Install

end Volume

/-! ## Contents of files -/

namespace Addr

variable {v : Volume} {a : Addr}

theorem Live.of_extend {ks : List ℕ} (h : (a.extend ks).Live v) : a.Live v := by
  induction ks generalizing a with
  | nil => exact h
  | cons k ks ih => exact (ih h).1

theorem Valid.of_extend {ks : List ℕ} (h : (a.extend ks).Valid) : a.Valid := by
  induction ks generalizing a with
  | nil => exact h
  | cons k ks ih =>
    have hchild : (a.child k).Valid := ih h
    exact hchild.1

@[simp] theorem extend_nr {ks : List ℕ} : (a.extend ks).nr = a.nr := by
  induction ks generalizing a with
  | nil => rfl
  | cons k ks ih => exact ih

/-- `_bmap` from a place on reads the zone number in the place it leads to. -/
theorem walk_eq {ks : List ℕ} (h : (a.extend ks).Live v) :
    v.walk (a.slot v) ks = (a.extend ks).zone v := by
  induction ks generalizing a with
  | nil => rfl
  | cons k ks ih =>
    have hchild : (a.child k).Live v := Live.of_extend h
    have hne : v.get (a.slot v) ≠ 0 := hchild.2
    unfold Volume.walk
    rw [if_neg hne]
    exact ih h

end Addr

/-- The place of a block's zone number: it exists in the inode and has no table below it. -/
theorem blockAddr_spec {nr block : ℕ} {a : Addr} (h : blockAddr nr block = some a) :
    a.Valid ∧ a.nr = nr ∧ a.depth = a.levels ∧ a.block = block := by
  unfold blockAddr bmapPath at h
  split_ifs at h with h1 h2 h3
  · cases h
    exact ⟨show block < 9 by omega, rfl, show 0 = block - 6 by omega, rfl⟩
  · cases h
    exact ⟨⟨show 7 < 9 by omega, by omega, show 0 < 7 - 6 by omega⟩, rfl, rfl,
      show 7 + (block - 7) = block by omega⟩
  · generalize hi : (block - 7 - 512) >>> 9 = i at h
    generalize hj : (block - 7 - 512) &&& 511 = j at h
    rw [Nat.shiftRight_eq_div_pow] at hi
    rw [show 511 = 2 ^ 9 - 1 from rfl, Nat.and_two_pow_sub_one_eq_mod] at hj
    cases h
    exact ⟨⟨⟨show 8 < 9 by omega, by omega, show 0 < 8 - 6 by omega⟩, by omega,
      show 1 < 8 - 6 by omega⟩, rfl, rfl, show 7 + 512 + (512 * i + j) = block by omega⟩
  · cases h

theorem blockAddr_inj {nr nr' block block' : ℕ} {a : Addr} (h : blockAddr nr block = some a)
    (h' : blockAddr nr' block' = some a) : nr = nr' ∧ block = block' := by
  obtain ⟨-, hnr, -, hb⟩ := blockAddr_spec h
  obtain ⟨-, hnr', -, hb'⟩ := blockAddr_spec h'
  exact ⟨hnr.symm.trans hnr', hb.symm.trans hb'⟩

namespace Volume

variable {v v' : Volume} {a : Addr} {nr off z : ℕ} {b : Byte}

/-- A zone of the file holds byte `b` at offset `off`. -/
structure Has (v : Volume) (nr off : ℕ) (b : Byte) (a : Addr) : Prop where
  addr : blockAddr nr (off / 1024) = some a
  holds : v.Holds a
  zone : a.zone v ≠ 0
  byte : v.data (a.zone v) (off % 1024) = b

theorem Has.readByte (h : v.Has nr off b a) : v.readByte nr off = some b := by
  have haddr := h.addr
  unfold blockAddr at haddr
  obtain ⟨p, hp, rfl⟩ := Option.map_eq_some_iff.1 haddr
  have hwalk : v.walk (.zone nr p.1) p.2 = ((Addr.root nr p.1).extend p.2).zone v :=
    Addr.walk_eq (a := .root nr p.1) h.holds.live
  unfold Volume.readByte bmap
  rw [hp]
  simp only [Option.map_some, hwalk, if_neg h.zone, h.byte]

/-- No zone number is kept in a data block. -/
theorem Sound.not_in_leaf (hv : v.Sound) {c : Addr} (hc : v.Holds c) (ha : v.Holds a)
    (hleaf : a.depth = a.levels) : ¬ (c.slot v).In (a.zone v) := by
  cases c with
  | root nr k => exact id
  | child up k =>
    intro h
    have heq : up = a := hv.distinct up a hc.up ha hc.live.2 h
    have hlt : up.depth < up.levels := hc.valid.2.2
    rw [heq] at hlt
    omega

/-- What a step of a writer leaves to the others: places and zone numbers, marks, and the bytes but
for those at `W`. -/
structure Grows (v v' : Volume) (W : ℕ → ℕ → Prop) : Prop where
  holds : ∀ a, v.Holds a → v'.Holds a ∧ a.slot v' = a.slot v
  zone : ∀ a, v.Holds a → a.zone v ≠ 0 → a.zone v' = a.zone v
  marked : ∀ z, v.Marked z → v'.Marked z
  has : ∀ nr off b a, ¬ W nr off → v.Has nr off b a → v'.Has nr off b a

theorem Same.grows (h : v.Same v') (hmark : ∀ z, v.Marked z → v'.Marked z)
    {W : ℕ → ℕ → Prop} (hdata : ∀ nr off b a, ¬ W nr off → v.Has nr off b a →
      v'.data (a.zone v) (off % 1024) = v.data (a.zone v) (off % 1024)) : v.Grows v' W where
  holds a ha := ⟨(h.holds a).2 ha, (h.zone a ha).1⟩
  zone a ha _ := (h.zone a ha).2
  marked := hmark
  has nr off b a hW hb := by
    have hz := (h.zone a hb.holds).2
    exact ⟨hb.addr, (h.holds a).2 hb.holds, hz ▸ hb.zone,
      by rw [hz, hdata nr off b a hW hb, hb.byte]⟩

theorem Same.fresh (h : v.Same v') (hmark : ∀ z, v.Marked z → v'.Marked z) (hz : v.Fresh z) :
    v'.Fresh z where
  marked := hmark z hz.marked
  unused a ha := by
    have ha' := (h.holds a).1 ha
    rw [(h.zone a ha').2]
    exact hz.unused a ha'

theorem Takes.grows (h : v.Takes v' z) : v.Grows v' fun _ _ => False :=
  h.same.grows (fun y hy => (h.marked y).2 (.inr hy)) fun nr off b a _ _ => by rw [h.data]

theorem Sound.install_grows (hv : v.Sound) (ha : v.Holds a) (ha0 : a.zone v = 0)
    (hz : v.Fresh z) : v.Grows (v.install (a.slot v) z) fun _ _ => False where
  holds c hc := ⟨(install_holds hv ha ha0 hz hc).1, (install_holds hv ha ha0 hz hc).2.1⟩
  zone c hc hc0 := by
    have hne : c ≠ a := fun h => hc0 (h ▸ ha0)
    rw [(install_holds hv ha ha0 hz hc).2.2, if_neg hne]
  marked y hy := hy.install
  has nr off b c _ hb := by
    have hca : c ≠ a := fun h => hb.zone (h ▸ ha0)
    have hzone : c.zone (v.install (a.slot v) z) = c.zone v := by
      rw [(install_holds hv ha ha0 hz hb.holds).2.2, if_neg hca]
    obtain ⟨-, -, hleaf, -⟩ := blockAddr_spec hb.addr
    have hne : c.zone v ≠ z := hz.unused c hb.holds
    have hdata : (v.install (a.slot v) z).data (c.zone v) = v.data (c.zone v) := by
      unfold Volume.install
      rw [set_data_of_not_in (hv.not_in_leaf ha hb.holds hleaf)]
      show Function.update v.data z _ (c.zone v) = _
      rw [Function.update_of_ne hne]
    exact ⟨hb.addr, (install_holds hv ha ha0 hz hb.holds).1, hzone ▸ hb.zone,
      by rw [hzone, hdata, hb.byte]⟩

/-- What is taken but in no place yet stays so when another zone is installed elsewhere. -/
theorem Sound.install_fresh (hv : v.Sound) (ha : v.Holds a) (hz : v.Fresh z) {y : ℕ}
    (hy : v.Fresh y) (hyz : y ≠ z) : (v.install (a.slot v) z).Fresh y where
  marked := hy.marked.install
  unused c hc := by
    rcases holds_install hv ha hz hc with ⟨hc', -, h⟩ | ⟨k, -, h⟩
    · rw [h]
      split_ifs
      · exact hyz.symm
      · exact hy.unused c hc'
    · rw [h]
      exact (hy.marked.ne_zero hv).symm

/-- `inode->i_size = size`. -/
def setSize (v : Volume) (nr size : ℕ) : Volume :=
  v.setInode nr { v.inode nr with iSize := size }

theorem setSize_same {size : ℕ} : v.Same (v.setSize nr size) := by
  refine .of_get (fun nr' => ?_) fun c _ => ?_
  · by_cases h : nr' = nr
    · subst h; simp [setSize, setInode, Inode.isFile]
    · simp [setSize, setInode, h]
  · unfold Addr.zone
    cases c.slot v with
    | zone nr' k =>
      by_cases h : nr' = nr
      · subst h; simp [get, setSize, setInode]
      · simp [get, setSize, setInode, h]
    | entry block k => rfl

/-- Storing a byte of a data block. -/
theorem Sound.setByte_same (hv : v.Sound) (ha : v.Holds a) (hleaf : a.depth = a.levels) :
    v.Same (v.setByte (a.zone v) off b) :=
  .of_get (fun _ => rfl) fun _ hc => get_setData_of_not_in (hv.not_in_leaf hc ha hleaf)

theorem Sound.setByte (hv : v.Sound) (ha : v.Holds a) (hleaf : a.depth = a.levels) :
    (v.setByte (a.zone v) off b).Sound :=
  hv.of_same (hv.setByte_same ha hleaf) rfl rfl fun _ h => h

theorem Sound.setByte_grows (hv : v.Sound) {block : ℕ} (ha : v.Holds a)
    (haddr : blockAddr nr block = some a) :
    v.Grows (v.setByte (a.zone v) off b) fun nr' off' => nr' = nr ∧ off' = block * 1024 + off := by
  obtain ⟨-, -, hleaf, -⟩ := blockAddr_spec haddr
  refine (hv.setByte_same ha hleaf).grows (fun _ h => ⟨h.first, h.last, h.bit⟩) ?_
  intro nr' off' b' c hW hc
  by_cases hz : c.zone v = a.zone v
  · have heq : c = a := hv.distinct c a hc.holds ha hc.zone hz
    have haddr' := hc.addr
    rw [heq] at haddr'
    obtain ⟨rfl, rfl⟩ := blockAddr_inj haddr haddr'
    have hne : off' % 1024 ≠ off := fun h => hW ⟨rfl, by omega⟩
    show Function.update v.data (a.zone v) _ (c.zone v) _ = _
    rw [hz, Function.update_self, Function.update_of_ne hne]
  · show Function.update v.data (a.zone v) _ (c.zone v) _ = _
    rw [Function.update_of_ne hz]

theorem Sound.setByte_has (hv : v.Sound) {block : ℕ} (ha : v.Holds a) (hz : a.zone v ≠ 0)
    (haddr : blockAddr nr block = some a) (hoff : off < 1024) :
    (v.setByte (a.zone v) off b).Has nr (block * 1024 + off) b a := by
  obtain ⟨-, -, hleaf, -⟩ := blockAddr_spec haddr
  have hsame : v.Same (v.setByte (a.zone v) off b) := hv.setByte_same ha hleaf
  have hzone : a.zone (v.setByte (a.zone v) off b) = a.zone v := (hsame.zone a ha).2
  refine ⟨?_, (hsame.holds a).2 ha, by rwa [hzone], ?_⟩
  · rwa [show (block * 1024 + off) / 1024 = block by omega]
  · rw [hzone, show (block * 1024 + off) % 1024 = off by omega]
    show Function.update v.data (a.zone v) _ (a.zone v) _ = _
    rw [Function.update_self, Function.update_self]

end Volume

end Linux011.Zones
