import Linux011.Fs.File

/-!
# The zone map

`new_block` and `free_block` of `fs/bitmap.c` on a mounted device, with the buffers of its blocks as
`fs/buffer.c` hands them out. One process runs; the search of `getblk` for a free buffer is a
parameter (`Policy`).

1. `Buffer`, `MapBlock`, `Device`.
2. `getHashTable`, `getblk`, `bread`, `brelse`.
3. `findFirstZero`, `freeBlock`, `newBlock`.
4. `searchZmap_least`: the search finds the first clear bit of the map.
5. `newBlock_taken`, `newBlock_padding`, `newBlock_full`: the three ways `new_block` ends.
-/

namespace Linux011.Bitmap

open Linux011.Fs (Byte)

inductive Panic
  /-- "Trying to free free buffer" -/
  | freeBuffer
  /-- "trying to free block not in datazone" -/
  | notInDatazone
  /-- "free_block: bit already cleared" -/
  | alreadyCleared
  /-- "new_block: bit already set" -/
  | alreadySet
  /-- "new block: count is != 1" -/
  | newCount
  /-- "_bmap: block>big" -/
  | blockBig
  /-- A null pointer is followed. -/
  | fault
  deriving DecidableEq

structure Buffer where
  bCount : BitVec 8
  bUptodate : Bool
  bDirt : Bool
  bData : ℕ → Byte

/-- A block of the zone map, its data as 256 words. -/
structure MapBlock where
  words : ℕ → BitVec 32
  bDirt : Bool

structure Device where
  sFirstdatazone : ℕ
  sNzones : ℕ
  /-- `s_zmap`, an array of 8 pointers. -/
  sZmap : ℕ → Option MapBlock
  /-- The buffers that `find_buffer` finds. -/
  hash : ℕ → Option Buffer
  /-- The bytes on the disk. -/
  disk : ℕ → ℕ → Byte
  /-- The blocks whose reading succeeds. -/
  readable : ℕ → Bool

/-- The search of `getblk` through the free list: the block whose buffer it takes, none if that
buffer has no block. It takes buffers only that nobody uses. -/
structure Policy where
  pick : Device → ℕ → Option ℕ
  unused : ∀ d block y x, pick d block = some y → d.hash y = some x → x.bCount = 0

namespace Device

variable (P : Policy) (d : Device)

/-! ## Buffers -/

def setBuffer (block : ℕ) (x : Buffer) : Device :=
  { d with hash := Function.update d.hash block (some x) }

/-- `get_hash_table`. -/
def getHashTable (block : ℕ) : Option (Buffer × Device) :=
  (d.hash block).map fun x =>
    let bh := { x with bCount := x.bCount + 1 }
    (bh, d.setBuffer block bh)

/-- The buffer of block `y` loses its block: `getblk` writes it out first if it is dirty. -/
def evict (y : ℕ) : Device :=
  match d.hash y with
  | none => d
  | some x =>
    { d with
      hash := Function.update d.hash y none
      disk := if x.bDirt then Function.update d.disk y x.bData else d.disk }

/-- What is left in the buffer that `getblk` takes. -/
def stale (y : Option ℕ) : ℕ → Byte :=
  match y.bind d.hash with
  | none => fun _ => 0
  | some x => x.bData

/-- `getblk`. -/
def getblk (block : ℕ) : Buffer × Device :=
  match d.getHashTable block with
  | some r => r
  | none =>
    let y := P.pick d block
    let bh : Buffer := ⟨1, false, false, d.stale y⟩
    (bh, (y.elim d d.evict).setBuffer block bh)

/-- `brelse`. -/
def brelse (block : ℕ) : Except Panic Device :=
  match d.hash block with
  | none => .error .fault
  | some x =>
    if x.bCount = 0 then .error .freeBuffer
    else .ok (d.setBuffer block { x with bCount := x.bCount - 1 })

/-- `bread`: the request for the block clears `b_dirt`. -/
def bread (block : ℕ) : Except Panic (Option Buffer × Device) :=
  let (bh, d') := d.getblk P block
  if bh.bUptodate then .ok (some bh, d')
  else if d'.readable block then
    let bh := { bh with bUptodate := true, bDirt := false, bData := d'.disk block }
    .ok (some bh, d'.setBuffer block bh)
  else
    ((d'.setBuffer block { bh with bDirt := false }).brelse block).map fun d => (none, d)

end Device

/-! ## Bits -/

namespace MapBlock

variable (m : MapBlock)

def bit (j : ℕ) : Bool :=
  (m.words (j / 32)).getLsbD (j % 32)

/-- `btsl`. -/
def setBit (j : ℕ) : MapBlock :=
  { m with words := Function.update m.words (j / 32) (m.words (j / 32) ||| 1#32 <<< (j % 32)) }

/-- `btrl`. -/
def clearBit (j : ℕ) : MapBlock :=
  { m with words := Function.update m.words (j / 32) (m.words (j / 32) &&& ~~~(1#32 <<< (j % 32))) }

/-- `bsfl`: the lowest bit of a word that is set. -/
def bsf (w : BitVec 32) : Option ℕ :=
  (List.range 32).find? fun k => w.getLsbD k

/-- The loop of `find_first_zero`, `n` words before its end. -/
def scanWords : ℕ → ℕ → ℕ
  | 0, cx => cx
  | n + 1, cx =>
    match bsf (~~~m.words (cx / 32)) with
    | some dx => cx + dx
    | none => scanWords n (cx + 32)

def findFirstZero : ℕ :=
  m.scanWords 256 0

end MapBlock

namespace Device

variable (P : Policy) (d : Device)

/-- A bit of the zone map, none where it has no block. -/
def zoneBit (b : ℕ) : Option Bool :=
  (d.sZmap (b / 8192)).map fun m => m.bit (b % 8192)

def setMap (i : ℕ) (m : MapBlock) : Device :=
  { d with sZmap := Function.update d.sZmap i (some m) }

/-! ## `free_block` and `new_block` -/

/-- The bit of a zone. -/
def bitOf (block : ℕ) : ℕ :=
  block + 1 - d.sFirstdatazone

/-- `free_block` after the block's buffer: the bit is cleared. -/
def clearZone (block : ℕ) : Except Panic Device :=
  match d.sZmap (d.bitOf block / 8192) with
  | none => .error .fault
  | some m =>
    if m.bit (d.bitOf block % 8192) = false then .error .alreadyCleared
    else
      .ok (d.setMap (d.bitOf block / 8192) { m.clearBit (d.bitOf block % 8192) with bDirt := true })

def freeBlock (block : ℕ) : Except Panic Device :=
  if block < d.sFirstdatazone ∨ d.sNzones ≤ block then .error .notInDatazone
  else
    match d.getHashTable block with
    | none => d.clearZone block
    | some (bh, d) =>
      -- it returns without releasing the buffer
      if bh.bCount ≠ 1 then .ok d
      else do
        let d ← (d.setBuffer block { bh with bDirt := false, bUptodate := false }).brelse block
        d.clearZone block

/-- The loop of `new_block` over the zone map, from block `i` on: the map block and the bit in it. -/
def searchZmap : ℕ → ℕ → Option (ℕ × MapBlock × ℕ)
  | 0, _ => none
  | n + 1, i =>
    match d.sZmap i with
    | none => searchZmap n (i + 1)
    | some m =>
      if m.findFirstZero < 8192 then some (i, m, m.findFirstZero) else searchZmap n (i + 1)

/-- `new_block` from `getblk` on. -/
def zeroBlock (j : ℕ) : Except Panic (ℕ × Device) :=
  let (bh, d) := d.getblk P j
  if bh.bCount ≠ 1 then .error .newCount
  else do
    let d ← (d.setBuffer j { bh with bData := fun _ => 0, bUptodate := true, bDirt := true }).brelse j
    return (j, d)

def newBlock : Except Panic (ℕ × Device) :=
  match d.searchZmap 8 0 with
  | none => .ok (0, d)
  | some (i, m, j) =>
    if m.bit j = true then .error .alreadySet
    else
      let d := d.setMap i { m.setBit j with bDirt := true }
      let j := j + (i * 8192 + d.sFirstdatazone) - 1
      if d.sNzones ≤ j then .ok (0, d) else d.zeroBlock P j

end Device

/-! ## The bits of a word -/

namespace MapBlock

variable {m : MapBlock} {j k : ℕ}

theorem getLsbD_one_shift (hk : k < 32) :
    (1#32 <<< j).getLsbD k = decide (k = j) := by
  rw [BitVec.getLsbD_shiftLeft, BitVec.getLsbD_one]
  by_cases h : k < j
  · simp [h, h.ne]
  · have hsub : k - j = 0 ↔ k = j := by omega
    simp [h, hk, hsub]

theorem word_ne (h : k ≠ j) (hw : k / 32 = j / 32) : k % 32 ≠ j % 32 := by
  omega

theorem bit_setBit : (m.setBit j).bit k = if k = j then true else m.bit k := by
  have hk : k % 32 < 32 := Nat.mod_lt _ (by decide)
  unfold bit setBit
  dsimp only
  by_cases hw : k / 32 = j / 32
  · rw [hw, Function.update_self, BitVec.getLsbD_or, getLsbD_one_shift hk]
    split_ifs with h
    · simp [h]
    · simp [word_ne h hw]
  · have hne : k ≠ j := fun h => hw (by rw [h])
    rw [Function.update_of_ne hw, if_neg hne]

theorem bit_clearBit : (m.clearBit j).bit k = if k = j then false else m.bit k := by
  have hk : k % 32 < 32 := Nat.mod_lt _ (by decide)
  unfold bit clearBit
  dsimp only
  by_cases hw : k / 32 = j / 32
  · rw [hw, Function.update_self, BitVec.getLsbD_and, BitVec.getLsbD_not, getLsbD_one_shift hk]
    split_ifs with h
    · simp [h]
    · simp [word_ne h hw, hk]
  · have hne : k ≠ j := fun h => hw (by rw [h])
    rw [Function.update_of_ne hw, if_neg hne]

theorem bsf_some {w : BitVec 32} (h : bsf w = some k) :
    k < 32 ∧ w.getLsbD k = true ∧ ∀ i < k, w.getLsbD i = false := by
  obtain ⟨hk, hmem, hlow⟩ := List.find?_range_eq_some.1 h
  refine ⟨List.mem_range.1 hmem, hk, fun i hi => ?_⟩
  simpa using hlow i hi

theorem bsf_none {w : BitVec 32} (h : bsf w = none) (hk : k < 32) : w.getLsbD k = false := by
  have hlow := List.find?_range_eq_none.1 h
  simpa using hlow k hk

/-! ## The first clear bit -/

/-- From `cx` on the scan of `n` words stops at the first clear bit. -/
theorem scanWords_spec (n cx : ℕ) (hcx : cx % 32 = 0) :
    m.scanWords n cx ≤ cx + 32 * n ∧
      (m.scanWords n cx < cx + 32 * n → m.bit (m.scanWords n cx) = false) ∧
      ∀ k, cx ≤ k → k < m.scanWords n cx → m.bit k = true := by
  induction n generalizing cx with
  | zero => exact ⟨le_rfl, fun h => absurd h (lt_irrefl _), fun k h h' => absurd h' (by simp [scanWords, h])⟩
  | succ n ih =>
    have hin : ∀ i < 32, (~~~m.words (cx / 32)).getLsbD i = !m.bit (cx + i) := by
      intro i hi
      unfold bit
      rw [show (cx + i) / 32 = cx / 32 by omega, show (cx + i) % 32 = i by omega, BitVec.getLsbD_not]
      simp [hi]
    unfold scanWords
    cases h : bsf (~~~m.words (cx / 32)) with
    | some dx =>
      obtain ⟨hdx, hbit, hlow⟩ := bsf_some h
      refine ⟨by dsimp only; omega, fun _ => ?_, fun k h1 h2 => ?_⟩
      · simpa [hin dx hdx] using hbit
      · dsimp only at h2
        have hk := hlow (k - cx) (by omega)
        rw [hin (k - cx) (by omega), show cx + (k - cx) = k by omega] at hk
        simpa using hk
    | none =>
      obtain ⟨hle, hlt, hall⟩ := ih (cx + 32) (by omega)
      refine ⟨by dsimp only; omega, fun h' => hlt (by dsimp only at h'; omega), fun k h1 h2 => ?_⟩
      by_cases hk : k < cx + 32
      · have hb := bsf_none h (k := k - cx) (by omega)
        rw [hin (k - cx) (by omega), show cx + (k - cx) = k by omega] at hb
        simpa using hb
      · exact hall k (by omega) h2

theorem bit_findFirstZero (h : m.findFirstZero < 8192) : m.bit m.findFirstZero = false :=
  (scanWords_spec (m := m) 256 0 rfl).2.1 h

theorem bit_of_lt_findFirstZero (h : k < m.findFirstZero) : m.bit k = true :=
  (scanWords_spec (m := m) 256 0 rfl).2.2 k (Nat.zero_le _) h

end MapBlock

namespace Device

variable {P : Policy} {d : Device} {i j b : ℕ} {m : MapBlock}

theorem zoneBit_of (h : d.sZmap (b / 8192) = some m) : d.zoneBit b = some (m.bit (b % 8192)) := by
  unfold zoneBit
  rw [h]
  rfl

/-- What the loop of `new_block` returns is the first clear bit of the map blocks it looks at. -/
theorem searchZmap_some {n : ℕ} (h : d.searchZmap n i = some (b, m, j)) :
    i ≤ b ∧ b < i + n ∧ d.sZmap b = some m ∧ j < 8192 ∧ m.bit j = false ∧
      ∀ k, i * 8192 ≤ k → k < b * 8192 + j → d.zoneBit k ≠ some false := by
  induction n generalizing i with
  | zero => cases h
  | succ n ih =>
    -- when block `i` has no clear bit, the search goes on behind it
    have hnext : d.searchZmap n (i + 1) = some (b, m, j) →
        (∀ k, i * 8192 ≤ k → k < (i + 1) * 8192 → d.zoneBit k ≠ some false) →
        i ≤ b ∧ b < i + (n + 1) ∧ d.sZmap b = some m ∧ j < 8192 ∧ m.bit j = false ∧
          ∀ k, i * 8192 ≤ k → k < b * 8192 + j → d.zoneBit k ≠ some false := by
      intro hrest hskip
      obtain ⟨h1, h2, h3, h4, h5, h6⟩ := ih hrest
      refine ⟨by omega, by omega, h3, h4, h5, fun k hk hk' => ?_⟩
      by_cases hlt : k < (i + 1) * 8192
      · exact hskip k hk hlt
      · exact h6 k (not_lt.1 hlt) hk'
    unfold searchZmap at h
    cases hmap : d.sZmap i with
    | none =>
      rw [hmap] at h
      refine hnext h fun k hk hk' hbit => ?_
      unfold zoneBit at hbit
      rw [show k / 8192 = i by omega, hmap] at hbit
      cases hbit
    | some m' =>
      rw [hmap] at h
      dsimp only at h
      split_ifs at h with hlt
      · cases h
        refine ⟨le_rfl, by omega, hmap, hlt, m.bit_findFirstZero hlt, fun k hk hk' hbit => ?_⟩
        rw [zoneBit_of (by rw [show k / 8192 = b by omega]; exact hmap)] at hbit
        have hk8 : k % 8192 < m.findFirstZero := by omega
        rw [m.bit_of_lt_findFirstZero hk8] at hbit
        cases hbit
      · refine hnext h fun k hk hk' hbit => ?_
        rw [zoneBit_of (by rw [show k / 8192 = i by omega]; exact hmap)] at hbit
        have hk8 : k % 8192 < m'.findFirstZero := by omega
        rw [m'.bit_of_lt_findFirstZero hk8] at hbit
        cases hbit

theorem searchZmap_none {n : ℕ} (h : d.searchZmap n i = none) (hb : i * 8192 ≤ b)
    (hb' : b < (i + n) * 8192) : d.zoneBit b ≠ some false := by
  induction n generalizing i with
  | zero => omega
  | succ n ih =>
    unfold searchZmap at h
    by_cases hlt : b < (i + 1) * 8192
    · have hi : b / 8192 = i := by omega
      cases hmap : d.sZmap i with
      | none =>
        unfold zoneBit
        rw [hi, hmap]
        exact Option.some_ne_none _ ∘ Eq.symm
      | some m =>
        rw [hmap] at h
        dsimp only at h
        split_ifs at h with hz
        rw [zoneBit_of (hi.symm ▸ hmap), m.bit_of_lt_findFirstZero (by omega)]
        decide
    · have hrest : d.searchZmap n (i + 1) = none := by
        cases hmap : d.sZmap i with
        | none => rwa [hmap] at h
        | some m =>
          rw [hmap] at h
          dsimp only at h
          split_ifs at h
          exact h
      exact ih hrest (not_lt.1 hlt) (by rwa [show i + 1 + n = i + (n + 1) by omega])

/-! ## Single calls -/

/-- What `read_super` leaves of the zone map: its first bit is set, and behind the array there are
no blocks. -/
structure Mounted (d : Device) : Prop where
  maps : ∀ i, 8 ≤ i → d.sZmap i = none
  zero : d.zoneBit 0 = some true

/-- A zone of the device whose bit is clear. -/
structure Free (d : Device) (z : ℕ) : Prop where
  first : d.sFirstdatazone ≤ z
  last : z < d.sNzones
  clear : d.zoneBit (d.bitOf z) = some false

/-- Nobody uses the block's buffer. -/
def Unused (d : Device) (block : ℕ) : Prop :=
  ∀ x, d.hash block = some x → x.bCount = 0

theorem zoneBit_setMap (m' : MapBlock) :
    (d.setMap i m').zoneBit b = if b / 8192 = i then some (m'.bit (b % 8192)) else d.zoneBit b := by
  unfold zoneBit setMap
  dsimp only
  split_ifs with h
  · rw [h, Function.update_self]
    rfl
  · rw [Function.update_of_ne h]

theorem zoneBit_setBit (h : d.sZmap i = some m) (hj : j < 8192) :
    (d.setMap i { m.setBit j with bDirt := true }).zoneBit b =
      if b = i * 8192 + j then some true else d.zoneBit b := by
  rw [zoneBit_setMap]
  by_cases hi : b / 8192 = i
  · have hb : b % 8192 = j ↔ b = i * 8192 + j := by omega
    have hbit : ({ m.setBit j with bDirt := true } : MapBlock).bit (b % 8192) =
        if b % 8192 = j then true else m.bit (b % 8192) := MapBlock.bit_setBit
    rw [if_pos hi, hbit, zoneBit_of (hi.symm ▸ h)]
    simp only [hb]
    split_ifs <;> rfl
  · have hne : b ≠ i * 8192 + j := by omega
    rw [if_neg hi, if_neg hne]

theorem zoneBit_clearBit (h : d.sZmap (j / 8192) = some m) :
    (d.setMap (j / 8192) { m.clearBit (j % 8192) with bDirt := true }).zoneBit b =
      if b = j then some false else d.zoneBit b := by
  rw [zoneBit_setMap]
  by_cases hi : b / 8192 = j / 8192
  · have hb : b % 8192 = j % 8192 ↔ b = j := by omega
    have hbit : ({ m.clearBit (j % 8192) with bDirt := true } : MapBlock).bit (b % 8192) =
        if b % 8192 = j % 8192 then false else m.bit (b % 8192) := MapBlock.bit_clearBit
    rw [if_pos hi, hbit, zoneBit_of (hi ▸ h)]
    simp only [hb]
    split_ifs <;> rfl
  · have hne : b ≠ j := fun h => hi (by rw [h])
    rw [if_neg hi, if_neg hne]

/-- What `free_block` does to the device. -/
structure Frees (d d' : Device) (z : ℕ) : Prop where
  bits : ∀ b, d'.zoneBit b = if b = d.bitOf z then some false else d.zoneBit b
  hash : d'.hash = Function.update d.hash z
    ((d.hash z).map fun x => { x with bDirt := false, bUptodate := false })
  disk : d'.disk = d.disk
  readable : d'.readable = d.readable
  firstdatazone : d'.sFirstdatazone = d.sFirstdatazone
  nzones : d'.sNzones = d.sNzones

theorem clearZone_ok {z : ℕ} (hbit : d.zoneBit (d.bitOf z) = some true) :
    ∃ map, d.clearZone z = .ok { d with sZmap := map } ∧
      ∀ b, { d with sZmap := map }.zoneBit b =
        if b = d.bitOf z then some false else d.zoneBit b := by
  obtain ⟨m, hm, hset⟩ := Option.map_eq_some_iff.1 hbit
  refine ⟨_, ?_, fun b => zoneBit_clearBit hm⟩
  unfold clearZone
  rw [hm]
  simp [hset, setMap]

/-- `free_block` of a marked zone whose buffer nobody uses. -/
theorem freeBlock_ok {z : ℕ} (hfirst : d.sFirstdatazone ≤ z) (hlast : z < d.sNzones)
    (hbit : d.zoneBit (d.bitOf z) = some true) (hun : d.Unused z) :
    ∃ d', d.freeBlock z = .ok d' ∧ d.Frees d' z := by
  have hrange : ¬ (z < d.sFirstdatazone ∨ d.sNzones ≤ z) := by omega
  unfold freeBlock getHashTable
  rw [if_neg hrange]
  cases hx : d.hash z with
  | none =>
    obtain ⟨map, hok, hbits⟩ := clearZone_ok hbit
    refine ⟨_, hok, hbits, ?_, rfl, rfl, rfl, rfl⟩
    rw [hx, Option.map_none, ← hx, Function.update_eq_self]
  | some x =>
    have hc : x.bCount = 0 := hun x hx
    have hone : x.bCount + 1 = 1 := by rw [hc]; rfl
    -- the count goes up to one and down again
    have hrel : ((d.setBuffer z { x with bCount := 1 }).setBuffer z
        { x with bCount := 1, bDirt := false, bUptodate := false }).brelse z =
        .ok (d.setBuffer z { x with bDirt := false, bUptodate := false }) := by
      unfold brelse setBuffer
      simp [hc]
    obtain ⟨map, hok, hbits⟩ := clearZone_ok (z := z)
      (d := d.setBuffer z { x with bDirt := false, bUptodate := false }) hbit
    refine ⟨_, ?_, hbits, ?_, rfl, rfl, rfl, rfl⟩
    · simp only [Option.map_some, hone, ne_eq, not_true_eq_false, if_false, hrel]
      exact hok
    · rw [hx]
      rfl

/-- `getblk` changes buffers and writes to the disk only. -/
theorem getblk_frame (block : ℕ) :
    ∃ hash disk, (d.getblk P block).2 = { d with hash := hash, disk := disk } := by
  unfold getblk getHashTable
  cases d.hash block with
  | some x => exact ⟨_, d.disk, rfl⟩
  | none =>
    cases P.pick d block with
    | none => exact ⟨_, d.disk, rfl⟩
    | some y =>
      simp only [Option.map_none, Option.elim_some]
      unfold evict
      cases d.hash y with
      | none => exact ⟨_, d.disk, rfl⟩
      | some x => exact ⟨_, _, rfl⟩

/-- The buffer is in the hash table with what `getblk` returned. -/
theorem getblk_hash (block : ℕ) :
    (d.getblk P block).2.hash block = some (d.getblk P block).1 := by
  unfold getblk getHashTable
  cases d.hash block with
  | some x => exact Function.update_self ..
  | none => exact Function.update_self ..

theorem getblk_count {block : ℕ} (h : d.Unused block) : (d.getblk P block).1.bCount = 1 := by
  unfold getblk getHashTable
  cases hx : d.hash block with
  | some x =>
    show x.bCount + 1 = 1
    rw [h x hx]
    rfl
  | none => rfl

/-- The end of `new_block`: the zone's buffer is zeroed, up to date and dirty. -/
theorem zeroBlock_ok (h : d.Unused j) :
    ∃ hash disk, d.zeroBlock P j = .ok (j, { d with hash := hash, disk := disk }) ∧
      hash j = some ⟨0, true, true, fun _ => 0⟩ := by
  obtain ⟨hash, disk, hframe⟩ := getblk_frame (P := P) (d := d) j
  have hc : (d.getblk P j).1.bCount = 1 := getblk_count h
  unfold zeroBlock
  rcases hr : d.getblk P j with ⟨bh, d'⟩
  rw [hr] at hframe hc
  dsimp only at hframe hc ⊢
  subst hframe
  refine ⟨Function.update hash j (some ⟨0, true, true, fun _ => 0⟩), disk, ?_,
    Function.update_self ..⟩
  simp [hc, brelse, setBuffer, Bind.bind, Except.bind, pure, Except.pure]

/-! ## The ways `new_block` ends -/

/-- The zone map has the same bits. -/
def SameMap (d d' : Device) : Prop :=
  ∀ b, d'.zoneBit b = d.zoneBit b

/-- A zone was free and is marked now, with a buffer of zeros to be written. -/
structure Takes (d d' : Device) (z : ℕ) : Prop where
  free : d.Free z
  bits : ∀ b, d'.zoneBit b = if b = d.bitOf z then some true else d.zoneBit b
  buffer : d'.hash z = some ⟨0, true, true, fun _ => 0⟩
  back : ∃ d'', d'.freeBlock z = .ok d'' ∧ d.SameMap d''

/-- The claim of `new_block`: it takes a free zone, or there is none and the map stays. -/
def Allocates (d d' : Device) (z : ℕ) : Prop :=
  d.Takes d' z ∨ z = 0 ∧ (∀ y, ¬ d.Free y) ∧ d.SameMap d'

theorem Mounted.zoneBit_none (hd : d.Mounted) (hb : 8 * 8192 ≤ b) : d.zoneBit b = none := by
  unfold zoneBit
  rw [hd.maps (b / 8192) (by omega)]
  rfl

/-- The first clear bit belongs to a zone that is free, or behind the last one. -/
theorem Mounted.search (hd : d.Mounted) (h : d.searchZmap 8 0 = some (i, m, j)) :
    d.sZmap i = some m ∧ j < 8192 ∧ m.bit j = false ∧ 0 < i * 8192 + j ∧
      d.zoneBit (i * 8192 + j) = some false ∧
      ∀ y, d.Free y → j + (i * 8192 + d.sFirstdatazone) - 1 ≤ y := by
  obtain ⟨-, -, hm, hj, hbit, hlow⟩ := searchZmap_some h
  have hclear : d.zoneBit (i * 8192 + j) = some false := by
    rw [zoneBit_of (by rw [show (i * 8192 + j) / 8192 = i by omega]; exact hm),
      show (i * 8192 + j) % 8192 = j by omega, hbit]
  refine ⟨hm, hj, hbit, ?_, hclear, fun y hy => ?_⟩
  · by_contra h0
    rw [show i * 8192 + j = 0 by omega, hd.zero] at hclear
    cases hclear
  · by_contra hlt
    have hfirst := hy.first
    refine hlow (d.bitOf y) (by rw [Nat.zero_mul]; exact Nat.zero_le _) ?_ hy.clear
    unfold bitOf
    omega

/-- The zone of the first clear bit is in range: `new_block` takes it. -/
theorem newBlock_taken (hd : d.Mounted) (hun : ∀ z, d.Free z → d.Unused z)
    (h : d.searchZmap 8 0 = some (i, m, j))
    (hlt : j + (i * 8192 + d.sFirstdatazone) - 1 < d.sNzones) :
    ∃ z d', d.newBlock P = .ok (z, d') ∧ d.Takes d' z := by
  obtain ⟨hm, hj, hbit, hpos, hclear, -⟩ := hd.search h
  obtain ⟨z, hz⟩ : ∃ z, z = j + (i * 8192 + d.sFirstdatazone) - 1 := ⟨_, rfl⟩
  have hbz : d.bitOf z = i * 8192 + j := by unfold bitOf; omega
  have hfree : d.Free z := ⟨by omega, by omega, hbz ▸ hclear⟩
  obtain ⟨d₁, hd₁⟩ : ∃ d₁, d₁ = d.setMap i { m.setBit j with bDirt := true } := ⟨_, rfl⟩
  have hbits : ∀ b, d₁.zoneBit b = if b = i * 8192 + j then some true else d.zoneBit b := by
    intro b
    rw [hd₁]
    exact zoneBit_setBit hm hj
  obtain ⟨hash, disk, hok, hbuf⟩ := zeroBlock_ok (P := P) (d := d₁) (j := z)
    (by rw [hd₁]; exact hun z hfree)
  have hfirst : d₁.sFirstdatazone = d.sFirstdatazone := by rw [hd₁]; rfl
  have hnz : d₁.sNzones = d.sNzones := by rw [hd₁]; rfl
  obtain ⟨d₂, hd₂⟩ : ∃ d₂ : Device, d₂ = { d₁ with hash := hash, disk := disk } := ⟨_, rfl⟩
  rw [← hd₂] at hok
  have hbits₂ : ∀ b, d₂.zoneBit b = if b = d.bitOf z then some true else d.zoneBit b := by
    intro b
    rw [hd₂, hbz]
    exact hbits b
  have hbit₂ : d₂.bitOf z = d.bitOf z := by rw [hd₂]; unfold bitOf; rw [hfirst]
  have hbuf₂ : d₂.hash z = some ⟨0, true, true, fun _ => 0⟩ := by rw [hd₂]; exact hbuf
  obtain ⟨d₃, hfok, hfr⟩ := freeBlock_ok (d := d₂) (z := z)
    (by rw [hd₂]; exact hfirst ▸ hfree.first) (by rw [hd₂]; exact hnz ▸ hfree.last)
    (by rw [hbits₂, hbit₂, if_pos rfl])
    (by intro x hx; rw [hbuf₂] at hx; cases hx; rfl)
  refine ⟨z, d₂, ?_, hfree, hbits₂, hbuf₂, d₃, hfok, fun b => ?_⟩
  · unfold newBlock
    rw [h]
    simp only [hbit, Bool.false_eq_true, if_false]
    rw [← hd₁, hfirst, hnz, ← hz, if_neg (by omega)]
    exact hok
  · rw [hfr.bits, hbits₂, hbit₂]
    split_ifs with hb
    · rw [hb, hbz, hclear]
    · rfl

/-- The first clear bit has no zone: `new_block` fails, and the bit stays set. -/
theorem newBlock_padding (hd : d.Mounted) (h : d.searchZmap 8 0 = some (i, m, j))
    (hle : d.sNzones ≤ j + (i * 8192 + d.sFirstdatazone) - 1) :
    ∃ d', d.newBlock P = .ok (0, d') ∧ (∀ y, ¬ d.Free y) ∧
      d.zoneBit (i * 8192 + j) = some false ∧ d'.zoneBit (i * 8192 + j) = some true := by
  obtain ⟨hm, hj, hbit, -, hclear, hleast⟩ := hd.search h
  refine ⟨d.setMap i { m.setBit j with bDirt := true }, ?_, fun y hy => ?_, hclear, ?_⟩
  · unfold newBlock
    rw [h]
    simp only [hbit, Bool.false_eq_true, if_false]
    exact if_pos hle
  · have := hleast y hy
    have := hy.last
    omega
  · rw [zoneBit_setBit hm hj, if_pos rfl]

/-- No bit is clear: `new_block` fails. -/
theorem newBlock_full (hd : d.Mounted) (h : d.searchZmap 8 0 = none) :
    d.newBlock P = .ok (0, d) ∧ ∀ b, d.zoneBit b ≠ some false := by
  constructor
  · unfold newBlock
    rw [h]
  · intro b
    by_cases hb : b < (0 + 8) * 8192
    · exact searchZmap_none h (by omega) hb
    · rw [hd.zoneBit_none (by omega)]
      exact Option.some_ne_none _ ∘ Eq.symm

/-- `new_block` does what it is for exactly when a zone in range is free or no bit of the map is
clear. -/
theorem newBlock_allocates_iff (P : Policy) (d : Device) (hd : d.Mounted)
    (hun : ∀ z, d.Free z → d.Unused z) :
    (∃ z d', d.newBlock P = .ok (z, d') ∧ d.Allocates d' z) ↔
      (∃ z, d.Free z) ∨ ∀ b, d.zoneBit b ≠ some false := by
  rcases h : d.searchZmap 8 0 with _ | ⟨i, m, j⟩
  · obtain ⟨hok, hfull⟩ := newBlock_full (P := P) hd h
    have hnone : ∀ y, ¬ d.Free y := fun y hy => hfull _ hy.clear
    exact ⟨fun _ => .inr hfull, fun _ => ⟨0, d, hok, .inr ⟨rfl, hnone, fun _ => rfl⟩⟩⟩
  · by_cases hlt : j + (i * 8192 + d.sFirstdatazone) - 1 < d.sNzones
    · obtain ⟨z, d', hok, ht⟩ := newBlock_taken (P := P) hd hun h hlt
      exact ⟨fun _ => .inl ⟨z, ht.free⟩, fun _ => ⟨z, d', hok, .inl ht⟩⟩
    · obtain ⟨d', hok, hnone, hclear, hset⟩ := newBlock_padding (P := P) hd h (not_lt.1 hlt)
      constructor
      · rintro ⟨z, d'', hok', ht | ⟨-, -, hsame⟩⟩
        · exact absurd ht.free (hnone z)
        · rw [hok] at hok'
          cases hok'
          rw [hsame, hclear] at hset
          cases hset
      · rintro (⟨z, hz⟩ | hfull)
        · exact absurd hz (hnone z)
        · exact absurd hclear (hfull _)

/-! ## Small devices -/

/-- `getblk` finds buffers that have no block yet. -/
def fresh : Policy where
  pick _ _ := none
  unused _ _ _ _ h := by cases h

/-- Zones 1 and 2, and a zone map of one block that begins with the word `w`. -/
def small (w : BitVec 32) : Device where
  sFirstdatazone := 1
  sNzones := 3
  sZmap i := if i = 0 then some ⟨fun k => if k = 0 then w else 0, false⟩ else none
  hash _ := none
  disk _ _ := 0
  readable _ := true

theorem small_mounted {w : BitVec 32} (h : w.getLsbD 0 = true) : (small w).Mounted where
  maps i hi := if_neg (by omega)
  zero := congrArg some h

theorem small_unused {w : BitVec 32} (z : ℕ) : (small w).Unused z := by
  intro x h
  cases h

/-- With zone 1 marked and zone 2 clear `new_block` takes zone 2. -/
theorem small_allocates :
    ∃ z d', (small 3).newBlock fresh = .ok (z, d') ∧ (small 3).Allocates d' z :=
  (newBlock_allocates_iff fresh (small 3) (small_mounted rfl) fun z _ => small_unused z).2
    (.inl ⟨2, by decide, by decide, by decide⟩)

/-- Both zones are marked: `new_block` fails and has set the bit behind them. -/
theorem small_full :
    (small 7).Mounted ∧ (∀ z, (small 7).Free z → (small 7).Unused z) ∧
      ¬ ∃ z d', (small 7).newBlock fresh = .ok (z, d') ∧ (small 7).Allocates d' z := by
  have hrun : ((small 7).newBlock fresh).map (fun r => (r.1, r.2.zoneBit 3)) = .ok (0, some true) := by
    decide
  refine ⟨small_mounted rfl, fun z _ => small_unused z, ?_⟩
  rintro ⟨z, d', hok, ht | ⟨-, -, hsame⟩⟩
  · have h1 : 1 ≤ z := ht.free.first
    have h3 : z < 3 := ht.free.last
    have hclear := ht.free.clear
    obtain rfl | rfl : z = 1 ∨ z = 2 := by omega
    · cases hclear
    · cases hclear
  · rw [hok] at hrun
    have hbit : d'.zoneBit 3 = some true := congrArg Prod.snd (Except.ok.inj hrun)
    rw [hsame] at hbit
    cases hbit

end Device

end Linux011.Bitmap
