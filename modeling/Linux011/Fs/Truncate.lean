import Linux011.Fs.Bitmap

/-!
# Truncating a file

`fs/truncate.c` and `_bmap` of `fs/inode.c` over the device of `Fs.Bitmap`.

1. `freeTable`: `free_ind` frees the zones of a table and the table, `free_dind` does so with
   `free_ind` for the zones. `truncate`, `bmap`.
2. `Device.tree`: the zones that are reachable from a zone number, tables after what they hold.
3. `Keeps`: a call leaves the buffers of other blocks as they are, or writes them out and drops them.
   `Freed`: a list of zones has been freed.
4. `Clears.table`: if a function frees trees of one depth, `freeTable` with it frees those of the
   next.
-/

namespace Linux011.Bitmap

open Linux011.Fs (Byte)

structure Inode where
  iMode : BitVec 16
  /-- `i_zone`, unsigned shorts. -/
  iZone : ℕ → ℕ
  iSize : ℕ
  iDirt : Bool
  iMtime : ℕ
  iCtime : ℕ

/-- `((unsigned short *) bh->b_data)[k]`. -/
def entry (data : ℕ → Byte) (k : ℕ) : ℕ :=
  (data (2 * k)).toNat + 256 * (data (2 * k + 1)).toNat

namespace Device

variable (P : Policy)

/-! ## `truncate` -/

section Free

variable (free : Device → ℕ → Except Panic Device)

/-- `if (*p) free(dev, *p)`. -/
def freeSlot (d : Device) (z : ℕ) : Except Panic Device :=
  if z ≠ 0 then free d z else .ok d

/-- The loop over the table in the buffer of `block`, from entry `i` on, `n` entries before its
end. -/
def freeEntries (block : ℕ) : ℕ → ℕ → Device → Except Panic Device
  | 0, _, d => .ok d
  | n + 1, i, d => do
    let d ← freeSlot free d ((d.hash block).elim 0 fun bh => entry bh.bData i)
    freeEntries block n (i + 1) d

/-- `free_ind` and `free_dind`. A table that cannot be read is freed alone. -/
def freeTable (d : Device) (block : ℕ) : Except Panic Device :=
  if block = 0 then .ok d
  else do
    let (bh, d) ← d.bread P block
    match bh with
    | none => d.freeBlock block
    | some _ =>
      let d ← freeEntries free block 512 0 d
      let d ← d.brelse block
      d.freeBlock block

end Free

def freeInd : Device → ℕ → Except Panic Device :=
  freeTable P freeBlock

def freeDind : Device → ℕ → Except Panic Device :=
  freeTable P (freeInd P)

/-- The loop of `truncate` over the first zones, from `k` on. -/
def freeDirect : ℕ → ℕ → Inode → Device → Except Panic (Inode × Device)
  | 0, _, inode, d => .ok (inode, d)
  | n + 1, k, inode, d =>
    if inode.iZone k ≠ 0 then do
      let d ← d.freeBlock (inode.iZone k)
      freeDirect n (k + 1) { inode with iZone := Function.update inode.iZone k 0 } d
    else freeDirect n (k + 1) inode d

def truncate (now : ℕ) (inode : Inode) (d : Device) : Except Panic (Inode × Device) :=
  if ¬ (Fs.isReg inode.iMode || Fs.isDir inode.iMode) then .ok (inode, d)
  else do
    let (inode, d) ← freeDirect 7 0 inode d
    let d ← d.freeInd P (inode.iZone 7)
    let d ← d.freeDind P (inode.iZone 8)
    return ({ inode with
      iZone := Function.update (Function.update inode.iZone 7 0) 8 0
      iSize := 0
      iDirt := true
      iMtime := now
      iCtime := now }, d)

/-! ## `bmap` -/

variable (d : Device)

/-- `_bmap` with a table: the entry, 0 if the table cannot be read. -/
def readEntry (block k : ℕ) : Except Panic (ℕ × Device) := do
  let (bh, d) ← d.bread P block
  match bh with
  | none => return (0, d)
  | some bh =>
    let d ← d.brelse block
    return (entry bh.bData k, d)

/-- `bmap`. -/
def bmap (inode : Inode) (block : ℕ) : Except Panic (ℕ × Device) :=
  if block ≥ 7 + 512 + 512 * 512 then .error .blockBig
  else if block < 7 then .ok (inode.iZone block, d)
  else if block - 7 < 512 then
    if inode.iZone 7 = 0 then .ok (0, d) else d.readEntry P (inode.iZone 7) (block - 7)
  else
    let block := block - 7 - 512
    if inode.iZone 8 = 0 then .ok (0, d)
    else do
      let (i, d) ← d.readEntry P (inode.iZone 8) (block >>> 9)
      if i = 0 then return (0, d) else d.readEntry P i (block &&& 511)

/-! ## Zones of a file -/

/-- What a block holds: what `bread` gives. -/
def content (block : ℕ) : ℕ → Byte :=
  match d.hash block with
  | none => d.disk block
  | some x => if x.bUptodate then x.bData else d.disk block

/-- The zones reachable from zone number `z` with `n` tables above the data. -/
def tree : ℕ → ℕ → List ℕ
  | 0, z => if z = 0 then [] else [z]
  | n + 1, z =>
    if z = 0 then []
    else ((List.range 512).flatMap fun k => tree n (entry (d.content z) k)) ++ [z]

/-- The zones of a file, in the order in which `truncate` frees them. -/
def zones (inode : Inode) : List ℕ :=
  ((List.range 7).flatMap fun k => d.tree 0 (inode.iZone k)) ++
    (d.tree 1 (inode.iZone 7) ++ d.tree 2 (inode.iZone 8))

/-- The zone is in range and marked. -/
structure Marked (z : ℕ) : Prop where
  first : d.sFirstdatazone ≤ z
  last : z < d.sNzones
  bit : d.zoneBit (d.bitOf z) = some true

/-- Nobody uses the block's buffer; if it is dirty, it is up to date; if it is up to date and not
dirty, it is as on the disk. -/
structure Idle (z : ℕ) : Prop where
  unused : d.Unused z
  dirty : ∀ x, d.hash z = some x → x.bDirt = true → x.bUptodate = true
  clean : ∀ x, d.hash z = some x → x.bUptodate = true → x.bDirt = false → x.bData = d.disk z

/-- The zones can be freed one after the other. -/
structure Ready (l : List ℕ) : Prop where
  nodup : l.Nodup
  marked : ∀ z ∈ l, d.Marked z
  idle : ∀ z ∈ l, d.Idle z

/-! ## What a call keeps -/

/-- The block's buffer and what is on the disk are the same. -/
structure SameAt (d d' : Device) (z : ℕ) : Prop where
  hash : d'.hash z = d.hash z
  disk : d'.disk z = d.disk z

/-- Blocks outside `l` keep what they hold, and their buffers are kept where they are used. -/
structure Keeps (d d' : Device) (l : List ℕ) : Prop where
  idle : ∀ z ∉ l, d.Idle z → d'.Idle z ∧ d'.content z = d.content z
  held : ∀ z ∉ l, ∀ x, d.hash z = some x → x.bCount ≠ 0 → d.SameAt d' z
  readable : d'.readable = d.readable
  firstdatazone : d'.sFirstdatazone = d.sFirstdatazone
  nzones : d'.sNzones = d.sNzones

variable {P} {d} {d₁ d₂ d' : Device} {l l₁ l₂ : List ℕ} {z y n : ℕ}

theorem Keeps.refl : d.Keeps d l :=
  ⟨fun _ _ h => ⟨h, rfl⟩, fun _ _ _ _ _ => ⟨rfl, rfl⟩, rfl, rfl, rfl⟩

theorem Keeps.trans (h₁ : d.Keeps d₁ l₁) (h₂ : d₁.Keeps d₂ l₂) : d.Keeps d₂ (l₁ ++ l₂) where
  idle z hz hi := by
    obtain ⟨hi₁, hc₁⟩ := h₁.idle z (fun h => hz (List.mem_append_left _ h)) hi
    obtain ⟨hi₂, hc₂⟩ := h₂.idle z (fun h => hz (List.mem_append_right _ h)) hi₁
    exact ⟨hi₂, hc₂.trans hc₁⟩
  held z hz x hx hc := by
    have hs₁ := h₁.held z (fun h => hz (List.mem_append_left _ h)) x hx hc
    have hs₂ := h₂.held z (fun h => hz (List.mem_append_right _ h)) x (hs₁.hash.trans hx) hc
    exact ⟨hs₂.hash.trans hs₁.hash, hs₂.disk.trans hs₁.disk⟩
  readable := h₂.readable.trans h₁.readable
  firstdatazone := h₂.firstdatazone.trans h₁.firstdatazone
  nzones := h₂.nzones.trans h₁.nzones

theorem Keeps.mono (h : d.Keeps d' l₁) (hl : ∀ z ∈ l₁, z ∈ l₂) : d.Keeps d' l₂ :=
  ⟨fun z hz => h.idle z fun hm => hz (hl z hm), fun z hz => h.held z fun hm => hz (hl z hm),
    h.readable, h.firstdatazone, h.nzones⟩

theorem SameAt.idle (h : d.SameAt d' z) (hi : d.Idle z) :
    d'.Idle z ∧ d'.content z = d.content z := by
  refine ⟨⟨fun x hx => hi.unused x (h.hash ▸ hx), fun x hx => hi.dirty x (h.hash ▸ hx),
    fun x hx hu hd => (hi.clean x (h.hash ▸ hx) hu hd).trans h.disk.symm⟩, ?_⟩
  unfold content
  rw [h.hash, h.disk]

theorem Keeps.of_same (h : ∀ z ∉ l, d.SameAt d' z) (hr : d'.readable = d.readable)
    (hf : d'.sFirstdatazone = d.sFirstdatazone) (hn : d'.sNzones = d.sNzones) : d.Keeps d' l :=
  ⟨fun z hz hi => (h z hz).idle hi, fun z hz _ _ _ => h z hz, hr, hf, hn⟩

theorem setBuffer_keeps (x : Buffer) : d.Keeps (d.setBuffer z x) [z] := by
  refine .of_same (fun y hy => ?_) rfl rfl rfl
  have hne : y ≠ z := fun h => hy (h ▸ List.mem_singleton_self _)
  exact ⟨Function.update_of_ne hne .., rfl⟩

/-- A block whose buffer is dropped keeps what it holds. -/
theorem evict_keeps (hy : d.Unused y) : d.Keeps (d.evict y) [] := by
  unfold evict
  cases hx : d.hash y with
  | none => exact .refl
  | some x =>
    have hother : ∀ {z}, z ≠ y → d.SameAt
        { d with
          hash := Function.update d.hash y none
          disk := if x.bDirt then Function.update d.disk y x.bData else d.disk } z := by
      intro z hzy
      refine ⟨Function.update_of_ne hzy .., ?_⟩
      dsimp only
      split_ifs
      · exact Function.update_of_ne hzy ..
      · rfl
    refine ⟨fun z _ hi => ?_, fun z _ x' hx' hc => ?_, rfl, rfl, rfl⟩
    · by_cases hzy : z = y
      · subst hzy
        refine ⟨⟨?_, ?_, ?_⟩, ?_⟩
        · intro x' hx'
          simp at hx'
        · intro x' hx'
          simp at hx'
        · intro x' hx'
          simp at hx'
        · unfold content
          rw [hx]
          simp only [Function.update_self]
          cases hd : x.bDirt with
          | true => simp [hi.dirty x hx hd]
          | false =>
            cases hu : x.bUptodate with
            | true => simp [hi.clean x hx hu hd]
            | false => simp
      · exact (hother hzy).idle hi
    · refine hother ?_
      rintro rfl
      exact hc (hy x' hx')

theorem Policy.evicts (block : ℕ) : d.Keeps ((P.pick d block).elim d d.evict) [] := by
  cases h : P.pick d block with
  | none => exact .refl
  | some y => exact evict_keeps fun x hx => P.unused d block y x h hx

/-- A block without a buffer keeps what is on the disk. -/
theorem Policy.evicts_disk {block : ℕ} (hb : d.hash block = none) :
    ((P.pick d block).elim d d.evict).disk block = d.disk block := by
  cases P.pick d block with
  | none => rfl
  | some y =>
    simp only [Option.elim_some]
    unfold evict
    cases hx : d.hash y with
    | none => rfl
    | some x =>
      have hne : block ≠ y := by
        rintro rfl
        rw [hb] at hx
        cases hx
      dsimp only
      split_ifs
      · exact Function.update_of_ne hne ..
      · rfl

theorem getblk_keeps (block : ℕ) : d.Keeps (d.getblk P block).2 [block] := by
  unfold getblk getHashTable
  cases d.hash block with
  | some x => exact setBuffer_keeps _
  | none => exact (Policy.evicts (P := P) block).trans (setBuffer_keeps _)

/-- `bread` of a block that nobody uses: its buffer, up to date and with one user. -/
theorem bread_ok (hi : d.Idle z) (hr : ∀ y, d.readable y = true) :
    ∃ x d', d.bread P z = .ok (some x, d') ∧ d.Keeps d' [z] ∧ d'.sZmap = d.sZmap ∧
      d'.hash z = some x ∧ x.bCount = 1 ∧ x.bUptodate = true ∧ x.bData = d.content z ∧
      (x.bDirt = false → x.bData = d'.disk z) := by
  have hkeep : d.Keeps (d.getblk P z).2 [z] := getblk_keeps z
  have hcount : (d.getblk P z).1.bCount = 1 := getblk_count hi.unused
  obtain ⟨hash, disk, hframe⟩ := getblk_frame (P := P) (d := d) z
  have hhash := getblk_hash (P := P) (d := d) z
  have hdata : ((d.getblk P z).1.bUptodate = true → (d.getblk P z).1.bData = d.content z ∧
      ((d.getblk P z).1.bDirt = false → (d.getblk P z).1.bData = (d.getblk P z).2.disk z)) ∧
      ((d.getblk P z).1.bUptodate = false → (d.getblk P z).2.disk z = d.content z) := by
    unfold getblk getHashTable content
    cases hx : d.hash z with
    | some x =>
      refine ⟨fun hu => ⟨?_, fun hd => ?_⟩, fun hu => ?_⟩
      · have hu' : x.bUptodate = true := hu
        simp [hu']
      · exact hi.clean x hx hu hd
      · have hu' : x.bUptodate = false := hu
        simp [hu', setBuffer]
    | none =>
      exact ⟨fun hu => Bool.noConfusion hu, fun _ => Policy.evicts_disk hx⟩
  unfold bread
  rcases hg : d.getblk P z with ⟨bh, d₁⟩
  rw [hg] at hkeep hcount hframe hhash hdata
  dsimp only at hkeep hcount hframe hhash hdata ⊢
  have hmap : d₁.sZmap = d.sZmap := by rw [hframe]
  have hread : d₁.readable z = true := by rw [hkeep.readable]; exact hr z
  by_cases hu : bh.bUptodate = true
  · rw [if_pos hu]
    obtain ⟨h1, h2⟩ := hdata.1 hu
    exact ⟨bh, d₁, rfl, hkeep, hmap, hhash, hcount, hu, h1, h2⟩
  · rw [if_neg hu, if_pos hread]
    refine ⟨_, _, rfl, (hkeep.trans (setBuffer_keeps _)).mono (by simp), hmap,
      Function.update_self .., hcount, rfl, hdata.2 (by simpa using hu), fun _ => rfl⟩

/-- `brelse` of a buffer with one user. -/
theorem brelse_ok {x : Buffer} (hx : d.hash z = some x) (hc : x.bCount = 1) :
    d.brelse z = .ok (d.setBuffer z { x with bCount := 0 }) := by
  unfold brelse
  rw [hx]
  simp [hc]

/-! ## Freed zones -/

/-- The zones of `l` have been freed. -/
structure Freed (d d' : Device) (l : List ℕ) : Prop extends d.Keeps d' l where
  bits : ∀ b, d'.zoneBit b = if b ∈ l.map d.bitOf then some false else d.zoneBit b

theorem Keeps.bitOf (h : d.Keeps d' l) (z : ℕ) : d'.bitOf z = d.bitOf z := by
  unfold Device.bitOf
  rw [h.firstdatazone]

theorem Freed.nil (h : d.Keeps d' []) (hmap : d'.sZmap = d.sZmap) : d.Freed d' [] :=
  { h with bits := fun b => by unfold zoneBit; rw [hmap]; rfl }

theorem Freed.trans (h₁ : d.Freed d₁ l₁) (h₂ : d₁.Freed d₂ l₂) : d.Freed d₂ (l₁ ++ l₂) :=
  { h₁.toKeeps.trans h₂.toKeeps with
    bits := fun b => by
      have hmap : l₂.map d₁.bitOf = l₂.map d.bitOf :=
        List.map_congr_left fun z _ => h₁.toKeeps.bitOf z
      rw [h₂.bits, h₁.bits, hmap]
      simp only [List.map_append, List.mem_append]
      by_cases hb : b ∈ l₂.map d.bitOf
      · simp [hb]
      · simp [hb] }

theorem bitOf_inj (hz : d.sFirstdatazone ≤ z) (hy : d.sFirstdatazone ≤ y)
    (h : d.bitOf z = d.bitOf y) : z = y := by
  unfold Device.bitOf at h
  omega

/-- What is left to be freed stays so. -/
theorem Ready.rest (h : d.Ready (l₁ ++ l₂)) (hf : d.Freed d' l₁) :
    d'.Ready l₂ ∧ ∀ z ∈ l₂, d'.content z = d.content z := by
  have hdisj : ∀ z ∈ l₂, z ∉ l₁ := fun z h2 h1 =>
    (List.nodup_append.1 h.nodup).2.2 z h1 z h2 rfl
  have hidle : ∀ z ∈ l₂, d'.Idle z ∧ d'.content z = d.content z := fun z hz =>
    hf.idle z (hdisj z hz) (h.idle z (List.mem_append_right _ hz))
  refine ⟨⟨(List.nodup_append.1 h.nodup).2.1, fun z hz => ?_, fun z hz => (hidle z hz).1⟩,
    fun z hz => (hidle z hz).2⟩
  have hm := h.marked z (List.mem_append_right _ hz)
  refine ⟨hf.firstdatazone ▸ hm.first, hf.nzones ▸ hm.last, ?_⟩
  have hnot : d.bitOf z ∉ l₁.map d.bitOf := by
    intro hmem
    obtain ⟨y, hy, hyz⟩ := List.mem_map.1 hmem
    have hy' := h.marked y (List.mem_append_left _ hy)
    exact hdisj z hz (bitOf_inj hy'.first hm.first hyz ▸ hy)
  rw [hf.toKeeps.bitOf, hf.bits, if_neg hnot]
  exact hm.bit

theorem Ready.left (h : d.Ready (l₁ ++ l₂)) : d.Ready l₁ :=
  ⟨(List.nodup_append.1 h.nodup).1, fun z hz => h.marked z (List.mem_append_left _ hz),
    fun z hz => h.idle z (List.mem_append_left _ hz)⟩

/-- The zones that are reachable depend on what the reachable tables hold. -/
theorem tree_congr (h : ∀ y ∈ d.tree n z, d'.content y = d.content y) :
    d'.tree n z = d.tree n z := by
  induction n generalizing z with
  | zero => rfl
  | succ n ih =>
    unfold tree at h ⊢
    by_cases hz : z = 0
    · rw [if_pos hz, if_pos hz]
    · rw [if_neg hz] at h
      rw [if_neg hz, if_neg hz, h z (List.mem_append_right _ (List.mem_singleton_self z))]
      refine congrArg (· ++ [z]) (List.flatMap_congr fun k hk => ih fun y hy => h y ?_)
      exact List.mem_append_left _ (List.mem_flatMap.2 ⟨k, hk, hy⟩)

/-! ## Freeing trees -/

/-- The function frees the zones reachable from a zone number with `n` tables above the data. -/
def Clears (free : Device → ℕ → Except Panic Device) (n : ℕ) : Prop :=
  ∀ d z, z ≠ 0 → (∀ y, d.readable y = true) → d.Ready (d.tree n z) →
    ∃ d', free d z = .ok d' ∧ d.Freed d' (d.tree n z)

theorem freeBlock_freed (hm : d.Marked z) (hi : d.Idle z) :
    ∃ d', d.freeBlock z = .ok d' ∧ d.Freed d' [z] := by
  obtain ⟨d', hok, hf⟩ := freeBlock_ok hm.first hm.last hm.bit hi.unused
  have hkeep : d.Keeps d' [z] := by
    refine .of_same (fun y hy => ⟨?_, by rw [hf.disk]⟩) hf.readable hf.firstdatazone hf.nzones
    have hne : y ≠ z := fun h => hy (h ▸ List.mem_singleton_self _)
    rw [hf.hash, Function.update_of_ne hne]
  refine ⟨d', hok, { hkeep with bits := fun b => ?_ }⟩
  rw [hf.bits]
  simp only [List.map_cons, List.map_nil, List.mem_singleton]

theorem Clears.zone : Clears freeBlock 0 := by
  intro d z hz _ h
  have htree : d.tree 0 z = [z] := if_neg hz
  rw [htree] at h ⊢
  exact freeBlock_freed (h.marked z (List.mem_singleton_self z)) (h.idle z (List.mem_singleton_self z))

section Table

variable {free : Device → ℕ → Except Panic Device}

/-- The loop over a table: the buffer of the table is in use, so it is none of the blocks freed. -/
theorem Clears.entries (hfree : Clears free n) {x : Buffer} (block : ℕ) (hc : x.bCount ≠ 0)
    (len i : ℕ) (hx : d.hash block = some x) (hr : ∀ y, d.readable y = true)
    (h : d.Ready ((List.range' i len).flatMap fun k => d.tree n (entry x.bData k))) :
    ∃ d', freeEntries free block len i d = .ok d' ∧ d.SameAt d' block ∧
      d.Freed d' ((List.range' i len).flatMap fun k => d.tree n (entry x.bData k)) := by
  induction len generalizing d i with
  | zero => exact ⟨d, rfl, ⟨rfl, rfl⟩, .nil .refl rfl⟩
  | succ len ih =>
    rw [List.range'_succ, List.flatMap_cons] at h ⊢
    have hz : (d.hash block).elim 0 (fun bh => entry bh.bData i) = entry x.bData i := by rw [hx]; rfl
    have hstep : ∃ d₁, freeSlot free d (entry x.bData i) = .ok d₁ ∧
        d.Freed d₁ (d.tree n (entry x.bData i)) := by
      unfold freeSlot
      by_cases h0 : entry x.bData i = 0
      · have htree : d.tree n (entry x.bData i) = [] := by
          rw [h0]
          cases n <;> exact if_pos rfl
        rw [if_neg (not_not.2 h0), htree]
        exact ⟨d, rfl, .nil .refl rfl⟩
      · rw [if_pos h0]
        exact hfree d _ h0 hr h.left
    obtain ⟨d₁, hok₁, hf₁⟩ := hstep
    have hnot : block ∉ d.tree n (entry x.bData i) := fun hmem =>
      hc ((h.left.idle block hmem).unused x hx)
    obtain ⟨hready, hcont⟩ := h.rest hf₁
    have hsame : ((List.range' (i + 1) len).flatMap fun k => d₁.tree n (entry x.bData k)) =
        (List.range' (i + 1) len).flatMap fun k => d.tree n (entry x.bData k) :=
      List.flatMap_congr fun k hk => tree_congr fun y hy =>
        hcont y (List.mem_flatMap.2 ⟨k, hk, hy⟩)
    have hs₁ := hf₁.held block hnot x hx hc
    obtain ⟨d₂, hok₂, hs₂, hf₂⟩ := ih (i + 1) (hs₁.hash.trans hx)
      (fun y => by rw [hf₁.readable]; exact hr y) (by rw [hsame]; exact hready)
    rw [hsame] at hf₂
    refine ⟨d₂, ?_, ⟨hs₂.hash.trans hs₁.hash, hs₂.disk.trans hs₁.disk⟩, hf₁.trans hf₂⟩
    unfold freeEntries
    rw [hz, hok₁]
    exact hok₂

/-- Freeing a table: it is read, what it holds is freed while it is in use, and then the table. -/
theorem Clears.table (hfree : Clears free n) : Clears (freeTable P free) (n + 1) := by
  intro d z hz hr h
  have htree : d.tree (n + 1) z =
      ((List.range' 0 512).flatMap fun k => d.tree n (entry (d.content z) k)) ++ [z] := by
    rw [← List.range_eq_range']
    exact if_neg hz
  rw [htree] at h ⊢
  obtain ⟨l, hl⟩ : ∃ l, l = (List.range' 0 512).flatMap fun k => d.tree n (entry (d.content z) k) :=
    ⟨_, rfl⟩
  rw [← hl] at h ⊢
  have hzl : z ∈ l ++ [z] := List.mem_append_right _ (List.mem_singleton_self z)
  have hnot : z ∉ l := fun hmem =>
    (List.nodup_append.1 h.nodup).2.2 z hmem z (List.mem_singleton_self z) rfl
  obtain ⟨x, d₁, hok₁, hk₁, hmap₁, hx₁, hc₁, hu₁, hdata₁, hclean₁⟩ :=
    bread_ok (P := P) (h.idle z hzl) hr
  -- reading the table leaves the blocks below it as they are
  have hidle₁ : ∀ y ∈ l, d₁.Idle y ∧ d₁.content y = d.content y := fun y hy =>
    hk₁.idle y (fun hm => hnot (List.mem_singleton.1 hm ▸ hy)) (h.left.idle y hy)
  have hbits₁ : ∀ b, d₁.zoneBit b = d.zoneBit b := fun b => by unfold zoneBit; rw [hmap₁]
  have hl₁ : ((List.range' 0 512).flatMap fun k => d₁.tree n (entry x.bData k)) = l := by
    rw [hl, hdata₁]
    exact List.flatMap_congr fun k hk => tree_congr fun y hy =>
      (hidle₁ y (hl ▸ List.mem_flatMap.2 ⟨k, hk, hy⟩)).2
  have hready₁ : d₁.Ready l :=
    ⟨h.left.nodup, fun y hy => ⟨hk₁.firstdatazone ▸ (h.left.marked y hy).first,
      hk₁.nzones ▸ (h.left.marked y hy).last,
      by rw [hk₁.bitOf, hbits₁]; exact (h.left.marked y hy).bit⟩, fun y hy => (hidle₁ y hy).1⟩
  obtain ⟨d₂, hok₂, hs₂, hf₂⟩ := hfree.entries z (by rw [hc₁]; decide) 512 0 hx₁
    (fun y => by rw [hk₁.readable]; exact hr y) (by rw [hl₁]; exact hready₁)
  rw [hl₁] at hf₂
  obtain ⟨d₃, hd₃⟩ : ∃ d₃, d₃ = d₂.setBuffer z { x with bCount := 0 } := ⟨_, rfl⟩
  have hok₃ : d₂.brelse z = .ok d₃ := by rw [hd₃]; exact brelse_ok (hs₂.hash.trans hx₁) hc₁
  have hk₃ : d₂.Keeps d₃ [z] := by rw [hd₃]; exact setBuffer_keeps _
  have hhash₃ : d₃.hash z = some { x with bCount := 0 } := by
    rw [hd₃]
    exact Function.update_self ..
  have hidle₃ : d₃.Idle z := by
    refine ⟨fun y hy => ?_, fun y hy _ => ?_, fun y hy _ hd => ?_⟩
    · rw [hhash₃] at hy; cases hy; rfl
    · rw [hhash₃] at hy; cases hy; exact hu₁
    · rw [hhash₃] at hy; cases hy
      rw [hclean₁ hd, ← hs₂.disk, hd₃]
      rfl
  have hbits₃ : ∀ b, d₃.zoneBit b = if b ∈ l.map d.bitOf then some false else d.zoneBit b := by
    intro b
    have hmap : l.map d₁.bitOf = l.map d.bitOf := List.map_congr_left fun y _ => hk₁.bitOf y
    rw [← hbits₁, ← hmap, ← hf₂.bits, hd₃]
    rfl
  have hall : d.Keeps d₃ (l ++ [z]) :=
    ((hk₁.trans hf₂.toKeeps).trans hk₃).mono (by simp)
  have hm := h.marked z hzl
  have hm₃ : d₃.Marked z := by
    refine ⟨hall.firstdatazone ▸ hm.first, hall.nzones ▸ hm.last, ?_⟩
    have hnb : d.bitOf z ∉ l.map d.bitOf := by
      intro hmem
      obtain ⟨y, hy, hyz⟩ := List.mem_map.1 hmem
      exact hnot (bitOf_inj (h.left.marked y hy).first hm.first hyz ▸ hy)
    rw [hall.bitOf, hbits₃, if_neg hnb]
    exact hm.bit
  obtain ⟨d₄, hok₄, hf₄⟩ := freeBlock_freed hm₃ hidle₃
  refine ⟨d₄, ?_, { (hall.trans hf₄.toKeeps).mono (by simp) with bits := fun b => ?_ }⟩
  · unfold freeTable
    rw [if_neg hz, hok₁]
    show (freeEntries free z 512 0 d₁ >>= fun d => d.brelse z >>= fun d => d.freeBlock z) = _
    rw [hok₂]
    show (d₂.brelse z >>= fun d => d.freeBlock z) = _
    rw [hok₃]
    exact hok₄
  · rw [hf₄.bits, hbits₃]
    simp only [List.map_cons, List.map_nil, List.map_append, List.mem_append, List.mem_singleton,
      hall.bitOf]
    by_cases hb : b = d.bitOf z
    · simp [hb]
    · simp [hb]

end Table

/-! ## The whole file -/

/-- The loop over the first zones. -/
theorem freeDirect_ok (len k : ℕ) (inode : Inode)
    (h : d.Ready ((List.range' k len).flatMap fun j => d.tree 0 (inode.iZone j))) :
    ∃ iZone d', freeDirect len k inode d = .ok ({ inode with iZone := iZone }, d') ∧
      (∀ j, iZone j = if k ≤ j ∧ j < k + len then 0 else inode.iZone j) ∧
      d.Freed d' ((List.range' k len).flatMap fun j => d.tree 0 (inode.iZone j)) := by
  induction len generalizing k inode d with
  | zero =>
    refine ⟨inode.iZone, d, rfl, fun j => ?_, .nil .refl rfl⟩
    rw [if_neg (by omega)]
  | succ len ih =>
    rw [List.range'_succ, List.flatMap_cons] at h ⊢
    by_cases h0 : inode.iZone k = 0
    · have htree : d.tree 0 (inode.iZone k) = [] := if_pos h0
      rw [htree, List.nil_append] at h ⊢
      obtain ⟨iZone, d', hok, hz, hf⟩ := ih (k + 1) inode h
      refine ⟨iZone, d', ?_, fun j => ?_, hf⟩
      · unfold freeDirect
        rw [if_neg (not_not.2 h0)]
        exact hok
      · rw [hz]
        by_cases hj : j = k
        · rw [hj, if_neg (by omega), if_pos (by omega), h0]
        · have hiff : k + 1 ≤ j ∧ j < k + 1 + len ↔ k ≤ j ∧ j < k + (len + 1) := by omega
          simp only [hiff]
    · have htree : d.tree 0 (inode.iZone k) = [inode.iZone k] := if_neg h0
      rw [htree] at h ⊢
      have hk : inode.iZone k ∈ [inode.iZone k] := List.mem_singleton_self _
      obtain ⟨d₁, hok₁, hf₁⟩ := freeBlock_freed (h.left.marked _ hk) (h.left.idle _ hk)
      have hrest : ((List.range' (k + 1) len).flatMap fun j =>
          d₁.tree 0 (Function.update inode.iZone k 0 j)) =
          (List.range' (k + 1) len).flatMap fun j => d.tree 0 (inode.iZone j) := by
        refine List.flatMap_congr fun j hj => ?_
        have hne : j ≠ k := by
          have := (List.mem_range'_1.1 hj).1
          omega
        rw [Function.update_of_ne hne]
        rfl
      obtain ⟨iZone, d', hok, hz, hf⟩ := ih (k + 1)
        { inode with iZone := Function.update inode.iZone k 0 } (by rw [hrest]; exact (h.rest hf₁).1)
      rw [hrest] at hf
      refine ⟨iZone, d', ?_, fun j => ?_, hf₁.trans hf⟩
      · unfold freeDirect
        rw [if_pos h0, hok₁]
        exact hok
      · rw [hz]
        by_cases hj : j = k
        · rw [hj, if_neg (by omega), if_pos (by omega)]
          exact Function.update_self ..
        · have hiff : k + 1 ≤ j ∧ j < k + 1 + len ↔ k ≤ j ∧ j < k + (len + 1) := by omega
          simp only [hiff, Function.update_of_ne hj]

theorem tree_zero : d.tree n 0 = [] := by
  cases n <;> exact if_pos rfl

/-- Freeing the tree below a zone number, which may be 0. -/
theorem Clears.or_empty {free : Device → ℕ → Except Panic Device} (hfree : Clears free n)
    (hzero : free d 0 = .ok d) (hr : ∀ y, d.readable y = true) (h : d.Ready (d.tree n z)) :
    ∃ d', free d z = .ok d' ∧ d.Freed d' (d.tree n z) := by
  by_cases hz : z = 0
  · rw [hz, hzero, tree_zero]
    exact ⟨d, rfl, .nil .refl rfl⟩
  · exact hfree d z hz hr h

/-- `bmap` of an inode without zones. -/
theorem bmap_empty {inode : Inode} (hz : ∀ k < 9, inode.iZone k = 0) {block : ℕ}
    (hb : block < 7 + 512 + 512 * 512) : d.bmap P inode block = .ok (0, d) := by
  unfold bmap
  rw [if_neg (not_le.2 hb), if_pos (hz 7 (by decide)), if_pos (hz 8 (by decide))]
  split_ifs with h7
  · rw [hz block (by omega)]
  · rfl
  · rfl

/-- `truncate` clears the bits of the zones of the file, which is empty then. -/
theorem truncate_frees (P : Policy) (now : ℕ) (d : Device) (inode : Inode)
    (hfile : (Fs.isReg inode.iMode || Fs.isDir inode.iMode) = true)
    (hread : ∀ block, d.readable block = true) (h : d.Ready (d.zones inode)) :
    ∃ inode' d', truncate P now inode d = .ok (inode', d') ∧
      (∀ b, d'.zoneBit b = if b ∈ (d.zones inode).map d.bitOf then some false else d.zoneBit b) ∧
      (∀ k < 9, inode'.iZone k = 0) ∧ inode'.iSize = 0 ∧
      ∀ block < 7 + 512 + 512 * 512, d'.bmap P inode' block = .ok (0, d') := by
  obtain ⟨l, hl⟩ : ∃ l, l = (List.range' 0 7).flatMap fun k => d.tree 0 (inode.iZone k) := ⟨_, rfl⟩
  have hzones : d.zones inode = l ++ (d.tree 1 (inode.iZone 7) ++ d.tree 2 (inode.iZone 8)) := by
    rw [hl, ← List.range_eq_range']
    rfl
  rw [hzones] at h ⊢
  obtain ⟨iZone, d₁, hok₁, hz, hf₁⟩ := freeDirect_ok 7 0 inode (hl ▸ h.left)
  rw [← hl] at hf₁
  have hz7 : iZone 7 = inode.iZone 7 := by rw [hz, if_neg (by omega)]
  have hz8 : iZone 8 = inode.iZone 8 := by rw [hz, if_neg (by omega)]
  obtain ⟨hready₁, hcont₁⟩ := h.rest hf₁
  have ht7 : d₁.tree 1 (inode.iZone 7) = d.tree 1 (inode.iZone 7) :=
    tree_congr fun y hy => hcont₁ y (List.mem_append_left _ hy)
  have ht8 : d₁.tree 2 (inode.iZone 8) = d.tree 2 (inode.iZone 8) :=
    tree_congr fun y hy => hcont₁ y (List.mem_append_right _ hy)
  have hr₁ : ∀ y, d₁.readable y = true := fun y => by rw [hf₁.readable]; exact hread y
  obtain ⟨d₂, hok₂, hf₂⟩ := (Clears.zone.table (P := P)).or_empty (z := inode.iZone 7)
    (if_pos rfl) hr₁ (by rw [ht7]; exact hready₁.left)
  rw [ht7] at hf₂
  obtain ⟨hready₂, hcont₂⟩ := hready₁.rest hf₂
  have ht8' : d₂.tree 2 (inode.iZone 8) = d.tree 2 (inode.iZone 8) := by
    rw [← ht8]
    exact tree_congr fun y hy => hcont₂ y (ht8 ▸ hy)
  have hr₂ : ∀ y, d₂.readable y = true := fun y => by rw [hf₂.readable]; exact hr₁ y
  obtain ⟨d₃, hok₃, hf₃⟩ := (Clears.zone.table (P := P)).table (P := P) |>.or_empty
    (z := inode.iZone 8) (if_pos rfl) hr₂ (by rw [ht8']; exact hready₂)
  rw [ht8'] at hf₃
  obtain ⟨inode', hi⟩ : ∃ i : Inode, i = { inode with
      iZone := Function.update (Function.update iZone 7 0) 8 0
      iSize := 0, iDirt := true, iMtime := now, iCtime := now } := ⟨_, rfl⟩
  have hempty : ∀ k < 9, inode'.iZone k = 0 := by
    intro k hk
    rw [hi]
    dsimp only
    by_cases h8 : k = 8
    · rw [h8, Function.update_self]
    · rw [Function.update_of_ne h8]
      by_cases h7 : k = 7
      · rw [h7, Function.update_self]
      · rw [Function.update_of_ne h7, hz, if_pos (by omega)]
  refine ⟨inode', d₃, ?_, (hf₁.trans (hf₂.trans hf₃)).bits, hempty, by rw [hi],
    fun block hb => bmap_empty hempty hb⟩
  unfold truncate
  rw [if_neg (not_not.2 hfile), hok₁]
  show (d₁.freeInd P (iZone 7) >>= fun d => d.freeDind P (iZone 8) >>= fun d => _) = _
  rw [hz7, show d₁.freeInd P (inode.iZone 7) = .ok d₂ from hok₂]
  show (d₂.freeDind P (iZone 8) >>= fun d => _) = _
  rw [hz8, show d₂.freeDind P (inode.iZone 8) = .ok d₃ from hok₃, hi]
  rfl

/-- Zones 1 and 3 hold data, and zone 2 is a table with zone 3 in it. -/
def marked : Device :=
  { small 31 with
    sNzones := 5
    disk := fun block k => if block = 2 ∧ k = 0 then 3 else 0 }

def file : Inode where
  iMode := 0o100644
  iZone k := if k = 0 then 1 else if k = 7 then 2 else 0
  iSize := 8192
  iDirt := false
  iMtime := 0
  iCtime := 0

theorem zones_file : marked.zones file = [1, 3, 2] := by
  decide +kernel

theorem file_frees :
    ∃ inode' d', truncate fresh 1 file marked = .ok (inode', d') ∧
      (∀ b, d'.zoneBit b =
        if b ∈ (marked.zones file).map marked.bitOf then some false else marked.zoneBit b) ∧
      (∀ k < 9, inode'.iZone k = 0) ∧ inode'.iSize = 0 ∧
      ∀ block < 7 + 512 + 512 * 512, d'.bmap fresh inode' block = .ok (0, d') := by
  refine truncate_frees fresh 1 marked file (by decide) (fun _ => rfl) ?_
  rw [zones_file]
  refine ⟨by decide, fun z hz => ?_, fun z _ => ⟨?_, ?_, ?_⟩⟩
  · obtain rfl | rfl | rfl : z = 1 ∨ z = 3 ∨ z = 2 := by simpa using hz
    · exact ⟨by decide, by decide, by decide⟩
    · exact ⟨by decide, by decide, by decide⟩
    · exact ⟨by decide, by decide, by decide⟩
  · exact fun _ h => by cases h
  · exact fun _ h => by cases h
  · exact fun _ h => by cases h

end Device

end Linux011.Bitmap
