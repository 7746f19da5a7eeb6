import Linux011.Buffer.Queues

/-!
# Buffers out of memory

`buffer_init` of `fs/buffer.c`, and how `main` of `init/main.c` chooses the end of the buffer memory. The
buffer heads are kept by their addresses.

1. `bufferMemoryEnd`; `bufferInit`, with the loop `carve` and its turn.
2. `Carving`: the invariant of the loop. `Carving.turn`.
3. `Split`: what the buffers are like afterwards. `buffers_split`.
4. `represents_bufferInit`: they carry the queues `Queues.init` that the buffer cache starts from.
-/

namespace Linux011.BufferInit

abbrev Addr := BitVec 32

/-- `struct buffer_head`. A null pointer is 0. -/
structure BufferHead where
  bData : Addr
  bBlocknr : BitVec 32
  bDev : BitVec 16
  bUptodate : BitVec 8
  bDirt : BitVec 8
  bCount : BitVec 8
  bLock : BitVec 8
  bWait : Addr
  bPrev : Addr
  bNext : Addr
  bPrevFree : Addr
  bNextFree : Addr

/-- `sizeof (struct buffer_head)`: two bytes of padding are behind the fields of a byte. -/
def headSize : Addr := 36

def BLOCK_SIZE : Addr := 1024

structure State where
  bh : Addr → BufferHead
  freeList : Addr
  nrBuffers : ℕ
  hashTable : Fin 307 → Addr

/-- Before the kernel has stored anything. -/
def State.blank : State := ⟨fun _ => ⟨0, 0, 0, 0, 0, 0, 0, 0, 0, 0, 0, 0⟩, 0, 0, fun _ => 0⟩

/-! ## `main` -/

/-- `EXT_MEM_K` is what the BIOS found above the first megabyte. -/
def memoryEnd (extMemK : BitVec 16) : Addr :=
  let memoryEnd := (1 <<< 20 : Addr) + extMemK.setWidth 32 <<< 10
  let memoryEnd := memoryEnd &&& 0xfffff000
  if memoryEnd > 16 * 1024 * 1024 then 16 * 1024 * 1024 else memoryEnd

def bufferMemoryEnd (extMemK : BitVec 16) : Addr :=
  if memoryEnd extMemK > 12 * 1024 * 1024 then 4 * 1024 * 1024
  else if memoryEnd extMemK > 6 * 1024 * 1024 then 2 * 1024 * 1024
  else 1 * 1024 * 1024

/-! ## `buffer_init` -/

/-- The variables of the loop. -/
structure Carve where
  h : Addr
  b : Addr
  state : State

/-- What the loop stores through `h`. -/
def setUp (h b : Addr) (bh : BufferHead) : BufferHead :=
  { bh with
    bDev := 0
    bDirt := 0
    bCount := 0
    bLock := 0
    bUptodate := 0
    bWait := 0
    bNext := 0
    bPrev := 0
    bData := b
    bPrevFree := h - headSize
    bNextFree := h + headSize }

/-- A turn of the loop, or none where its test fails. -/
def turn (c : Carve) : Option Carve :=
  let b := c.b - BLOCK_SIZE
  if b ≥ c.h + headSize then
    some {
      h := c.h + headSize
      b := if b = 0x100000 then 0xA0000 else b
      state := { c.state with
        bh := Function.update c.state.bh c.h (setUp c.h b (c.state.bh c.h))
        nrBuffers := c.state.nrBuffers + 1 } }
  else none

/-- The loop, for fewer than so many turns. -/
def carve : ℕ → Carve → Option Carve
  | 0, _ => none
  | n + 1, c =>
    match turn c with
    | none => some c
    | some c => carve n c

/-- Where `b` starts. -/
def bufferTop (bufferEnd : Addr) : Addr :=
  if bufferEnd = (1 <<< 20 : Addr) then 640 * 1024 else bufferEnd

def bufferInit (fuel : ℕ) (startBuffer bufferEnd : Addr) (s : State) : Option State := do
  let c ← carve fuel ⟨startBuffer, bufferTop bufferEnd, s⟩
  let h := c.h - headSize
  let s := { c.state with freeList := startBuffer }
  let s := { s with bh := Function.update s.bh s.freeList { s.bh s.freeList with bPrevFree := h } }
  let s := { s with bh := Function.update s.bh h { s.bh h with bNextFree := s.freeList } }
  some { s with hashTable := fun _ => 0 }

/-! ## The loop -/

/-- The address of the head number `i`. -/
def headAt (start : Addr) (i : ℕ) : Addr := start + BitVec.ofNat 32 (36 * i)

/-- The data block of the head number `i`. -/
def State.data (s : State) (start : Addr) (i : ℕ) : ℕ := (s.bh (headAt start i)).bData.toNat

/-- The bytes `[a, a + n)` and `[b, b + k)` are apart. -/
def Apart (a n b k : ℕ) : Prop := a + n ≤ b ∨ b + k ≤ a

/-- The invariant of the loop. The heads made so far are below the blocks, the blocks are above `b` and
each below those before it, and `b` is never in the hole. -/
structure Carving (start : Addr) (top : ℕ) (c : Carve) : Prop where
  head : c.h = headAt start c.state.nrBuffers
  low : start.toNat + 36 * c.state.nrBuffers ≤ top
  first : c.state.nrBuffers = 0 → c.b.toNat = top
  aligned : c.b.toNat % 1024 = 0
  pos : 1024 ≤ c.b.toNat
  le_top : c.b.toNat ≤ top
  outside : c.b.toNat ≤ 0xA0000 ∨ 0x100000 < c.b.toNat
  set : ∀ i < c.state.nrBuffers, ∃ b bh, c.state.bh (headAt start i) = setUp (headAt start i) b bh
  below : ∀ i < c.state.nrBuffers, c.state.data start i + 1024 ≤ top
  heads : ∀ i < c.state.nrBuffers, start.toNat + 36 * c.state.nrBuffers ≤ c.state.data start i
  above : ∀ i < c.state.nrBuffers, c.b.toNat ≤ c.state.data start i
  sorted : ∀ i < c.state.nrBuffers, ∀ j < i, c.state.data start i + 1024 ≤ c.state.data start j
  hole : ∀ i < c.state.nrBuffers,
    c.state.data start i + 1024 ≤ 0xA0000 ∨ 0x100000 ≤ c.state.data start i

variable {start : Addr} {top : ℕ} {c c' : Carve}

theorem toNat_headAt {i : ℕ} (h : start.toNat + 36 * i < 2 ^ 32) :
    (headAt start i).toNat = start.toNat + 36 * i := by
  unfold headAt
  rw [BitVec.toNat_add, BitVec.toNat_ofNat]
  omega

theorem headAt_inj {i j : ℕ} (hi : start.toNat + 36 * i < 2 ^ 32) (hj : start.toNat + 36 * j < 2 ^ 32)
    (h : headAt start i = headAt start j) : i = j := by
  have hnat := congrArg BitVec.toNat h
  rw [toNat_headAt hi, toNat_headAt hj] at hnat
  omega

theorem headAt_succ (start : Addr) (i : ℕ) : headAt start (i + 1) = headAt start i + headSize := by
  unfold headAt headSize
  rw [Nat.mul_succ, BitVec.ofNat_add]
  exact (BitVec.add_assoc _ _ _).symm

/-- What a turn does. -/
structure Turned (start : Addr) (c c' : Carve) : Prop where
  h : c'.h = c.h + headSize
  nr : c'.state.nrBuffers = c.state.nrBuffers + 1
  room : start.toNat + 36 * (c.state.nrBuffers + 1) + 1024 ≤ c.b.toNat
  b : c'.b.toNat = if c.b.toNat - 1024 = 0x100000 then 0xA0000 else c.b.toNat - 1024
  new : c'.state.bh c.h = setUp c.h (c.b - BLOCK_SIZE) (c.state.bh c.h)
  frame : ∀ a, a ≠ c.h → c'.state.bh a = c.state.bh a

theorem turn_cases (hc : Carving start top c) (htop : top ≤ 0x400000) :
    (turn c = none ∧ c.b.toNat < start.toNat + 36 * (c.state.nrBuffers + 1) + 1024) ∨
    ∃ c', turn c = some c' ∧ Turned start c c' := by
  have hlow := hc.low
  have hpos := hc.pos
  have hb : (c.b - BLOCK_SIZE).toNat = c.b.toNat - 1024 := by
    have hle : BLOCK_SIZE ≤ c.b := by
      rw [BitVec.le_def]
      exact hpos
    rw [BitVec.toNat_sub_of_le hle]
    rfl
  have hh : (c.h + headSize).toNat = start.toNat + 36 * (c.state.nrBuffers + 1) := by
    rw [hc.head, ← headAt_succ, toNat_headAt (by omega)]
  by_cases hroom : c.h + headSize ≤ c.b - BLOCK_SIZE
  · have hle := BitVec.le_def.1 hroom
    rw [hb, hh] at hle
    refine .inr ⟨_, if_pos hroom, rfl, rfl, by omega, ?_, Function.update_self _ _ _,
      fun a ha => Function.update_of_ne ha _ _⟩
    have heq : c.b - BLOCK_SIZE = 0x100000 ↔ c.b.toNat - 1024 = 0x100000 := by
      rw [← hb]
      exact BitVec.toNat_inj.symm
    show (if c.b - BLOCK_SIZE = 0x100000 then 0xA0000 else c.b - BLOCK_SIZE : Addr).toNat = _
    by_cases h : c.b - BLOCK_SIZE = 0x100000
    · rw [if_pos h, if_pos (heq.1 h)]
      rfl
    · rw [if_neg h, if_neg (mt heq.2 h), hb]
  · have hlt := hroom
    rw [BitVec.le_def, hb, hh] at hlt
    exact .inl ⟨if_neg hroom, by omega⟩

/-- A turn keeps the invariant: the new head is below the new block, and that is below the old ones. -/
theorem Carving.turned (hc : Carving start top c) (htop : top ≤ 0x400000) (ht : Turned start c c') :
    Carving start top c' := by
  have hroom := ht.room
  have hlow := hc.low
  have hle := hc.le_top
  have haligned := hc.aligned
  have houtside := hc.outside
  have hb := ht.b
  have hold : ∀ i < c.state.nrBuffers, headAt start i ≠ c.h := by
    intro i hi h
    rw [hc.head] at h
    have hi' := headAt_inj (by omega) (by omega) h
    omega
  have hdata : ∀ i < c.state.nrBuffers, c'.state.data start i = c.state.data start i := by
    intro i hi
    unfold State.data
    rw [ht.frame _ (hold i hi)]
  have hnew : c'.state.data start c.state.nrBuffers = c.b.toNat - 1024 := by
    unfold State.data
    rw [← hc.head, ht.new]
    have hle : BLOCK_SIZE ≤ c.b := by
      rw [BitVec.le_def]
      exact hc.pos
    exact BitVec.toNat_sub_of_le hle
  -- The heads so far, and the new one.
  have hsplit : ∀ {p : ℕ → Prop}, (∀ i < c.state.nrBuffers, p i) → p c.state.nrBuffers →
      ∀ i < c'.state.nrBuffers, p i := by
    intro p hp hn i hi
    rw [ht.nr] at hi
    rcases Nat.lt_succ_iff_lt_or_eq.1 hi with hlt | rfl
    · exact hp i hlt
    · exact hn
  have hb' : c'.b.toNat ≤ c.b.toNat - 1024 := by
    rw [hb]
    split <;> omega
  refine ⟨?_, ?_, fun h0 => ?_, ?_, ?_, by omega, ?_, hsplit (fun i hi => ?_) ?_, hsplit (fun i hi => ?_) ?_,
    hsplit (fun i hi => ?_) ?_, hsplit (fun i hi => ?_) ?_, hsplit (fun i hi j hj => ?_) fun j hj => ?_,
    hsplit (fun i hi => ?_) ?_⟩
  · rw [ht.h, ht.nr, hc.head, headAt_succ]
  · rw [ht.nr]
    omega
  · rw [ht.nr] at h0
    exact absurd h0 (Nat.succ_ne_zero _)
  · rw [hb]
    split <;> omega
  · rw [hb]
    split <;> omega
  · rw [hb]
    split <;> omega
  · obtain ⟨b, bh, hset⟩ := hc.set i hi
    exact ⟨b, bh, (ht.frame _ (hold i hi)).trans hset⟩
  · exact ⟨_, _, by rw [← hc.head]; exact ht.new⟩
  · rw [hdata i hi]
    exact hc.below i hi
  · rw [hnew]
    omega
  · have habove := hc.above i hi
    rw [hdata i hi, ht.nr]
    omega
  · rw [hnew, ht.nr]
    omega
  · have habove := hc.above i hi
    rw [hdata i hi]
    omega
  · rw [hnew]
    exact hb'
  · rw [hdata i hi, hdata j (by omega)]
    exact hc.sorted i hi j hj
  · have habove := hc.above j hj
    rw [hnew, hdata j hj]
    omega
  · rw [hdata i hi]
    exact hc.hole i hi
  · rw [hnew]
    omega

/-- The loop ends, with the invariant, and where its test fails. -/
theorem carve_spec (htop : top ≤ 0x400000) {fuel : ℕ} (hc : Carving start top c)
    (hfuel : c.b.toNat / 1024 < fuel) : ∃ c', carve fuel c = some c' ∧ Carving start top c' ∧
      c'.b.toNat < start.toNat + 36 * (c'.state.nrBuffers + 1) + 1024 := by
  induction fuel generalizing c with
  | zero => exact absurd hfuel (Nat.not_lt_zero _)
  | succ n ih =>
    rcases turn_cases hc htop with ⟨hnone, hend⟩ | ⟨c₁, hsome, ht⟩
    · refine ⟨c, ?_, hc, hend⟩
      unfold carve
      rw [hnone]
    · have hb : c₁.b.toNat ≤ c.b.toNat - 1024 := by
        rw [ht.b]
        split
        · omega
        · exact le_rfl
      have hpos := hc.pos
      obtain ⟨c', hcarve, hinv, hend⟩ := ih (hc.turned htop ht) (by omega)
      refine ⟨c', ?_, hinv, hend⟩
      unfold carve
      rw [hsome]
      exact hcarve

/-! ## Afterwards -/

/-- The addresses of all heads. -/
def State.allHeads (s : State) (start : Addr) : List Addr := (List.range s.nrBuffers).map (headAt start)

/-- The buffers are split: the heads one after the other from `start` on, each with a data block of its
own that overlaps no head and not the hole, and on one ring. -/
structure Split (start bufferEnd : Addr) (s : State) : Prop where
  pos : 0 < s.nrBuffers
  consecutive : ∀ i < s.nrBuffers, (headAt start i).toNat = start.toNat + 36 * i
  dataHead : ∀ i < s.nrBuffers, ∀ j < s.nrBuffers, Apart (s.data start i) 1024 (headAt start j).toNat 36
  dataData : ∀ i < s.nrBuffers, ∀ j < s.nrBuffers, i ≠ j →
    Apart (s.data start i) 1024 (s.data start j) 1024
  hole : ∀ i < s.nrBuffers, Apart (s.data start i) 1024 0xA0000 0x60000
  below : ∀ i < s.nrBuffers, s.data start i + 1024 ≤ bufferEnd.toNat
  freeList : s.freeList = start
  ring : Ring (fun a => some (s.bh a).bNextFree) (fun a => some (s.bh a).bPrevFree) (s.allHeads start)
  unused : ∀ i < s.nrBuffers, (s.bh (headAt start i)).bDev = 0 ∧ (s.bh (headAt start i)).bDirt = 0 ∧
    (s.bh (headAt start i)).bCount = 0 ∧ (s.bh (headAt start i)).bLock = 0 ∧
    (s.bh (headAt start i)).bUptodate = 0 ∧ (s.bh (headAt start i)).bWait = 0
  unhashed : ∀ i < s.nrBuffers, (s.bh (headAt start i)).bNext = 0 ∧ (s.bh (headAt start i)).bPrev = 0
  hash : ∀ k, s.hashTable k = 0

/-- What `buffer_init` does after the loop. -/
def close (start : Addr) (c : Carve) : State :=
  let h := c.h - headSize
  let bh := Function.update c.state.bh start { c.state.bh start with bPrevFree := h }
  { c.state with
    freeList := start
    bh := Function.update bh h { bh h with bNextFree := start }
    hashTable := fun _ => 0 }

theorem bufferInit_eq (fuel : ℕ) (start bufferEnd : Addr) (s : State) : bufferInit fuel start bufferEnd s =
    (carve fuel ⟨start, bufferTop bufferEnd, s⟩).map (close start) := by
  unfold bufferInit
  cases carve fuel ⟨start, bufferTop bufferEnd, s⟩ with
  | none => rfl
  | some c => rfl

theorem headAt_zero (start : Addr) : headAt start 0 = start := by
  unfold headAt
  simp

theorem Carving.last_eq (hc : Carving start top c) (hpos : 0 < c.state.nrBuffers) :
    c.h - headSize = headAt start (c.state.nrBuffers - 1) := by
  obtain ⟨n, hn⟩ := Nat.exists_eq_succ_of_ne_zero hpos.ne'
  rw [hc.head, hn, headAt_succ]
  exact BitVec.add_sub_cancel _ _

/-- The two stores change links only. -/
theorem close_bh (start : Addr) (c : Carve) (a : Addr) : (close start c).bh a = { c.state.bh a with
    bPrevFree := if a = start then c.h - headSize else (c.state.bh a).bPrevFree
    bNextFree := if a = c.h - headSize then start else (c.state.bh a).bNextFree } := by
  unfold close
  dsimp only
  by_cases hlast : a = c.h - headSize
  · subst hlast
    by_cases hfirst : c.h - headSize = start
    · rw [Function.update_self, if_pos hfirst, if_pos rfl, hfirst, Function.update_self]
    · rw [Function.update_self, if_neg hfirst, if_pos rfl, Function.update_of_ne hfirst]
  · rw [Function.update_of_ne hlast, if_neg hlast]
    by_cases hfirst : a = start
    · subst hfirst
      rw [Function.update_self, if_pos rfl]
    · rw [Function.update_of_ne hfirst, if_neg hfirst]

/-- The head number `i` after `buffer_init`: the one before it and the one behind it on the ring, and what the
loop stored besides. -/
theorem Carving.close_head (hc : Carving start top c) (htop : top ≤ 0x400000) {i : ℕ}
    (hi : i < c.state.nrBuffers) :
    ∃ b bh, (close start c).bh (headAt start i) = { setUp (headAt start i) b bh with
      bPrevFree := headAt start (if i = 0 then c.state.nrBuffers - 1 else i - 1)
      bNextFree := headAt start (if i + 1 = c.state.nrBuffers then 0 else i + 1) } := by
  have hlow := hc.low
  obtain ⟨b, bh, hset⟩ := hc.set i hi
  have hfirst : headAt start i = start ↔ i = 0 := by
    refine ⟨fun h => ?_, fun h => by rw [h, headAt_zero]⟩
    exact headAt_inj (by omega) (by omega) (h.trans (headAt_zero start).symm)
  have hlast : headAt start i = c.h - headSize ↔ i + 1 = c.state.nrBuffers := by
    rw [hc.last_eq (by omega)]
    refine ⟨fun h => ?_, fun h => by rw [← h]; rfl⟩
    have := headAt_inj (by omega) (by omega) h
    omega
  have hprev : (if headAt start i = start then c.h - headSize else (setUp (headAt start i) b bh).bPrevFree) =
      headAt start (if i = 0 then c.state.nrBuffers - 1 else i - 1) := by
    by_cases h0 : i = 0
    · rw [if_pos (hfirst.2 h0), if_pos h0, hc.last_eq (by omega)]
    · obtain ⟨k, rfl⟩ := Nat.exists_eq_succ_of_ne_zero h0
      rw [if_neg (mt hfirst.1 h0), if_neg h0]
      show headAt start (k + 1) - headSize = headAt start k
      rw [headAt_succ]
      exact BitVec.add_sub_cancel _ _
  have hnext : (if headAt start i = c.h - headSize then start else (setUp (headAt start i) b bh).bNextFree) =
      headAt start (if i + 1 = c.state.nrBuffers then 0 else i + 1) := by
    by_cases hl : i + 1 = c.state.nrBuffers
    · rw [if_pos (hlast.2 hl), if_pos hl, headAt_zero]
    · rw [if_neg (mt hlast.1 hl), if_neg hl, headAt_succ]
      rfl
  refine ⟨b, bh, ?_⟩
  rw [close_bh, hset, hprev, hnext]

theorem close_data (start : Addr) (c : Carve) (i : ℕ) :
    (close start c).data start i = c.state.data start i := by
  unfold State.data
  rw [close_bh]

/-- The heads are on one ring. -/
theorem Carving.ring (hc : Carving start top c) (htop : top ≤ 0x400000) (hpos : 0 < c.state.nrBuffers) :
    Ring (fun a => some ((close start c).bh a).bNextFree) (fun a => some ((close start c).bh a).bPrevFree)
      ((close start c).allHeads start) := by
  have hlen : ((close start c).allHeads start).length = c.state.nrBuffers := by
    simp [State.allHeads, close]
  have hget : ∀ i, i < c.state.nrBuffers → ((close start c).allHeads start)[i]? = some (headAt start i) := by
    intro i hi
    have hi' : i < (close start c).nrBuffers := hi
    simp [State.allHeads, List.getElem?_range hi']
  unfold Ring
  rw [List.getLast?_eq_getElem?, hlen, hget _ (by omega), List.head?_eq_getElem?, hget _ hpos]
  refine seg_of_getElem (fun i hi => ?_) fun i hi => ?_
  all_goals
    rw [hlen] at hi
    have hgi : ((close start c).allHeads start)[i] = headAt start i := by
      rw [List.getElem_eq_iff]
      exact hget i hi
    obtain ⟨b, bh, hbh⟩ := hc.close_head htop hi
    rw [hgi, hbh]
    dsimp only
  · by_cases h0 : i = 0
    · rw [if_pos h0, if_pos h0]
    · rw [if_neg h0, if_neg h0, hget _ (by omega)]
  · by_cases hl : i + 1 = c.state.nrBuffers
    · rw [if_pos hl, hl, List.getElem?_eq_none (by omega)]
      rfl
    · rw [if_neg hl, hget _ (by omega)]
      rfl

theorem Carving.split (hc : Carving start top c) (htop : top ≤ 0x400000) (hpos : 0 < c.state.nrBuffers)
    {bufferEnd : Addr} (hend : top ≤ bufferEnd.toNat) : Split start bufferEnd (close start c) := by
  have hlow := hc.low
  have haddr : ∀ i < c.state.nrBuffers, (headAt start i).toNat = start.toNat + 36 * i :=
    fun i hi => toNat_headAt (by omega)
  refine ⟨hpos, haddr, fun i hi j hj => ?_, fun i hi j hj hij => ?_, fun i hi => ?_, fun i hi => ?_, rfl,
    hc.ring htop hpos, fun i hi => ?_, fun i hi => ?_, fun _ => rfl⟩
  · have habove := hc.heads i hi
    have hj' : j < c.state.nrBuffers := hj
    rw [close_data, haddr j hj]
    exact .inr (by omega)
  · rw [close_data, close_data]
    rcases Nat.lt_or_gt_of_ne hij with h | h
    · exact .inr (hc.sorted j hj i h)
    · exact .inl (hc.sorted i hi j h)
  · rw [close_data]
    exact hc.hole i hi
  · rw [close_data]
    exact (hc.below i hi).trans hend
  · obtain ⟨b, bh, hbh⟩ := hc.close_head htop hi
    rw [hbh]
    exact ⟨rfl, rfl, rfl, rfl, rfl, rfl⟩
  · obtain ⟨b, bh, hbh⟩ := hc.close_head htop hi
    rw [hbh]
    exact ⟨rfl, rfl⟩

theorem bufferMemoryEnd_cases (extMemK : BitVec 16) : bufferMemoryEnd extMemK = 0x100000 ∨
    bufferMemoryEnd extMemK = 0x200000 ∨ bufferMemoryEnd extMemK = 0x400000 := by
  unfold bufferMemoryEnd
  split
  · exact .inr (.inr rfl)
  · split
    · exact .inr (.inl rfl)
    · exact .inl rfl

theorem bufferTop_le (extMemK : BitVec 16) :
    (bufferTop (bufferMemoryEnd extMemK)).toNat ≤ 0x400000 ∧
      (bufferTop (bufferMemoryEnd extMemK)).toNat ≤ (bufferMemoryEnd extMemK).toNat := by
  rcases bufferMemoryEnd_cases extMemK with h | h | h
  all_goals
    rw [h]
    decide

/-- The loop starts with the invariant: below 640K, or at a whole megabyte above the hole. -/
theorem carving_start (extMemK : BitVec 16) (s : State) (hnr : s.nrBuffers = 0)
    (hroom : start.toNat + 36 + 1024 ≤ (bufferTop (bufferMemoryEnd extMemK)).toNat) :
    Carving start (bufferTop (bufferMemoryEnd extMemK)).toNat
      ⟨start, bufferTop (bufferMemoryEnd extMemK), s⟩ := by
  have hnone : ∀ i, ¬ i < s.nrBuffers := fun i hi => by omega
  have hb : (bufferTop (bufferMemoryEnd extMemK)).toNat % 1024 = 0 ∧
      ((bufferTop (bufferMemoryEnd extMemK)).toNat ≤ 0xA0000 ∨
        0x100000 < (bufferTop (bufferMemoryEnd extMemK)).toNat) := by
    rcases bufferMemoryEnd_cases extMemK with h | h | h
    all_goals
      rw [h]
      decide
  refine ⟨?_, ?_, fun _ => rfl, hb.1, ?_, le_rfl, hb.2, fun i hi => absurd hi (hnone i),
    fun i hi => absurd hi (hnone i), fun i hi => absurd hi (hnone i), fun i hi => absurd hi (hnone i),
    fun i hi => absurd hi (hnone i), fun i hi => absurd hi (hnone i)⟩
  · rw [hnr, headAt_zero]
  · rw [hnr]
    omega
  · exact (Nat.le_add_left _ _).trans hroom

/-- The loop ends, and not before its first turn. -/
theorem bufferInit_spec (extMemK : BitVec 16) (start : Addr) (s : State) {fuel : ℕ} (hfuel : 4096 < fuel)
    (hnr : s.nrBuffers = 0)
    (hroom : start.toNat + 36 + 1024 ≤ (bufferTop (bufferMemoryEnd extMemK)).toNat) :
    ∃ c, bufferInit fuel start (bufferMemoryEnd extMemK) s = some (close start c) ∧
      Carving start (bufferTop (bufferMemoryEnd extMemK)).toNat c ∧ 0 < c.state.nrBuffers := by
  have hle : (bufferTop (bufferMemoryEnd extMemK)).toNat / 1024 < fuel :=
    lt_of_le_of_lt (Nat.div_le_div_right (bufferTop_le extMemK).1) hfuel
  obtain ⟨c, hcarve, hc, hend⟩ := carve_spec (bufferTop_le extMemK).1 (carving_start extMemK s hnr hroom) hle
  refine ⟨c, ?_, hc, Nat.pos_of_ne_zero fun h0 => ?_⟩
  · rw [bufferInit_eq, hcarve]
    rfl
  · have hfirst := hc.first h0
    rw [h0] at hend
    omega

/-- `buffer_init` ends, with the memory from the end of the kernel on split into buffers. -/
theorem buffers_split (extMemK : BitVec 16) (start : Addr) (s : State) {fuel : ℕ} (hfuel : 4096 < fuel)
    (hnr : s.nrBuffers = 0)
    (hroom : start.toNat + 36 + 1024 ≤ (bufferTop (bufferMemoryEnd extMemK)).toNat) :
    ∃ s', bufferInit fuel start (bufferMemoryEnd extMemK) s = some s' ∧
      Split start (bufferMemoryEnd extMemK) s' := by
  obtain ⟨c, hinit, hc, hpos⟩ := bufferInit_spec extMemK start s hfuel hnr hroom
  exact ⟨_, hinit, hc.split (bufferTop_le extMemK).1 hpos (bufferTop_le extMemK).2⟩

/-- A machine of two megabytes, with a kernel that ends at 128K. -/
theorem buffers_split_small :
    ∃ s', bufferInit 5000 0x20000 (bufferMemoryEnd 1024) State.blank = some s' ∧
      Split 0x20000 (bufferMemoryEnd 1024) s' :=
  buffers_split 1024 0x20000 State.blank (by decide) rfl (by decide)

/-! ## The state that the buffer cache starts from -/

/-- The pointer to a head, or null. -/
def ptr (start : Addr) {n : ℕ} : Option (Fin n) → Addr
  | none => 0
  | some i => headAt start i

/-- The heads and the hash table carry the queues `q`. -/
structure Represents (start : Addr) (s : State) {n : ℕ} (q : Buffer.Queues n) : Prop where
  nr : s.nrBuffers = n
  bBlocknr : ∀ i : Fin n, (s.bh (headAt start i)).bBlocknr = q.bBlocknr i
  bDev : ∀ i : Fin n, (s.bh (headAt start i)).bDev = q.bDev i
  bPrev : ∀ i : Fin n, (s.bh (headAt start i)).bPrev = ptr start (q.bPrev i)
  bNext : ∀ i : Fin n, (s.bh (headAt start i)).bNext = ptr start (q.bNext i)
  bPrevFree : ∀ i : Fin n, (s.bh (headAt start i)).bPrevFree = ptr start (q.bPrevFree i)
  bNextFree : ∀ i : Fin n, (s.bh (headAt start i)).bNextFree = ptr start (q.bNextFree i)
  hashTable : ∀ k, s.hashTable k = ptr start (q.hashTable k)
  freeList : s.freeList = ptr start (some q.freeList)

theorem Carving.represents (hc : Carving start top c) (htop : top ≤ 0x400000) {m : ℕ}
    (hm : c.state.nrBuffers = m + 1) : Represents start (close start c)
      (Buffer.Queues.init fun i : Fin (m + 1) => ((close start c).bh (headAt start i)).bBlocknr) := by
  refine ⟨hm, fun _ => rfl, fun i => ?_, fun i => ?_, fun i => ?_, fun i => ?_, fun i => ?_, fun _ => rfl,
    (headAt_zero start).symm⟩
  all_goals obtain ⟨b, bh, hbh⟩ := hc.close_head htop (i := i) (by omega)
  · rw [hbh]
    rfl
  · rw [hbh]
    rfl
  · rw [hbh]
    rfl
  · rw [hbh]
    show headAt start _ = headAt start (i - 1 : Fin (m + 1)).val
    rw [Fin.coe_sub_one, hm]
    by_cases hi : i = 0
    · rw [if_pos hi, hi, if_pos (Fin.val_zero _)]
      rfl
    · have hne : ¬ i.val = 0 := fun h => hi (Fin.ext h)
      rw [if_neg hi, if_neg hne]
  · rw [hbh]
    show headAt start _ = headAt start (i + 1 : Fin (m + 1)).val
    rw [Fin.val_add_one, hm]
    by_cases hi : i = Fin.last m
    · rw [if_pos hi, hi, if_pos (by rw [Fin.val_last])]
    · have hne : ¬ i.val + 1 = m + 1 := fun h => hi (Fin.ext (Nat.succ.inj h))
      rw [if_neg hi, if_neg hne]

/-- The buffers are the queues that the buffer cache starts from. -/
theorem represents_bufferInit (extMemK : BitVec 16) (start : Addr) (s : State) {fuel : ℕ} (hfuel : 4096 < fuel)
    (hnr : s.nrBuffers = 0)
    (hroom : start.toNat + 36 + 1024 ≤ (bufferTop (bufferMemoryEnd extMemK)).toNat) :
    ∃ s' m blocknr, bufferInit fuel start (bufferMemoryEnd extMemK) s = some s' ∧
      Represents start s' (Buffer.Queues.init (n := m + 1) blocknr) ∧
      (Buffer.Queues.init (n := m + 1) blocknr).Inv := by
  obtain ⟨c, hinit, hc, hpos⟩ := bufferInit_spec extMemK start s hfuel hnr hroom
  obtain ⟨m, hm⟩ := Nat.exists_eq_succ_of_ne_zero hpos.ne'
  exact ⟨_, m, _, hinit, hc.represents (bufferTop_le extMemK).1 hm, Buffer.Queues.inv_init _⟩

end Linux011.BufferInit
