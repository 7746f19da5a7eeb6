import Mathlib.Logic.Function.Basic
import Mathlib.Data.List.Basic
import Mathlib.Tactic.IntervalCases

/-!
# Page frames and page-table entries

Physical memory as 32-bit words, `mem_map`, and the two functions of `mm/memory.c` that allocate
and free page frames. A frame is named by its number, the physical address shifted right by 12, so
`LOW_MEM` is frame 256 and `mem_map[MAP_NR(addr)]` is `memMap (addr >> 12)`.
-/

namespace Linux011.Mm

/-- An `unsigned long`. -/
abbrev Word := BitVec 32

/-! ## Entries -/

/-- `1 & e`. -/
def present (e : Word) : Bool := e.getLsbD 0

/-- The write bit. -/
def writable (e : Word) : Bool := e.getLsbD 1

/-- The bit the processor sets when the page is written. -/
def dirty (e : Word) : Bool := e.getLsbD 6

/-- The frame number in `0xfffff000 & e`. -/
def pageOf (e : Word) : ℕ := (e >>> 12).toNat

/-- `page | 7`: present, writable, user. -/
def entry (f : ℕ) : Word := BitVec.ofNat 32 f <<< 12 ||| 7#32

/-- `e &= ~2`. -/
def protect (e : Word) : Word := e &&& ~~~2#32

/-- `e |= 2`. -/
def unprotect (e : Word) : Word := e ||| 2#32

/-- The processor sets the accessed bit, and on a store the dirty bit. -/
def touch (e : Word) (store : Bool) : Word := if store then e ||| 0x60#32 else e ||| 0x20#32

/-- Two masks that leave the frame number alone. -/
theorem shift_and_not (e c : Word) (hc : c >>> 12 = 0#32) : (e &&& ~~~c) >>> 12 = e >>> 12 := by
  ext i hi
  have h : (c >>> 12).getLsbD i = false := by rw [hc]; simp
  simp only [BitVec.getLsbD_ushiftRight] at h
  simp only [← BitVec.getLsbD_eq_getElem, BitVec.getLsbD_ushiftRight, BitVec.getLsbD_and,
    BitVec.getLsbD_not, h]
  by_cases h12 : 12 + i < 32
  · simp [h12]
  · simp [h12, BitVec.getLsbD_of_ge e (12 + i) (by omega)]

theorem shift_or (e c : Word) (hc : c >>> 12 = 0#32) : (e ||| c) >>> 12 = e >>> 12 := by
  rw [BitVec.ushiftRight_or_distrib, hc, BitVec.or_zero]

@[simp] theorem pageOf_protect (e : Word) : pageOf (protect e) = pageOf e := by
  unfold pageOf protect; rw [shift_and_not _ _ (by decide)]

@[simp] theorem pageOf_unprotect (e : Word) : pageOf (unprotect e) = pageOf e := by
  unfold pageOf unprotect; rw [shift_or _ _ (by decide)]

@[simp] theorem pageOf_touch (e : Word) (b : Bool) : pageOf (touch e b) = pageOf e := by
  unfold pageOf touch; split_ifs <;> rw [shift_or _ _ (by decide)]

@[simp] theorem present_protect (e : Word) : present (protect e) = present e := by
  simp [present, protect]

@[simp] theorem present_unprotect (e : Word) : present (unprotect e) = present e := by
  simp [present, unprotect]

@[simp] theorem present_touch (e : Word) (b : Bool) : present (touch e b) = present e := by
  unfold touch present; split_ifs <;> simp

@[simp] theorem writable_protect (e : Word) : writable (protect e) = false := by
  simp [writable, protect]

@[simp] theorem writable_unprotect (e : Word) : writable (unprotect e) = true := by
  simp [writable, unprotect]

@[simp] theorem writable_touch (e : Word) (b : Bool) : writable (touch e b) = writable e := by
  unfold touch writable; split_ifs <;> simp

theorem present_zero : present (0 : Word) = false := by decide

@[simp] theorem present_entry (f : ℕ) : present (entry f) = true := by
  simp [present, entry]

@[simp] theorem writable_entry (f : ℕ) : writable (entry f) = true := by
  simp [writable, entry]

theorem pageOf_entry {f : ℕ} (hf : f < 2 ^ 20) : pageOf (entry f) = f := by
  unfold pageOf entry
  rw [shift_or _ _ (by decide)]
  simp only [BitVec.toNat_ushiftRight, BitVec.toNat_shiftLeft, BitVec.toNat_ofNat,
    Nat.shiftLeft_eq, Nat.shiftRight_eq_div_pow]
  omega

/-- The comparison `this_page > LOW_MEM` of a present entry, whose low bits are not all zero. -/
theorem lowMem_lt_iff {e : Word} (h : present e = true) :
    0x100000 < e.toNat ↔ 256 ≤ pageOf e := by
  unfold present at h
  have h1 : e.toNat % 2 = 1 := by
    rw [BitVec.getLsbD, Nat.testBit_zero] at h
    simpa using h
  unfold pageOf
  rw [BitVec.toNat_ushiftRight, Nat.shiftRight_eq_div_pow]
  omega

/-! ## Memory -/

/-- `LOW_MEM >> 12`. -/
def lowPages : ℕ := 256

/-- `PAGING_PAGES`. -/
def pagingPages : ℕ := 15 * 1024 * 1024 / 4096

/-- `USED`. -/
def USED : BitVec 8 := 100

/-- Physical memory (frame, word in the frame), `mem_map`, and `HIGH_MEMORY >> 12`. -/
structure Mem where
  phys : ℕ → ℕ → Word
  memMap : ℕ → BitVec 8
  highMemory : ℕ

/-- The calls of `panic` in `mm/memory.c` and `kernel/fork.c`. -/
inductive Panic
  | freeNonexistentPage
  | freeFreePage
  | freeWrongAlignment
  | freeSwapperMemory
  | copyWrongAlignment
  | copyAlreadyExist
  | toPageAlreadyExists
  | separateID
  | badDataLimit
  deriving DecidableEq, Repr

namespace Mem

/-- A store to word `i` of frame `f`. -/
def write (m : Mem) (f i : ℕ) (w : Word) : Mem :=
  { m with phys := Function.update m.phys f (Function.update (m.phys f) i w) }

/-- A store to a whole frame. -/
def fill (m : Mem) (f : ℕ) (c : ℕ → Word) : Mem :=
  { m with phys := Function.update m.phys f c }

/-- `mem_map[…] = c`. -/
def setMap (m : Mem) (f : ℕ) (c : BitVec 8) : Mem :=
  { m with memMap := Function.update m.memMap f c }

section Fields

variable (m : Mem)

@[simp] theorem write_memMap (f i : ℕ) (w : Word) : (m.write f i w).memMap = m.memMap := rfl
@[simp] theorem write_highMemory (f i : ℕ) (w : Word) :
    (m.write f i w).highMemory = m.highMemory := rfl
@[simp] theorem fill_memMap (f : ℕ) (c : ℕ → Word) : (m.fill f c).memMap = m.memMap := rfl
@[simp] theorem fill_highMemory (f : ℕ) (c : ℕ → Word) : (m.fill f c).highMemory = m.highMemory := rfl
@[simp] theorem setMap_phys (f : ℕ) (c : BitVec 8) : (m.setMap f c).phys = m.phys := rfl
@[simp] theorem setMap_memMap (f : ℕ) (c : BitVec 8) :
    (m.setMap f c).memMap = Function.update m.memMap f c := rfl
@[simp] theorem setMap_highMemory (f : ℕ) (c : BitVec 8) :
    (m.setMap f c).highMemory = m.highMemory := rfl

theorem write_phys_self (f i : ℕ) (w : Word) : (m.write f i w).phys f i = w := by
  simp [write]

theorem write_phys_of_ne {f i g j : ℕ} (w : Word) (h : g ≠ f ∨ j ≠ i) :
    (m.write f i w).phys g j = m.phys g j := by
  unfold write
  by_cases hg : g = f
  · subst hg
    have hj : j ≠ i := h.resolve_left (fun hn => hn rfl)
    simp [hj]
  · simp [hg]

theorem write_comm {f g : ℕ} (h : f ≠ g) (i j : ℕ) (w v : Word) :
    (m.write f i w).write g j v = (m.write g j v).write f i w := by
  unfold write
  simp only [Function.update_of_ne h, Function.update_of_ne h.symm]
  rw [Function.update_comm h.symm]

theorem write_fill_comm {f g : ℕ} (h : f ≠ g) (i : ℕ) (w : Word) (c : ℕ → Word) :
    (m.write f i w).fill g c = (m.fill g c).write f i w := by
  unfold write fill
  simp only [Function.update_of_ne h]
  rw [Function.update_comm h]

theorem write_write (f i : ℕ) (w v : Word) : (m.write f i w).write f i v = m.write f i v := by
  simp [write]

@[simp] theorem fill_phys_self (f : ℕ) (c : ℕ → Word) : (m.fill f c).phys f = c := by
  simp [fill]

theorem fill_phys_of_ne {f g : ℕ} (c : ℕ → Word) (h : g ≠ f) :
    (m.fill f c).phys g = m.phys g := by
  simp [fill, h]

end Fields

end Mem

/-- The scan of `get_free_page`: `mem_map` is searched for a zero from its last byte down. -/
def scanFree (map : ℕ → BitVec 8) : ℕ → Option ℕ
  | 0 => none
  | n + 1 => if map (lowPages + n) = 0 then some (lowPages + n) else scanFree map n

/-- `get_free_page`: the frame found is marked used and cleared. -/
def getFreePage (m : Mem) : Option (ℕ × Mem) :=
  (scanFree m.memMap pagingPages).map fun f => (f, (m.setMap f 1).fill f fun _ => 0)

/-- `free_page`. -/
def freePage (m : Mem) (f : ℕ) : Except Panic Mem :=
  if f < lowPages then .ok m
  else if m.highMemory ≤ f then .error .freeNonexistentPage
  else if m.memMap f = 0 then .error .freeFreePage
  else .ok (m.setMap f (m.memMap f - 1))

/-- `mem_init(start_mem, end_mem)`, both given as frame numbers. -/
def memInit (m : Mem) (startMem endMem : ℕ) : Mem :=
  { m with
    highMemory := endMem
    memMap := fun f => if startMem ≤ f ∧ f < endMem then 0 else USED }

theorem scanFree_eq_none_iff {map : ℕ → BitVec 8} {n : ℕ} :
    scanFree map n = none ↔ ∀ k < n, map (lowPages + k) ≠ 0 := by
  induction n with
  | zero => exact iff_of_true rfl fun k hk => absurd hk (Nat.not_lt_zero k)
  | succ n ih =>
    unfold scanFree
    split_ifs with h0
    · exact iff_of_false not_false fun h => h n (Nat.lt_succ_self n) h0
    · rw [ih]
      refine ⟨fun h k hk => ?_, fun h k hk => h k (Nat.lt_succ_of_lt hk)⟩
      rcases Nat.lt_succ_iff_lt_or_eq.1 hk with hlt | rfl
      · exact h k hlt
      · exact h0

theorem scanFree_eq_some {map : ℕ → BitVec 8} : ∀ {n f : ℕ}, scanFree map n = some f →
    map f = 0 ∧ lowPages ≤ f ∧ f < lowPages + n := by
  intro n
  induction n with
  | zero => intro f h; cases h
  | succ n ih =>
    intro f h
    unfold scanFree at h
    split_ifs at h with h0
    · obtain rfl := Option.some.inj h
      exact ⟨h0, by omega, by omega⟩
    · obtain ⟨h1, h2, h3⟩ := ih h
      exact ⟨h1, h2, by omega⟩

/-- What `get_free_page` returns: a frame whose count was zero, now one, and cleared. -/
theorem getFreePage_eq_some {m m' : Mem} {f : ℕ} (h : getFreePage m = some (f, m')) :
    m.memMap f = 0 ∧ lowPages ≤ f ∧ f < lowPages + pagingPages ∧
      m' = (m.setMap f 1).fill f fun _ => 0 := by
  obtain ⟨g, hg, he⟩ := Option.map_eq_some_iff.1 h
  obtain ⟨rfl, rfl⟩ := Prod.mk.inj he
  obtain ⟨h1, h2, h3⟩ := scanFree_eq_some hg
  exact ⟨h1, h2, h3, rfl⟩

end Linux011.Mm
