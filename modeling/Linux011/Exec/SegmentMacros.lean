import Linux011.Exec.Segment
import Linux011.Lib.Bytes
import Linux011.Lib.Registers

/-!
# The segment macros in memory

The macros of `include/linux/sched.h` as they move bytes and words between `%edx` and the eight bytes of
a descriptor, and `lsll`, by which `get_limit` has the processor read the limit.

1. `setBase`, `getBase`, `setLimit`, `lsll`, `getLimit`.
2. `descriptorAt`: the descriptor in memory. The macros do to it what the operations of `Descriptor` do:
   `descriptorAt_setBase`, `descriptorAt_setLimit`, `getBase_eq`.
3. `descriptors_round_trip`.
-/

namespace Linux011.Segment

open Bytes Execve Reg

/-! ## The macros -/

/-- `movw`, from memory. -/
def getWord (m : Memory) (a : Addr) : BitVec 16 := m (a + 1) ++ m a

/-- `movw`, to memory. -/
def putWord (m : Memory) (a : Addr) (w : BitVec 16) : Memory :=
  Function.update (Function.update m a (w.extractLsb' 0 8)) (a + 1) (w.extractLsb' 8 8)

/-- `_set_base`, with `base` in `%edx`. -/
def setBase (m : Memory) (addr : Addr) (edx : BitVec 32) : Memory :=
  let m := putWord m (addr + 2) (word edx)
  let edx := rorl16 edx
  let m := Function.update m (addr + 4) (low edx)
  Function.update m (addr + 7) (high edx)

/-- `_set_limit`, with `limit` in `%edx`. -/
def setLimitPages (m : Memory) (addr : Addr) (edx : BitVec 32) : Memory :=
  let m := putWord m addr (word edx)
  let edx := rorl16 edx
  let edx := setHigh edx (m (addr + 6))
  let edx := setHigh edx (high edx &&& 0xf0)
  let edx := setLow edx (high edx ||| low edx)
  Function.update m (addr + 6) (low edx)

/-- `set_limit`. -/
def setLimit (m : Memory) (addr : Addr) (limit : BitVec 32) : Memory :=
  setLimitPages m addr ((limit - 1) >>> 12)

/-- `_get_base`, with anything in `%edx` before. -/
def getBase (m : Memory) (addr : Addr) (edx : BitVec 32) : BitVec 32 :=
  let edx := setHigh edx (m (addr + 7))
  let edx := setLow edx (m (addr + 4))
  let edx := edx <<< 16
  setWord edx (getWord m (addr + 2))

/-- The descriptor in these eight bytes. -/
def descriptorAt (m : Memory) (addr : Addr) : Descriptor where
  word0 := getWord m addr
  word2 := getWord m (addr + 2)
  byte4 := m (addr + 4)
  byte5 := m (addr + 5)
  byte6 := m (addr + 6)
  byte7 := m (addr + 7)

/-- `lsl` reads no limit but those of code, data, task state segments and local tables. -/
def hasLimit (d : Descriptor) : Bool :=
  d.byte5.getLsbD 4 || [1, 2, 3, 9, 11].contains (d.byte5.extractLsb' 0 4)

/-- Any level may read the limit of conforming code. -/
def conforming (d : Descriptor) : Bool := d.byte5 &&& 0x1c == 0x1c

def visible (d : Descriptor) (cpl rpl : BitVec 2) : Bool :=
  let dpl : BitVec 2 := d.byte5.extractLsb' 5 2
  hasLimit d && (conforming d || (cpl ≤ dpl && rpl ≤ dpl))

/-- `lsll`, which leaves its register alone where it refuses to read. -/
def lsll (d : Descriptor) (cpl rpl : BitVec 2) (r : BitVec 32) : BitVec 32 :=
  if visible d cpl rpl then d.lsl else r

/-- `get_limit`, for a selector of this descriptor, and with anything in the register before. -/
def getLimit (m : Memory) (addr : Addr) (cpl rpl : BitVec 2) (r : BitVec 32) : BitVec 32 :=
  lsll (descriptorAt m addr) cpl rpl r + 1

/-! ## What they do to the descriptor -/

variable {m : Memory} {addr a : Addr} {base limit edx r : BitVec 32} {cpl rpl : BitVec 2}

theorem setBase_of_ne (h2 : a ≠ addr + 2) (h3 : a ≠ addr + 3) (h4 : a ≠ addr + 4)
    (h7 : a ≠ addr + 7) : setBase m addr base a = m a := by
  have h3' : a ≠ addr + 2 + 1 := by rwa [add_assoc]
  unfold setBase putWord
  rw [Function.update_of_ne h7, Function.update_of_ne h4, Function.update_of_ne h3',
    Function.update_of_ne h2]

theorem setLimitPages_of_ne (h0 : a ≠ addr) (h1 : a ≠ addr + 1) (h6 : a ≠ addr + 6) :
    setLimitPages m addr edx a = m a := by
  unfold setLimitPages putWord
  rw [Function.update_of_ne h6, Function.update_of_ne h1, Function.update_of_ne h0]

/-- The flags in the upper half of the byte stay. -/
theorem setLimitPages_six : setLimitPages m addr edx (addr + 6) =
    (m (addr + 6) &&& 0xf0) ||| edx.extractLsb' 16 8 := by
  have h0 : addr + 6 ≠ addr := by bv_omega
  have h1 : addr + 6 ≠ addr + 1 := by bv_omega
  unfold setLimitPages putWord
  rw [Function.update_self, low_setLow, high_setHigh, high_setHigh, low_setHigh, low_setHigh, low_rorl16,
    Function.update_of_ne h1, Function.update_of_ne h0]

theorem getBase_eq : getBase m addr edx = (descriptorAt m addr).getBase := by
  unfold getBase Descriptor.getBase descriptorAt
  rw [setWord_shiftLeft, word_setLow_setHigh]

/-- The two bytes of a word. -/
theorem getWord_of {w : BitVec 16} (h0 : m a = w.extractLsb' 0 8) (h1 : m (a + 1) = w.extractLsb' 8 8) :
    getWord m a = w := by
  have h8 : 8 = 0 + 8 := rfl
  rw [getWord, h0, h1, BitVec.extractLsb'_append_extractLsb'_eq_extractLsb' h8, BitVec.extractLsb'_eq_self]

theorem getWord_congr {m' : Memory} (h0 : m' a = m a) (h1 : m' (a + 1) = m (a + 1)) :
    getWord m' a = getWord m a := by
  rw [getWord, getWord, h0, h1]

theorem descriptorAt_setBase :
    descriptorAt (setBase m addr base) addr = (descriptorAt m addr).setBase base := by
  have hne : ∀ k : BitVec 32, k ∉ [2, 3, 4, 7] → setBase m addr base (addr + k) = m (addr + k) := by
    intro k hk
    simp only [List.mem_cons, List.not_mem_nil, or_false, not_or] at hk
    obtain ⟨h2, h3, h4, h7⟩ := hk
    exact setBase_of_ne (by bv_omega) (by bv_omega) (by bv_omega) (by bv_omega)
  have h7 : setBase m addr base (addr + 7) = base.extractLsb' 24 8 := by
    simp [setBase]
  have h4 : setBase m addr base (addr + 4) = base.extractLsb' 16 8 := by
    simp [setBase]
  have h2 : getWord (setBase m addr base) (addr + 2) = base.extractLsb' 0 16 := by
    apply getWord_of
    · simp [setBase, putWord, word, add_assoc]
    · simp [setBase, putWord, word, add_assoc]
  have h0 : getWord (setBase m addr base) addr = getWord m addr := by
    have hz := hne 0 (by decide)
    rw [add_zero] at hz
    exact getWord_congr hz (hne 1 (by decide))
  unfold descriptorAt Descriptor.setBase
  rw [h0, h2, h4, h7, hne 5 (by decide), hne 6 (by decide)]

theorem descriptorAt_setLimit :
    descriptorAt (setLimit m addr limit) addr = (descriptorAt m addr).setLimit limit := by
  have hne : ∀ k : BitVec 32, k ∉ [0, 1, 6] →
      setLimit m addr limit (addr + k) = m (addr + k) := by
    intro k hk
    simp only [List.mem_cons, List.not_mem_nil, or_false, not_or] at hk
    obtain ⟨h0, h1, h6⟩ := hk
    exact setLimitPages_of_ne (by bv_omega) (by bv_omega) (by bv_omega)
  have h0 : getWord (setLimit m addr limit) addr = ((limit - 1) >>> 12).extractLsb' 0 16 := by
    apply getWord_of
    · simp [setLimit, setLimitPages, putWord, word]
    · simp [setLimit, setLimitPages, putWord, word]
  have h2 : getWord (setLimit m addr limit) (addr + 2) = getWord m (addr + 2) := by
    have h3 := hne 3 (by decide)
    exact getWord_congr (hne 2 (by decide)) (by rwa [add_assoc])
  have h6 : setLimit m addr limit (addr + 6) =
      ((limit - 1) >>> 12).extractLsb' 16 8 ||| (m (addr + 6) &&& 0xf0) := by
    rw [setLimit, setLimitPages_six, BitVec.or_comm]
  unfold descriptorAt Descriptor.setLimit
  rw [h0, h2, h6, hne 4 (by decide), hne 5 (by decide), hne 7 (by decide)]

/-! ## Round trips -/

theorem setBase_congr {m' : Memory} (h : m' a = m a) :
    setBase m' addr base a = setBase m addr base a := by
  simp only [setBase, putWord, Function.update_apply, h]

theorem setLimit_congr {m' : Memory} (h : m' a = m a) (h6 : m' (addr + 6) = m (addr + 6)) :
    setLimit m' addr limit a = setLimit m addr limit a := by
  have hne0 : addr + 6 ≠ addr := by bv_omega
  have hne1 : addr + 6 ≠ addr + 1 := by bv_omega
  simp only [setLimit, setLimitPages, putWord, Function.update_apply, h, h6, hne0, hne1, if_false]

/-- Each changes bytes that the other leaves alone. -/
theorem setLimit_setBase :
    setLimit (setBase m addr base) addr limit = setBase (setLimit m addr limit) addr base := by
  funext a
  by_cases h : a = addr + 2 ∨ a = addr + 3 ∨ a = addr + 4 ∨ a = addr + 7
  · have hlimit : ∀ m, setLimit m addr limit a = m a := by
      intro m
      rcases h with rfl | rfl | rfl | rfl
      all_goals exact setLimitPages_of_ne (by bv_omega) (by bv_omega) (by bv_omega)
    rw [hlimit, setBase_congr (hlimit m)]
  · simp only [not_or] at h
    obtain ⟨h2, h3, h4, h7⟩ := h
    have hbase : ∀ m, setBase m addr base a = m a := fun m => setBase_of_ne h2 h3 h4 h7
    rw [hbase, setLimit_congr (hbase m)]
    exact setBase_of_ne (by bv_omega) (by bv_omega) (by bv_omega) (by bv_omega)

theorem visible_setLimit {d : Descriptor} : visible (d.setLimit limit) cpl rpl = visible d cpl rpl := rfl

/-- The limit in pages, and one more: rounded up. -/
theorem toNat_lsl_add_one {d : Descriptor} (hd : d.granular = true) :
    ((d.setLimit limit).lsl + 1).toNat = (limit.toNat + 4095) / 4096 * 4096 % 2 ^ 32 := by
  have hlsl := d.toNat_lsl_setLimit limit hd
  have hlt := limit.isLt
  rw [BitVec.toNat_add, hlsl]
  bv_omega

/-- The limit in pages has no bit where the flags are. -/
theorem pages_and_flags : ((limit - 1) >>> 12).extractLsb' 16 8 &&& 0xf0 = 0#8 := by
  apply BitVec.eq_of_getLsbD_eq
  intro i hi
  rw [BitVec.getLsbD_and, BitVec.getLsbD_zero, Bool.and_eq_false_iff]
  by_cases h : i < 4
  · right
    interval_cases i <;> rfl
  · left
    rw [BitVec.getLsbD_extractLsb', BitVec.getLsbD_ushiftRight, BitVec.getLsbD_of_ge _ _ (by omega)]
    exact Bool.and_false _

theorem setLimit_flags : setLimit m addr limit (addr + 6) &&& 0xf0 = m (addr + 6) &&& 0xf0 := by
  rw [setLimit, setLimitPages_six, BitVec.and_or_distrib_right, pages_and_flags, BitVec.and_assoc,
    BitVec.and_self, BitVec.or_zero]

/-- **`set_base` and `set_limit` write what `get_base` and the processor read, and nothing else**: the
limit as whole pages, and each leaves alone what the other one writes. The limit is read where the
processor reads limits of such descriptors at all, and whether it does is not changed. -/
theorem descriptors_round_trip (m : Memory) (addr : Addr) (base limit : BitVec 32) :
    (∀ edx, getBase (setBase m addr base) addr edx = base) ∧
    (∀ a, a ≠ addr + 2 → a ≠ addr + 3 → a ≠ addr + 4 → a ≠ addr + 7 → setBase m addr base a = m a) ∧
    (∀ cpl rpl, visible (descriptorAt (setLimit m addr limit) addr) cpl rpl =
      visible (descriptorAt m addr) cpl rpl) ∧
    ((descriptorAt m addr).granular = true → ∀ cpl rpl r,
      visible (descriptorAt m addr) cpl rpl = true →
      (getLimit (setLimit m addr limit) addr cpl rpl r).toNat =
        (limit.toNat + 4095) / 4096 * 4096 % 2 ^ 32) ∧
    (∀ edx, getBase (setLimit m addr limit) addr edx = getBase m addr edx) ∧
    (∀ a, a ≠ addr → a ≠ addr + 1 → a ≠ addr + 6 → setLimit m addr limit a = m a) ∧
    setLimit m addr limit (addr + 6) &&& 0xf0 = m (addr + 6) &&& 0xf0 ∧
    setLimit (setBase m addr base) addr limit = setBase (setLimit m addr limit) addr base := by
  refine ⟨fun edx => ?_, fun a => setBase_of_ne, fun cpl rpl => ?_, fun hg cpl rpl r hv => ?_,
    fun edx => ?_, fun a => setLimitPages_of_ne, setLimit_flags, setLimit_setBase⟩
  · rw [getBase_eq, descriptorAt_setBase, Descriptor.getBase_setBase]
  · rw [descriptorAt_setLimit, visible_setLimit]
  · unfold getLimit lsll
    rw [descriptorAt_setLimit, visible_setLimit, if_pos hv]
    exact toNat_lsl_add_one hg
  · rw [getBase_eq, getBase_eq, descriptorAt_setLimit, Descriptor.setLimit_getBase]

/-- The data segment of task 0. -/
def userData : Memory := fun a => [0x9f, 0, 0, 0, 0, 0xf2, 0xc0, 0].getD a.toNat 0

theorem descriptors_round_trip_userData :
    (getLimit (setLimit userData 0 0x2345) 0 0 3 7).toNat = 0x3000 :=
  (descriptors_round_trip userData 0 0 0x2345).2.2.2.1 (by decide) 0 3 7 (by decide)

end Linux011.Segment
