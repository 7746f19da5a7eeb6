import Linux011.Mm.Memory
import Mathlib.Tactic.IntervalCases

/-!
# Segment descriptors

The macros of `include/linux/sched.h` that read and write the base and the limit of a descriptor in a
local descriptor table, and what the limit means to the processor.

1. `Descriptor`, `setBase`, `getBase`, `setLimit`, `getLimit`.
2. `getBase_setBase` and `lsl_setLimit`: what they read is what was written, up to the encoding of the
   limit in pages.
-/

namespace Linux011.Execve

/-- A descriptor, by the offsets of its parts. -/
structure Descriptor where
  word0 : BitVec 16
  word2 : BitVec 16
  byte4 : BitVec 8
  byte5 : BitVec 8
  byte6 : BitVec 8
  byte7 : BitVec 8
  deriving DecidableEq

namespace Descriptor

/-- `_set_base`. -/
def setBase (d : Descriptor) (base : BitVec 32) : Descriptor :=
  { d with
    word2 := base.extractLsb' 0 16
    byte4 := base.extractLsb' 16 8
    byte7 := base.extractLsb' 24 8 }

/-- `_get_base`. -/
def getBase (d : Descriptor) : BitVec 32 := d.byte7 ++ d.byte4 ++ d.word2

/-- `set_limit`: `_set_limit` of `(limit - 1) >> 12`. -/
def setLimit (d : Descriptor) (limit : BitVec 32) : Descriptor :=
  let limit := (limit - 1) >>> 12
  { d with
    word0 := limit.extractLsb' 0 16
    byte6 := limit.extractLsb' 16 8 ||| (d.byte6 &&& 0xf0) }

/-- The limit is in pages. -/
def granular (d : Descriptor) : Bool := d.byte6.getLsbD 7

/-- The highest offset in the segment, which `lsll` reads. -/
def lsl (d : Descriptor) : BitVec 32 :=
  let limit : BitVec 20 := d.byte6.extractLsb' 0 4 ++ d.word0
  if d.granular then limit ++ (0xfff : BitVec 12) else limit.setWidth 32

/-- `get_limit`. -/
def getLimit (d : Descriptor) : BitVec 32 := d.lsl + 1

@[simp] theorem setBase_granular (d : Descriptor) (base : BitVec 32) :
    (d.setBase base).granular = d.granular := rfl

@[simp] theorem setBase_lsl (d : Descriptor) (base : BitVec 32) : (d.setBase base).lsl = d.lsl := rfl

@[simp] theorem setLimit_getBase (d : Descriptor) (limit : BitVec 32) :
    (d.setLimit limit).getBase = d.getBase := rfl

@[simp] theorem getBase_setBase (d : Descriptor) (base : BitVec 32) :
    (d.setBase base).getBase = base := by
  apply BitVec.eq_of_getLsbD_eq
  intro i hi
  simp only [getBase, setBase, BitVec.getLsbD_append, BitVec.getLsbD_extractLsb']
  by_cases h1 : i < 16
  · simp [h1]
  · by_cases h2 : i < 24
    · have : i - 16 < 8 := by omega
      simp [h1, this, show 16 + (i - 16) = i by omega]
    · have h3 : ¬ i - 16 < 8 := by omega
      have h4 : i - 16 - 8 < 8 := by omega
      simp [h1, h3, h4, show 24 + (i - 16 - 8) = i by omega]

theorem setLimit_granular (d : Descriptor) (limit : BitVec 32) (h : d.granular = true) :
    (d.setLimit limit).granular = true := by
  unfold granular at h ⊢
  simp [setLimit, h]

/-- The limit is stored as a number of pages. -/
theorem toNat_lsl_setLimit (d : Descriptor) (limit : BitVec 32) (h : d.granular = true) :
    (d.setLimit limit).lsl.toNat = (limit - 1).toNat / 4096 * 4096 + 4095 := by
  have hpages : ((d.setLimit limit).byte6.extractLsb' 0 4 ++ (d.setLimit limit).word0 : BitVec 20) =
      ((limit - 1) >>> 12).setWidth 20 := by
    apply BitVec.eq_of_getLsbD_eq
    intro i hi
    simp only [setLimit, BitVec.getLsbD_append, BitVec.getLsbD_extractLsb', BitVec.getLsbD_setWidth,
      BitVec.getLsbD_or, BitVec.getLsbD_and]
    by_cases h1 : i < 16
    · simp [h1, hi]
    · have h2 : i - 16 < 4 := by omega
      have h3 : i - 16 < 8 := by omega
      have hmask : (0xf0 : BitVec 8).getLsbD (i - 16) = false := by
        generalize i - 16 = j at h2
        interval_cases j <;> rfl
      rw [if_neg h1, Nat.zero_add, hmask, show 16 + (i - 16) = i by omega]
      simp only [h2, h3, hi, decide_true, Bool.true_and, Bool.and_false, Bool.or_false]
  unfold lsl
  simp only [setLimit_granular d limit h, if_true, hpages]
  rw [BitVec.toNat_append, BitVec.toNat_setWidth, BitVec.toNat_ushiftRight, Nat.shiftRight_eq_div_pow,
    Nat.shiftLeft_eq, Nat.or_comm]
  have hlt := (limit - 1).isLt
  have hsmall : (limit - 1).toNat / 2 ^ 12 % 2 ^ 20 = (limit - 1).toNat / 4096 := by omega
  rw [hsmall, Nat.or_comm, ← Nat.shiftLeft_eq, ← Nat.shiftLeft_add_eq_or_of_lt (by decide)]
  simp [Nat.shiftLeft_eq]

end Descriptor

end Linux011.Execve
