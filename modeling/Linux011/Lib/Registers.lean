import Mathlib.Data.BitVec
import Mathlib.Logic.Function.Basic

/-!
# Registers

A register of 32 bits, the parts of it that have names of their own, and its shifts and rotations.

1. `word`, `low`, `high`: what `%dx`, `%dl` and `%dh` are of `%edx`. `setWord`, `setLow`, `setHigh`.
2. `rorl16`, and what its parts are.
3. `shrd`: two registers shifted as one, `append_shrd`.
-/

namespace Linux011.Reg

/-! ## Parts -/

def word (r : BitVec 32) : BitVec 16 := r.extractLsb' 0 16

def low (r : BitVec 32) : BitVec 8 := r.extractLsb' 0 8

def high (r : BitVec 32) : BitVec 8 := r.extractLsb' 8 8

def setWord (r : BitVec 32) (w : BitVec 16) : BitVec 32 := r.extractLsb' 16 16 ++ w

def setLow (r : BitVec 32) (b : BitVec 8) : BitVec 32 := r.extractLsb' 8 24 ++ b

def setHigh (r : BitVec 32) (b : BitVec 8) : BitVec 32 :=
  (r.extractLsb' 16 16 ++ b ++ r.extractLsb' 0 8 : BitVec 32)

variable {r s : BitVec 32} {b c : BitVec 8}

/-- A part of a part. -/
theorem extract_extract {n i j k : ℕ} {x : BitVec n} {m : ℕ} (h : j + k ≤ m) :
    (x.extractLsb' i m).extractLsb' j k = x.extractLsb' (i + j) k := by
  apply BitVec.eq_of_getLsbD_eq
  intro t ht
  simp only [BitVec.getLsbD_extractLsb']
  simp [ht, show j + t < m by omega, Nat.add_assoc]

@[simp] theorem low_setLow : low (setLow r b) = b := BitVec.extractLsb'_append_eq_right

@[simp] theorem high_setLow : high (setLow r b) = high r := by
  unfold high setLow
  rw [BitVec.extractLsb'_append_eq_of_le le_rfl, extract_extract (by decide)]

@[simp] theorem high_setHigh : high (setHigh r b) = b := by
  unfold high setHigh
  rw [BitVec.extractLsb'_append_eq_of_le le_rfl]
  exact BitVec.extractLsb'_append_eq_right

@[simp] theorem low_setHigh : low (setHigh r b) = low r := BitVec.extractLsb'_append_eq_right

/-- Both bytes of the lower half are set. -/
theorem word_setLow_setHigh : word (setLow (setHigh r b) c) = (b ++ c : BitVec 16) := by
  apply BitVec.eq_of_getLsbD_eq
  intro i hi
  simp only [word, setLow, setHigh, BitVec.getLsbD_append, BitVec.getLsbD_extractLsb', Nat.zero_add]
  by_cases h : i < 8
  · simp [h, hi]
  · simp [h, hi, show i - 8 < 8 by omega, show i - 8 < 24 by omega, show ¬ 8 + (i - 8) < 8 by omega]

/-- What is shifted to the upper half is what was in the lower one. -/
theorem setWord_shiftLeft {w : BitVec 16} : setWord (r <<< 16) w = (word r ++ w : BitVec 32) := by
  unfold setWord word
  congr 1
  apply BitVec.eq_of_getLsbD_eq
  intro i hi
  have hbit : (r <<< 16).getLsbD (16 + i) = r.getLsbD i := by
    rw [BitVec.getLsbD_shiftLeft, show 16 + i - 16 = i by omega]
    simp [show 16 + i < 32 by omega]
  rw [BitVec.getLsbD_extractLsb', hbit, BitVec.getLsbD_extractLsb', Nat.zero_add]

/-! ## Rotation -/

/-- `rorl $16`. -/
def rorl16 (r : BitVec 32) : BitVec 32 := r.rotateRight 16

theorem rorl16_eq : rorl16 r = (r.extractLsb' 0 16 ++ r.extractLsb' 16 16 : BitVec 32) := by
  apply BitVec.eq_of_getLsbD_eq
  intro i hi
  simp only [rorl16, BitVec.getLsbD_rotateRight, BitVec.getLsbD_append, BitVec.getLsbD_extractLsb']
  by_cases h : i < 16
  · simp [h]
  · simp [h, hi, show i - 16 < 16 by omega]

@[simp] theorem low_rorl16 : low (rorl16 r) = r.extractLsb' 16 8 := by
  rw [rorl16_eq, low, BitVec.extractLsb'_append_eq_of_add_le (by decide), extract_extract (by decide)]

@[simp] theorem high_rorl16 : high (rorl16 r) = r.extractLsb' 24 8 := by
  rw [rorl16_eq, high, BitVec.extractLsb'_append_eq_of_add_le (by decide), extract_extract (by decide)]

/-! ## Two registers -/

/-- `shrdl $k`: `dst` shifted to the right, with the bits of `src` coming in. -/
def shrd (k : ℕ) (src dst : BitVec 32) : BitVec 32 := ((src ++ dst : BitVec 64) >>> k).setWidth 32

/-- Both registers are shifted as one. -/
theorem append_shrd {k : ℕ} (hk : k ≤ 32) :
    ((r >>> k) ++ shrd k r s : BitVec 64) = (r ++ s : BitVec 64) >>> k := by
  apply BitVec.eq_of_getLsbD_eq
  intro i hi
  simp only [shrd, BitVec.getLsbD_append, BitVec.getLsbD_ushiftRight, BitVec.getLsbD_setWidth]
  by_cases h : i < 32
  · simp [h]
  · simp [h, show ¬ k + i < 32 by omega, show k + (i - 32) = k + i - 32 by omega]

end Linux011.Reg
