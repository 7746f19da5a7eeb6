import Linux011.Buffer.Init
import Linux011.Exec.Slot
import Linux011.Mm.Process
import Mathlib.Algebra.GroupWithZero.Nat

/-!
# The first page tables

`setup_paging` of `boot/head.s`, and the limits of the memory that `main` passes on to `mem_init`
(`init/main.c`). The page directory and the four page tables take the place of the first five frames,
with the code of `head.s` that is done.

1. `setupPaging`, `startMem`, `endMem`.
2. `setupPaging_eq`: the page tables. `head_init`: where the runs of `Linux011.Mm` begin.
-/

namespace Linux011.Boot

open BufferInit (memoryEnd bufferMemoryEnd)
open Mm

/-! ## The code -/

/-- What `stosl` writes. -/
def stosl (m : Mem) (edi eax : Word) : Mem := m.write (edi.toNat / 4096) (edi.toNat % 4096 / 4) eax

/-- `cld;rep;stosl` with `n` in `ecx`. -/
def repStosl (n : ℕ) (edi eax : Word) (m : Mem) : Mem :=
  (List.range n).foldl (fun m k => stosl m (edi + BitVec.ofNat 32 (4 * k)) eax) m

/-- The loop that fills the page tables backwards, at most `n` times. `jge` looks at the difference
itself. -/
def fillPages : ℕ → Word → Word → Mem → Option Mem
  | 0, _, _, _ => none
  | n + 1, edi, eax, m =>
    let m := stosl m edi eax
    if 0 ≤ eax.toInt - 0x1000 then fillPages n (edi - 4) (eax - 0x1000) m else some m

/-- `setup_paging`. -/
def setupPaging (fuel : ℕ) (m : Mem) : Option Mem :=
  let m := repStosl (1024 * 5) 0 0 m
  let m := stosl m 0 0x1007
  let m := stosl m 4 0x2007
  let m := stosl m 8 0x3007
  let m := stosl m 12 0x4007
  fillPages fuel (0x4000 + 4092) 0xfff007 m

/-- The arguments of `mem_init`, as frame numbers. Without a ram disk `main_memory_start` is
`buffer_memory_end`. -/
def startMem (extMemK : BitVec 16) : ℕ := (bufferMemoryEnd extMemK).toNat / 4096

def endMem (extMemK : BitVec 16) : ℕ := (memoryEnd extMemK).toNat / 4096

/-! ## The page tables -/

theorem stosl_of_lt {m : Mem} {edi eax : Word} {f i : ℕ} (h : edi.toNat = 4096 * f + 4 * i)
    (hi : i < 1024) : stosl m edi eax = m.write f i eax := by
  unfold stosl
  congr 1 <;> omega

theorem write_phys (m : Mem) (f i : ℕ) (w : Word) (g j : ℕ) :
    (m.write f i w).phys g j = if g = f ∧ j = i then w else m.phys g j := by
  split
  · next h =>
    obtain ⟨rfl, rfl⟩ := h
    exact m.write_phys_self g j w
  · next h => exact m.write_phys_of_ne w (by omega)

theorem repStosl_phys (m : Mem) {n : ℕ} (hn : n ≤ 1024 * 5) :
    (∀ f i, i < 1024 → (repStosl n 0 0 m).phys f i =
      if 1024 * f + i < n then 0 else m.phys f i) := by
  induction n with
  | zero => exact fun f i _ => (if_neg (Nat.not_lt_zero _)).symm
  | succ n ih =>
    intro f i hi
    have hstep : repStosl (n + 1) 0 0 m =
        stosl (repStosl n 0 0 m) (0 + BitVec.ofNat 32 (4 * n)) 0 := by
      unfold repStosl
      rw [List.range_succ, List.foldl_append]
      rfl
    have hedi : (0 + BitVec.ofNat 32 (4 * n) : Word).toNat = 4096 * (n / 1024) + 4 * (n % 1024) := by
      rw [BitVec.toNat_add, BitVec.toNat_ofNat, show (0 : Word).toNat = 0 from rfl]
      omega
    rw [hstep, stosl_of_lt hedi (by omega), write_phys, ih (by omega) f i hi]
    by_cases h : f = n / 1024 ∧ i = n % 1024
    · rw [if_pos h, if_pos (by omega)]
    · rw [if_neg h]
      by_cases h' : 1024 * f + i < n
      · rw [if_pos h', if_pos (by omega)]
      · rw [if_neg h', if_neg (by omega)]

theorem toNat_entry {f : ℕ} (hf : f < 2 ^ 20) : (entry f).toNat = 4096 * f + 7 := by
  have h := Nat.shiftLeft_add_eq_or_of_lt (show 7 < 2 ^ 12 by decide) f
  unfold entry
  have hs : (f % 2 ^ 32) <<< 12 % 2 ^ 32 = f <<< 12 := by
    rw [Nat.shiftLeft_eq, Nat.shiftLeft_eq]
    omega
  rw [BitVec.toNat_or, BitVec.toNat_shiftLeft, BitVec.toNat_ofNat, show (7#32).toNat = 7 from rfl,
    hs, ← h, Nat.shiftLeft_eq]
  omega

/-- From the entry `j` on, counted from the first one of the first table, down to it. -/
theorem fillPages_eq (j : ℕ) : ∀ {edi eax : Word} {m : Mem}, j < 4096 →
    edi.toNat = 0x1000 + 4 * j → eax.toNat = 0x1000 * j + 7 →
    ∃ m', (∀ n, j + 1 ≤ n → fillPages n edi eax m = some m') ∧
      ∀ f i, i < 1024 → m'.phys f i =
        if 1 ≤ f ∧ 1024 * (f - 1) + i ≤ j then entry (1024 * (f - 1) + i) else m.phys f i := by
  induction j with
  | zero =>
    intro edi eax m _ hedi heax
    have heax' : eax = entry 0 := BitVec.eq_of_toNat_eq (heax.trans (toNat_entry (by decide)).symm)
    have hint : eax.toInt = 7 := by
      rw [heax']
      rfl
    refine ⟨stosl m edi eax, fun n hn => ?_, fun f i hi => ?_⟩
    · obtain ⟨n, rfl⟩ := Nat.exists_eq_add_of_le' hn
      rw [fillPages, if_neg (by omega)]
    · rw [stosl_of_lt (f := 1) (i := 0) (by omega) (by omega), write_phys, heax']
      by_cases h : f = 1 ∧ i = 0
      · obtain ⟨rfl, rfl⟩ := h
        rfl
      · rw [if_neg h, if_neg (by omega)]
  | succ j ih =>
    intro edi eax m hj hedi heax
    have heax' : eax = entry (j + 1) :=
      BitVec.eq_of_toNat_eq (by rw [toNat_entry (by omega)]; omega)
    have hint : eax.toInt = 0x1000 * (j + 1) + 7 := by
      rw [BitVec.toInt_eq_toNat_cond, if_pos (by omega), heax]
      omega
    have hedi' : (edi - 4).toNat = 0x1000 + 4 * j := by
      rw [BitVec.toNat_sub, hedi, show (4 : Word).toNat = 4 from rfl]
      omega
    have heax'' : (eax - 0x1000).toNat = 0x1000 * j + 7 := by
      rw [BitVec.toNat_sub, heax, show (0x1000 : Word).toNat = 0x1000 from rfl]
      omega
    obtain ⟨m', h1, h2⟩ := @ih (edi - 4) (eax - 0x1000) (stosl m edi eax) (by omega) hedi' heax''
    refine ⟨m', fun n hn => ?_, fun f i hi => ?_⟩
    · obtain ⟨n, rfl⟩ := Nat.exists_eq_add_of_le' (show 1 ≤ n by omega)
      rw [fillPages, if_pos (by omega)]
      exact h1 n (by omega)
    · rw [h2 f i hi, stosl_of_lt (f := 1 + (j + 1) / 1024) (i := (j + 1) % 1024) (by omega) (by omega),
        write_phys, heax']
      by_cases h : 1 ≤ f ∧ 1024 * (f - 1) + i ≤ j
      · rw [if_pos h, if_pos (by omega)]
      · rw [if_neg h]
        by_cases h' : f = 1 + (j + 1) / 1024 ∧ i = (j + 1) % 1024
        · rw [if_pos h', if_pos (by omega)]
          exact congrArg entry (by omega)
        · rw [if_neg h', if_neg (by omega)]

/-- What `setup_paging` writes: the directory, and the tables that map 16 MB onto themselves. -/
theorem setupPaging_eq (m : Mem) : ∃ m', (∀ fuel, 4096 ≤ fuel → setupPaging fuel m = some m') ∧
    ∀ f i, i < 1024 → m'.phys f i =
      if f = 0 then (if i < 4 then entry (i + 1) else 0)
      else if f ≤ 4 then entry (1024 * (f - 1) + i)
      else m.phys f i := by
  have hdir : ∀ (m₀ : Mem) (f i : ℕ), i < 1024 →
      (stosl (stosl (stosl (stosl m₀ 0 0x1007) 4 0x2007) 8 0x3007) 12 0x4007).phys f i =
        if f = 0 ∧ i < 4 then entry (i + 1) else m₀.phys f i := by
    intro m₀ f i hi
    rw [stosl_of_lt (f := 0) (i := 3) rfl (by omega), stosl_of_lt (f := 0) (i := 2) rfl (by omega),
      stosl_of_lt (f := 0) (i := 1) rfl (by omega), stosl_of_lt (f := 0) (i := 0) rfl (by omega)]
    simp only [write_phys]
    by_cases hf : f = 0
    · subst hf
      by_cases h : i < 4
      · have hcases : i = 0 ∨ i = 1 ∨ i = 2 ∨ i = 3 := by omega
        rcases hcases with rfl | rfl | rfl | rfl <;> rfl
      · rw [if_neg (by omega), if_neg (by omega), if_neg (by omega), if_neg (by omega),
          if_neg (by omega)]
    · rw [if_neg (by omega), if_neg (by omega), if_neg (by omega), if_neg (by omega),
        if_neg (by omega)]
  obtain ⟨m', h1, h2⟩ := @fillPages_eq 4095 (0x4000 + 4092) 0xfff007
    (stosl (stosl (stosl (stosl (repStosl (1024 * 5) 0 0 m) 0 0x1007) 4 0x2007) 8 0x3007) 12 0x4007)
    (by omega) rfl rfl
  refine ⟨m', fun fuel hf => h1 fuel (by omega), fun f i hi => ?_⟩
  rw [h2 f i hi, hdir _ f i hi, repStosl_phys m le_rfl f i hi]
  by_cases hf : f = 0
  · rw [if_pos hf, if_neg (by omega)]
    by_cases hi4 : i < 4
    · rw [if_pos ⟨hf, hi4⟩, if_pos hi4]
    · rw [if_neg (by omega), if_neg hi4, if_pos (by omega)]
  · rw [if_neg hf]
    by_cases hf4 : f ≤ 4
    · rw [if_pos hf4, if_pos (by omega)]
    · rw [if_neg hf4, if_neg (by omega), if_neg (by omega), if_neg (by omega)]

/-! ## The memory of the system -/

/-- A megabyte and the extended memory, in whole pages, but not more than 16 MB. -/
theorem toNat_memoryEnd (extMemK : BitVec 16) :
    (memoryEnd extMemK).toNat = min (2 ^ 24) (2 ^ 20 + extMemK.toNat / 4 * 4096) := by
  unfold memoryEnd
  dsimp only
  generalize hsum : (_ : Word) + extMemK.setWidth 32 <<< 10 = e
  have he : e.toNat = 2 ^ 20 + extMemK.toNat * 1024 := by
    have hmb : ((1 <<< 20 : ℕ) : Word).toNat = 2 ^ 20 := rfl
    rw [← hsum, BitVec.toNat_add, BitVec.toNat_shiftLeft, BitVec.toNat_setWidth, hmb,
      Nat.shiftLeft_eq]
    omega
  have hand : (e &&& 0xfffff000).toNat = e.toNat / 4096 * 4096 := Execve.toNat_and_pages e
  rw [he] at hand
  have h16 : (16 * 1024 * 1024 : Word).toNat = 2 ^ 24 := rfl
  split
  · next h =>
    rw [gt_iff_lt, BitVec.lt_def, h16, hand] at h
    rw [h16]
    omega
  · next h =>
    rw [gt_iff_lt, BitVec.lt_def, h16, hand] at h
    rw [hand]
    omega

/-- The memory of the processes is between the buffers and the end, in whole pages, and `mem_map` has
a byte for each. -/
theorem memory_bounds (extMemK : BitVec 16) :
    lowPages ≤ startMem extMemK ∧ startMem extMemK ≤ endMem extMemK ∧
      endMem extMemK ≤ lowPages + pagingPages ∧
      (memoryEnd extMemK).toNat = 4096 * endMem extMemK ∧
      (bufferMemoryEnd extMemK).toNat = 4096 * startMem extMemK := by
  have hlow : lowPages = 256 := rfl
  have hpages : pagingPages = 3840 := rfl
  have hend := toNat_memoryEnd extMemK
  have hbuf : (bufferMemoryEnd extMemK).toNat ≤ (memoryEnd extMemK).toNat ∧
      2 ^ 20 ≤ (bufferMemoryEnd extMemK).toNat ∧ (bufferMemoryEnd extMemK).toNat % 4096 = 0 := by
    have h12 : (12 * 1024 * 1024 : Word).toNat = 12582912 := rfl
    have h6 : (6 * 1024 * 1024 : Word).toNat = 6291456 := rfl
    unfold bufferMemoryEnd
    split
    · next h =>
      rw [gt_iff_lt, BitVec.lt_def, h12] at h
      refine ⟨?_, by decide, by decide⟩
      rw [show (4 * 1024 * 1024 : Word).toNat = 4194304 from rfl]
      omega
    · split
      · next h =>
        rw [gt_iff_lt, BitVec.lt_def, h6] at h
        refine ⟨?_, by decide, by decide⟩
        rw [show (2 * 1024 * 1024 : Word).toNat = 2097152 from rfl]
        omega
      · refine ⟨?_, by decide, by decide⟩
        rw [show (1 * 1024 * 1024 : Word).toNat = 1048576 from rfl]
        omega
  unfold startMem endMem
  omega

/-- `INIT_TASK` alone, with its code and data in the first 640 KB. -/
def afterHead (m : Mem) (page : ℕ) (extMemK : BitVec 16) : State where
  mem := memInit m (startMem extMemK) (endMem extMemK)
  task nr := if nr = 0 then some ⟨page, false, 0xA0000, 0xA0000, none, 0, none⟩ else none
  pipes := []

/-- Whatever is in the memory and however much there is of it, `setup_paging` and `mem_init` leave a
state with which the runs of the memory begin; in it the linear addresses below 16 MB are the
physical ones, and the others are nowhere. -/
theorem head_init (m : Mem) (page : ℕ) (extMemK : BitVec 16) :
    ∃ m', (∀ fuel, 4096 ≤ fuel → setupPaging fuel m = some m') ∧
      (afterHead m' page extMemK).Init (startMem extMemK) ∧
      ∀ a < 2 ^ 32,
        if a < 2 ^ 24 then
          present ((afterHead m' page extMemK).entryAt a) = true ∧
            pageOf ((afterHead m' page extMemK).entryAt a) * 4096 + a % 4096 = a
        else present ((afterHead m' page extMemK).entryAt a) = false := by
  obtain ⟨m', h1, h2⟩ := setupPaging_eq m
  obtain ⟨b1, b2, b3, -, -⟩ := memory_bounds extMemK
  refine ⟨m', h1, ⟨m', endMem extMemK, rfl, b1, b2, b3, fun d hd => ?_,
    fun d hd hd' => ?_, fun d hd i hi => ?_, ⟨page, rfl⟩, fun nr hnr => if_neg hnr, rfl⟩,
    fun a ha => ?_⟩
  · rw [h2 0 d (by omega), if_pos rfl, if_pos hd]
  · rw [h2 0 d hd', if_pos rfl, if_neg (by omega)]
  · rw [h2 (d + 1) i hi, if_neg (by omega), if_pos (by omega), Nat.add_sub_cancel]
  · have hd : dirIndex a = a / 2 ^ 22 := by
      unfold dirIndex
      omega
    have hpde : pde (afterHead m' page extMemK).mem (dirIndex a) =
        if a / 2 ^ 22 < 4 then entry (a / 2 ^ 22 + 1) else 0 := by
      show m'.phys 0 (dirIndex a) = _
      rw [h2 0 _ (dirIndex_lt a), if_pos rfl, hd]
    unfold State.entryAt pte
    by_cases h : a < 2 ^ 24
    · have ht : (afterHead m' page extMemK).mem.phys (a / 2 ^ 22 + 1) (tblIndex a) =
          entry (a / 2 ^ 12) := by
        show m'.phys (a / 2 ^ 22 + 1) (tblIndex a) = _
        rw [h2 _ _ (tblIndex_lt a), if_neg (by omega), if_pos (by omega), Nat.add_sub_cancel]
        unfold tblIndex
        exact congrArg entry (by omega)
      rw [hpde, if_pos (show a / 2 ^ 22 < 4 by omega), if_pos h, if_pos (present_entry _),
        pageOf_entry (by omega), ht, pageOf_entry (by omega)]
      exact ⟨present_entry _, by omega⟩
    · rw [hpde, if_neg (show ¬ a / 2 ^ 22 < 4 by omega), if_neg h, present_zero]
      exact present_zero

end Linux011.Boot
