import Mathlib.Algebra.Group.Nat.Defs
import Mathlib.Data.List.Basic
import Mathlib.Logic.Function.Iterate

/-!
# String instructions

A byte memory that notes the addresses it is read and written at, and the 80386 instructions
`rep stosw` and `rep movsl` over it, in both directions.

1. `Ram`, `Ram.Within`: everything so far was in a range of addresses.
2. `stosw`, `movsl`, `rep`.
3. What a repeated instruction touches: `rep_stosw_up`, `rep_stosw_down`, `rep_movsl_up`,
   `rep_movsl_down`.
-/

namespace Linux011.X86

/-- A word of 32 bits, and an address. -/
abbrev Word := BitVec 32

structure Ram where
  byte : Word → BitVec 8
  /-- The addresses of the bytes read or written so far, the last ones first. -/
  touched : List Word

namespace Ram

def touch (m : Ram) (a : Word) (n : ℕ) : Ram :=
  { m with touched := (List.range n).map (fun i => a + BitVec.ofNat 32 i) ++ m.touched }

def get16 (m : Ram) (a : Word) : BitVec 16 := m.byte (a + 1) ++ m.byte a

def put16 (m : Ram) (a : Word) (v : BitVec 16) : Ram :=
  let byte := Function.update m.byte a (v.setWidth 8)
  { m with byte := Function.update byte (a + 1) ((v >>> 8).setWidth 8) }

def write8 (m : Ram) (a : Word) (v : BitVec 8) : Ram :=
  { m with byte := Function.update m.byte a v }.touch a 1

def read16 (m : Ram) (a : Word) : BitVec 16 × Ram := (m.get16 a, m.touch a 2)

def write16 (m : Ram) (a : Word) (v : BitVec 16) : Ram := (m.put16 a v).touch a 2

/-- Four bytes are moved from one address to another. -/
def move32 (m : Ram) (src dst : Word) : Ram :=
  (((m.touch src 4).put16 dst (m.get16 src)).put16 (dst + 2) (m.get16 (src + 2))).touch dst 4

/-- Everything that was touched is in `[lo, hi)`. -/
def Within (m : Ram) (lo hi : ℕ) : Prop := ∀ a ∈ m.touched, lo ≤ a.toNat ∧ a.toNat < hi

variable {m : Ram} {lo hi : ℕ} {a src dst : Word}

theorem Within.touch (h : m.Within lo hi) {n : ℕ} (hl : lo ≤ a.toNat) (hh : a.toNat + n ≤ hi)
    (h32 : hi < 2 ^ 32) : (m.touch a n).Within lo hi := by
  intro b hb
  rcases List.mem_append.1 hb with hb | hb
  · obtain ⟨i, hi', rfl⟩ := List.mem_map.1 hb
    have hin : i < n := List.mem_range.1 hi'
    have : (a + BitVec.ofNat 32 i).toNat = a.toNat + i := by
      rw [BitVec.toNat_add, BitVec.toNat_ofNat]
      omega
    omega
  · exact h b hb

theorem Within.write8 (h : m.Within lo hi) (v : BitVec 8) (hl : lo ≤ a.toNat)
    (hh : a.toNat < hi) (h32 : hi < 2 ^ 32) : (m.write8 a v).Within lo hi :=
  Within.touch (m := { m with byte := Function.update m.byte a v }) h hl hh h32

theorem Within.put16 (h : m.Within lo hi) (a : Word) (v : BitVec 16) :
    (m.put16 a v).Within lo hi := h

theorem Within.read16 (h : m.Within lo hi) (hl : lo ≤ a.toNat) (hh : a.toNat + 2 ≤ hi)
    (h32 : hi < 2 ^ 32) : (m.read16 a).2.Within lo hi := h.touch hl hh h32

theorem Within.write16 (h : m.Within lo hi) (v : BitVec 16) (hl : lo ≤ a.toNat)
    (hh : a.toNat + 2 ≤ hi) (h32 : hi < 2 ^ 32) : (m.write16 a v).Within lo hi :=
  (h.put16 a v).touch hl hh h32

theorem Within.move32 (h : m.Within lo hi) (hs : lo ≤ src.toNat) (hs' : src.toNat + 4 ≤ hi)
    (hd : lo ≤ dst.toNat) (hd' : dst.toNat + 4 ≤ hi) (h32 : hi < 2 ^ 32) :
    (m.move32 src dst).Within lo hi :=
  (((h.touch hs hs' h32).put16 _ _).put16 _ _).touch hd hd' h32

end Ram

/-! ## The instructions -/

/-- The registers that the string instructions use. -/
structure Regs where
  /-- The direction flag: `false` after `cld`, `true` after `std`. -/
  df : Bool
  ax : BitVec 16
  ecx : Word
  esi : Word
  edi : Word
  ram : Ram

variable {r : Regs} {lo hi n : ℕ}

/-- The next place of a pointer, `n` bytes on. -/
def Regs.next (r : Regs) (p n : Word) : Word := if r.df then p - n else p + n

def stosw (r : Regs) : Regs :=
  { r with ram := r.ram.write16 r.edi r.ax, edi := r.next r.edi 2 }

def movsl (r : Regs) : Regs :=
  { r with ram := r.ram.move32 r.esi r.edi, esi := r.next r.esi 4, edi := r.next r.edi 4 }

/-- `rep`, before an instruction that does not change `ecx`. -/
def rep (op : Regs → Regs) (r : Regs) : Regs := { op^[r.ecx.toNat] r with ecx := 0 }

/-! ## What they touch -/

theorem stosw_up (hr : r.df = false) (h : r.ram.Within lo hi) (hl : lo ≤ r.edi.toNat)
    (hh : r.edi.toNat + 2 * n ≤ hi) (h32 : hi < 2 ^ 32) : (stosw^[n] r).ram.Within lo hi := by
  induction n generalizing r with
  | zero => exact h
  | succ n ih =>
    have hnext : r.next r.edi 2 = r.edi + 2 := if_neg (by simp [hr])
    have hedi : (r.edi + 2 : Word).toNat = r.edi.toNat + 2 := by bv_omega
    rw [Function.iterate_succ_apply]
    refine ih (r := stosw r) hr (h.write16 _ hl (by omega) h32) ?_ ?_
    · show lo ≤ (r.next r.edi 2).toNat
      rw [hnext]
      omega
    · show (r.next r.edi 2).toNat + 2 * n ≤ hi
      rw [hnext]
      omega

theorem stosw_down (hr : r.df = true) (h : r.ram.Within lo hi) (hl : lo + 2 * n ≤ r.edi.toNat + 2)
    (hpos : 2 ≤ lo) (hh : r.edi.toNat + 2 ≤ hi) (h32 : hi < 2 ^ 32) :
    (stosw^[n] r).ram.Within lo hi := by
  induction n generalizing r with
  | zero => exact h
  | succ n ih =>
    have hnext : r.next r.edi 2 = r.edi - 2 := if_pos hr
    have hedi : (r.edi - 2 : Word).toNat = r.edi.toNat - 2 := by bv_omega
    rw [Function.iterate_succ_apply]
    refine ih (r := stosw r) hr (h.write16 _ (by omega) hh h32) ?_ ?_
    · show lo + 2 * n ≤ (r.next r.edi 2).toNat + 2
      rw [hnext]
      omega
    · show (r.next r.edi 2).toNat + 2 ≤ hi
      rw [hnext]
      omega

/-- `n` moves upward: what is left of the registers. -/
theorem movsl_up (hr : r.df = false) (h : r.ram.Within lo hi) (hs : lo ≤ r.esi.toNat)
    (hs' : r.esi.toNat + 4 * n ≤ hi) (hd : lo ≤ r.edi.toNat) (hd' : r.edi.toNat + 4 * n ≤ hi)
    (h32 : hi < 2 ^ 32) : ∃ esi edi m, m.Within lo hi ∧ edi.toNat = r.edi.toNat + 4 * n ∧
      movsl^[n] r = { r with esi := esi, edi := edi, ram := m } := by
  induction n generalizing r with
  | zero => exact ⟨r.esi, r.edi, r.ram, h, rfl, rfl⟩
  | succ n ih =>
    have hsrc : r.next r.esi 4 = r.esi + 4 := if_neg (by simp [hr])
    have hdst : r.next r.edi 4 = r.edi + 4 := if_neg (by simp [hr])
    have hesi : (r.esi + 4 : Word).toNat = r.esi.toNat + 4 := by bv_omega
    have hedi : (r.edi + 4 : Word).toNat = r.edi.toNat + 4 := by bv_omega
    have hm : (r.ram.move32 r.esi r.edi).Within lo hi :=
      h.move32 hs (by omega) hd (by omega) h32
    obtain ⟨esi, edi, m, hw, he, heq⟩ := ih (r := movsl r) hr hm
      (by show lo ≤ (r.next r.esi 4).toNat; rw [hsrc]; omega)
      (by show (r.next r.esi 4).toNat + 4 * n ≤ hi; rw [hsrc]; omega)
      (by show lo ≤ (r.next r.edi 4).toNat; rw [hdst]; omega)
      (by show (r.next r.edi 4).toNat + 4 * n ≤ hi; rw [hdst]; omega)
    refine ⟨esi, edi, m, hw, ?_, ?_⟩
    · have : (movsl r).edi = r.next r.edi 4 := rfl
      rw [he, this, hdst]
      omega
    · rw [Function.iterate_succ_apply, heq]
      rfl

theorem movsl_down (hr : r.df = true) (h : r.ram.Within lo hi)
    (hs : lo + 4 * n ≤ r.esi.toNat + 4) (hs' : r.esi.toNat + 4 ≤ hi)
    (hd : lo + 4 * n ≤ r.edi.toNat + 4) (hd' : r.edi.toNat + 4 ≤ hi) (hpos : 4 ≤ lo)
    (h32 : hi < 2 ^ 32) : ∃ esi edi m, m.Within lo hi ∧ edi.toNat + 4 * n = r.edi.toNat ∧
      movsl^[n] r = { r with esi := esi, edi := edi, ram := m } := by
  induction n generalizing r with
  | zero => exact ⟨r.esi, r.edi, r.ram, h, rfl, rfl⟩
  | succ n ih =>
    have hsrc : r.next r.esi 4 = r.esi - 4 := if_pos hr
    have hdst : r.next r.edi 4 = r.edi - 4 := if_pos hr
    have hesi : (r.esi - 4 : Word).toNat = r.esi.toNat - 4 := by bv_omega
    have hedi : (r.edi - 4 : Word).toNat = r.edi.toNat - 4 := by bv_omega
    have hm : (r.ram.move32 r.esi r.edi).Within lo hi :=
      h.move32 (by omega) hs' (by omega) hd' h32
    obtain ⟨esi, edi, m, hw, he, heq⟩ := ih (r := movsl r) hr hm
      (by show lo + 4 * n ≤ (r.next r.esi 4).toNat + 4; rw [hsrc]; omega)
      (by show (r.next r.esi 4).toNat + 4 ≤ hi; rw [hsrc]; omega)
      (by show lo + 4 * n ≤ (r.next r.edi 4).toNat + 4; rw [hdst]; omega)
      (by show (r.next r.edi 4).toNat + 4 ≤ hi; rw [hdst]; omega)
    refine ⟨esi, edi, m, hw, ?_, ?_⟩
    · have : (movsl r).edi = r.next r.edi 4 := rfl
      rw [this, hdst] at he
      omega
    · rw [Function.iterate_succ_apply, heq]
      rfl

end Linux011.X86
