import Linux011.Lib.Window
import Linux011.Tty.Cursor

/-!
# The video memory, cell by cell

What the string instructions and the loops of `console.c` do to the cells of the video memory, as
windows of a sequence of cells.

1. `Ram.cell`, `Ram.Holds`, and a write of one cell.
2. `stosw`, `movsl`, repeated, in both directions.
3. `fill`, `copyUp`, `copyDown`, and the loops of `insert_char` and `delete_char`.
-/

namespace Linux011.X86

/-- The cell `i` of the memory from `base` on. -/
def Ram.cell (m : Ram) (base : Word) (i : ℕ) : BitVec 16 := m.get16 (base + BitVec.ofNat 32 (2 * i))

/-- The `N` cells from `base` on are those of `f`. -/
def Ram.Holds (m : Ram) (base : Word) (N : ℕ) (f : ℕ → BitVec 16) : Prop :=
  ∀ i < N, m.cell base i = f i

/-- An address of the memory, and the cell that begins there. -/
def IsCell (base a : Word) (i : ℕ) : Prop := a.toNat = base.toNat + 2 * i

variable {base a src dst : Word} {m : Ram} {N i j n : ℕ} {f : ℕ → BitVec 16} {v : BitVec 16}

theorem isCell_ofNat (hN : base.toNat + 2 * N < 2 ^ 32) (hi : i < N) :
    IsCell base (base + BitVec.ofNat 32 (2 * i)) i := by
  unfold IsCell
  rw [BitVec.toNat_add, BitVec.toNat_ofNat]
  omega

theorem IsCell.eq (h : IsCell base a i) : base + BitVec.ofNat 32 (2 * i) = a := by
  apply BitVec.eq_of_toNat_eq
  unfold IsCell at h
  rw [BitVec.toNat_add, BitVec.toNat_ofNat]
  omega

theorem IsCell.add_two (h : IsCell base a i) (hN : base.toNat + 2 * N < 2 ^ 32) (hi : i + 1 < N) :
    IsCell base (a + 2) (i + 1) := by
  unfold IsCell at *
  bv_omega

theorem IsCell.toNat_sub (h : IsCell base a i) : (a - base).toNat = 2 * i := by
  unfold IsCell at h
  bv_omega

theorem Ram.Holds.get16 (h : m.Holds base N f) (ha : IsCell base a i) (hi : i < N) :
    m.get16 a = f i := by
  rw [← h i hi, Ram.cell, ha.eq]

/-- The two bytes of a cell, and those of the others. -/
theorem get16_put16 (m : Ram) (v : BitVec 16) {a b : Word} (hab : a ≠ b → b.toNat + 2 ≤ a.toNat ∨ a.toNat + 2 ≤ b.toNat)
    (ha : a.toNat + 2 ≤ 2 ^ 32) (hb : b.toNat + 2 ≤ 2 ^ 32) :
    (m.put16 b v).get16 a = if a = b then v else m.get16 a := by
  have hne : ∀ c : Word, c ≠ c + 1 := fun c => by bv_omega
  unfold Ram.get16 Ram.put16
  dsimp only
  by_cases h : a = b
  · subst h
    rw [if_pos rfl, Function.update_self, Function.update_of_ne (hne a), Function.update_self]
    ext i hi
    simp only [BitVec.getElem_append, BitVec.getElem_setWidth, BitVec.getLsbD_ushiftRight]
    split_ifs with h8
    · rw [BitVec.getLsbD_eq_getElem hi]
    · rw [Nat.add_sub_cancel' (by omega), BitVec.getLsbD_eq_getElem hi]
  · have hfar := hab h
    have h1 : a + 1 ≠ b + 1 := by bv_omega
    have h2 : a + 1 ≠ b := by bv_omega
    have h3 : a ≠ b + 1 := by bv_omega
    rw [if_neg h, Function.update_of_ne h1, Function.update_of_ne h2, Function.update_of_ne h3,
      Function.update_of_ne h]

theorem Ram.Holds.put16 (h : m.Holds base N f) (hN : base.toNat + 2 * N < 2 ^ 32)
    (ha : IsCell base a i) (hi : i < N) (v : BitVec 16) :
    (m.put16 a v).Holds base N (Function.update f i v) := by
  intro j hj
  have hj' := isCell_ofNat hN hj
  unfold IsCell at ha hj'
  rw [Function.update_apply, ← h j hj, Ram.cell, get16_put16 m v (by bv_omega) (by omega) (by omega)]
  exact if_congr ⟨fun he => by rw [he] at hj'; omega, fun he => by rw [he]; exact IsCell.eq ha⟩ rfl rfl

theorem Ram.Holds.write16 (h : m.Holds base N f) (hN : base.toNat + 2 * N < 2 ^ 32)
    (ha : IsCell base a i) (hi : i < N) (v : BitVec 16) :
    (m.write16 a v).Holds base N (Function.update f i v) :=
  h.put16 hN ha hi v

/-- Two cells are moved at a time, and both are read before. -/
theorem Ram.Holds.move32 (h : m.Holds base N f) (hN : base.toNat + 2 * N < 2 ^ 32)
    (hs : IsCell base src i) (hd : IsCell base dst j) (hi : i + 1 < N) (hj : j + 1 < N) :
    (m.move32 src dst).Holds base N
      (Function.update (Function.update f j (f i)) (j + 1) (f (i + 1))) := by
  have h1 := h.put16 hN hd (by omega) (m.get16 src)
  have h2 := h1.put16 hN (hd.add_two hN hj) hj (m.get16 (src + 2))
  rw [h.get16 hs (by omega), h.get16 (hs.add_two hN hi) hi] at h2
  intro k hk
  rw [← h2 k hk, ← h.get16 hs (by omega), ← h.get16 (hs.add_two hN hi) hi]
  rfl

/-! ## The repeated instructions -/

variable {r : Regs} {d s : ℕ}

theorem stosw_up_holds (hN : base.toNat + 2 * N < 2 ^ 32) (hr : r.df = false) (ha : IsCell base r.edi i)
    (h : r.ram.Holds base N f) (hn : i + n ≤ N) :
    (stosw^[n] r).ram.Holds base N (Window.fill f i (i + n) r.ax) := by
  induction n generalizing r i f with
  | zero =>
    rw [Window.fill_empty f r.ax (Nat.le_of_eq (Nat.add_zero i))]
    exact h
  | succ n ih =>
    have hnext : r.next r.edi 2 = r.edi + 2 := if_neg (by simp [hr])
    have hcell : IsCell base (stosw r).edi (i + 1) := by
      unfold IsCell at *
      show (r.next r.edi 2).toNat = _
      rw [hnext]
      bv_omega
    have hstep := ih (r := stosw r) hr hcell (h.write16 hN ha (by omega) r.ax) (by omega)
    rw [Function.iterate_succ_apply, ← Window.fill_succ f r.ax (by omega),
      show i + (n + 1) = i + 1 + n by omega]
    exact hstep

/-- Downward, from the cell before `i`. -/
theorem stosw_down_holds (hN : base.toNat + 2 * N < 2 ^ 32) (hr : r.df = true)
    (ha : IsCell base (r.edi + 2) i) (h : r.ram.Holds base N f) (hn : n ≤ i) (hi : i ≤ N)
    (hpos : 2 ≤ base.toNat) : (stosw^[n] r).ram.Holds base N (Window.fill f (i - n) i r.ax) := by
  induction n generalizing r i f with
  | zero =>
    rw [Nat.sub_zero, Window.fill_empty f r.ax (Nat.le_refl _)]
    exact h
  | succ n ih =>
    have hnext : r.next r.edi 2 = r.edi - 2 := if_pos hr
    have hlast : IsCell base r.edi (i - 1) := by
      unfold IsCell at *
      bv_omega
    have hcell : IsCell base ((stosw r).edi + 2) (i - 1) := by
      show IsCell base (r.next r.edi 2 + 2) (i - 1)
      rw [hnext, BitVec.sub_add_cancel]
      exact hlast
    have hstep := ih (r := stosw r) hr hcell (h.write16 hN hlast (by omega) r.ax) (by omega) (by omega)
    rw [Function.iterate_succ_apply, ← Window.fill_pred f r.ax (by omega),
      show i - (n + 1) = i - 1 - n by omega]
    exact hstep

/-- Two cells at a time, upward, to a place that is not higher. -/
theorem movsl_up_holds (hN : base.toNat + 2 * N < 2 ^ 32) (hr : r.df = false)
    (hs : IsCell base r.esi s) (hd : IsCell base r.edi d) (h : r.ram.Holds base N f) (hds : d ≤ s)
    (hn : s + 2 * n ≤ N) : ∃ esi edi m, m.Holds base N (Window.copy f d s (2 * n)) ∧
      IsCell base edi (d + 2 * n) ∧ movsl^[n] r = { r with esi := esi, edi := edi, ram := m } := by
  induction n generalizing r s d f with
  | zero =>
    refine ⟨r.esi, r.edi, r.ram, ?_, hd, rfl⟩
    rw [Nat.mul_zero, Window.copy_zero]
    exact h
  | succ n ih =>
    have hsrc : (movsl r).esi = r.esi + 4 := if_neg (by simp [hr])
    have hdst : (movsl r).edi = r.edi + 4 := if_neg (by simp [hr])
    have hs4 : IsCell base (movsl r).esi (s + 2) := by
      unfold IsCell at *
      bv_omega
    have hd4 : IsCell base (movsl r).edi (d + 2) := by
      unfold IsCell at *
      bv_omega
    obtain ⟨esi, edi, m, hm, he, heq⟩ := ih (r := movsl r) hr hs4 hd4
      (h.move32 hN hs hd (by omega) (by omega)) (by omega) (by omega)
    refine ⟨esi, edi, m, ?_, ?_, ?_⟩
    · -- a block of two cells more, the first two of them first
      have hcopy : Window.copy f d s (2 * (n + 1)) = Window.copy (Function.update
          (Function.update f d (f s)) (d + 1) (f (s + 1))) (d + 2) (s + 2) (2 * n) := by
        have h2 := Window.copy_succ (Function.update f d (f s)) (n := 2 * n)
          (show d + 1 ≤ s + 1 by omega)
        rw [Function.update_of_ne (by omega)] at h2
        rw [h2, Window.copy_succ f hds]
        rfl
      rw [hcopy]
      exact hm
    · rw [show d + 2 * (n + 1) = d + 2 + 2 * n by omega]
      exact he
    · rw [Function.iterate_succ_apply, heq]
      rfl

/-- Two cells at a time, downward from the cells before `s + 2 * n`, to a place that is not lower. -/
theorem movsl_down_holds (hN : base.toNat + 2 * N < 2 ^ 32) (hr : r.df = true)
    (hs : IsCell base (r.esi + 4) (s + 2 * n)) (hd : IsCell base (r.edi + 4) (d + 2 * n))
    (h : r.ram.Holds base N f) (hsd : s ≤ d) (hn : d + 2 * n ≤ N) (hpos : 4 ≤ base.toNat) :
    ∃ esi edi m, m.Holds base N (Window.copy f d s (2 * n)) ∧
      IsCell base (edi + 4) d ∧ movsl^[n] r = { r with esi := esi, edi := edi, ram := m } := by
  induction n generalizing r f with
  | zero =>
    refine ⟨r.esi, r.edi, r.ram, ?_, hd, rfl⟩
    rw [Nat.mul_zero, Window.copy_zero]
    exact h
  | succ n ih =>
    have hsrc : (movsl r).esi = r.esi - 4 := if_pos hr
    have hdst : (movsl r).edi = r.edi - 4 := if_pos hr
    have hs0 : IsCell base r.esi (s + 2 * n) := by
      unfold IsCell at *
      bv_omega
    have hd0 : IsCell base r.edi (d + 2 * n) := by
      unfold IsCell at *
      bv_omega
    obtain ⟨esi, edi, m, hm, he, heq⟩ := ih (r := movsl r) hr
      (by rw [hsrc, BitVec.sub_add_cancel]; exact hs0) (by rw [hdst, BitVec.sub_add_cancel]; exact hd0)
      (h.move32 hN hs0 hd0 (by omega) (by omega)) (by omega)
    refine ⟨esi, edi, m, ?_, he, ?_⟩
    · have hcopy : Window.copy f d s (2 * (n + 1)) = Window.copy (Function.update (Function.update f
          (d + 2 * n) (f (s + 2 * n))) (d + 2 * n + 1) (f (s + 2 * n + 1))) d s (2 * n) := by
        rw [Function.update_comm (by omega)]
        have h1 := Window.copy_last f (n := 2 * n + 1) hsd
        have h2 := Window.copy_last (Function.update f (d + (2 * n + 1)) (f (s + (2 * n + 1))))
          (n := 2 * n) hsd
        rw [Function.update_of_ne (by omega), h1] at h2
        exact h2.symm
      rw [hcopy]
      exact hm
    · rw [Function.iterate_succ_apply, heq]
      rfl

end Linux011.X86

namespace Linux011.Tty

open X86

variable {con : Console} {base : Word} {N a d s k i j : ℕ} {f : ℕ → BitVec 16}

/-! ## The console -/

theorem fill_holds (hN : base.toNat + 2 * N < 2 ^ 32) (h : con.ram.Holds base N f) {start count : Word}
    (ha : IsCell base start a) (hk : count.toNat = k) (hn : a + k ≤ N) :
    (con.fill start count).ram.Holds base N (Window.fill f a (a + k) con.videoEraseChar) := by
  subst hk
  exact stosw_up_holds (r := ⟨false, con.videoEraseChar, count, 0, start, con.ram⟩) hN rfl ha h hn

/-- `k` long words up, and a row of blanks behind them. -/
theorem copyUp_holds (hN : base.toNat + 2 * N < 2 ^ 32) (h : con.ram.Holds base N f)
    {count dst src : Word} (hs : IsCell base src s) (hd : IsCell base dst d) (hk : count.toNat = k)
    (hds : d ≤ s) (hn : s + 2 * k ≤ N) (hn' : d + 2 * k + con.videoNumColumns.toNat ≤ N) :
    (con.copyUp count dst src).ram.Holds base N (Window.fill (Window.copy f d s (2 * k)) (d + 2 * k)
      (d + 2 * k + con.videoNumColumns.toNat) con.videoEraseChar) := by
  subst hk
  obtain ⟨esi, edi, m, hm, he, heq⟩ := movsl_up_holds
    (r := ⟨false, con.videoEraseChar, count, src, dst, con.ram⟩) hN rfl hs hd h hds hn
  unfold Console.copyUp rep
  rw [heq]
  exact stosw_up_holds (r := ⟨false, con.videoEraseChar, con.videoNumColumns, esi, edi, m⟩) hN rfl he
    hm hn'

/-- `k` long words down, and a row of blanks before them. -/
theorem copyDown_holds (hN : base.toNat + 2 * N < 2 ^ 32) (h : con.ram.Holds base N f)
    {count dst src : Word} (hs : IsCell base (src + 4) (s + 2 * k)) (hd : IsCell base (dst + 4) (d + 2 * k))
    (hk : count.toNat = k) (hsd : s ≤ d) (hn : d + 2 * k ≤ N) (hcols : con.videoNumColumns.toNat ≤ d)
    (hpos : 4 ≤ base.toNat) : (con.copyDown count dst src).ram.Holds base N (Window.fill
      (Window.copy f d s (2 * k)) (d - con.videoNumColumns.toNat) d con.videoEraseChar) := by
  subst hk
  obtain ⟨esi, edi, m, hm, he, heq⟩ := movsl_down_holds
    (r := ⟨true, con.videoEraseChar, count, src, dst, con.ram⟩) hN rfl hs hd h hsd hn hpos
  unfold Console.copyDown rep
  rw [heq]
  -- `edi` is two cells before the last one that was moved
  have he' : IsCell base (edi + 2 + 2) d := by
    rw [show edi + 2 + 2 = edi + 4 by bv_omega]
    exact he
  exact stosw_down_holds (r := ⟨true, con.videoEraseChar, con.videoNumColumns, esi, edi + 2, m⟩) hN rfl
    he' hm hcols (by omega) (by omega)

/-- The loop of `insert_char` from the cell `i` up to the end of the row, at `j`. -/
theorem insertCells_holds (hN : base.toNat + 2 * N < 2 ^ 32) (columns x : Word) (old : BitVec 16)
    {p : Word} {m : Ram} (h : m.Holds base N f) (hp : IsCell base p i) (hx : i + (columns.toNat - x.toNat) = j)
    (hj : j ≤ N) : (Console.insertCells columns x old p m).Holds base N
      (Window.shiftDown f 1 i j old) := by
  fun_induction Console.insertCells columns x old p m generalizing i f with
  | case1 x old p m hx' ih =>
    have hlt : x.toNat < columns.toNat := hx'
    have hx1 : (x + 1 : Word).toNat = x.toNat + 1 := by bv_omega
    have hp2 : IsCell base (p + 2) (i + 1) := by
      unfold IsCell at *
      bv_omega
    have hold : (m.read16 p).1 = f i := h.get16 hp (by omega)
    have hstep := ih (Ram.Holds.write16 (m := (m.read16 p).2) h hN hp (by omega) old) hp2 (by omega)
    rw [← Window.shiftDown_succ f old (by omega), ← hold]
    exact hstep
  | case2 x old p m hx' =>
    have hle : columns.toNat ≤ x.toNat := Nat.le_of_not_lt hx'
    have hempty : Window.shiftDown f 1 i j old = f := funext fun _ => if_neg (by omega)
    rw [hempty]
    exact h

/-- The loop of `delete_char` up to the last cell of the row, `j`. -/
theorem deleteCells_holds (hN : base.toNat + 2 * N < 2 ^ 32) (columns x p : Word) {m : Ram}
    (h : m.Holds base N f) (hp : IsCell base p i) (hx : i + (columns.toNat - x.toNat) = j)
    (hj : j < N) : (Console.deleteCells columns x p m).2.Holds base N (Window.copy f i (i + 1) (j - i)) ∧
      IsCell base (Console.deleteCells columns x p m).1 j := by
  fun_induction Console.deleteCells columns x p m generalizing i f with
  | case1 x p m hx' ih =>
    have hlt : x.toNat < columns.toNat := hx'
    have hx1 : (x + 1 : Word).toNat = x.toNat + 1 := by bv_omega
    have hp2 : IsCell base (p + 2) (i + 1) := by
      unfold IsCell at *
      bv_omega
    have hnext : (m.read16 (p + 2)).1 = f (i + 1) := h.get16 hp2 (by omega)
    have hstep := ih (Ram.Holds.write16 (m := (m.read16 (p + 2)).2) h hN hp (by omega) _) hp2
      (by omega)
    rw [hnext] at hstep ⊢
    rw [show j - i = j - (i + 1) + 1 by omega, ← Window.copy_succ f (Nat.le_succ i)]
    exact hstep
  | case2 x p m hx' =>
    have hle : columns.toNat ≤ x.toNat := Nat.le_of_not_lt hx'
    have hij : i = j := by omega
    rw [← hij, Nat.sub_self, Window.copy_zero]
    exact ⟨h, hp⟩

end Linux011.Tty
