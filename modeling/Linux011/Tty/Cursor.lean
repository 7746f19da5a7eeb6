import Linux011.Tty.Write
import Mathlib.Tactic.NormNum
import Mathlib.Tactic.Ring

/-!
# The cursor and the screen

Whatever is written to the console, the cursor stays on the screen, the screen stays in the video
memory, and no other memory is touched.

1. `Bios.Fits`, `Geometry`, `Safe`, `Sound`.
2. What the string instructions touch: `fill_within`, `copyUp_within`, `copyDown_within`.
3. `Sound` is kept by each function of the screen and by each state of `con_write`.
4. `conInit_sound`, `con_write_sound`.
-/

namespace Linux011.Tty

open X86

/-- At least 8 columns, 25 lines in the video memory, and the cursor on them. -/
structure Bios.Fits (b : Bios) : Prop where
  columns : 8 ≤ b.origVideoCols.toNat
  lines : b.display.videoMemStart.toNat + 25 * (2 * b.origVideoCols.toNat) ≤ b.display.videoMemEnd.toNat
  column : b.origX.toNat ≤ b.origVideoCols.toNat
  line : b.origY.toNat < 25

theorem Bios.memory (b : Bios) :
    0xb0000 ≤ b.display.videoMemStart.toNat ∧ b.display.videoMemEnd.toNat ≤ 0xbc000 := by
  unfold Bios.display
  split_ifs <;> decide

/-- What `con_init` sets and nothing changes. -/
structure Geometry (b : Bios) (con : Console) : Prop where
  videoType : con.videoType = b.display.videoType
  columns : con.videoNumColumns.toNat = b.origVideoCols.toNat
  row : con.videoSizeRow.toNat = 2 * con.videoNumColumns.toNat
  lines : con.videoNumLines = 25
  memStart : con.videoMemStart = b.display.videoMemStart
  memEnd : con.videoMemEnd = b.display.videoMemEnd

structure Safe (con : Console) : Prop where
  pos_eq : con.pos.toNat
    = con.origin.toNat + con.y.toNat * con.videoSizeRow.toNat + 2 * con.x.toNat
  x_le : con.x.toNat ≤ con.videoNumColumns.toNat
  y_lt : con.y.toNat < con.videoNumLines.toNat
  top_lt : con.top.toNat < con.bottom.toNat
  bottom_le : con.bottom.toNat ≤ con.videoNumLines.toNat
  scrEnd_eq : con.scrEnd.toNat
    = con.origin.toNat + con.videoNumLines.toNat * con.videoSizeRow.toNat
  origin_ge : con.videoMemStart.toNat ≤ con.origin.toNat
  scrEnd_le : con.scrEnd.toNat ≤ con.videoMemEnd.toNat
  npar_lt : con.npar.toNat < npars
  /-- Every byte that was read or written is in the video memory. -/
  cells : con.ram.Within con.videoMemStart.toNat con.videoMemEnd.toNat

structure Sound (b : Bios) (con : Console) : Prop extends Geometry b con, Safe con

variable {b : Bios} {con : Console} {lo hi : ℕ}

/-! ## The string instructions -/

theorem fill_within (con : Console) (start count : Word) (hw : con.ram.Within lo hi) (hl : lo ≤ start.toNat)
    (hh : start.toNat + 2 * count.toNat ≤ hi) (h32 : hi < 2 ^ 32) :
    (con.fill start count).ram.Within lo hi :=
  stosw_up (r := ⟨false, con.videoEraseChar, count, 0, start, con.ram⟩) rfl hw hl hh h32

theorem copyUp_within (con : Console) (count dst src : Word) (hw : con.ram.Within lo hi)
    (hs : lo ≤ src.toNat)
    (hs' : src.toNat + 4 * count.toNat ≤ hi) (hd : lo ≤ dst.toNat)
    (hd' : dst.toNat + 4 * count.toNat + 2 * con.videoNumColumns.toNat ≤ hi) (h32 : hi < 2 ^ 32) :
    (con.copyUp count dst src).ram.Within lo hi := by
  obtain ⟨esi, edi, m, hm, he, heq⟩ := movsl_up
    (r := ⟨false, con.videoEraseChar, count, src, dst, con.ram⟩) rfl hw hs hs' hd
    (by show dst.toNat + 4 * count.toNat ≤ hi; omega) h32
  unfold Console.copyUp rep
  rw [heq]
  have he : edi.toNat = dst.toNat + 4 * count.toNat := he
  exact stosw_up (r := ⟨false, con.videoEraseChar, con.videoNumColumns, esi, edi, m⟩) rfl hm
    (by show lo ≤ edi.toNat; omega)
    (by show edi.toNat + 2 * con.videoNumColumns.toNat ≤ hi; omega) h32

theorem copyDown_within (con : Console) (count dst src : Word) (hw : con.ram.Within lo hi)
    (hs : lo + 4 * count.toNat ≤ src.toNat + 4) (hs' : src.toNat + 4 ≤ hi)
    (hd : lo + 4 * count.toNat + 2 * con.videoNumColumns.toNat ≤ dst.toNat + 4)
    (hd' : dst.toNat + 4 ≤ hi) (hpos : 4 ≤ lo) (h32 : hi < 2 ^ 32) :
    (con.copyDown count dst src).ram.Within lo hi := by
  obtain ⟨esi, edi, m, hm, he, heq⟩ := movsl_down
    (r := ⟨true, con.videoEraseChar, count, src, dst, con.ram⟩) rfl hw hs hs'
    (by show lo + 4 * count.toNat ≤ dst.toNat + 4; omega) hd' hpos h32
  unfold Console.copyDown rep
  rw [heq]
  -- `edi` is four bytes before the last cell that was moved
  have he : edi.toNat + 4 * count.toNat = dst.toNat := he
  have hedi : (edi + 2 : Word).toNat = edi.toNat + 2 := by bv_omega
  exact stosw_down (r := ⟨true, con.videoEraseChar, con.videoNumColumns, esi, edi + 2, m⟩) rfl hm
    (by show lo + 2 * con.videoNumColumns.toNat ≤ (edi + 2 : Word).toNat + 2; omega) (by omega)
    (by show (edi + 2 : Word).toNat + 2 ≤ hi; omega) h32

theorem insertCells_within {columns i : Word} {old : BitVec 16} {p : Word} {m : Ram}
    (hw : m.Within lo hi) (hl : lo ≤ p.toNat) (hh : p.toNat + 2 * (columns.toNat - i.toNat) ≤ hi)
    (h32 : hi < 2 ^ 32) : (Console.insertCells columns i old p m).Within lo hi := by
  fun_induction Console.insertCells columns i old p m with
  | case1 i old p m hi' ih =>
    have hp : (p + 2 : Word).toNat = p.toNat + 2 := by bv_omega
    have hi1 : (i + 1 : Word).toNat = i.toNat + 1 := by bv_omega
    have hlt : i.toNat < columns.toNat := hi'
    exact ih ((hw.read16 hl (by omega) h32).write16 _ hl (by omega) h32) (by omega) (by omega)
  | case2 => exact hw

/-- The loop ends at the last cell of the line. -/
theorem deleteCells_within (columns i p : Word) {m : Ram} (hw : m.Within lo hi)
    (hl : lo ≤ p.toNat) (hh : p.toNat + 2 * (columns.toNat - i.toNat) + 2 ≤ hi)
    (h32 : hi < 2 ^ 32) : (Console.deleteCells columns i p m).2.Within lo hi ∧
      lo ≤ (Console.deleteCells columns i p m).1.toNat ∧
      (Console.deleteCells columns i p m).1.toNat + 2 ≤ hi := by
  fun_induction Console.deleteCells columns i p m with
  | case1 i p m hi' ih =>
    have hp : (p + 2 : Word).toNat = p.toNat + 2 := by bv_omega
    have hi1 : (i + 1 : Word).toNat = i.toNat + 1 := by bv_omega
    have hlt : i.toNat < columns.toNat := hi'
    have hr := hw.read16 (a := p + 2) (by omega) (by omega) h32
    exact ih (hr.write16 _ hl (by omega) h32) (by omega) (by omega)
  | case2 i p m => exact ⟨hw, hl, by show p.toNat + 2 ≤ hi; omega⟩

/-! ## The numbers -/

theorem Geometry.bounds (g : Geometry b con) (hb : b.Fits) :
    0xb0000 ≤ con.videoMemStart.toNat ∧ con.videoMemEnd.toNat ≤ 0xbc000 ∧
      8 ≤ con.videoNumColumns.toNat ∧ con.videoNumColumns.toNat < 256 ∧
      con.videoNumLines.toNat = 25 := by
  have hm := b.memory
  have hc := hb.columns
  have hl := b.origVideoCols.isLt
  rw [g.memStart, g.memEnd, g.columns, g.lines]
  exact ⟨hm.1, hm.2, hc, hl, rfl⟩

theorem Geometry.fits (g : Geometry b con) (hb : b.Fits) :
    con.videoMemStart.toNat + 25 * con.videoSizeRow.toNat ≤ con.videoMemEnd.toNat := by
  have := hb.lines
  rw [g.memStart, g.memEnd, g.row, g.columns]
  exact this

/-- Row numbers do not overflow. -/
theorem Geometry.toNat_row (g : Geometry b con) (hb : b.Fits) {k : Word} (hk : k.toNat ≤ 25) :
    (con.videoSizeRow * k).toNat = con.videoSizeRow.toNat * k.toNat := by
  have hbd := g.bounds hb
  have hr := g.row
  apply BitVec.toNat_mul_of_lt
  calc con.videoSizeRow.toNat * k.toNat ≤ 510 * 25 := Nat.mul_le_mul (by omega) hk
    _ < 2 ^ 32 := by norm_num

theorem Geometry.row_le (g : Geometry b con) (hb : b.Fits) {k : ℕ} (hk : k ≤ 25) :
    con.videoSizeRow.toNat * k ≤ 12750 := by
  have hbd := g.bounds hb
  have hr := g.row
  calc con.videoSizeRow.toNat * k ≤ 510 * 25 := Nat.mul_le_mul (by omega) hk
    _ = 12750 := rfl

/-- The number of long words in `d` lines. -/
theorem Geometry.four_mul_count (g : Geometry b con) (hb : b.Fits) {d : Word} (hd : d.toNat ≤ 25) :
    4 * ((d * con.videoNumColumns) >>> 1).toNat ≤ con.videoSizeRow.toNat * d.toNat := by
  have hbd := g.bounds hb
  have hmul : (d * con.videoNumColumns).toNat = d.toNat * con.videoNumColumns.toNat := by
    apply BitVec.toNat_mul_of_lt
    calc d.toNat * con.videoNumColumns.toNat ≤ 25 * 255 := Nat.mul_le_mul hd (by omega)
      _ < 2 ^ 32 := by norm_num
  have hrow : con.videoSizeRow.toNat * d.toNat = 2 * (d.toNat * con.videoNumColumns.toNat) := by
    rw [g.row]
    ring
  rw [BitVec.toNat_ushiftRight, hmul, Nat.shiftRight_eq_div_pow, hrow]
  omega

theorem Sound.scrEnd_le' (h : Sound b con) (hb : b.Fits) :
    con.origin.toNat + 25 * con.videoSizeRow.toNat ≤ con.videoMemEnd.toNat := by
  have he := h.scrEnd_eq
  have hle := h.scrEnd_le
  rw [(h.bounds hb).2.2.2.2] at he
  omega

/-! ## The functions of the screen -/

theorem Sound.gotoxy (h : Sound b con) (hb : b.Fits) (newX newY : Word) :
    Sound b (con.gotoxy newX newY) := by
  unfold Console.gotoxy
  split_ifs with hc
  · exact h
  · rw [not_or, BitVec.not_lt, BitVec.not_le] at hc
    have hx : newX.toNat ≤ con.videoNumColumns.toNat := hc.1
    have hy : newY.toNat < con.videoNumLines.toNat := hc.2
    have hbd := h.bounds hb
    have hend := h.scrEnd_le' hb
    have hrow := h.toGeometry.toNat_row hb (k := newY) (by omega)
    have hle := h.toGeometry.row_le hb (k := newY.toNat) (by omega)
    refine { h with x_le := hx, y_lt := hy, pos_eq := ?_ }
    show (con.origin + newY * con.videoSizeRow + newX <<< 1).toNat
      = con.origin.toNat + newY.toNat * con.videoSizeRow.toNat + 2 * newX.toNat
    have hshift : (newX <<< 1).toNat = 2 * newX.toNat := by
      rw [BitVec.toNat_shiftLeft, Nat.shiftLeft_eq]
      omega
    rw [BitVec.toNat_add, BitVec.toNat_add, hshift, BitVec.mul_comm, hrow, Nat.mul_comm newY.toNat]
    omega

theorem Sound.setRam (h : Sound b con) {m : Ram}
    (hm : m.Within con.videoMemStart.toNat con.videoMemEnd.toNat) :
    Sound b { con with ram := m } := { h with cells := hm }

theorem Sound.fill (h : Sound b con) (hb : b.Fits) {start count : Word}
    (hl : con.videoMemStart.toNat ≤ start.toNat)
    (hh : start.toNat + 2 * count.toNat ≤ con.videoMemEnd.toNat) : Sound b (con.fill start count) := by
  have hbd := h.bounds hb
  exact h.setRam (fill_within _ _ _ h.cells hl hh (by omega))

/-- The address of a line, and of the end of the last one. -/
theorem Sound.line (h : Sound b con) (hb : b.Fits) {k : Word} (hk : k.toNat ≤ 25) :
    (con.origin + con.videoSizeRow * k).toNat
        = con.origin.toNat + con.videoSizeRow.toNat * k.toNat ∧
      con.origin.toNat + con.videoSizeRow.toNat * k.toNat ≤ con.videoMemEnd.toNat := by
  have hbd := h.bounds hb
  have hend := h.scrEnd_le' hb
  have hrow := h.toNat_row hb hk
  have hle : con.videoSizeRow.toNat * k.toNat ≤ 25 * con.videoSizeRow.toNat := by
    rw [Nat.mul_comm]
    exact Nat.mul_le_mul_right _ hk
  refine ⟨?_, by omega⟩
  rw [BitVec.toNat_add, hrow]
  omega

/-- The lines of the scroll region are moved up. -/
theorem Sound.scrollRegion (h : Sound b con) (hb : b.Fits) : Sound b con.scrollRegion := by
  have hbd := h.bounds hb
  have htop := h.top_lt
  have hbottom := h.bottom_le
  have horigin := h.origin_ge
  have hrow := h.row
  have hd : (con.bottom - con.top - 1).toNat = con.bottom.toNat - con.top.toNat - 1 := by bv_omega
  have htop1 : (con.top + 1).toNat = con.top.toNat + 1 := by bv_omega
  have hcount := h.four_mul_count hb (d := con.bottom - con.top - 1) (by omega)
  obtain ⟨hD, -⟩ := h.line hb (k := con.top) (by omega)
  obtain ⟨hS, -⟩ := h.line hb (k := con.top + 1) (by omega)
  obtain ⟨-, hend⟩ := h.line hb (k := con.bottom) (by omega)
  rw [hd] at hcount
  rw [htop1, Nat.mul_succ] at hS
  -- the rows above the region, the first one of it and the rest of it
  have hsplit : con.videoSizeRow.toNat * con.bottom.toNat
      = con.videoSizeRow.toNat * con.top.toNat + con.videoSizeRow.toNat
        + con.videoSizeRow.toNat * (con.bottom.toNat - con.top.toNat - 1) := by
    rw [← Nat.mul_succ, ← Nat.mul_add]
    congr 1
    omega
  refine h.setRam (copyUp_within _ _ _ _ h.cells ?_ ?_ ?_ ?_ (by omega))
  · rw [hS]
    omega
  · rw [hS]
    omega
  · rw [hD]
    omega
  · rw [hD]
    omega

theorem Sound.scrdown (h : Sound b con) (hb : b.Fits) : Sound b con.scrdown := by
  have hbd := h.bounds hb
  have htop := h.top_lt
  have hbottom := h.bottom_le
  have horigin := h.origin_ge
  have hrow := h.row
  have hd : (con.bottom - con.top - 1).toNat = con.bottom.toNat - con.top.toNat - 1 := by bv_omega
  have hbot1 : (con.bottom - 1).toNat = con.bottom.toNat - 1 := by bv_omega
  have hcount := h.four_mul_count hb (d := con.bottom - con.top - 1) (by omega)
  obtain ⟨hD, hend⟩ := h.line hb (k := con.bottom) (by omega)
  obtain ⟨hS, -⟩ := h.line hb (k := con.bottom - 1) (by omega)
  rw [hd] at hcount
  rw [hbot1] at hS
  have hsplit : con.videoSizeRow.toNat * con.bottom.toNat
      = con.videoSizeRow.toNat * (con.bottom.toNat - 1) + con.videoSizeRow.toNat := by
    rw [← Nat.mul_succ]
    congr 1
    omega
  have hmono : con.videoSizeRow.toNat * (con.bottom.toNat - con.top.toNat - 1)
      ≤ con.videoSizeRow.toNat * (con.bottom.toNat - 1) := Nat.mul_le_mul_left _ (by omega)
  have hD4 : (con.origin + con.videoSizeRow * con.bottom - 4).toNat + 4
      = con.origin.toNat + con.videoSizeRow.toNat * con.bottom.toNat := by bv_omega
  have hS4 : (con.origin + con.videoSizeRow * (con.bottom - 1) - 4).toNat + 4
      = con.origin.toNat + con.videoSizeRow.toNat * (con.bottom.toNat - 1) := by bv_omega
  refine h.setRam (copyDown_within _ _ _ _ h.cells ?_ ?_ ?_ ?_ (by omega) (by omega))
  · rw [hS4]
    omega
  · rw [hS4]
    omega
  · rw [hD4]
    omega
  · rw [hD4]
    omega

/-- The screen is moved down by a line, or back to the start of the video memory. -/
theorem toNat_sub_add {x y : Word} (h : y.toNat ≤ x.toNat) : (x - y).toNat + y.toNat = x.toNat := by
  rw [BitVec.toNat_sub_of_le (BitVec.le_def.2 h), Nat.sub_add_cancel h]

theorem Sound.scrup (h : Sound b con) (hb : b.Fits) : Sound b con.scrup := by
  have hbd := h.bounds hb
  have hend := h.scrEnd_le' hb
  have hfits := h.fits hb
  have horigin := h.origin_ge
  have hrow := h.row
  have hpos := h.pos_eq
  have hscr := h.scrEnd_eq
  have hx := h.x_le
  have hy := h.y_lt
  rw [hbd.2.2.2.2] at hscr hy
  have hyle : con.y.toNat * con.videoSizeRow.toNat ≤ 24 * con.videoSizeRow.toNat :=
    Nat.mul_le_mul_right _ (by omega)
  have horigin' : (con.origin + con.videoSizeRow).toNat
      = con.origin.toNat + con.videoSizeRow.toNat := BitVec.toNat_add_of_lt (by omega)
  have hpos' : (con.pos + con.videoSizeRow).toNat = con.pos.toNat + con.videoSizeRow.toNat :=
    BitVec.toNat_add_of_lt (by omega)
  have hscr' : (con.scrEnd + con.videoSizeRow).toNat
      = con.scrEnd.toNat + con.videoSizeRow.toNat := BitVec.toNat_add_of_lt (by omega)
  have hlast : (con.videoNumLines - 1).toNat = 24 := by
    rw [h.lines]
    rfl
  unfold Console.scrup
  dsimp only
  split_ifs with hega hfull hwrap
  · have hcount := h.four_mul_count hb (d := con.videoNumLines - 1) (by omega)
    rw [hlast] at hcount
    have hram := copyUp_within { con with
        origin := con.origin + con.videoSizeRow
        pos := con.pos + con.videoSizeRow
        scrEnd := con.scrEnd + con.videoSizeRow }
      (((con.videoNumLines - 1) * con.videoNumColumns) >>> 1) con.videoMemStart
      (con.origin + con.videoSizeRow) h.cells (by omega) (by omega) le_rfl (by show _ + 2 * con.videoNumColumns.toNat ≤ _; omega) (by omega)
    have hback := toNat_sub_add (x := con.origin + con.videoSizeRow) (y := con.videoMemStart) (by omega)
    rw [horigin'] at hback
    have hp := toNat_sub_add (x := con.pos + con.videoSizeRow)
      (y := con.origin + con.videoSizeRow - con.videoMemStart) (by omega)
    have he := toNat_sub_add (x := con.scrEnd + con.videoSizeRow)
      (y := con.origin + con.videoSizeRow - con.videoMemStart) (by omega)
    rw [hpos'] at hp
    rw [hscr'] at he
    refine { h with pos_eq := ?_, scrEnd_eq := ?_, origin_ge := le_rfl, scrEnd_le := ?_, cells := hram }
    · show (con.pos + con.videoSizeRow
          - (con.origin + con.videoSizeRow - con.videoMemStart)).toNat
        = con.videoMemStart.toNat + con.y.toNat * con.videoSizeRow.toNat + 2 * con.x.toNat
      omega
    · show (con.scrEnd + con.videoSizeRow
          - (con.origin + con.videoSizeRow - con.videoMemStart)).toNat
        = con.videoMemStart.toNat + con.videoNumLines.toNat * con.videoSizeRow.toNat
      rw [hbd.2.2.2.2]
      omega
    · show (con.scrEnd + con.videoSizeRow
          - (con.origin + con.videoSizeRow - con.videoMemStart)).toNat ≤ con.videoMemEnd.toNat
      omega
  · have hwrap' : (con.scrEnd + con.videoSizeRow).toNat ≤ con.videoMemEnd.toNat :=
      Nat.le_of_not_lt hwrap
    have hstart : (con.scrEnd + con.videoSizeRow - con.videoSizeRow).toNat = con.scrEnd.toNat := by
      bv_omega
    have hram := fill_within { con with
        origin := con.origin + con.videoSizeRow
        pos := con.pos + con.videoSizeRow
        scrEnd := con.scrEnd + con.videoSizeRow }
      (con.scrEnd + con.videoSizeRow - con.videoSizeRow) con.videoNumColumns h.cells
      (by omega) (by omega) (by omega)
    refine { h with pos_eq := ?_, scrEnd_eq := ?_, origin_ge := ?_, scrEnd_le := hwrap', cells := hram }
    · show (con.pos + con.videoSizeRow).toNat = (con.origin + con.videoSizeRow).toNat
        + con.y.toNat * con.videoSizeRow.toNat + 2 * con.x.toNat
      omega
    · show (con.scrEnd + con.videoSizeRow).toNat = (con.origin + con.videoSizeRow).toNat
        + con.videoNumLines.toNat * con.videoSizeRow.toNat
      rw [hbd.2.2.2.2]
      omega
    · show con.videoMemStart.toNat ≤ (con.origin + con.videoSizeRow).toNat
      omega
  · exact h.scrollRegion hb
  · exact h.scrollRegion hb

theorem Sound.lf (h : Sound b con) (hb : b.Fits) : Sound b con.lf := by
  unfold Console.lf
  split_ifs with hy
  · have hbd := h.bounds hb
    have hend := h.scrEnd_le' hb
    have hbottom := h.bottom_le
    have hpos := h.pos_eq
    have hx := h.x_le
    have hylt := h.y_lt
    have hrow := h.row
    have hy1 : (con.y + 1).toNat = con.y.toNat + 1 := by bv_omega
    have hlt : (con.y + 1).toNat < con.bottom.toNat := hy
    have hle : con.y.toNat * con.videoSizeRow.toNat ≤ 24 * con.videoSizeRow.toNat :=
      Nat.mul_le_mul_right _ (by omega)
    refine { h with pos_eq := ?_, y_lt := by show (con.y + 1).toNat < con.videoNumLines.toNat; omega }
    show (con.pos + con.videoSizeRow).toNat
      = con.origin.toNat + (con.y + 1).toNat * con.videoSizeRow.toNat + 2 * con.x.toNat
    rw [hy1, Nat.succ_mul]
    bv_omega
  · exact h.scrup hb

theorem Sound.ri (h : Sound b con) (hb : b.Fits) : Sound b con.ri := by
  unfold Console.ri
  split_ifs with hy
  · have hbd := h.bounds hb
    have hpos := h.pos_eq
    have hylt := h.y_lt
    have hlt : con.top.toNat < con.y.toNat := hy
    have hy1 : (con.y - 1).toNat = con.y.toNat - 1 := by bv_omega
    have hsplit : con.y.toNat * con.videoSizeRow.toNat
        = (con.y.toNat - 1) * con.videoSizeRow.toNat + con.videoSizeRow.toNat := by
      rw [← Nat.succ_mul]
      congr 1
      omega
    refine { h with pos_eq := ?_, y_lt := by show (con.y - 1).toNat < con.videoNumLines.toNat; omega }
    show (con.pos - con.videoSizeRow).toNat
      = con.origin.toNat + (con.y - 1).toNat * con.videoSizeRow.toNat + 2 * con.x.toNat
    rw [hy1]
    bv_omega
  · exact h.scrdown hb

/-- The place of the first cell of the cursor's line. -/
theorem Sound.lineStart (h : Sound b con) (hb : b.Fits) : (con.pos - con.x <<< 1).toNat
    = con.origin.toNat + con.y.toNat * con.videoSizeRow.toNat := by
  have hbd := h.bounds hb
  have hpos := h.pos_eq
  have hx := h.x_le
  have hshift : (con.x <<< 1).toNat = 2 * con.x.toNat := by
    rw [BitVec.toNat_shiftLeft, Nat.shiftLeft_eq]
    omega
  bv_omega

/-- The cursor's line is on the screen. -/
theorem Sound.lineEnd (h : Sound b con) :
    con.origin.toNat + con.y.toNat * con.videoSizeRow.toNat + 2 * con.videoNumColumns.toNat
      ≤ con.scrEnd.toNat := by
  have hscr := h.scrEnd_eq
  have hrow := h.row
  have hle : (con.y.toNat + 1) * con.videoSizeRow.toNat
      ≤ con.videoNumLines.toNat * con.videoSizeRow.toNat := Nat.mul_le_mul_right _ h.y_lt
  rw [Nat.succ_mul] at hle
  omega

theorem Sound.cr (h : Sound b con) (hb : b.Fits) : Sound b con.cr :=
  { h with
    pos_eq := by
      show (con.pos - con.x <<< 1).toNat
        = con.origin.toNat + con.y.toNat * con.videoSizeRow.toNat + 2 * 0
      exact h.lineStart hb
    x_le := Nat.zero_le _ }

theorem Sound.backspace (h : Sound b con) (hb : b.Fits) (hx0 : con.x ≠ 0) :
    Sound b { con with pos := con.pos - 2, x := con.x - 1 } := by
  have hbd := h.bounds hb
  have hpos := h.pos_eq
  have hx := h.x_le
  refine { h with pos_eq := ?_, x_le := ?_ }
  · show (con.pos - 2).toNat = con.origin.toNat + con.y.toNat * con.videoSizeRow.toNat
      + 2 * (con.x - 1).toNat
    bv_omega
  · show (con.x - 1).toNat ≤ _
    bv_omega

theorem Sound.write (h : Sound b con) (hb : b.Fits) {a : Word} (v : BitVec 16)
    (hl : con.origin.toNat ≤ a.toNat) (hh : a.toNat + 2 ≤ con.scrEnd.toNat) :
    Sound b { con with ram := con.ram.write16 a v } := by
  have hbd := h.bounds hb
  have horigin := h.origin_ge
  have hend := h.scrEnd_le
  exact h.setRam (h.cells.write16 v (by omega) (by omega) (by omega))

theorem Sound.del (h : Sound b con) (hb : b.Fits) : Sound b con.del := by
  unfold Console.del
  split_ifs with hx0
  · have hs := h.backspace hb hx0
    have hpos := hs.pos_eq
    have hx := h.x_le
    have hend := h.lineEnd
    have hx1 : (con.x - 1).toNat = con.x.toNat - 1 := by bv_omega
    have hpos' : (con.pos - 2).toNat = con.origin.toNat
      + con.y.toNat * con.videoSizeRow.toNat + 2 * (con.x - 1).toNat := hpos
    exact hs.write hb (a := con.pos - 2) _ (by show con.origin.toNat ≤ _; omega)
      (by show _ ≤ con.scrEnd.toNat; bv_omega)
  · exact h

theorem Sound.csiJ (h : Sound b con) (hb : b.Fits) (par : Word) : Sound b (con.csiJ par) := by
  have hbd := h.bounds hb
  have horigin := h.origin_ge
  have hend := h.scrEnd_le
  have hscr := h.scrEnd_eq
  have hpos := h.pos_eq
  have hline := h.lineEnd
  have hx := h.x_le
  have hrow := h.row
  unfold Console.csiJ
  split_ifs
  · have hcount : ((con.scrEnd - con.pos) >>> 1).toNat
        = (con.scrEnd.toNat - con.pos.toNat) / 2 := by
      rw [BitVec.toNat_ushiftRight, Nat.shiftRight_eq_div_pow]
      bv_omega
    exact h.fill hb (by omega) (by omega)
  · have hcount : ((con.pos - con.origin) >>> 1).toNat
        = (con.pos.toNat - con.origin.toNat) / 2 := by
      rw [BitVec.toNat_ushiftRight, Nat.shiftRight_eq_div_pow]
      bv_omega
    exact h.fill hb (by omega) (by omega)
  · have hcount : (con.videoNumColumns * con.videoNumLines).toNat
        = con.videoNumColumns.toNat * 25 := by
      rw [BitVec.toNat_mul, hbd.2.2.2.2]
      omega
    rw [hbd.2.2.2.2] at hscr
    exact h.fill hb (by omega) (by omega)
  · exact h

theorem Sound.csiK (h : Sound b con) (hb : b.Fits) (par : Word) : Sound b (con.csiK par) := by
  have hbd := h.bounds hb
  have horigin := h.origin_ge
  have hend := h.scrEnd_le
  have hpos := h.pos_eq
  have hline := h.lineEnd
  have hstart := h.lineStart hb
  unfold Console.csiK
  split_ifs with _ hx
  · exact h
  · have hlt : con.x.toNat < con.videoNumColumns.toNat := Nat.lt_of_not_le hx
    have hcount : (con.videoNumColumns - con.x).toNat
        = con.videoNumColumns.toNat - con.x.toNat := by bv_omega
    exact h.fill hb (by omega) (by omega)
  · have hx := h.x_le
    exact h.fill hb (by omega) (by omega)
  · exact h.fill hb (by omega) (by omega)
  · exact h.fill hb (by omega) (by omega)
  · exact h

theorem Sound.insertChar (h : Sound b con) (hb : b.Fits) : Sound b con.insertChar := by
  have hbd := h.bounds hb
  have horigin := h.origin_ge
  have hend := h.scrEnd_le
  have hpos := h.pos_eq
  have hline := h.lineEnd
  have hx := h.x_le
  exact h.setRam (insertCells_within h.cells (by omega) (by omega) (by omega))

theorem Sound.deleteChar (h : Sound b con) (hb : b.Fits) : Sound b con.deleteChar := by
  unfold Console.deleteChar
  split_ifs with hx
  · exact h
  · have hbd := h.bounds hb
    have horigin := h.origin_ge
    have hend := h.scrEnd_le
    have hpos := h.pos_eq
    have hline := h.lineEnd
    have hlt : con.x.toNat < con.videoNumColumns.toNat := Nat.lt_of_not_le hx
    have hx1 : (con.x + 1).toNat = con.x.toNat + 1 := by bv_omega
    obtain ⟨hw, hl, hh⟩ := deleteCells_within con.videoNumColumns (con.x + 1) con.pos
      h.cells (by omega) (by omega) (by omega)
    exact h.setRam (hw.write16 _ hl hh (by omega))

/-- A scroll from the cursor's line on is the scroll of a region. -/
theorem Sound.fromCursor (h : Sound b con) {scroll : Console → Console}
    (hs : ∀ con, Sound b con → Sound b (scroll con)) : Sound b (con.fromCursor scroll) := by
  have hr : Sound b { con with top := con.y, bottom := con.videoNumLines } :=
    { h with top_lt := h.y_lt, bottom_le := le_rfl }
  have h' := hs _ hr
  refine { h' with top_lt := h.top_lt, bottom_le := ?_ }
  have hb := h.bottom_le
  rw [h.lines] at hb
  show con.bottom.toNat ≤ (scroll { con with top := con.y, bottom := con.videoNumLines }).videoNumLines.toNat
  rw [h'.lines]
  exact hb

theorem Sound.repeated (h : Sound b con) {f : Console → Console}
    (hf : ∀ con, Sound b con → Sound b (f con)) (most nr : Word) :
    Sound b (con.repeated f most nr) :=
  Function.Iterate.rec (Sound b) h hf _

theorem Sound.setPar (h : Sound b con) (i : ℕ) (v : Word) : Sound b (con.setPar i v) := { h with }

theorem Sound.fromOne (h : Sound b con) (i : ℕ) : Sound b (con.fromOne i) := by
  unfold Console.fromOne
  split_ifs
  · exact h.setPar i _
  · exact h

theorem Sound.atLeastOne (h : Sound b con) : Sound b con.atLeastOne := by
  unfold Console.atLeastOne
  split_ifs
  · exact h.setPar 0 _
  · exact h

theorem Sound.setRegion (h : Sound b con) : Sound b con.setRegion := by
  obtain ⟨c, hc⟩ : ∃ c, c = if (con.fromOne 0).par 1 = 0 then
      (con.fromOne 0).setPar 1 (con.fromOne 0).videoNumLines else con.fromOne 0 := ⟨_, rfl⟩
  have hs : Sound b c := by
    rw [hc]
    split_ifs
    · exact (h.fromOne 0).setPar 1 _
    · exact h.fromOne 0
  unfold Console.setRegion
  dsimp only
  rw [← hc]
  split_ifs with hr
  · exact { hs with top_lt := hr.1, bottom_le := hr.2 }
  · exact hs

/-! ## The states of `con_write` -/

theorem Sound.saveCur (h : Sound b con) : Sound b con.saveCur := { h with }

theorem Sound.setState (h : Sound b con) (n : ℕ) : Sound b { con with state := n } := { h with }

theorem Sound.ite {p : Prop} [Decidable p] {c d : Console} (hc : Sound b c) (hd : Sound b d) :
    Sound b (if p then c else d) := by
  split_ifs
  · exact hc
  · exact hd

theorem Sound.csi (h : Sound b con) (hb : b.Fits) (c : BitVec 8) : Sound b (con.csi c) := by
  have hone := h.fromOne 0
  have htwo := hone.fromOne 1
  have hleast := h.atLeastOne
  unfold Console.csi
  dsimp only
  refine Sound.ite (hone.gotoxy hb _ _) ?_
  refine Sound.ite (hleast.gotoxy hb _ _) ?_
  refine Sound.ite (hleast.gotoxy hb _ _) ?_
  refine Sound.ite (hleast.gotoxy hb _ _) ?_
  refine Sound.ite (hleast.gotoxy hb _ _) ?_
  refine Sound.ite (hleast.gotoxy hb _ _) ?_
  refine Sound.ite (hleast.gotoxy hb _ _) ?_
  refine Sound.ite (hone.gotoxy hb _ _) ?_
  refine Sound.ite (htwo.gotoxy hb _ _) ?_
  refine Sound.ite (h.csiJ hb _) ?_
  refine Sound.ite (h.csiK hb _) ?_
  refine Sound.ite (h.repeated (fun _ h' => h'.fromCursor fun _ h'' => h''.scrdown hb) _ _) ?_
  refine Sound.ite (h.repeated (fun _ h' => h'.fromCursor fun _ h'' => h''.scrup hb) _ _) ?_
  refine Sound.ite (h.repeated (fun _ h' => h'.deleteChar hb) _ _) ?_
  refine Sound.ite (h.repeated (fun _ h' => h'.insertChar hb) _ _) ?_
  refine Sound.ite ({ h with }) ?_
  refine Sound.ite (h.setRegion) ?_
  refine Sound.ite (h.saveCur) ?_
  refine Sound.ite (h.gotoxy hb _ _) ?_
  exact h

theorem Sound.parameter (h : Sound b con) (hb : b.Fits) (c : BitVec 8) :
    Sound b (con.parameter c) := by
  unfold Console.parameter
  split_ifs with hc
  · refine { h with npar_lt := ?_ }
    show (con.npar + 1).toNat < npars
    have := hc.2
    unfold npars at *
    bv_omega
  · exact h.setPar _ _
  · exact ((h.setState 4).setState 0).csi hb c

theorem Sound.firstParameter (h : Sound b con) (hb : b.Fits) (c : BitVec 8) :
    Sound b (con.firstParameter c) := by
  unfold Console.firstParameter
  dsimp only
  have h' : Sound b { con with
      par := fun i => if i < npars then 0 else con.par i
      npar := 0
      state := 3
      ques := decide (c = code '?') } := { h with npar_lt := Nat.zero_lt_succ 15 }
  split_ifs
  · exact h'
  · exact h'.parameter hb c

theorem Sound.escape (h : Sound b con) (hb : b.Fits) (c : BitVec 8) : Sound b (con.escape c) := by
  have h := h.setState 0
  unfold Console.escape
  dsimp only
  refine Sound.ite (h.setState 2) ?_
  refine Sound.ite (h.gotoxy hb _ _) ?_
  refine Sound.ite (h.ri hb) ?_
  refine Sound.ite (h.lf hb) ?_
  refine Sound.ite { h with } ?_
  refine Sound.ite h.saveCur ?_
  exact Sound.ite (h.gotoxy hb _ _) h

/-- The cursor in another column of its line. -/
theorem Sound.atColumn (h : Sound b con) (x pos : Word)
    (hx : x.toNat ≤ con.videoNumColumns.toNat)
    (hpos : pos.toNat = con.origin.toNat + con.y.toNat * con.videoSizeRow.toNat + 2 * x.toNat) :
    Sound b { con with x := x, pos := pos } :=
  { h with x_le := hx, pos_eq := hpos }

theorem lf_x (con : Console) : con.lf.x = con.x := by
  unfold Console.lf Console.scrup
  dsimp only
  split_ifs <;> rfl

theorem Sound.put (h : Sound b con) (hb : b.Fits)
    (hx : con.x.toNat < con.videoNumColumns.toNat) (c : BitVec 8) : Sound b (con.put c) := by
  have hbd := h.bounds hb
  have hpos := h.pos_eq
  have hline := h.lineEnd
  have hend := h.scrEnd_le
  have hw := h.write hb (a := con.pos) (con.attr ++ c) (by omega) (by omega)
  have hx1 : (con.x + 1).toNat = con.x.toNat + 1 := by bv_omega
  have hp2 : (con.pos + 2).toNat = con.pos.toNat + 2 := by bv_omega
  exact hw.atColumn (con.x + 1) (con.pos + 2)
    (by show _ ≤ con.videoNumColumns.toNat; omega)
    (by show _ = con.origin.toNat + con.y.toNat * con.videoSizeRow.toNat + _; omega)

theorem Sound.printing (h : Sound b con) (hb : b.Fits) (c : BitVec 8) :
    Sound b (con.printing c) := by
  have hbd := h.bounds hb
  have hpos := h.pos_eq
  have hx := h.x_le
  have hrow := h.row
  unfold Console.printing
  split_ifs with hcol
  · have hle : con.videoNumColumns.toNat ≤ con.x.toNat := hcol
    have hx0 : (con.x - con.videoNumColumns).toNat = 0 := by bv_omega
    have hs := h.atColumn (con.x - con.videoNumColumns) (con.pos - con.videoSizeRow)
      (by omega) (by bv_omega)
    refine (hs.lf hb).put hb ?_ c
    have hcols := ((hs.lf hb).bounds hb).2.2.1
    rw [lf_x]
    show (con.x - con.videoNumColumns).toNat < _
    omega
  · exact h.put hb (Nat.lt_of_not_le hcol) c

theorem Sound.tab (h : Sound b con) (hb : b.Fits) : Sound b con.tab := by
  have hbd := h.bounds hb
  have hpos := h.pos_eq
  have hx := h.x_le
  have hrow := h.row
  have hline := h.lineEnd
  have hend := h.scrEnd_le
  obtain ⟨c, hc⟩ : ∃ c, c = 8 - (con.x &&& 7) := ⟨_, rfl⟩
  have hc8 : c.toNat ≤ 8 := by
    have hand : (con.x &&& 7).toNat ≤ 7 := by
      rw [BitVec.toNat_and]
      exact Nat.and_le_right
    bv_omega
  have hshift : (c <<< 1).toNat = 2 * c.toNat := by
    rw [BitVec.toNat_shiftLeft, Nat.shiftLeft_eq]
    omega
  unfold Console.tab
  rw [← hc]
  dsimp only
  have hxc : (con.x + c).toNat = con.x.toNat + c.toNat := by bv_omega
  have hpc : (con.pos + c <<< 1).toNat = con.pos.toNat + 2 * c.toNat := by bv_omega
  split_ifs with hcol
  · have hlt : con.videoNumColumns.toNat < (con.x + c).toNat := hcol
    exact (h.atColumn (con.x + c - con.videoNumColumns)
      (con.pos + c <<< 1 - con.videoSizeRow) (by bv_omega) (by bv_omega)).lf hb
  · have hle : (con.x + c).toNat ≤ con.videoNumColumns.toNat := Nat.le_of_not_lt hcol
    exact h.atColumn _ _ hle (by omega)

theorem Sound.ground (h : Sound b con) (hb : b.Fits) (verase c : BitVec 8) :
    Sound b (con.ground verase c) := by
  unfold Console.ground
  refine Sound.ite (h.printing hb c) ?_
  refine Sound.ite (h.setState 1) ?_
  refine Sound.ite (h.lf hb) ?_
  refine Sound.ite (h.cr hb) ?_
  refine Sound.ite (h.del hb) ?_
  refine Sound.ite ?_ ?_
  · unfold Console.backspace
    split_ifs with hx
    · exact h.backspace hb hx
    · exact h
  refine Sound.ite (h.tab hb) ?_
  exact Sound.ite { h with } h

theorem Sound.conByte (h : Sound b con) (hb : b.Fits) (verase c : BitVec 8) :
    Sound b (con.conByte verase c) := by
  unfold Console.conByte
  split
  · exact h.ground hb verase c
  · exact h.escape hb c
  · exact h.firstParameter hb c
  · exact h.parameter hb c
  · exact (h.setState 0).csi hb c
  · exact h

theorem Sound.bytes (h : Sound b con) (hb : b.Fits) (verase : BitVec 8)
    (bytes : List (BitVec 8)) : Sound b (bytes.foldl (Console.conByte · verase) con) := by
  induction bytes generalizing con with
  | nil => exact h
  | cons c cs ih => exact ih (h.conByte hb verase c)

theorem Sound.writes (h : Sound b con) (hb : b.Fits) (ws : List (BitVec 8 × List (BitVec 8))) :
    Sound b (ws.foldl (fun con w => con.conWrite w.1 w.2) con) := by
  induction ws generalizing con with
  | nil => exact h
  | cons w ws ih => exact ih { h.bytes hb w.1 w.2 with }

/-! ## From `con_init` on -/

theorem describe_within {cs : List Char} {p : Word} {m : Ram} (hw : m.Within lo hi)
    (hl : lo ≤ p.toNat) (hh : p.toNat + 2 * cs.length ≤ hi) (h32 : hi < 2 ^ 32) :
    (Console.describe cs p m).Within lo hi := by
  induction cs generalizing p m with
  | nil => exact hw
  | cons c cs ih =>
    rw [List.length_cons] at hh
    have hp : (p + 2 : Word).toNat = p.toNat + 2 := by bv_omega
    exact ih (hw.write8 _ hl (by omega) h32) (by omega) (by omega)

theorem Bios.display_length (b : Bios) : b.display.displayDesc.toList.length = 4 := by
  unfold Bios.display
  split_ifs <;> rfl

theorem conStart_geometry (b : Bios) (byte : Word → BitVec 8) (crtc : ℕ → BitVec 8) :
    Geometry b (conStart b byte crtc) := by
  have hc := b.origVideoCols.isLt
  have hcols : (b.origVideoCols.setWidth 32).toNat = b.origVideoCols.toNat := by
    rw [BitVec.toNat_setWidth]
    omega
  refine ⟨rfl, hcols, ?_, rfl, rfl, rfl⟩
  show (b.origVideoCols.setWidth 32 * 2).toNat = 2 * (b.origVideoCols.setWidth 32).toNat
  rw [BitVec.toNat_mul]
  show (b.origVideoCols.setWidth 32).toNat * 2 % 2 ^ 32 = _
  omega

/-- `con_init` with the cursor at the origin. -/
theorem conStart_sound (hb : b.Fits) (byte : Word → BitVec 8) (crtc : ℕ → BitVec 8) :
    Sound b { conStart b byte crtc with pos := (conStart b byte crtc).origin } := by
  have g := conStart_geometry b byte crtc
  have hbd := g.bounds hb
  have hfits := g.fits hb
  have hrow := g.row
  obtain ⟨con, hcon⟩ : ∃ con, con = conStart b byte crtc := ⟨_, rfl⟩
  have hscr : con.scrEnd = con.videoMemStart + con.videoNumLines * con.videoSizeRow := by
    rw [hcon]
    rfl
  have hram : con.ram = Console.describe b.display.displayDesc.toList
      (con.videoMemStart + con.videoSizeRow - 8) ⟨byte, []⟩ := by
    rw [hcon]
    rfl
  have horigin : con.origin = con.videoMemStart := by
    rw [hcon]
    rfl
  have hx : con.x = 0 ∧ con.y = 0 ∧ con.top = 0 ∧ con.bottom = con.videoNumLines ∧ con.npar = 0 := by
    rw [hcon]
    exact ⟨rfl, rfl, rfl, rfl, rfl⟩
  rw [← hcon] at g hbd hfits hrow ⊢
  have hend : con.scrEnd.toNat = con.videoMemStart.toNat + 25 * con.videoSizeRow.toNat := by
    have hrows := g.toNat_row hb (k := con.videoNumLines) (by omega)
    rw [hscr, BitVec.toNat_add, BitVec.mul_comm, hrows, hbd.2.2.2.2]
    omega
  refine { g with
    pos_eq := ?_, x_le := ?_, y_lt := ?_, top_lt := ?_, bottom_le := ?_, scrEnd_eq := ?_,
    origin_ge := ?_, scrEnd_le := ?_, npar_lt := ?_, cells := ?_ }
  · show con.origin.toNat = con.origin.toNat + con.y.toNat * _ + 2 * con.x.toNat
    rw [hx.1, hx.2.1]
    simp
  · show con.x.toNat ≤ con.videoNumColumns.toNat
    rw [hx.1]
    exact Nat.zero_le _
  · show con.y.toNat < con.videoNumLines.toNat
    rw [hx.2.1, hbd.2.2.2.2]
    decide
  · show con.top.toNat < con.bottom.toNat
    rw [hx.2.2.1, hx.2.2.2.1, hbd.2.2.2.2]
    decide
  · show con.bottom.toNat ≤ con.videoNumLines.toNat
    rw [hx.2.2.2.1]
  · show con.scrEnd.toNat = con.origin.toNat + con.videoNumLines.toNat * con.videoSizeRow.toNat
    rw [hend, horigin, hbd.2.2.2.2]
  · show con.videoMemStart.toNat ≤ con.origin.toNat
    rw [horigin]
  · show con.scrEnd.toNat ≤ con.videoMemEnd.toNat
    omega
  · show con.npar.toNat < npars
    rw [hx.2.2.2.2]
    decide
  · show con.ram.Within con.videoMemStart.toNat con.videoMemEnd.toNat
    rw [hram]
    have hlen := b.display_length
    have hp : (con.videoMemStart + con.videoSizeRow - 8).toNat
        = con.videoMemStart.toNat + con.videoSizeRow.toNat - 8 := by bv_omega
    refine describe_within (fun a ha => absurd ha List.not_mem_nil) ?_ ?_ (by omega)
    · rw [hp]
      omega
    · rw [hp, hlen]
      omega

theorem conInit_sound (hb : b.Fits) (byte : Word → BitVec 8) (crtc : ℕ → BitVec 8) :
    Sound b (conInit b byte crtc) := by
  have hs := (conStart_sound hb byte crtc).gotoxy hb (b.origX.setWidth 32) (b.origY.setWidth 32)
  have hc := (conStart_geometry b byte crtc).columns
  have hX : (b.origX.setWidth 32).toNat ≤ (conStart b byte crtc).videoNumColumns.toNat := by
    rw [hc, BitVec.toNat_setWidth]
    have := hb.column
    omega
  have hY : (b.origY.setWidth 32).toNat < (25 : Word).toNat := by
    rw [BitVec.toNat_setWidth]
    have := hb.line
    show _ < 25
    omega
  -- `gotoxy` goes there, whatever the place was before
  have hgo : ¬ ((conStart b byte crtc).videoNumColumns < b.origX.setWidth 32
      ∨ (conStart b byte crtc).videoNumLines ≤ b.origY.setWidth 32) := by
    rintro (h | h)
    · exact absurd hX (Nat.not_le_of_lt h)
    · exact absurd hY (Nat.not_lt_of_le h)
  unfold conInit
  unfold Console.gotoxy at hs ⊢
  rw [if_neg hgo] at hs ⊢
  exact hs

/-- After every byte of every run. The writes are those that are over; `bytes` is the part of the
next one that has been read. -/
theorem con_write_sound (b : Bios) (hb : b.Fits) (byte : Word → BitVec 8) (crtc : ℕ → BitVec 8)
    (writes : List (BitVec 8 × List (BitVec 8))) (verase : BitVec 8) (bytes : List (BitVec 8)) :
    Sound b (bytes.foldl (Console.conByte · verase)
      (writes.foldl (fun con w => con.conWrite w.1 w.2) (conInit b byte crtc))) :=
  ((conInit_sound hb byte crtc).writes hb writes).bytes hb verase bytes

/-- On an 80-column EGA, after `"Hi\n"` and the first bytes of `ESC [ 2 J`. -/
theorem con_write_sound_ega : Sound ⟨0, 10, 3, 80, 3⟩
    ([27, 91, 50].foldl (Console.conByte · 127)
      ([(127, [72, 105, 10])].foldl (fun con w => con.conWrite w.1 w.2)
        (conInit ⟨0, 10, 3, 80, 3⟩ (fun _ => 0) fun _ => 0))) :=
  con_write_sound ⟨0, 10, 3, 80, 3⟩ ⟨by decide, by decide, by decide, by decide⟩ (fun _ => 0)
    (fun _ => 0) [(127, [72, 105, 10])] 127 [27, 91, 50]

end Linux011.Tty
