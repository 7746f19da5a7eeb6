import Linux011.Tty.Cells

/-!
# The console is a terminal

A terminal is a screen of cells, a cursor and a scroll region; it knows nothing of a video memory.
Its bytes are read by a lexer, one token for each character, escape sequence or command. Whatever is
written to the console, on whichever card, the card shows the screen of the terminal, and its cursor:
that an EGA scrolls by another origin, and moves the screen back when the memory ends, is not seen.

1. `Lexer`, `Token`, `Terminal`, and what a token does.
2. `Shows`: the console's card shows the terminal.
3. One lemma for each function of the screen.
4. `Lexes`: the state of `con_write` is that of the lexer. One byte; a run from `con_init`.

The answers to ESC Z are not echoed here, as if `ECHO` were off.
-/

namespace Linux011.Tty

open X86 Window

/-! ## The lexer -/

inductive Token
  | char (c : BitVec 8)
  | escape (c : BitVec 8)
  /-- `ESC [`, the parameters, and the last character. -/
  | csi (pars : List Word) (c : BitVec 8)

inductive Lexer
  | ground
  | escape
  | bracket
  /-- The parameters that are over, and the one that is being read. -/
  | parameters (pars : List Word) (par : Word)

namespace Lexer

/-- There are 16 parameters at most; one more semicolon is the end of the command. -/
def parameter (pars : List Word) (par : Word) (c : BitVec 8) : Lexer × Option Token :=
  if c = code ';' ∧ pars.length < npars - 1 then (parameters (pars ++ [par]) 0, none)
  else if (code '0').toInt ≤ c.toInt ∧ c.toInt ≤ (code '9').toInt then
    (parameters pars (10 * par + c.signExtend 32 - 48), none)
  else (ground, some (.csi (pars ++ [par]) c))

def next : Lexer → BitVec 8 → Lexer × Option Token
  | ground, c => if c = 27 then (escape, none) else (ground, some (.char c))
  | escape, c => if c = code '[' then (bracket, none) else (ground, some (.escape c))
  | bracket, c => if c = code '?' then (parameters [] 0, none) else parameter [] 0 c
  | parameters pars par, c => parameter pars par c

end Lexer

/-! ## The terminal -/

structure Terminal where
  columns : Word
  lines : Word
  blank : BitVec 16
  /-- The cells, one line after the other. -/
  cell : ℕ → BitVec 16
  x : Word
  y : Word
  top : Word
  bottom : Word
  attr : BitVec 8
  savedX : Word
  savedY : Word
  beepcount : ℕ
  answers : List (BitVec 8)

namespace Terminal

variable (t : Terminal)

/-- The first cell of a line. -/
def line (k : ℕ) : ℕ := k * t.columns.toNat

def size : ℕ := t.line t.lines.toNat

def cursor : ℕ := t.line t.y.toNat + t.x.toNat

/-- The end of the cursor's line. -/
def eol : ℕ := t.line (t.y.toNat + 1)

def erase (a b : ℕ) : Terminal := { t with cell := fill t.cell a b t.blank }

def up (n a b : ℕ) : Terminal := { t with cell := shiftUp t.cell n a b t.blank }

def down (n a b : ℕ) : Terminal := { t with cell := shiftDown t.cell n a b t.blank }

/-- Nothing, if there is no such place; the column after the last one is ok. -/
def gotoxy (newX newY : Word) : Terminal :=
  if t.columns < newX ∨ t.lines ≤ newY then t else { t with x := newX, y := newY }

def scrup : Terminal := t.up t.columns.toNat (t.line t.top.toNat) (t.line t.bottom.toNat)

def scrdown : Terminal := t.down t.columns.toNat (t.line t.top.toNat) (t.line t.bottom.toNat)

def lf : Terminal := if t.y + 1 < t.bottom then { t with y := t.y + 1 } else t.scrup

def ri : Terminal := if t.top < t.y then { t with y := t.y - 1 } else t.scrdown

def cr : Terminal := { t with x := 0 }

def backspace : Terminal := if t.x ≠ 0 then { t with x := t.x - 1 } else t

def del : Terminal :=
  if t.x ≠ 0 then t.backspace.erase t.backspace.cursor (t.backspace.cursor + 1) else t

def put (c : BitVec 8) : Terminal :=
  { t with cell := Function.update t.cell t.cursor (t.attr ++ c), x := t.x + 1 }

/-- From behind the last column to the next line. -/
def wrap : Terminal := lf { t with x := t.x - t.columns }

def printing (c : BitVec 8) : Terminal := if t.columns ≤ t.x then t.wrap.put c else t.put c

def tab : Terminal :=
  let t := { t with x := t.x + (8 - (t.x &&& 7)) }
  if t.columns < t.x then t.wrap else t

def saveCur : Terminal := { t with savedX := t.x, savedY := t.y }

def restoreCur : Terminal := t.gotoxy t.savedX t.savedY

/-- `J`: the screen from the cursor on, up to it, or all of it. -/
def csiJ (par : Word) : Terminal :=
  if par = 0 then t.erase t.cursor t.size
  else if par = 1 then t.erase 0 t.cursor
  else if par = 2 then t.erase 0 t.size
  else t

/-- `K`: the same of the cursor's line. -/
def csiK (par : Word) : Terminal :=
  if par = 0 then t.erase t.cursor t.eol
  else if par = 1 then t.erase (t.line t.y.toNat) t.cursor
  else if par = 2 then t.erase (t.line t.y.toNat) t.eol
  else t

/-- How often: at least once, and `most` times at most. -/
def times (most nr : Word) : ℕ := (if most < nr then most else if nr = 0 then 1 else nr).toNat

def insertChars (nr : Word) : Terminal := t.down (times t.columns nr) t.cursor t.eol

def deleteChars (nr : Word) : Terminal := t.up (times t.columns nr) t.cursor t.eol

def insertLines (nr : Word) : Terminal :=
  t.down (times t.lines nr * t.columns.toNat) (t.line t.y.toNat) t.size

def deleteLines (nr : Word) : Terminal :=
  t.up (times t.lines nr * t.columns.toNat) (t.line t.y.toNat) t.size

/-- `r`: the scroll region; without a second parameter up to the last line. -/
def setRegion (first last : Word) : Terminal :=
  let last := if last = 0 then t.lines else last
  if first < last ∧ last ≤ t.lines then { t with top := first, bottom := last } else t

/-! ## What a token does -/

/-- A parameter that counts from 1. -/
def fromOne (par : Word) : Word := if par ≠ 0 then par - 1 else par

def atLeastOne (par : Word) : Word := if par = 0 then par + 1 else par

def csi (pars : List Word) (c : BitVec 8) : Terminal :=
  let par := pars.getD 0 0
  let one := fromOne par
  let two := fromOne (pars.getD 1 0)
  let least := atLeastOne par
  if c = code 'G' ∨ c = 96 then t.gotoxy one t.y
  else if c = code 'A' then t.gotoxy t.x (t.y - least)
  else if c = code 'B' ∨ c = code 'e' then t.gotoxy t.x (t.y + least)
  else if c = code 'C' ∨ c = code 'a' then t.gotoxy (t.x + least) t.y
  else if c = code 'D' then t.gotoxy (t.x - least) t.y
  else if c = code 'E' then t.gotoxy 0 (t.y + least)
  else if c = code 'F' then t.gotoxy 0 (t.y - least)
  else if c = code 'd' then t.gotoxy t.x one
  else if c = code 'H' ∨ c = code 'f' then t.gotoxy two one
  else if c = code 'J' then t.csiJ par
  else if c = code 'K' then t.csiK par
  else if c = code 'L' then t.insertLines par
  else if c = code 'M' then t.deleteLines par
  else if c = code 'P' then t.deleteChars par
  else if c = code '@' then t.insertChars par
  else if c = code 'm' then { t with attr := pars.foldl Console.csiAttr t.attr }
  else if c = code 'r' then t.setRegion one (pars.getD 1 0)
  else if c = code 's' then t.saveCur
  else if c = code 'u' then t.restoreCur
  else t

/-- The cursor is saved by any other escape in column 55, and restored in column 56. -/
def escape (c : BitVec 8) : Terminal :=
  if c = code 'E' then t.gotoxy 0 (t.y + 1)
  else if c = code 'M' then t.ri
  else if c = code 'D' then t.lf
  else if c = code 'Z' then { t with answers := t.answers ++ [27, 91, 63, 49, 59, 50, 99] }
  else if t.x = 55 then t.saveCur
  else if t.x = 56 then t.restoreCur
  else t

def char (verase c : BitVec 8) : Terminal :=
  if 31 < c.toInt ∧ c.toInt < 127 then t.printing c
  else if c = 10 ∨ c = 11 ∨ c = 12 then t.lf
  else if c = 13 then t.cr
  else if c.toInt = verase.toNat then t.del
  else if c = 8 then t.backspace
  else if c = 9 then t.tab
  else if c = 7 then { t with beepcount := 100 / 8 }
  else t

def token (verase : BitVec 8) : Token → Terminal
  | .char c => t.char verase c
  | .escape c => t.escape c
  | .csi pars c => t.csi pars c

end Terminal

/-- The terminal that `con_init` finds, with what is in the memory and the name of the card. -/
def Terminal.init (b : Bios) (byte : Word → BitVec 8) : Terminal :=
  let columns : Word := b.origVideoCols.setWidth 32
  let name := b.display.videoMemStart + columns * 2 - 8
  { columns, lines := 25, blank := 0x0720
    cell := (Console.describe b.display.displayDesc.toList name ⟨byte, []⟩).cell b.display.videoMemStart
    x := b.origX.setWidth 32, y := b.origY.setWidth 32, top := 0, bottom := 25
    attr := 0x07, savedX := 0, savedY := 0, beepcount := 0, answers := [] }

/-- One byte, for the lexer and the terminal. -/
def vtByte (verase : BitVec 8) (vt : Lexer × Terminal) (c : BitVec 8) : Lexer × Terminal :=
  let (lexer, token) := vt.1.next c
  (lexer, token.elim vt.2 (vt.2.token verase))

def vtWrite (vt : Lexer × Terminal) (write : BitVec 8 × List (BitVec 8)) : Lexer × Terminal :=
  write.2.foldl (vtByte write.1) vt

/-- The writes, each with the terminal's `ERASE_CHAR` at the time. -/
def vtRun (b : Bios) (byte : Word → BitVec 8) (writes : List (BitVec 8 × List (BitVec 8))) :
    Lexer × Terminal :=
  writes.foldl vtWrite (.ground, Terminal.init b byte)

def conRun (b : Bios) (byte : Word → BitVec 8) (crtc : ℕ → BitVec 8)
    (writes : List (BitVec 8 × List (BitVec 8))) : Console :=
  writes.foldl (fun con w => con.conWrite w.1 w.2) (conInit b byte crtc)

/-! ## The card shows the terminal -/

namespace Console

variable (con : Console)

/-- The first cell that the card shows, by its registers. -/
def start : ℕ := (con.crtc 12 ++ con.crtc 13).toNat

/-- The cell in which the card shows the cursor. -/
def cursorCell : ℕ := (con.crtc 14 ++ con.crtc 15).toNat

/-- A cell of the screen, as the card shows it. -/
def shown (i : ℕ) : BitVec 16 := con.ram.cell con.videoMemStart (con.start + i)

end Console

/-- The card shows the terminal, while `con_write` is in the state `st`. -/
structure Shows (st : ℕ) (con : Console) (t : Terminal) : Prop where
  state : con.state = st
  columns : con.videoNumColumns = t.columns
  lines : con.videoNumLines = t.lines
  blank : con.videoEraseChar = t.blank
  x : con.x = t.x
  y : con.y = t.y
  top : con.top = t.top
  bottom : con.bottom = t.bottom
  attr : con.attr = t.attr
  savedX : con.savedX = t.savedX
  savedY : con.savedY = t.savedY
  beepcount : con.beepcount = t.beepcount
  answers : con.answers = t.answers
  /-- The screen begins where the card takes it from. -/
  origin : IsCell con.videoMemStart con.origin con.start
  seen : Seen (con.ram.cell con.videoMemStart) con.start t.size t.cell

/-- The cells of the video memory. -/
def Console.cellCount (con : Console) : ℕ := (con.videoMemEnd.toNat - con.videoMemStart.toNat) / 2

/-- A card in a text mode: it has an even number of columns. -/
structure Bios.TextMode (b : Bios) : Prop extends b.Fits where
  even : 2 ∣ b.origVideoCols.toNat

variable {b : Bios} {con : Console} {t : Terminal} {st : ℕ}

theorem Geometry.cellCount (g : Geometry b con) :
    con.videoMemStart.toNat + 2 * con.cellCount = con.videoMemEnd.toNat ∧
      con.videoMemEnd.toNat < 2 ^ 32 ∧ 4 ≤ con.videoMemStart.toNat := by
  have hsize : 2 ∣ b.display.videoMemEnd.toNat - b.display.videoMemStart.toNat ∧
      b.display.videoMemStart.toNat ≤ b.display.videoMemEnd.toNat := by
    unfold Bios.display
    split_ifs <;> decide
  have hm := b.memory
  unfold Console.cellCount
  rw [g.memStart, g.memEnd]
  omega

theorem Geometry.holds (g : Geometry b con) : con.videoMemStart.toNat + 2 * con.cellCount < 2 ^ 32 := by
  have := g.cellCount
  omega

theorem Console.holds_cell (con : Console) :
    con.ram.Holds con.videoMemStart con.cellCount (con.ram.cell con.videoMemStart) :=
  fun _ _ => rfl

theorem Terminal.line_succ (t : Terminal) (k : ℕ) : t.line (k + 1) = t.line k + t.columns.toNat :=
  Nat.succ_mul _ _

theorem Terminal.line_add (t : Terminal) (j k : ℕ) : t.line (j + k) = t.line j + t.line k :=
  Nat.add_mul _ _ _

/-- The high and the low byte of the number of a cell, as they go to the controller. -/
theorem toNat_registers {w : Word} {o : ℕ} (hw : w.toNat = 2 * o) (ho : o < 2 ^ 16) :
    ((w >>> 9).setWidth 8 ++ (w >>> 1).setWidth 8 : BitVec 16).toNat = o := by
  rw [BitVec.toNat_append, BitVec.toNat_setWidth, BitVec.toNat_setWidth, BitVec.toNat_ushiftRight,
    BitVec.toNat_ushiftRight, hw, Nat.shiftRight_eq_div_pow, Nat.shiftRight_eq_div_pow,
    ← Nat.shiftLeft_add_eq_or_of_lt (Nat.mod_lt _ (by decide)), Nat.shiftLeft_eq]
  omega

theorem setOrigin_start {o : ℕ} (h : IsCell con.videoMemStart con.origin o) (ho : o < 2 ^ 16) :
    con.setOrigin.start = o :=
  toNat_registers h.toNat_sub ho

namespace Shows

theorem ite {p q : Prop} [Decidable p] [Decidable q] {c d : Console} {t u : Terminal} (hpq : p ↔ q)
    (hc : p → Shows st c t) (hd : ¬ p → Shows st d u) : Shows st (if p then c else d) (if q then t else u) := by
  by_cases hp : p
  · rw [if_pos hp, if_pos (hpq.1 hp)]
    exact hc hp
  · rw [if_neg hp, if_neg fun hq => hp (hpq.2 hq)]
    exact hd hp

variable (v : Shows st con t)
include v

theorem row (h : Sound b con) : con.videoSizeRow.toNat = 2 * t.columns.toNat := by
  rw [h.row, v.columns]

theorem lines_eq (h : Sound b con) : t.lines.toNat = 25 := by
  rw [← v.lines, h.lines]
  rfl

/-- A line begins where the source computes it. -/
theorem isCell_line (h : Sound b con) (hb : b.Fits) {k : Word} (hk : k.toNat ≤ 25) :
    IsCell con.videoMemStart (con.origin + con.videoSizeRow * k) (con.start + t.line k.toNat) := by
  have hline := (h.line hb hk).1
  have ho := v.origin
  have hrow : con.videoSizeRow.toNat * k.toNat = 2 * (k.toNat * t.columns.toNat) := by
    rw [v.row h, Nat.mul_assoc, Nat.mul_comm t.columns.toNat]
  unfold IsCell Terminal.line at *
  omega

theorem isCell_pos (h : Sound b con) : IsCell con.videoMemStart con.pos (con.start + t.cursor) := by
  have ho := v.origin
  have hpos := h.pos_eq
  have hrow : con.y.toNat * con.videoSizeRow.toNat = 2 * (t.y.toNat * t.columns.toNat) := by
    rw [v.row h, ← v.y, Nat.mul_left_comm]
  have hx : con.x.toNat = t.x.toNat := congrArg BitVec.toNat v.x
  unfold IsCell Terminal.cursor Terminal.line at *
  omega

theorem isCell_scrEnd (h : Sound b con) :
    IsCell con.videoMemStart con.scrEnd (con.start + t.size) := by
  have ho := v.origin
  have hend := h.scrEnd_eq
  have hrow : con.videoNumLines.toNat * con.videoSizeRow.toNat
      = 2 * (t.lines.toNat * t.columns.toNat) := by
    rw [v.row h, ← v.lines, Nat.mul_left_comm]
  unfold IsCell Terminal.size Terminal.line at *
  omega

theorem size_le (h : Sound b con) : con.start + t.size ≤ con.cellCount := by
  have hend := v.isCell_scrEnd h
  have hle := h.scrEnd_le
  have hcount := h.cellCount.1
  unfold IsCell at hend
  omega

theorem line_le (h : Sound b con) {k : ℕ} (hk : k ≤ 25) : t.line k ≤ t.size := by
  unfold Terminal.size
  rw [v.lines_eq h]
  exact Nat.mul_le_mul_right _ hk

theorem cursor_le (h : Sound b con) : t.cursor ≤ t.eol ∧ t.eol ≤ t.size ∧
    t.eol = t.cursor + (t.columns.toNat - t.x.toNat) := by
  have hx : t.x.toNat ≤ t.columns.toNat := by
    rw [← v.x, ← v.columns]
    exact h.x_le
  have hy : t.y.toNat + 1 ≤ 25 := by
    have := h.y_lt
    rw [v.lines, v.lines_eq h, v.y] at this
    exact this
  have hsize := v.line_le h hy
  have heol : t.eol = t.line t.y.toNat + t.columns.toNat := t.line_succ _
  unfold Terminal.eol Terminal.cursor at *
  omega

/-- Another memory, and the cells that are seen of it. -/
theorem setCells (h : Sound b con) {m : Ram} {f g : ℕ → BitVec 16}
    (hm : m.Holds con.videoMemStart con.cellCount f) (hs : Seen f con.start t.size g) :
    Shows st { con with ram := m } { t with cell := g } where
  __ := v
  seen i hi := by
    have hle := v.size_le h
    have hi' : i < t.size := hi
    exact (hm (con.start + i) (by omega)).trans (hs i hi)

theorem erase (h : Sound b con) {a k n : ℕ} {start count : Word}
    (ha : IsCell con.videoMemStart start (con.start + a)) (hk : count.toNat = k) (hn : a + k = n)
    (hle : n ≤ t.size) : Shows st (con.fill start count) (t.erase a n) := by
  have hsize := v.size_le h
  have hfill := fill_holds h.holds con.holds_cell ha hk (by omega)
  refine v.setCells h hfill ?_
  rw [v.blank, Nat.add_assoc, hn]
  exact v.seen.fill

/-! ## Scrolling -/

/-- The long words of `d` lines: no cell is left over, since the number of columns is even. -/
theorem two_mul_count (h : Sound b con) (hb : b.TextMode) {d : Word} (hd : d.toNat ≤ 25) :
    2 * ((d * con.videoNumColumns) >>> 1).toNat = t.line d.toNat := by
  have hbd := h.bounds hb.toFits
  have hmul : (d * con.videoNumColumns).toNat = d.toNat * con.videoNumColumns.toNat := by
    apply BitVec.toNat_mul_of_lt
    calc d.toNat * con.videoNumColumns.toNat ≤ 25 * 255 := Nat.mul_le_mul hd (by omega)
      _ < 2 ^ 32 := by norm_num
  have heven : 2 ∣ d.toNat * con.videoNumColumns.toNat := by
    rw [h.columns]
    exact Dvd.dvd.mul_left hb.even _
  rw [BitVec.toNat_ushiftRight, hmul, Nat.shiftRight_eq_div_pow, pow_one, Nat.mul_div_cancel' heven,
    v.columns]
  rfl

theorem scrollRegion (h : Sound b con) (hb : b.TextMode) : Shows st con.scrollRegion t.scrup := by
  have htop := h.top_lt
  have hbottom := h.bottom_le
  rw [v.lines, v.lines_eq h] at hbottom
  have hd : (con.bottom - con.top - 1).toNat = con.bottom.toNat - con.top.toNat - 1 := by bv_omega
  have htop1 : (con.top + 1).toNat = con.top.toNat + 1 := by bv_omega
  obtain ⟨k, hk⟩ : ∃ k, (((con.bottom - con.top - 1) * con.videoNumColumns) >>> 1).toNat = k :=
    ⟨_, rfl⟩
  have hcount := v.two_mul_count h hb (d := con.bottom - con.top - 1) (by omega)
  have hD := v.isCell_line h hb.toFits (k := con.top) (by omega)
  have hS := v.isCell_line h hb.toFits (k := con.top + 1) (by omega)
  have hsize := v.size_le h
  have hend := v.line_le h hbottom
  have hC : con.videoNumColumns.toNat = t.columns.toNat := congrArg BitVec.toNat v.columns
  -- the lines above the region, the first one of it and the rest of it
  have hsplit : t.line con.bottom.toNat = t.line con.top.toNat + t.columns.toNat
      + t.line (con.bottom.toNat - con.top.toNat - 1) := by
    rw [← t.line_succ, ← t.line_add]
    exact congrArg t.line (by omega)
  rw [hk, hd] at hcount
  rw [htop1, t.line_succ] at hS
  have hcopy := copyUp_holds h.holds con.holds_cell hS hD hk (by omega) (by omega) (by omega)
  have hshift := fill_copy_eq_shiftUp (con.ram.cell con.videoMemStart) con.videoEraseChar
    (a := con.start + t.line con.top.toNat) (b := con.start + t.line con.bottom.toNat)
    (n := t.columns.toNat) (by omega)
  refine v.setCells h hcopy ?_
  rw [hC, ← Nat.add_assoc, show 2 * k = con.start + t.line con.bottom.toNat
      - (con.start + t.line con.top.toNat) - t.columns.toNat by omega,
    show con.start + t.line con.top.toNat + (con.start + t.line con.bottom.toNat
      - (con.start + t.line con.top.toNat) - t.columns.toNat)
      = con.start + t.line con.bottom.toNat - t.columns.toNat by omega,
    Nat.sub_add_cancel (by omega), hshift, v.blank, v.top, v.bottom]
  exact v.seen.shiftUp (by rw [← v.bottom]; exact hend)

theorem scrdown (h : Sound b con) (hb : b.TextMode) : Shows st con.scrdown t.scrdown := by
  have htop := h.top_lt
  have hbottom := h.bottom_le
  rw [v.lines, v.lines_eq h] at hbottom
  have hd : (con.bottom - con.top - 1).toNat = con.bottom.toNat - con.top.toNat - 1 := by bv_omega
  have hbot1 : (con.bottom - 1).toNat = con.bottom.toNat - 1 := by bv_omega
  obtain ⟨k, hk⟩ : ∃ k, (((con.bottom - con.top - 1) * con.videoNumColumns) >>> 1).toNat = k :=
    ⟨_, rfl⟩
  have hcount := v.two_mul_count h hb (d := con.bottom - con.top - 1) (by omega)
  have hD := v.isCell_line h hb.toFits (k := con.bottom) (by omega)
  have hS := v.isCell_line h hb.toFits (k := con.bottom - 1) (by omega)
  have hsize := v.size_le h
  have hend := v.line_le h hbottom
  have hC : con.videoNumColumns.toNat = t.columns.toNat := congrArg BitVec.toNat v.columns
  -- the lines above the last one of the region, and that one
  have hlast : t.line con.bottom.toNat = t.line (con.bottom.toNat - 1) + t.columns.toNat := by
    rw [← t.line_succ]
    exact congrArg t.line (by omega)
  have hsplit : t.line (con.bottom.toNat - 1)
      = t.line con.top.toNat + t.line (con.bottom.toNat - con.top.toNat - 1) := by
    rw [← t.line_add]
    exact congrArg t.line (by omega)
  rw [hk, hd] at hcount
  rw [hbot1] at hS
  have hD4 : IsCell con.videoMemStart (con.origin + con.videoSizeRow * con.bottom - 4 + 4)
      (con.start + t.line con.top.toNat + t.columns.toNat + 2 * k) := by
    rw [BitVec.sub_add_cancel, show con.start + t.line con.top.toNat + t.columns.toNat + 2 * k
      = con.start + t.line con.bottom.toNat by omega]
    exact hD
  have hS4 : IsCell con.videoMemStart (con.origin + con.videoSizeRow * (con.bottom - 1) - 4 + 4)
      (con.start + t.line con.top.toNat + 2 * k) := by
    rw [BitVec.sub_add_cancel, show con.start + t.line con.top.toNat + 2 * k
      = con.start + t.line (con.bottom.toNat - 1) by omega]
    exact hS
  have hcopy := copyDown_holds h.holds con.holds_cell hS4 hD4 hk (by omega) (by omega) (by omega)
    h.cellCount.2.2
  have hshift := fill_copy_eq_shiftDown (con.ram.cell con.videoMemStart) con.videoEraseChar
    (a := con.start + t.line con.top.toNat) (b := con.start + t.line con.bottom.toNat)
    (n := t.columns.toNat) (by omega)
  refine v.setCells h hcopy ?_
  rw [hC, Nat.add_sub_cancel, show 2 * k = con.start + t.line con.bottom.toNat
      - (con.start + t.line con.top.toNat) - t.columns.toNat by omega,
    hshift, v.blank, v.top, v.bottom]
  exact v.seen.shiftDown

/-- Another memory, another origin, and the cells that are seen from there. -/
theorem setOrigin (h : Sound b con) {m : Ram} {f g : ℕ → BitVec 16} {origin scrEnd pos : Word} {o : ℕ}
    (hm : m.Holds con.videoMemStart con.cellCount f) (ho : IsCell con.videoMemStart origin o)
    (hle : o + t.size ≤ con.cellCount) (hs : Seen f o t.size g) :
    Shows st (Console.setOrigin { con with ram := m, origin := origin, scrEnd := scrEnd, pos := pos })
      { t with cell := g } := by
  have hcount := h.cellCount
  have hmem := b.memory
  have hbegin := h.memStart
  have hend := h.memEnd
  have hstart : Console.start (Console.setOrigin
      { con with ram := m, origin := origin, scrEnd := scrEnd, pos := pos }) = o := by
    refine setOrigin_start ho ?_
    rw [hbegin, hend] at hcount
    omega
  refine { v with origin := ?_, seen := ?_ }
  · rw [hstart]
    exact ho
  · rw [hstart]
    intro i hi
    have hi' : i < t.size := hi
    exact (hm (o + i) (by omega)).trans (hs i hi)

/-- On an EGA all lines but the first are seen one line further on; where the memory ends, they are
moved to its start. -/
theorem scrup (h : Sound b con) (hb : b.TextMode) : Shows st con.scrup t.scrup := by
  have hC : con.videoNumColumns.toNat = t.columns.toNat := congrArg BitVec.toNat v.columns
  have hlines := v.lines_eq h
  have hsize := v.size_le h
  have hrow := v.row h
  have ho := v.origin
  have hpos := h.cellCount
  have hbd := h.bounds hb.toFits
  have hscr := v.isCell_scrEnd h
  have hlast : t.size = t.line 24 + t.columns.toNat := by
    rw [← t.line_succ]
    exact congrArg t.line hlines
  have horigin : IsCell con.videoMemStart (con.origin + con.videoSizeRow) (con.start + t.columns.toNat) := by
    unfold IsCell at *
    bv_omega
  have hup : con.top = 0 ∧ con.bottom = con.videoNumLines →
      t.scrup = { t with cell := shiftUp t.cell t.columns.toNat 0 t.size t.blank } := by
    rintro ⟨htop, hbottom⟩
    have h0 : t.line t.top.toNat = 0 := by
      rw [← v.top, htop]
      exact Nat.zero_mul _
    have hN : t.line t.bottom.toNat = t.size := by
      rw [← v.bottom, hbottom, v.lines]
      rfl
    unfold Terminal.scrup Terminal.up
    rw [h0, hN]
  unfold Console.scrup
  dsimp only
  split_ifs with hega hfull hwrap
  · obtain ⟨k, hk⟩ : ∃ k, (((con.videoNumLines - 1) * con.videoNumColumns) >>> 1).toNat = k :=
      ⟨_, rfl⟩
    have hlast24 : (con.videoNumLines - 1).toNat = 24 := by
      rw [h.lines]
      rfl
    have hcount := v.two_mul_count h hb (d := con.videoNumLines - 1) (by omega)
    rw [hk, hlast24] at hcount
    have hD : IsCell con.videoMemStart con.videoMemStart 0 := rfl
    have hcopy := copyUp_holds h.holds
      (Console.holds_cell { con with
        origin := con.origin + con.videoSizeRow
        pos := con.pos + con.videoSizeRow
        scrEnd := con.scrEnd + con.videoSizeRow })
      horigin hD hk (Nat.zero_le _) (by omega)
      (by show 0 + 2 * k + con.videoNumColumns.toNat ≤ _; omega)
    rw [hup hfull]
    refine v.setOrigin h hcopy hD (by omega) fun i hi => ?_
    have hseen := v.seen
    show fill (copy _ _ _ _) (0 + 2 * k) (0 + 2 * k + con.videoNumColumns.toNat) con.videoEraseChar _ = _
    unfold fill copy shiftUp
    by_cases hi' : i + t.columns.toNat < t.size
    · rw [if_neg (by omega), if_pos (by omega), if_pos (by omega), if_pos hi', ← hseen _ hi']
      exact congrArg _ (by omega)
    · rw [if_pos (by omega), if_pos (by omega), if_neg hi', v.blank]
  · have hle : (con.scrEnd + con.videoSizeRow).toNat ≤ con.videoMemEnd.toNat := Nat.le_of_not_lt hwrap
    have hroom : con.start + t.size + t.columns.toNat ≤ con.cellCount := by
      unfold IsCell at hscr
      bv_omega
    have hnew : IsCell con.videoMemStart (con.scrEnd + con.videoSizeRow - con.videoSizeRow)
        (con.start + t.size) := by
      rw [BitVec.add_sub_cancel]
      exact hscr
    have hfill := fill_holds h.holds
      (Console.holds_cell { con with
        origin := con.origin + con.videoSizeRow
        pos := con.pos + con.videoSizeRow
        scrEnd := con.scrEnd + con.videoSizeRow })
      hnew hC hroom
    rw [hup hfull]
    refine v.setOrigin h hfill horigin (by omega) ?_
    refine Seen.scroll (fun i hi => ?_) fun i hi => ?_
    · unfold fill
      rw [if_neg (by omega)]
      exact v.seen i hi
    · unfold fill
      rw [if_pos (by omega), ← v.blank]
  · exact v.scrollRegion h hb
  · exact v.scrollRegion h hb

/-! ## The functions of the screen -/

theorem gotoxy {x y newX newY : Word} (hx : x = newX) (hy : y = newY) :
    Shows st (con.gotoxy x y) (t.gotoxy newX newY) := by
  subst hx hy
  unfold Console.gotoxy Terminal.gotoxy
  exact ite (by rw [v.columns, v.lines]) (fun _ => v) fun _ => { v with x := rfl, y := rfl }

theorem lf (h : Sound b con) (hb : b.TextMode) : Shows st con.lf t.lf := by
  unfold Console.lf Terminal.lf
  exact ite (by rw [v.y, v.bottom]) (fun _ => { v with y := congrArg (· + 1) v.y })
    fun _ => v.scrup h hb

theorem ri (h : Sound b con) (hb : b.TextMode) : Shows st con.ri t.ri := by
  unfold Console.ri Terminal.ri
  exact ite (by rw [v.y, v.top]) (fun _ => { v with y := congrArg (· - 1) v.y })
    fun _ => v.scrdown h hb

theorem cr : Shows st con.cr t.cr := { v with x := rfl }

theorem backspace : Shows st con.backspace t.backspace := by
  unfold Console.backspace Terminal.backspace
  exact ite (by rw [v.x]) (fun _ => { v with x := congrArg (· - 1) v.x }) fun _ => v

/-- One cell of the screen is written. -/
theorem write (h : Sound b con) {a : Word} {i : ℕ} (ha : IsCell con.videoMemStart a (con.start + i))
    (hi : i < t.size) (w : BitVec 16) :
    Shows st { con with ram := con.ram.write16 a w } { t with cell := Function.update t.cell i w } := by
  have hsize := v.size_le h
  exact v.setCells h (con.holds_cell.write16 h.holds ha (by omega) w) (v.seen.update i w)

theorem del (h : Sound b con) (hb : b.TextMode) : Shows st con.del t.del := by
  unfold Console.del Terminal.del
  by_cases hx : con.x ≠ 0
  · rw [if_pos hx, if_pos (by rw [← v.x]; exact hx)]
    have hs : Shows st { con with pos := con.pos - 2, x := con.x - 1 } t.backspace := by
      have hbs := v.backspace
      unfold Console.backspace at hbs
      rw [if_pos hx] at hbs
      exact hbs
    have hsound := h.backspace hb.toFits hx
    have hcell := hs.isCell_pos hsound
    have hle := hs.cursor_le hsound
    have hx1 : t.backspace.x.toNat < t.backspace.columns.toNat := by
      have hlt : (con.x - 1).toNat < con.videoNumColumns.toNat := by
        have := h.x_le
        bv_omega
      rw [← hs.x, ← hs.columns]
      exact hlt
    have hw := hs.write hsound hcell (by omega) con.videoEraseChar
    have hblank : con.videoEraseChar = t.backspace.blank := hs.blank
    have hfill : Function.update t.backspace.cell t.backspace.cursor con.videoEraseChar
        = fill t.backspace.cell t.backspace.cursor (t.backspace.cursor + 1) t.backspace.blank := by
      rw [hblank, ← fill_succ _ _ (Nat.lt_succ_self _), fill_empty _ _ (Nat.le_refl _)]
    rw [hfill] at hw
    exact hw
  · rw [if_neg hx, if_neg (by rw [← v.x]; exact hx)]
    exact v

theorem csiJ (h : Sound b con) (par : Word) : Shows st (con.csiJ par) (t.csiJ par) := by
  have ho := v.origin
  have hpos := v.isCell_pos h
  have hend := v.isCell_scrEnd h
  have hle := v.cursor_le h
  have hline := v.lines_eq h
  have hbase := h.cellCount
  have hsize := v.size_le h
  unfold Console.csiJ Terminal.csiJ
  split_ifs
  · refine v.erase h hpos (k := t.size - t.cursor) ?_ (by omega) le_rfl
    unfold IsCell at *
    rw [BitVec.toNat_ushiftRight, Nat.shiftRight_eq_div_pow]
    bv_omega
  · refine v.erase h ho (k := t.cursor) ?_ (by omega) (by omega)
    unfold IsCell at *
    rw [BitVec.toNat_ushiftRight, Nat.shiftRight_eq_div_pow]
    bv_omega
  · refine v.erase h ho (k := t.size) ?_ (by omega) le_rfl
    have hcols := h.columns
    have hlt := b.origVideoCols.isLt
    rw [BitVec.toNat_mul, v.lines, hline, Terminal.size, Terminal.line, hline, v.columns]
    rw [v.columns] at hcols
    omega
  · exact v

theorem csiK (h : Sound b con) (hb : b.TextMode) (par : Word) :
    Shows st (con.csiK par) (t.csiK par) := by
  have hpos := v.isCell_pos h
  have hle := v.cursor_le h
  have hstart : IsCell con.videoMemStart (con.pos - con.x <<< 1) (con.start + t.line t.y.toNat) := by
    have hline := h.lineStart hb.toFits
    have ho := v.origin
    have hrow : con.y.toNat * con.videoSizeRow.toNat = 2 * t.line t.y.toNat := by
      rw [v.row h, ← v.y, Nat.mul_left_comm]
      rfl
    unfold IsCell at *
    omega
  have heol : t.line t.y.toNat + t.columns.toNat = t.eol := (t.line_succ _).symm
  have hx : con.x.toNat ≤ con.videoNumColumns.toNat := h.x_le
  have hC : con.videoNumColumns.toNat = t.columns.toNat := congrArg BitVec.toNat v.columns
  have hX : con.x.toNat = t.x.toNat := congrArg BitVec.toNat v.x
  have hcursor : t.line t.y.toNat + t.x.toNat = t.cursor := rfl
  unfold Console.csiK Terminal.csiK
  split_ifs with _ hcol _ hlt
  · -- the cursor is behind the last column
    have hge : con.videoNumColumns.toNat ≤ con.x.toNat := hcol
    have hempty : t.erase t.cursor t.eol = t := by
      unfold Terminal.erase
      rw [fill_empty _ _ (by omega)]
    rw [hempty]
    exact v
  · exact v.erase h hpos (k := t.columns.toNat - t.x.toNat) (by bv_omega) (by omega) (by omega)
  · exact v.erase h hstart hX hcursor (by omega)
  · have hge : con.videoNumColumns.toNat ≤ con.x.toNat := Nat.le_of_not_lt hlt
    exact v.erase h hstart (k := t.x.toNat) (by omega) hcursor (by omega)
  · exact v.erase h hstart hC heol (by omega)
  · exact v

/-! ## Inserting and deleting -/

theorem insertChar (h : Sound b con) : Shows st con.insertChar (t.down 1 t.cursor t.eol) := by
  have hle := v.cursor_le h
  have hsize := v.size_le h
  have hC : con.videoNumColumns.toNat = t.columns.toNat := congrArg BitVec.toNat v.columns
  have hX : con.x.toNat = t.x.toNat := congrArg BitVec.toNat v.x
  have hcells := insertCells_holds h.holds con.videoNumColumns con.x con.videoEraseChar con.holds_cell
    (v.isCell_pos h) (j := con.start + t.eol) (by omega) (by omega)
  refine v.setCells h hcells ?_
  rw [v.blank]
  exact v.seen.shiftDown

theorem deleteChar (h : Sound b con) : Shows st con.deleteChar (t.up 1 t.cursor t.eol) := by
  have hle := v.cursor_le h
  have hsize := v.size_le h
  have hC : con.videoNumColumns.toNat = t.columns.toNat := congrArg BitVec.toNat v.columns
  have hX : con.x.toNat = t.x.toNat := congrArg BitVec.toNat v.x
  unfold Console.deleteChar
  split_ifs with hcol
  · -- the cursor is behind the last column
    have hge : con.videoNumColumns.toNat ≤ con.x.toNat := hcol
    have hempty : t.up 1 t.cursor t.eol = t := by
      unfold Terminal.up
      rw [show shiftUp t.cell 1 t.cursor t.eol t.blank = t.cell from funext fun _ => if_neg (by omega)]
    rw [hempty]
    exact v
  · have hlt : con.x.toNat < con.videoNumColumns.toNat := Nat.lt_of_not_le hcol
    have hx1 : (con.x + 1).toNat = con.x.toNat + 1 := by bv_omega
    obtain ⟨hcopy, hlast⟩ := deleteCells_holds (j := con.start + t.eol - 1) h.holds con.videoNumColumns
      (con.x + 1) con.pos con.holds_cell (v.isCell_pos h) (by omega) (by omega)
    have hw := hcopy.write16 h.holds hlast (by omega) con.videoEraseChar
    have hshift := fill_copy_eq_shiftUp (con.ram.cell con.videoMemStart) con.videoEraseChar
      (a := con.start + t.cursor) (b := con.start + t.eol) (n := 1) (by omega)
    have hfill : Function.update (copy (con.ram.cell con.videoMemStart) (con.start + t.cursor)
          (con.start + t.cursor + 1) (con.start + t.eol - 1 - (con.start + t.cursor)))
          (con.start + t.eol - 1) con.videoEraseChar
        = shiftUp (con.ram.cell con.videoMemStart) 1 (con.start + t.cursor) (con.start + t.eol)
          con.videoEraseChar := by
      rw [← hshift, ← fill_succ _ _ (show con.start + t.eol - 1 < con.start + t.eol by omega),
        fill_empty _ _ (by omega), Nat.sub_right_comm]
    rw [hfill] at hw
    refine v.setCells h hw ?_
    rw [v.blank]
    exact v.seen.shiftUp hle.2.1

theorem fromCursor {scroll : Console → Console} {u : Terminal}
    (hs : Shows st (scroll { con with top := con.y, bottom := con.videoNumLines }) u) :
    Shows st (con.fromCursor scroll) { u with top := t.top, bottom := t.bottom } := by
  unfold Console.fromCursor
  generalize scroll { con with top := con.y, bottom := con.videoNumLines } = c at hs ⊢
  exact { hs with top := v.top, bottom := v.bottom }

/-- The region from the cursor's line on. -/
theorem region (h : Sound b con) : Sound b { con with top := con.y, bottom := con.videoNumLines } ∧
    Shows st { con with top := con.y, bottom := con.videoNumLines } { t with top := t.y, bottom := t.lines } :=
  ⟨{ h with top_lt := h.y_lt, bottom_le := le_rfl }, { v with top := v.y, bottom := v.lines }⟩

theorem insertLine (h : Sound b con) (hb : b.TextMode) :
    Shows st con.insertLine (t.down t.columns.toNat (t.line t.y.toNat) t.size) :=
  v.fromCursor ((v.region h).2.scrdown (v.region h).1 hb)

theorem deleteLine (h : Sound b con) (hb : b.TextMode) :
    Shows st con.deleteLine (t.up t.columns.toNat (t.line t.y.toNat) t.size) :=
  v.fromCursor ((v.region h).2.scrup (v.region h).1 hb)

omit v in
/-- A step that changes the cells only, repeated: `cells k` are those after `k` of them. -/
theorem iterate {step : Console → Console} (cells : ℕ → ℕ → BitVec 16)
    (hsound : ∀ c, Sound b c → Sound b (step c))
    (hstep : ∀ c k, Sound b c → Shows st c { t with cell := cells k } →
      Shows st (step c) { t with cell := cells (k + 1) })
    (h : Sound b con) (v : Shows st con { t with cell := cells 0 }) (k : ℕ) :
    Shows st (step^[k] con) { t with cell := cells k } := by
  have hk : Sound b (step^[k] con) ∧ Shows st (step^[k] con) { t with cell := cells k } := by
    induction k with
    | zero => exact ⟨h, v⟩
    | succ k ih =>
      rw [Function.iterate_succ_apply']
      exact ⟨hsound _ ih.1, hstep _ k ih.1 ih.2⟩
  exact hk.2

theorem repeated_down (h : Sound b con) {step : Console → Console} (n lo hi : ℕ) (most nr : Word)
    (hsound : ∀ c, Sound b c → Sound b (step c))
    (hstep : ∀ c f, Sound b c → Shows st c { t with cell := f } →
      Shows st (step c) { t with cell := shiftDown f n lo hi t.blank }) :
    Shows st (con.repeated step most nr) (t.down (Terminal.times most nr * n) lo hi) := by
  refine iterate (fun k => shiftDown t.cell (k * n) lo hi t.blank) hsound
    (fun c k hc hv => ?_) h ?_ (Terminal.times most nr)
  · have hs := hstep c _ hc hv
    rw [shiftDown_shiftDown, ← Nat.succ_mul] at hs
    exact hs
  · rw [Nat.zero_mul, shiftDown_zero]
    exact v

theorem repeated_up (h : Sound b con) {step : Console → Console} (n lo hi : ℕ) (most nr : Word)
    (hsound : ∀ c, Sound b c → Sound b (step c))
    (hstep : ∀ c f, Sound b c → Shows st c { t with cell := f } →
      Shows st (step c) { t with cell := shiftUp f n lo hi t.blank }) :
    Shows st (con.repeated step most nr) (t.up (Terminal.times most nr * n) lo hi) := by
  refine iterate (fun k => shiftUp t.cell (k * n) lo hi t.blank) hsound
    (fun c k hc hv => ?_) h ?_ (Terminal.times most nr)
  · have hs := hstep c _ hc hv
    rw [shiftUp_shiftUp, ← Nat.succ_mul] at hs
    exact hs
  · rw [Nat.zero_mul, shiftUp_zero]
    exact v

theorem times_columns (nr : Word) :
    Terminal.times con.videoNumColumns nr = Terminal.times t.columns nr := by
  rw [v.columns]

theorem times_lines (nr : Word) :
    Terminal.times con.videoNumLines nr = Terminal.times t.lines nr := by
  rw [v.lines]

theorem csiAt (h : Sound b con) (hb : b.TextMode) (nr : Word) :
    Shows st (con.csiAt nr) (t.insertChars nr) := by
  have hd := v.repeated_down h 1 t.cursor t.eol con.videoNumColumns nr (fun _ hc => hc.insertChar hb.toFits)
    fun _ _ hc hv => hv.insertChar hc
  rw [Nat.mul_one, v.times_columns] at hd
  exact hd

theorem csiP (h : Sound b con) (hb : b.TextMode) (nr : Word) :
    Shows st (con.csiP nr) (t.deleteChars nr) := by
  have hd := v.repeated_up h 1 t.cursor t.eol con.videoNumColumns nr (fun _ hc => hc.deleteChar hb.toFits)
    fun _ _ hc hv => hv.deleteChar hc
  rw [Nat.mul_one, v.times_columns] at hd
  exact hd

theorem csiL (h : Sound b con) (hb : b.TextMode) (nr : Word) :
    Shows st (con.csiL nr) (t.insertLines nr) := by
  have hd := v.repeated_down h t.columns.toNat (t.line t.y.toNat) t.size con.videoNumLines nr
    (fun _ hc => hc.fromCursor fun _ hc' => hc'.scrdown hb.toFits)
    fun _ _ hc hv => hv.insertLine hc hb
  rw [v.times_lines] at hd
  exact hd

theorem csiDeleteLines (h : Sound b con) (hb : b.TextMode) (nr : Word) :
    Shows st (con.csiDeleteLines nr) (t.deleteLines nr) := by
  have hd := v.repeated_up h t.columns.toNat (t.line t.y.toNat) t.size con.videoNumLines nr
    (fun _ hc => hc.fromCursor fun _ hc' => hc'.scrup hb.toFits)
    fun _ _ hc hv => hv.deleteLine hc hb
  rw [v.times_lines] at hd
  exact hd

/-! ## Printing -/

theorem put (h : Sound b con) (hx : con.x.toNat < con.videoNumColumns.toNat) (c : BitVec 8) :
    Shows st (con.put c) (t.put c) := by
  have hle := v.cursor_le h
  have hC : con.videoNumColumns.toNat = t.columns.toNat := congrArg BitVec.toNat v.columns
  have hX : con.x.toNat = t.x.toNat := congrArg BitVec.toNat v.x
  have hw := v.write h (v.isCell_pos h) (by omega) (con.attr ++ c)
  have hcell : Function.update t.cell t.cursor (con.attr ++ c)
      = Function.update t.cell t.cursor (t.attr ++ c) := by rw [v.attr]
  rw [hcell] at hw
  unfold Console.put Terminal.put
  exact { hw with x := congrArg (· + 1) v.x }

theorem printing (h : Sound b con) (hb : b.TextMode) (c : BitVec 8) :
    Shows st (con.printing c) (t.printing c) := by
  have hbd := h.bounds hb.toFits
  have hpos := h.pos_eq
  have hx := h.x_le
  have hrow := h.row
  unfold Console.printing Terminal.printing
  refine ite (by rw [v.columns, v.x]) (fun hcol => ?_) fun hcol => ?_
  · have hle : con.videoNumColumns.toNat ≤ con.x.toNat := hcol
    have hx0 : (con.x - con.videoNumColumns).toNat = 0 := by bv_omega
    have hs := h.atColumn (con.x - con.videoNumColumns) (con.pos - con.videoSizeRow) (by omega)
      (by bv_omega)
    have hx' : con.x - con.videoNumColumns = t.x - t.columns := by rw [v.x, v.columns]
    have hv : Shows st { con with x := con.x - con.videoNumColumns, pos := con.pos - con.videoSizeRow }
        { t with x := t.x - t.columns } := { v with x := hx' }
    have hcols := ((hs.lf hb.toFits).bounds hb.toFits).2.2.1
    refine (hv.lf hs hb).put (hs.lf hb.toFits) ?_ c
    rw [lf_x]
    show (con.x - con.videoNumColumns).toNat < _
    omega
  · exact v.put h (Nat.lt_of_not_le hcol) c

theorem tab (h : Sound b con) (hb : b.TextMode) : Shows st con.tab t.tab := by
  have hbd := h.bounds hb.toFits
  have hpos := h.pos_eq
  have hx := h.x_le
  have hrow := h.row
  have hline := h.lineEnd
  have hend := h.scrEnd_le
  obtain ⟨n, hn⟩ : ∃ n, n = 8 - (con.x &&& 7) := ⟨_, rfl⟩
  have hn8 : n.toNat ≤ 8 := by
    have hand : (con.x &&& 7).toNat ≤ 7 := by
      rw [BitVec.toNat_and]
      exact Nat.and_le_right
    bv_omega
  have hshift : (n <<< 1).toNat = 2 * n.toNat := by
    rw [BitVec.toNat_shiftLeft, Nat.shiftLeft_eq]
    omega
  unfold Console.tab Terminal.tab
  rw [← v.x, ← hn]
  dsimp only
  have hxn : (con.x + n).toNat = con.x.toNat + n.toNat := by bv_omega
  have hpn : (con.pos + n <<< 1).toNat = con.pos.toNat + 2 * n.toNat := by bv_omega
  refine ite (by rw [v.columns]) (fun hcol => ?_) fun hcol => { v with x := rfl }
  have hlt : con.videoNumColumns.toNat < (con.x + n).toNat := hcol
  have hs := h.atColumn (con.x + n - con.videoNumColumns)
    (con.pos + n <<< 1 - con.videoSizeRow) (by bv_omega) (by bv_omega)
  have hv : Shows st { con with
        x := con.x + n - con.videoNumColumns
        pos := con.pos + n <<< 1 - con.videoSizeRow }
      { t with x := con.x + n - t.columns } :=
    { v with x := congrArg (con.x + n - ·) v.columns }
  exact hv.lf hs hb

theorem char (h : Sound b con) (hb : b.TextMode) (verase c : BitVec 8) (hc : c ≠ 27) :
    Shows st (con.ground verase c) (t.char verase c) := by
  unfold Console.ground Terminal.char
  refine ite Iff.rfl (fun _ => v.printing h hb c) fun _ => ?_
  rw [if_neg hc]
  refine ite Iff.rfl (fun _ => v.lf h hb) fun _ => ?_
  refine ite Iff.rfl (fun _ => v.cr) fun _ => ?_
  refine ite Iff.rfl (fun _ => v.del h hb) fun _ => ?_
  refine ite Iff.rfl (fun _ => v.backspace) fun _ => ?_
  refine ite Iff.rfl (fun _ => v.tab h hb) fun _ => ?_
  exact ite Iff.rfl (fun _ => { v with beepcount := rfl }) fun _ => v

/-! ## Escape sequences -/

theorem setState (n : ℕ) : Shows n { con with state := n } t := { v with state := rfl }

theorem saveCur : Shows st con.saveCur t.saveCur := { v with savedX := v.x, savedY := v.y }

theorem escape (h : Sound b con) (hb : b.TextMode) {c : BitVec 8} (hc : c ≠ code '[') :
    Shows 0 (con.escape c) (t.escape c) := by
  have hs := h.setState 0
  have hv := v.setState 0
  unfold Console.escape Terminal.escape
  rw [if_neg hc]
  refine ite Iff.rfl (fun _ => hv.gotoxy rfl (congrArg (· + 1) v.y)) fun _ => ?_
  refine ite Iff.rfl (fun _ => hv.ri hs hb) fun _ => ?_
  refine ite Iff.rfl (fun _ => hv.lf hs hb) fun _ => ?_
  refine ite Iff.rfl (fun _ => { hv with answers := congrArg (· ++ _) v.answers }) fun _ => ?_
  refine ite (by rw [← v.x]) (fun _ => hv.saveCur) fun _ => ?_
  exact ite (by rw [← v.x]) (fun _ => hv.gotoxy v.savedX v.savedY) fun _ => hv

theorem setPar (i : ℕ) (w : Word) : Shows st (con.setPar i w) t := { v with }

omit v in
theorem fromOne_par (con : Console) (i j : ℕ) : (con.fromOne i).par j =
    if j = i then Terminal.fromOne (con.par i) else con.par j := by
  unfold Console.fromOne Terminal.fromOne Console.setPar
  by_cases hi : con.par i ≠ 0
  · rw [if_pos hi, if_pos hi]
    exact Function.update_apply _ _ _ _
  · rw [if_neg hi, if_neg hi]
    split_ifs with hj
    · rw [hj]
    · rfl

theorem fromOne (i : ℕ) : Shows st (con.fromOne i) t := by
  unfold Console.fromOne
  split_ifs
  · exact v.setPar i _
  · exact v

omit v in
theorem atLeastOne_par (con : Console) : con.atLeastOne.par 0 = Terminal.atLeastOne (con.par 0) := by
  unfold Console.atLeastOne Terminal.atLeastOne Console.setPar
  split_ifs
  · exact Function.update_self 0 _ con.par
  · rfl

theorem atLeastOne : Shows st con.atLeastOne t := by
  unfold Console.atLeastOne
  split_ifs
  · exact v.setPar 0 _
  · exact v

theorem setRegion : Shows st con.setRegion
    (t.setRegion (Terminal.fromOne (con.par 0)) (con.par 1)) := by
  have hone := v.fromOne 0
  have h0 : (con.fromOne 0).par 0 = Terminal.fromOne (con.par 0) := by
    rw [fromOne_par, if_pos rfl]
  have h1 : (con.fromOne 0).par 1 = con.par 1 := by
    rw [fromOne_par, if_neg (by decide)]
  have hlines := hone.lines
  unfold Console.setRegion Terminal.setRegion
  dsimp only
  generalize con.fromOne 0 = d at hone h0 h1 hlines ⊢
  obtain ⟨e, he⟩ : ∃ e, e = if d.par 1 = 0 then d.setPar 1 d.videoNumLines else d := ⟨_, rfl⟩
  have hv : Shows st e t ∧ e.par 0 = Terminal.fromOne (con.par 0) ∧
      e.par 1 = if con.par 1 = 0 then t.lines else con.par 1 := by
    rw [he, h1]
    split_ifs with hz
    · refine ⟨hone.setPar 1 _, ?_, ?_⟩
      · rw [← h0]
        exact Function.update_of_ne (Nat.zero_ne_one) d.videoNumLines d.par
      · rw [← hlines]
        exact Function.update_self 1 d.videoNumLines d.par
    · exact ⟨hone, h0, h1⟩
  obtain ⟨hve, he0, he1⟩ := hv
  rw [← he]
  exact ite (by rw [he0, he1, hve.lines]) (fun _ => { hve with top := he0, bottom := he1 })
    fun _ => hve

omit v in
theorem foldl_attr {pars : List Word} {par : ℕ → Word} (g : BitVec 8 → Word → BitVec 8) (a : BitVec 8)
    (hp : ∀ i < pars.length, par i = pars.getD i 0) :
    (List.range pars.length).foldl (fun a i => g a (par i)) a = pars.foldl g a := by
  have hmap : (List.range pars.length).map par = pars := by
    refine List.ext_getElem (by simp) fun i h1 h2 => ?_
    rw [List.getElem_map, List.getElem_range, hp i h2, List.getD_eq_getElem?_getD,
      List.getElem?_eq_getElem h2, Option.getD_some]
  conv_rhs => rw [← hmap]
  rw [List.foldl_map]

/-- The commands. The parameters are those of the list; the others are 0. -/
theorem csi (h : Sound b con) (hb : b.TextMode) {pars : List Word} (hlen : pars.length ≤ npars)
    (hpars : con.npar.toNat + 1 = pars.length) (hp : ∀ i < npars, con.par i = pars.getD i 0)
    (c : BitVec 8) : Shows st (con.csi c) (t.csi pars c) := by
  have hone := v.fromOne 0
  have htwo := hone.fromOne 1
  have hleast := v.atLeastOne
  have h0 : con.par 0 = pars.getD 0 0 := hp 0 (by decide)
  have h1 : con.par 1 = pars.getD 1 0 := hp 1 (by decide)
  have hone0 : (con.fromOne 0).par 0 = Terminal.fromOne (pars.getD 0 0) := by
    rw [fromOne_par, if_pos rfl, h0]
  have htwo0 : ((con.fromOne 0).fromOne 1).par 0 = Terminal.fromOne (pars.getD 0 0) := by
    rw [fromOne_par, if_neg (by decide), hone0]
  have htwo1 : ((con.fromOne 0).fromOne 1).par 1 = Terminal.fromOne (pars.getD 1 0) := by
    rw [fromOne_par, if_pos rfl, fromOne_par, if_neg (by decide), h1]
  have hleast0 : con.atLeastOne.par 0 = Terminal.atLeastOne (pars.getD 0 0) := by
    rw [atLeastOne_par, h0]
  unfold Console.csi Terminal.csi
  dsimp only
  refine ite Iff.rfl (fun _ => hone.gotoxy hone0 hone.y) fun _ => ?_
  refine ite Iff.rfl (fun _ => hleast.gotoxy hleast.x (by rw [hleast.y, hleast0])) fun _ => ?_
  refine ite Iff.rfl (fun _ => hleast.gotoxy hleast.x (by rw [hleast.y, hleast0])) fun _ => ?_
  refine ite Iff.rfl (fun _ => hleast.gotoxy (by rw [hleast.x, hleast0]) hleast.y) fun _ => ?_
  refine ite Iff.rfl (fun _ => hleast.gotoxy (by rw [hleast.x, hleast0]) hleast.y) fun _ => ?_
  refine ite Iff.rfl (fun _ => hleast.gotoxy rfl (by rw [hleast.y, hleast0])) fun _ => ?_
  refine ite Iff.rfl (fun _ => hleast.gotoxy rfl (by rw [hleast.y, hleast0])) fun _ => ?_
  refine ite Iff.rfl (fun _ => hone.gotoxy hone.x hone0) fun _ => ?_
  refine ite Iff.rfl (fun _ => htwo.gotoxy htwo1 htwo0) fun _ => ?_
  rw [h0]
  refine ite Iff.rfl (fun _ => v.csiJ h _) fun _ => ?_
  refine ite Iff.rfl (fun _ => v.csiK h hb _) fun _ => ?_
  refine ite Iff.rfl (fun _ => v.csiL h hb _) fun _ => ?_
  refine ite Iff.rfl (fun _ => v.csiDeleteLines h hb _) fun _ => ?_
  refine ite Iff.rfl (fun _ => v.csiP h hb _) fun _ => ?_
  refine ite Iff.rfl (fun _ => v.csiAt h hb _) fun _ => ?_
  refine ite Iff.rfl (fun _ => { v with attr := ?_ }) fun _ => ?_
  · show (List.range (con.npar.toNat + 1)).foldl (fun a i => Console.csiAttr a (con.par i)) con.attr = _
    rw [hpars, v.attr]
    exact foldl_attr _ _ fun i hi => hp i (by omega)
  refine ite Iff.rfl (fun _ => ?_) fun _ => ?_
  · rw [← h0, ← h1]
    exact v.setRegion
  refine ite Iff.rfl (fun _ => v.saveCur) fun _ => ?_
  exact ite Iff.rfl (fun _ => v.gotoxy v.savedX v.savedY) fun _ => v

end Shows

/-! ## The lexer is the state of `con_write` -/

/-- The state in which `con_write` has read what the lexer has. -/
def Lexes (con : Console) : Lexer → Prop
  | .ground => con.state = 0
  | .escape => con.state = 1
  | .bracket => con.state = 2
  | .parameters pars par => con.state = 3 ∧ con.npar.toNat = pars.length ∧ pars.length < npars ∧
      ∀ i < npars, con.par i = (pars ++ [par]).getD i 0

structure Follows (con : Console) (vt : Lexer × Terminal) : Prop where
  reads : Lexes con vt.1
  shows : Shows con.state con vt.2

namespace Follows

theorem ground (v : Shows 0 con t) : Follows con (.ground, t) :=
  ⟨v.state, { v with state := rfl }⟩

/-- In state 3, and from state 2 into it. -/
theorem parameter (h : Sound b con) (hb : b.TextMode) (v : Shows 3 con t) {pars : List Word} {par : Word}
    (hr : Lexes con (.parameters pars par)) (verase c : BitVec 8) :
    Follows (con.parameter c) ((Lexer.parameter pars par c).1,
      (Lexer.parameter pars par c).2.elim t (t.token verase)) := by
  obtain ⟨hst, hn, hlt, hp⟩ := hr
  unfold Console.parameter Lexer.parameter
  rw [hn]
  by_cases hsemi : c = code ';' ∧ pars.length < npars - 1
  · rw [if_pos hsemi, if_pos hsemi]
    have hnpar : (con.npar + 1).toNat = pars.length + 1 := by
      unfold npars at hsemi
      bv_omega
    refine ⟨⟨hst, by simpa using hnpar, ?_, fun i hi => ?_⟩, { v with state := rfl }⟩
    · have := hsemi.2
      rw [List.length_append, List.length_singleton]
      omega
    · show con.par i = _
      rw [hp i hi, List.getD_eq_getElem?_getD, List.getD_eq_getElem?_getD, List.append_assoc]
      by_cases hi' : i < (pars ++ [par]).length
      · rw [← List.append_assoc, List.getElem?_append_left hi']
      · rw [← List.append_assoc, List.getElem?_eq_none (by omega),
          List.getElem?_append_right (by omega)]
        cases hk : i - (pars ++ [par]).length with
        | zero => rfl
        | succ k => rfl
  rw [if_neg hsemi, if_neg hsemi]
  by_cases hdigit : (code '0').toInt ≤ c.toInt ∧ c.toInt ≤ (code '9').toInt
  · rw [if_pos hdigit, if_pos hdigit]
    refine ⟨⟨hst, hn, hlt, fun i hi => ?_⟩, { v with state := rfl }⟩
    have hlast : con.par pars.length = par := by
      rw [hp _ hlt, List.getD_eq_getElem?_getD, List.getElem?_append_right le_rfl, Nat.sub_self]
      rfl
    show Function.update con.par pars.length
      (10 * con.par pars.length + c.signExtend 32 - 48) i = _
    rw [hlast, Function.update_apply, List.getD_eq_getElem?_getD]
    by_cases hi' : i = pars.length
    · rw [if_pos hi', hi', List.getElem?_append_right le_rfl, Nat.sub_self]
      rfl
    · rw [if_neg hi', hp i hi, List.getD_eq_getElem?_getD]
      by_cases hil : i < pars.length
      · rw [List.getElem?_append_left hil, List.getElem?_append_left hil]
      · rw [List.getElem?_eq_none (by simp; omega), List.getElem?_eq_none (by simp; omega)]
  · rw [if_neg hdigit, if_neg hdigit]
    have hlen : (pars ++ [par]).length = pars.length + 1 := by simp
    have hcsi := (v.setState 0).csi (h.setState 0) hb (by omega)
      (show con.npar.toNat + 1 = (pars ++ [par]).length by rw [hlen, hn]) hp c
    unfold Console.command
    exact ground hcsi

theorem conByte {vt : Lexer × Terminal} (h : Sound b con) (hb : b.TextMode) (v : Follows con vt)
    (verase c : BitVec 8) : Follows (con.conByte verase c) (vtByte verase vt c) := by
  obtain ⟨lexer, t⟩ := vt
  obtain ⟨hr, hv⟩ := v
  cases lexer with
  | ground =>
    have hst : con.state = 0 := hr
    unfold Console.conByte
    rw [hst] at hv ⊢
    show Follows (con.ground verase c) _
    unfold vtByte Lexer.next
    by_cases hc : c = 27
    · subst hc
      have hground : con.ground verase 27 = { con with state := 1 } := by
        unfold Console.ground
        rw [if_neg (by decide), if_pos rfl]
      rw [hground]
      exact ⟨rfl, hv.setState 1⟩
    · dsimp only
      rw [if_neg hc]
      exact ground (hv.char h hb verase c hc)
  | escape =>
    have hst : con.state = 1 := hr
    unfold Console.conByte
    rw [hst] at hv ⊢
    show Follows (con.escape c) _
    unfold vtByte Lexer.next
    by_cases hc : c = code '['
    · subst hc
      have hescape : con.escape (code '[') = { con with state := 2 } := by
        unfold Console.escape
        rw [if_pos rfl]
      rw [hescape]
      exact ⟨rfl, hv.setState 2⟩
    · dsimp only
      rw [if_neg hc]
      exact ground (hv.escape h hb hc)
  | bracket =>
    have hst : con.state = 2 := hr
    unfold Console.conByte
    rw [hst] at hv ⊢
    show Follows (con.firstParameter c) _
    -- no parameter has been read
    obtain ⟨d, hd⟩ : ∃ d : Console, d = { con with
        par := fun i => if i < npars then 0 else con.par i
        npar := 0
        state := 3
        ques := decide (c = code '?') } := ⟨_, rfl⟩
    have hs : Sound b d := by
      rw [hd]
      exact { h with npar_lt := Nat.zero_lt_succ 15 }
    have hvd : Shows 3 d t := by
      rw [hd]
      exact { hv with state := rfl }
    have hrd : Lexes d (.parameters [] 0) := by
      rw [hd]
      refine ⟨rfl, rfl, by decide, fun i hi => ?_⟩
      show (if i < npars then (0 : Word) else con.par i) = _
      rw [if_pos hi]
      cases i <;> rfl
    have hfirst : con.firstParameter c = if c = code '?' then d else d.parameter c := by
      unfold Console.firstParameter
      rw [hd]
      exact if_congr decide_eq_true_iff rfl rfl
    rw [hfirst]
    unfold vtByte Lexer.next
    dsimp only
    by_cases hc : c = code '?'
    · rw [if_pos hc, if_pos hc]
      exact ⟨hrd, { hvd with state := hvd.state ▸ rfl }⟩
    · rw [if_neg hc, if_neg hc]
      exact parameter hs hb hvd hrd verase c
  | parameters pars par =>
    have hst : con.state = 3 := hr.1
    unfold Console.conByte
    rw [hst] at hv ⊢
    exact parameter h hb hv hr verase c

/-! ## Runs -/

theorem bytes {vt : Lexer × Terminal} (h : Sound b con) (hb : b.TextMode) (v : Follows con vt)
    (verase : BitVec 8) (cs : List (BitVec 8)) :
    Follows (cs.foldl (Console.conByte · verase) con) (cs.foldl (vtByte verase) vt) := by
  induction cs generalizing con vt with
  | nil => exact v
  | cons c cs ih => exact ih (h.conByte hb.toFits verase c) (v.conByte h hb verase c)

theorem setCursor {vt : Lexer × Terminal} (v : Follows con vt) : Follows con.setCursor vt := by
  have hstart : con.setCursor.start = con.start := by
    unfold Console.setCursor Console.start
    simp [Function.update_of_ne]
  refine ⟨?_, { v.shows with origin := ?_, seen := ?_ }⟩
  · cases hl : vt.1 <;> exact hl ▸ v.reads
  · rw [hstart]
    exact v.shows.origin
  · rw [hstart]
    exact v.shows.seen

theorem writes {vt : Lexer × Terminal} (h : Sound b con) (hb : b.TextMode) (v : Follows con vt)
    (ws : List (BitVec 8 × List (BitVec 8))) :
    Follows (ws.foldl (fun con w => con.conWrite w.1 w.2) con) (ws.foldl vtWrite vt) := by
  induction ws generalizing con vt with
  | nil => exact v
  | cons w ws ih => exact ih { h.bytes hb.toFits w.1 w.2 with } (v.bytes h hb w.1 w.2).setCursor

/-- `con_init`, where the card shows the memory from its start. -/
theorem init (hb : b.TextMode) (byte : Word → BitVec 8) {crtc : ℕ → BitVec 8} (h12 : crtc 12 = 0)
    (h13 : crtc 13 = 0) : Follows (conInit b byte crtc) (.ground, Terminal.init b byte) := by
  have hX : (b.origX.setWidth 32).toNat ≤ (b.origVideoCols.setWidth 32).toNat := by
    rw [BitVec.toNat_setWidth, BitVec.toNat_setWidth]
    have := hb.column
    omega
  have hY : (b.origY.setWidth 32).toNat < (25 : Word).toNat := by
    rw [BitVec.toNat_setWidth]
    have := hb.line
    show _ < 25
    omega
  have hgo : ¬ ((conStart b byte crtc).videoNumColumns < b.origX.setWidth 32
      ∨ (conStart b byte crtc).videoNumLines ≤ b.origY.setWidth 32) := by
    rintro (h | h)
    · exact absurd hX (Nat.not_le_of_lt h)
    · exact absurd hY (Nat.not_lt_of_le h)
  have hstart : (conStart b byte crtc).start = 0 := by
    show (crtc 12 ++ crtc 13).toNat = 0
    rw [h12, h13]
    rfl
  unfold conInit Console.gotoxy
  rw [if_neg hgo]
  refine ground ⟨rfl, rfl, rfl, rfl, rfl, rfl, rfl, rfl, rfl, rfl, rfl, rfl, rfl, ?_, fun i _ => ?_⟩
  · show IsCell _ (conStart b byte crtc).origin (conStart b byte crtc).start
    rw [hstart]
    rfl
  · show (conStart b byte crtc).ram.cell _ ((conStart b byte crtc).start + i) = _
    rw [hstart, Nat.zero_add]
    rfl

end Follows

theorem Sound.run (hb : b.TextMode) (byte : Word → BitVec 8) (crtc : ℕ → BitVec 8)
    (ws : List (BitVec 8 × List (BitVec 8))) : Sound b (conRun b byte crtc ws) :=
  (conInit_sound hb.toFits byte crtc).writes hb.toFits ws

/-- `set_cursor` shows the cursor where the terminal has it. -/
theorem cursorCell_eq {vt : Lexer × Terminal} (h : Sound b con) (v : Follows con vt) :
    con.setCursor.cursorCell = con.setCursor.start + vt.2.cursor := by
  have hstart := (v.setCursor.shows.size_le { h with })
  have hsize := v.setCursor.shows.cursor_le { h with }
  have hpos := v.setCursor.shows.isCell_pos { h with }
  have hcount := h.cellCount
  have hmem := b.memory
  have hbegin := h.memStart
  have hend := h.memEnd
  have hcells : con.setCursor.cellCount = con.cellCount := rfl
  rw [hbegin, hend] at hcount
  have hregs := toNat_registers hpos.toNat_sub (by omega)
  unfold Console.cursorCell
  have h14 : con.setCursor.crtc 14 = ((con.pos - con.videoMemStart) >>> 9).setWidth 8 := by
    unfold Console.setCursor
    simp
  have h15 : con.setCursor.crtc 15 = ((con.pos - con.videoMemStart) >>> 1).setWidth 8 := by
    unfold Console.setCursor
    simp
  rw [h14, h15]
  exact hregs

/-- The card shows the screen of the terminal after every run of writes, on every card, and its
cursor after each write. -/
theorem con_write_terminal (b : Bios) (hb : b.TextMode) (byte : Word → BitVec 8) (crtc : ℕ → BitVec 8)
    (h12 : crtc 12 = 0) (h13 : crtc 13 = 0) (ws : List (BitVec 8 × List (BitVec 8))) :
    (∀ i < (vtRun b byte ws).2.size, (conRun b byte crtc ws).shown i = (vtRun b byte ws).2.cell i) ∧
      (ws ≠ [] → (conRun b byte crtc ws).cursorCell
        = (conRun b byte crtc ws).start + (vtRun b byte ws).2.cursor) := by
  have hf := (Follows.init hb byte h12 h13).writes (conInit_sound hb.toFits byte crtc) hb
  refine ⟨(hf ws).shows.seen, fun hne => ?_⟩
  -- the last write ends with `set_cursor`
  obtain ⟨init, w, rfl⟩ := List.eq_nil_or_concat ws |>.resolve_left hne
  have hs := Sound.run hb byte crtc init
  have hlast := (hf init).bytes hs hb w.1 w.2
  have hcursor := cursorCell_eq (hs.bytes hb.toFits w.1 w.2) hlast
  unfold conRun vtRun
  rw [List.concat_eq_append, List.foldl_concat, List.foldl_concat]
  exact hcursor

/-- On an 80-column EGA with the cursor in the last line: `"Hi\n"` scrolls, and `ESC [ 2 J` follows. -/
theorem con_write_terminal_ega :
    (∀ i < (vtRun ⟨0, 24, 3, 80, 3⟩ (fun _ => 0) [(127, [72, 105, 10]), (127, [27, 91, 50, 74])]).2.size,
      (conRun ⟨0, 24, 3, 80, 3⟩ (fun _ => 0) (fun _ => 0)
          [(127, [72, 105, 10]), (127, [27, 91, 50, 74])]).shown i
        = (vtRun ⟨0, 24, 3, 80, 3⟩ (fun _ => 0)
          [(127, [72, 105, 10]), (127, [27, 91, 50, 74])]).2.cell i) ∧
      ([(127, [72, 105, 10]), (127, [27, 91, 50, 74])] ≠ ([] : List (BitVec 8 × List (BitVec 8))) →
        (conRun ⟨0, 24, 3, 80, 3⟩ (fun _ => 0) (fun _ => 0)
            [(127, [72, 105, 10]), (127, [27, 91, 50, 74])]).cursorCell
          = (conRun ⟨0, 24, 3, 80, 3⟩ (fun _ => 0) (fun _ => 0)
            [(127, [72, 105, 10]), (127, [27, 91, 50, 74])]).start
            + (vtRun ⟨0, 24, 3, 80, 3⟩ (fun _ => 0)
              [(127, [72, 105, 10]), (127, [27, 91, 50, 74])]).2.cursor) :=
  con_write_terminal ⟨0, 24, 3, 80, 3⟩ ⟨⟨by decide, by decide, by decide, by decide⟩, by decide⟩
    (fun _ => 0) (fun _ => 0) rfl rfl [(127, [72, 105, 10]), (127, [27, 91, 50, 74])]

end Linux011.Tty
