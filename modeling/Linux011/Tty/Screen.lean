import Linux011.Lib.StringOps

/-!
# The console: the screen

The part of `kernel/chr_drv/console.c` that works on the video memory: `con_init`, the cursor,
scrolling, and the commands that erase, insert and delete. An `unsigned long` or an `int` is a
word; the memory notes every address that is read or written.

1. `Console`, `gotoxy`, `conInit`.
2. `scrup`, `scrdown`, `lf`, `ri`, `cr`, `del`.
3. `csiJ`, `csiK`, `csiM`.
4. `insertChar`, `deleteChar`, `insertLine`, `deleteLine` and their repetitions.
-/

namespace Linux011.Tty

open X86

inductive VideoType
  | mda
  | cga
  | egam
  | egac
  deriving DecidableEq

def npars : ℕ := 16

structure Console where
  videoType : VideoType
  videoNumColumns : Word
  videoSizeRow : Word
  videoNumLines : Word
  videoMemStart : Word
  videoMemEnd : Word
  videoEraseChar : BitVec 16
  origin : Word
  scrEnd : Word
  pos : Word
  x : Word
  y : Word
  top : Word
  bottom : Word
  state : ℕ
  npar : Word
  par : ℕ → Word
  ques : Bool
  attr : BitVec 8
  savedX : Word
  savedY : Word
  beepcount : ℕ
  /-- The registers of the video controller. -/
  crtc : ℕ → BitVec 8
  /-- What was put on the terminal's `read_q`. -/
  answers : List (BitVec 8)
  ram : Ram

/-- What `setup.s` has read from the BIOS. -/
structure Bios where
  origX : BitVec 8
  origY : BitVec 8
  origVideoMode : BitVec 8
  origVideoCols : BitVec 8
  origVideoEgaBx : BitVec 16

/-- The code of a character. -/
def code (c : Char) : BitVec 8 := BitVec.ofNat 8 c.toNat

/-- A display card, its name, and where its memory begins and ends. -/
structure Display where
  videoType : VideoType
  displayDesc : String
  videoMemStart : Word
  videoMemEnd : Word

def Bios.display (b : Bios) : Display :=
  if b.origVideoMode = 7 then
    if b.origVideoEgaBx &&& 0xff ≠ 0x10 then ⟨.egam, "EGAm", 0xb0000, 0xb8000⟩
    else ⟨.mda, "*MDA", 0xb0000, 0xb2000⟩
  else if b.origVideoEgaBx &&& 0xff ≠ 0x10 then ⟨.egac, "EGAc", 0xb8000, 0xbc000⟩
  else ⟨.cga, "*CGA", 0xb8000, 0xba000⟩

namespace Console

variable (con : Console)

/-- A cell holds a character and its attribute; `gotoxy` thinks `x = videoNumColumns` is ok. -/
def gotoxy (newX newY : Word) : Console :=
  if con.videoNumColumns < newX ∨ con.videoNumLines ≤ newY then con
  else { con with
    x := newX
    y := newY
    pos := con.origin + newY * con.videoSizeRow + newX <<< 1 }

def setOrigin : Console :=
  let start := con.origin - con.videoMemStart
  let crtc := Function.update con.crtc 12 ((start >>> 9).setWidth 8)
  { con with crtc := Function.update crtc 13 ((start >>> 1).setWidth 8) }

def setCursor : Console :=
  let cell := con.pos - con.videoMemStart
  let crtc := Function.update con.crtc 14 ((cell >>> 9).setWidth 8)
  { con with crtc := Function.update crtc 15 ((cell >>> 1).setWidth 8) }

/-- The name of the display, one character in each cell. -/
def describe : List Char → Word → Ram → Ram
  | [], _, m => m
  | c :: cs, p, m => describe cs (p + 2) (m.write8 p (code c))

end Console

/-- `con_init` up to `gotoxy`, on the memory that the machine has come up with. -/
def conStart (b : Bios) (byte : Word → BitVec 8) (crtc : ℕ → BitVec 8) : Console :=
  let videoMemStart := b.display.videoMemStart
  let videoNumColumns : Word := b.origVideoCols.setWidth 32
  let videoSizeRow := videoNumColumns * 2
  let videoNumLines : Word := 25
  let displayPtr := videoMemStart + videoSizeRow - 8
  { videoMemStart, videoNumColumns, videoSizeRow, videoNumLines, crtc
    videoType := b.display.videoType
    videoMemEnd := b.display.videoMemEnd
    videoEraseChar := 0x0720
    origin := videoMemStart
    scrEnd := videoMemStart + videoNumLines * videoSizeRow
    top := 0
    bottom := videoNumLines
    pos := 0, x := 0, y := 0, state := 0, npar := 0, par := fun _ => 0, ques := false
    attr := 0x07, savedX := 0, savedY := 0, beepcount := 0, answers := []
    ram := Console.describe b.display.displayDesc.toList displayPtr ⟨byte, []⟩ }

def conInit (b : Bios) (byte : Word → BitVec 8) (crtc : ℕ → BitVec 8) : Console :=
  (conStart b byte crtc).gotoxy (b.origX.setWidth 32) (b.origY.setWidth 32)

namespace Console

variable (con : Console)

/-! ## Scrolling -/

/-- `cld; rep; stosw`, with the erase character. -/
def fill (start count : Word) : Console :=
  let r : Regs := ⟨false, con.videoEraseChar, count, 0, start, con.ram⟩
  { con with ram := (rep stosw r).ram }

/-- `cld; rep; movsl; movl _video_num_columns,%ecx; rep; stosw`. -/
def copyUp (count dst src : Word) : Console :=
  let r := rep movsl ⟨false, con.videoEraseChar, count, src, dst, con.ram⟩
  { con with ram := (rep stosw { r with ecx := con.videoNumColumns }).ram }

/-- `std; rep; movsl; addl $2,%edi; movl _video_num_columns,%ecx; rep; stosw`. -/
def copyDown (count dst src : Word) : Console :=
  let r := rep movsl ⟨true, con.videoEraseChar, count, src, dst, con.ram⟩
  { con with ram := (rep stosw { r with edi := r.edi + 2, ecx := con.videoNumColumns }).ram }

/-- The part of `scrup` that moves the lines of the scroll region. -/
def scrollRegion : Console :=
  con.copyUp (((con.bottom - con.top - 1) * con.videoNumColumns) >>> 1)
    (con.origin + con.videoSizeRow * con.top) (con.origin + con.videoSizeRow * (con.top + 1))

def scrup : Console :=
  if con.videoType = .egac ∨ con.videoType = .egam then
    if con.top = 0 ∧ con.bottom = con.videoNumLines then
      let con := { con with
        origin := con.origin + con.videoSizeRow
        pos := con.pos + con.videoSizeRow
        scrEnd := con.scrEnd + con.videoSizeRow }
      if con.videoMemEnd < con.scrEnd then
        let con := con.copyUp (((con.videoNumLines - 1) * con.videoNumColumns) >>> 1)
          con.videoMemStart con.origin
        setOrigin { con with
          scrEnd := con.scrEnd - (con.origin - con.videoMemStart)
          pos := con.pos - (con.origin - con.videoMemStart)
          origin := con.videoMemStart }
      else setOrigin (con.fill (con.scrEnd - con.videoSizeRow) con.videoNumColumns)
    else con.scrollRegion
  else con.scrollRegion

/-- Both branches of the source, for EGA and for the other cards, are the same. -/
def scrdown : Console :=
  con.copyDown (((con.bottom - con.top - 1) * con.videoNumColumns) >>> 1)
    (con.origin + con.videoSizeRow * con.bottom - 4)
    (con.origin + con.videoSizeRow * (con.bottom - 1) - 4)

def lf : Console :=
  if con.y + 1 < con.bottom then { con with y := con.y + 1, pos := con.pos + con.videoSizeRow }
  else con.scrup

def ri : Console :=
  if con.top < con.y then { con with y := con.y - 1, pos := con.pos - con.videoSizeRow }
  else con.scrdown

def cr : Console := { con with pos := con.pos - con.x <<< 1, x := 0 }

def del : Console :=
  if con.x ≠ 0 then
    let pos := con.pos - 2
    { con with pos := pos, x := con.x - 1, ram := con.ram.write16 pos con.videoEraseChar }
  else con

/-! ## Erasing -/

def csiJ (par : Word) : Console :=
  if par = 0 then con.fill con.pos ((con.scrEnd - con.pos) >>> 1)
  else if par = 1 then con.fill con.origin ((con.pos - con.origin) >>> 1)
  else if par = 2 then con.fill con.origin (con.videoNumColumns * con.videoNumLines)
  else con

def csiK (par : Word) : Console :=
  if par = 0 then
    if con.videoNumColumns ≤ con.x then con else con.fill con.pos (con.videoNumColumns - con.x)
  else if par = 1 then
    con.fill (con.pos - con.x <<< 1)
      (if con.x < con.videoNumColumns then con.x else con.videoNumColumns)
  else if par = 2 then con.fill (con.pos - con.x <<< 1) con.videoNumColumns
  else con

/-- `csi_m`: what one parameter does to the attribute. -/
def csiAttr (attr : BitVec 8) (par : Word) : BitVec 8 :=
  if par = 0 then 0x07 else if par = 1 then 0x0f else if par = 4 then 0x0f
  else if par = 7 then 0x70 else if par = 27 then 0x07 else attr

def csiM : Console :=
  { con with
    attr := (List.range (con.npar.toNat + 1)).foldl (fun a i => csiAttr a (con.par i)) con.attr }

/-! ## Inserting and deleting -/

/-- The loop of `insert_char`: each cell takes what the one before it held. -/
def insertCells (columns i : Word) (old : BitVec 16) (p : Word) (m : Ram) : Ram :=
  if i < columns then
    insertCells columns (i + 1) (m.read16 p).1 (p + 2) ((m.read16 p).2.write16 p old)
  else m
termination_by columns.toNat - i.toNat
decreasing_by bv_omega

def insertChar : Console :=
  { con with ram := insertCells con.videoNumColumns con.x con.videoEraseChar con.pos con.ram }

/-- The loop of `delete_char`; `i` is already incremented. It gives the last cell, too. -/
def deleteCells (columns i : Word) (p : Word) (m : Ram) : Word × Ram :=
  if i < columns then
    deleteCells columns (i + 1) (p + 2) ((m.read16 (p + 2)).2.write16 p (m.read16 (p + 2)).1)
  else (p, m)
termination_by columns.toNat - i.toNat
decreasing_by bv_omega

def deleteChar : Console :=
  if con.videoNumColumns ≤ con.x then con
  else
    let (p, m) := deleteCells con.videoNumColumns (con.x + 1) con.pos con.ram
    { con with ram := m.write16 p con.videoEraseChar }

/-- A scroll of the lines from the cursor's to the last. -/
def fromCursor (scroll : Console → Console) : Console :=
  let c := scroll { con with top := con.y, bottom := con.videoNumLines }
  { c with top := con.top, bottom := con.bottom }

def insertLine : Console := con.fromCursor scrdown

def deleteLine : Console := con.fromCursor scrup

/-- The command repeated `nr` times, at least once and at most `most` times. -/
def repeated (f : Console → Console) (most nr : Word) : Console :=
  f^[(if most < nr then most else if nr = 0 then 1 else nr).toNat] con

def csiAt (nr : Word) : Console := con.repeated insertChar con.videoNumColumns nr

def csiL (nr : Word) : Console := con.repeated insertLine con.videoNumLines nr

def csiP (nr : Word) : Console := con.repeated deleteChar con.videoNumColumns nr

/-- `csi_M`; `csiM` is `csi_m`. -/
def csiDeleteLines (nr : Word) : Console := con.repeated deleteLine con.videoNumLines nr

end Console

end Linux011.Tty
