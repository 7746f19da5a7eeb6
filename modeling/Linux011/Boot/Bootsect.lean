import Linux011.Boot.Image
import Mathlib.Algebra.GroupWithZero.Nat

/-!
# The loader

`boot/bootsect.s`, and the part of `boot/setup.s` up to `end_move`. The loader reads whole tracks where
it can, but a read may neither go past the end of a track nor over a 64 KB boundary of the memory. The
words `sread`, `head`, `track` and `sectors` of the boot sector are fields of `Loader`.

1. `Bios`: `int 0x13`, of which nothing is known here. `readIt`, `bootsect`, `setup`.
2. `Diskette`, `Bios.Serves`: what the code relies on.
3. `At`: so many sectors are loaded. `turn_at`, `readIt_at`: `read_it` loads all of them.
4. `boot_loads`: an image of `build` comes to where it is run.
-/

namespace Linux011.Boot

open Bytes (Byte)

abbrev Reg := BitVec 16

/-- The memory in real mode. -/
abbrev Ram := ℕ → Byte

/-! ## Memory -/

/-- `seg:off`. -/
def linear (seg off : Reg) : ℕ := 16 * seg.toNat + off.toNat

def word (m : Ram) (a : ℕ) : Reg := m (a + 1) ++ m a

def putWord (m : Ram) (a : ℕ) (v : Reg) : Ram := fun x =>
  if x = a then v.setWidth 8 else if x = a + 1 then (v >>> 8).setWidth 8 else m x

/-- `n` bytes at `dst`, the first of them `f 0`. -/
def place (m : Ram) (dst n : ℕ) (f : ℕ → Byte) : Ram := fun x =>
  if dst ≤ x ∧ x < dst + n then f (x - dst) else m x

/-- `movsw`, with the direction flag clear. -/
def movsw (m : Ram) (src dst : ℕ) : Ram := fun x =>
  if x = dst then m src else if x = dst + 1 then m (src + 1) else m x

/-- `rep movsw` with `n` in `cx`. -/
def repMovsw (n : ℕ) (m : Ram) (src dst : ℕ) : Ram :=
  (List.range n).foldl (fun m k => movsw m (src + 2 * k) (dst + 2 * k)) m

/-- `rep movsb` with `n` in `cx`. -/
def repMovsb (n : ℕ) (m : Ram) (src dst : ℕ) : Ram :=
  (List.range n).foldl (fun m k => Function.update m (dst + k) (m (src + k))) m

/-! ## The code -/

/-- The registers with which service 2 of `int 0x13` is called. -/
structure Request where
  ax : Reg
  bx : Reg
  cx : Reg
  dx : Reg
  es : Reg

/-- `int 0x13` for drive 0: the code in the BIOS. -/
structure Bios where
  /-- Service 2, when it is called for the `k`-th time: the memory and the carry flag. -/
  read : ℕ → Request → Ram → Ram × Bool
  /-- Service 8: `cx`. -/
  params : Reg

structure Loader where
  ram : Ram
  /-- The reads so far, the last one first. -/
  reads : List Request
  es : Reg
  bx : Reg
  sread : Reg
  head : Reg
  track : Reg
  sectors : Reg

/-- `SETUPLEN`. -/
def setupLen : ℕ := 4

def initSeg : Reg := 0x9000

def sysSeg : Reg := 0x1000

/-- `ENDSEG`, with `SYSSIZE`. -/
def endSeg : Reg := sysSeg + 0x3000

/-- A register with the low bytes of `hi` and `lo` as its halves. -/
def halves (hi lo : Reg) : Reg := (hi <<< 8) ||| (lo &&& 0xff)

/-- What `read_track` asks for. -/
def Loader.request (s : Loader) (ax : Reg) : Request :=
  let dx := s.track
  let cx := s.sread + 1
  let cx := halves dx cx
  let dx := s.head
  let dx := halves dx 0 &&& 0x0100
  ⟨halves 2 ax, s.bx, cx, dx, s.es⟩

/-- `int 0x13`, and what it leaves. -/
def Loader.call (s : Loader) (b : Bios) (r : Request) : Loader :=
  { s with ram := (b.read s.reads.length r s.ram).1, reads := r :: s.reads }

/-- `read_track`, at most `n` times. -/
def readTrack (b : Bios) (ax : Reg) : ℕ → Loader → Option Loader
  | 0, _ => none
  | n + 1, s =>
    let r := s.request ax
    -- `bad_rt` resets the drive, restores the registers and begins again
    if (b.read s.reads.length r s.ram).2 then readTrack b ax n (s.call b r) else some (s.call b r)

/-- The number in `ax` at `ok2_read`. -/
def Loader.trackSectors (s : Loader) : Reg :=
  let ax := s.sectors - s.sread
  let cx := ax <<< 9
  let carry := 2 ^ 16 ≤ cx.toNat + s.bx.toNat
  let cx := cx + s.bx
  if carry ∧ cx ≠ 0 then (0 - s.bx) >>> 9 else ax

/-- From behind the call of `read_track` to `ok3_read`, with what it puts in `sread`. -/
def Loader.nextSector (s : Loader) (ax : Reg) : Loader :=
  let ax := ax + s.sread
  if ax = s.sectors then
    let ax := 1 - s.head
    { s with track := if ax = 0 then s.track + 1 else s.track, head := ax, sread := 0 }
  else { s with sread := ax }

/-- From `ok3_read` on. -/
def Loader.nextAddress (s : Loader) (cx : Reg) : Loader :=
  let cx := cx <<< 9
  let carry := 2 ^ 16 ≤ s.bx.toNat + cx.toNat
  if carry then { s with es := s.es + 0x1000, bx := 0 } else { s with bx := s.bx + cx }

/-- A turn of the loop `rp_read`. -/
def turn (b : Bios) (fuel : ℕ) (s : Loader) : Option Loader :=
  let ax := s.trackSectors
  (readTrack b ax fuel s).map fun s => (s.nextSector ax).nextAddress ax

def rpRead (b : Bios) (fuel : ℕ) : ℕ → Loader → Option Loader
  | 0, _ => none
  | n + 1, s => if s.es < endSeg then (turn b fuel s).bind (rpRead b fuel n) else some s

/-- `read_it`. At `die` it stays. -/
def readIt (b : Bios) (fuel : ℕ) (s : Loader) : Option Loader :=
  if s.es &&& 0x0fff ≠ 0 then none else rpRead b fuel fuel { s with bx := 0 }

/-- What `load_setup` asks for. -/
def setupRequest : Request :=
  ⟨0x0200 + BitVec.ofNat 16 setupLen, 0x0200, 0x0002, 0x0000, initSeg⟩

/-- `load_setup`, at most `n` times. -/
def loadSetup (b : Bios) : ℕ → Loader → Option Loader
  | 0, _ => none
  | n + 1, s =>
    if (b.read s.reads.length setupRequest s.ram).2 then loadSetup b n (s.call b setupRequest)
    else some (s.call b setupRequest)

/-- The address of `root_dev`. -/
def rootDevAddr : ℕ := 0x90000 + 508

/-- The choice of the root device. At `undef_root` it stays. -/
def defineRoot (s : Loader) : Option Loader :=
  let put ax := some { s with ram := putWord s.ram rootDevAddr ax }
  if word s.ram rootDevAddr ≠ 0 then put (word s.ram rootDevAddr)
  else if s.sectors = 15 then put 0x0208
  else if s.sectors = 18 then put 0x021c
  else none

/-- At `load_setup`: the boot sector has moved itself away. -/
def Loader.start (m : Ram) : Loader where
  ram := repMovsw 256 m 0x7c00 (linear initSeg 0)
  reads := []
  es := initSeg
  bx := 0
  sread := 1 + BitVec.ofNat 16 setupLen
  head := 0
  track := 0
  sectors := 0

/-- `bootsect.s`, with the boot sector at 0x7c00, up to the choice of the root device. After service 8
`ch` is cleared. -/
def load (b : Bios) (fuel : ℕ) (m : Ram) : Option Loader :=
  (loadSetup b fuel (.start m)).bind fun s =>
    readIt b fuel { s with sectors := b.params &&& 0xff, es := sysSeg }

/-- `bootsect.s`. -/
def bootsect (b : Bios) (fuel : ℕ) (m : Ram) : Option Loader := (load b fuel m).bind defineRoot

/-- What the BIOS tells `setup.s`. -/
structure Answers where
  cursor : Reg
  extMemK : Reg
  page : Reg
  mode : Reg
  ega : Reg × Reg × Reg
  hd1 : Bool

/-- The table of the disk with the interrupt vector `v`, at `dst`. -/
def copyDrive (m : Ram) (v dst : ℕ) : Ram :=
  repMovsb 0x10 m (linear (word m (4 * v + 2)) (word m (4 * v))) dst

/-- What `setup.s` puts at 0x90000. -/
def saveParams (q : Answers) (m : Ram) : Ram :=
  let m := putWord m 0x90000 q.cursor
  let m := putWord m 0x90002 q.extMemK
  let m := putWord m 0x90004 q.page
  let m := putWord m 0x90006 q.mode
  let m := putWord m 0x90008 q.ega.1
  let m := putWord m 0x9000a q.ega.2.1
  let m := putWord m 0x9000c q.ega.2.2
  let m := copyDrive m 0x41 0x90080
  let m := copyDrive m 0x46 0x90090
  if q.hd1 then m else place m 0x90090 0x10 fun _ => 0

/-- `do_move`, at most `n` times. -/
def doMove : ℕ → Reg → Ram → Option Ram
  | 0, _, _ => none
  | n + 1, ax, m =>
    let es := ax
    let ax := ax + 0x1000
    if ax = 0x9000 then some m else doMove n ax (repMovsw 0x8000 m (linear ax 0) (linear es 0))

/-- `setup.s`, up to `end_move`. -/
def setup (q : Answers) (fuel : ℕ) (m : Ram) : Option Ram :=
  doMove fuel 0 (saveParams q m)

/-- From the boot sector at 0x7c00 to `end_move`. -/
def boot (b : Bios) (q : Answers) (fuel : ℕ) (m : Ram) : Option Ram :=
  (bootsect b fuel m).bind fun s => setup q fuel s.ram

/-! ## What the string instructions move -/

theorem repMovsw_eq {n src dst : ℕ} (h : dst + 2 * n ≤ src ∨ src + 2 * n ≤ dst) (m : Ram) (x : ℕ) :
    repMovsw n m src dst x = if dst ≤ x ∧ x < dst + 2 * n then m (src + (x - dst)) else m x := by
  induction n generalizing x with
  | zero =>
    rw [if_neg (by omega)]
    rfl
  | succ n ih =>
    have ih := ih (by omega)
    have hstep : repMovsw (n + 1) m src dst =
        movsw (repMovsw n m src dst) (src + 2 * n) (dst + 2 * n) := by
      unfold repMovsw
      rw [List.range_succ, List.foldl_append]
      rfl
    rw [hstep]
    unfold movsw
    by_cases h0 : x = dst + 2 * n
    · rw [if_pos h0, ih, if_neg (by omega), if_pos (by omega)]
      congr 1
      omega
    · rw [if_neg h0]
      by_cases h1 : x = dst + 2 * n + 1
      · rw [if_pos h1, ih, if_neg (by omega), if_pos (by omega)]
        congr 1
        omega
      · rw [if_neg h1, ih]
        by_cases hx : dst ≤ x ∧ x < dst + 2 * n
        · rw [if_pos hx, if_pos (by omega)]
        · rw [if_neg hx, if_neg (by omega)]

theorem repMovsb_of_out {n src dst x : ℕ} (m : Ram) (h : x < dst ∨ dst + n ≤ x) :
    repMovsb n m src dst x = m x := by
  induction n with
  | zero => rfl
  | succ n ih =>
    have hstep : repMovsb (n + 1) m src dst =
        Function.update (repMovsb n m src dst) (dst + n) (repMovsb n m src dst (src + n)) := by
      unfold repMovsb
      rw [List.range_succ, List.foldl_append]
      rfl
    rw [hstep, Function.update_of_ne (by omega), ih (by omega)]

theorem putWord_of_out {m : Ram} {a x : ℕ} {v : Reg} (h : x < a ∨ a + 2 ≤ x) :
    putWord m a v x = m x := by
  unfold putWord
  rw [if_neg (by omega), if_neg (by omega)]

theorem word_putWord (m : Ram) (a : ℕ) (v : Reg) : word (putWord m a v) a = v := by
  unfold word putWord
  rw [if_neg (by omega), if_pos rfl, if_pos rfl]
  apply BitVec.eq_of_getLsbD_eq
  intro i hi
  simp only [BitVec.getLsbD_append, BitVec.getLsbD_setWidth, BitVec.getLsbD_ushiftRight]
  by_cases h : i < 8
  · simp [h]
  · simp [h, show i - 8 < 8 by omega, show 8 + (i - 8) = i by omega]

/-! ## The diskette -/

/-- Sectors in a track, and what is on the diskette. -/
structure Diskette where
  spt : ℕ
  disk : ℕ → Byte

namespace Request

variable (r : Request)

/-- The number of sectors. -/
def count : ℕ := r.ax.toNat % 256

def cylinder : ℕ := r.cx.toNat / 256 + 256 * (r.cx.toNat % 256 / 64)

def sector : ℕ := r.cx.toNat % 64

def head : ℕ := r.dx.toNat / 256

def buf : ℕ := linear r.es r.bx

/-- The number of the first sector on the diskette. -/
def lba (spt : ℕ) : ℕ := (r.cylinder * 2 + r.head) * spt + (r.sector - 1)

/-- A read of drive 0 that stays on one track, and in a segment of 64 KB. -/
structure Fits (spt : ℕ) : Prop where
  drive : r.dx.toNat % 256 = 0
  head : r.head < 2
  sector : 1 ≤ r.sector
  count : 1 ≤ r.count
  track : r.sector - 1 + r.count ≤ spt
  segment : r.buf % 65536 + 512 * r.count ≤ 65536

end Request

/-- What the loader relies on: the diskette has tracks of 6 to 63 sectors, which service 8 tells; service 2
changes no memory but the buffer, and puts the sectors there if it clears the carry flag, for reads that fit;
and it does not go on failing. -/
structure Bios.Serves (b : Bios) (d : Diskette) : Prop where
  lt_spt : 5 < d.spt
  spt_lt : d.spt < 64
  params : (b.params &&& 0xff).toNat = d.spt
  reads : ∀ k r m, r.Fits d.spt → (b.read k r m).2 = false →
    ∀ i < 512 * r.count, (b.read k r m).1 (r.buf + i) = d.disk (512 * r.lba d.spt + i)
  keeps : ∀ k (r : Request) m, r.Fits d.spt → ∀ x, x < r.buf ∨ r.buf + 512 * r.count ≤ x →
    (b.read k r m).1 x = m x
  tries : ∀ k, ∃ j, k ≤ j ∧ ∀ (r : Request) m, r.Fits d.spt → (b.read j r m).2 = false

/-! ## `read_it` -/

/-- `p` sectors of the system are in the memory, and the next one is where the registers say. -/
structure At (d : Diskette) (m : Ram) (p : ℕ) (s : Loader) : Prop where
  sectors : s.sectors.toNat = d.spt
  es : s.es.toNat = 0x1000 * (1 + p / 128)
  bx : s.bx.toNat = p % 128 * 512
  sread : s.sread.toNat < d.spt
  head : s.head.toNat < 2
  lba : (s.track.toNat * 2 + s.head.toNat) * d.spt + s.sread.toNat = 5 + p
  loaded : ∀ i < 512 * p, s.ram (0x10000 + i) = d.disk (2560 + i)
  kept : ∀ x, x < 0x10000 ∨ 0x40000 ≤ x → s.ram x = m x
  fits : ∀ r ∈ s.reads, r.Fits d.spt

/-- The sectors that one read takes: up to the end of the track or of the segment. -/
def chunk (d : Diskette) (p : ℕ) (s : Loader) : ℕ := min (d.spt - s.sread.toNat) (128 - p % 128)

variable {b : Bios} {d : Diskette} {m : Ram} {p : ℕ} {s : Loader}

theorem trackSectors_eq (hb : b.Serves d) (h : At d m p s) :
    s.trackSectors.toNat = chunk d p s := by
  have h1 := h.sectors
  have h2 := h.sread
  have h3 := h.bx
  have h4 := hb.spt_lt
  have hax : (s.sectors - s.sread).toNat = d.spt - s.sread.toNat := by
    rw [BitVec.toNat_sub]
    omega
  have hcx : ((s.sectors - s.sread) <<< 9).toNat = (d.spt - s.sread.toNat) * 512 := by
    rw [BitVec.toNat_shiftLeft, hax, Nat.shiftLeft_eq]
    omega
  unfold Loader.trackSectors chunk
  dsimp only
  rw [hcx, h3]
  split
  · next hc =>
    obtain ⟨hcarry, hne⟩ := hc
    have hne' : ((s.sectors - s.sread) <<< 9 + s.bx).toNat ≠ 0 := by
      intro h0
      exact hne (BitVec.eq_of_toNat_eq h0)
    rw [BitVec.toNat_add, hcx, h3] at hne'
    rw [BitVec.toNat_ushiftRight, BitVec.toNat_sub, h3, Nat.shiftRight_eq_div_pow]
    rw [show (0 : Reg).toNat = 0 from rfl]
    omega
  · next hc =>
    rw [hax]
    have hz : 2 ^ 16 ≤ (d.spt - s.sread.toNat) * 512 + p % 128 * 512 →
        ((d.spt - s.sread.toNat) * 512 + p % 128 * 512) % 2 ^ 16 = 0 := by
      intro hcarry
      by_contra hne
      refine hc ⟨hcarry, fun h0 => hne ?_⟩
      have h0 := congrArg BitVec.toNat h0
      rw [BitVec.toNat_add, hcx, h3] at h0
      simpa using h0
    omega

theorem toNat_and_ff (x : Reg) : (x &&& 0xff).toNat = x.toNat % 256 := by
  rw [BitVec.toNat_and, show (0xff : Reg).toNat = 2 ^ 8 - 1 from rfl,
    Nat.and_two_pow_sub_one_eq_mod]

theorem toNat_halves {hi lo : Reg} (h : hi.toNat < 256) :
    (halves hi lo).toNat = 256 * hi.toNat + lo.toNat % 256 := by
  unfold halves
  rw [BitVec.toNat_or, toNat_and_ff, BitVec.toNat_shiftLeft]
  have h1 : hi.toNat <<< 8 % 2 ^ 16 = hi.toNat <<< 8 := by
    rw [Nat.shiftLeft_eq]
    omega
  rw [h1, ← Nat.shiftLeft_add_eq_or_of_lt (show lo.toNat % 256 < 2 ^ 8 by omega), Nat.shiftLeft_eq]
  omega

/-- Where the sectors of the next read go, and that the DMA controller can do it. -/
theorem At.linear (h : At d m p s) : linear s.es s.bx = 0x10000 + 512 * p := by
  unfold Boot.linear
  rw [h.es, h.bx]
  omega

theorem At.track_lt (hb : b.Serves d) (h : At d m p s) (hp : p < 384) : s.track.toNat < 256 := by
  have h1 := h.lba
  have h2 : (s.track.toNat * 2 + s.head.toNat) * 6 ≤
      (s.track.toNat * 2 + s.head.toNat) * d.spt := Nat.mul_le_mul_left _ hb.lt_spt
  omega

theorem chunk_bounds (h : At d m p s) (hp : p < 384) :
    1 ≤ chunk d p s ∧ s.sread.toNat + chunk d p s ≤ d.spt ∧ p % 128 + chunk d p s ≤ 128 ∧
      p + chunk d p s ≤ 384 := by
  have h1 := h.sread
  unfold chunk
  omega

/-- What `read_track` asks for: the next sectors, up to the end of the track or of the segment. -/
theorem At.request (hb : b.Serves d) (h : At d m p s) (hp : p < 384) {ax : Reg}
    (hax : ax.toNat = chunk d p s) : (s.request ax).Fits d.spt ∧ (s.request ax).count = chunk d p s ∧
      (s.request ax).buf = 0x10000 + 512 * p ∧ 512 * (s.request ax).lba d.spt = 2560 + 512 * p := by
  obtain ⟨h1, h2, h3, -⟩ := chunk_bounds h hp
  have hspt := hb.spt_lt
  have hh := h.head
  have hlba := h.lba
  have hsread : (s.sread + 1).toNat = s.sread.toNat + 1 := by
    rw [BitVec.toNat_add]
    have h1 : (1 : Reg).toNat = 1 := rfl
    omega
  have hcx : (s.request ax).cx.toNat = 256 * s.track.toNat + (s.sread.toNat + 1) := by
    show (halves s.track (s.sread + 1)).toNat = _
    rw [toNat_halves (h.track_lt hb hp), hsread]
    omega
  have hdx : (s.request ax).dx.toNat = 256 * s.head.toNat := by
    show (halves s.head 0 &&& 0x0100).toNat = _
    have hhead : s.head = 0 ∨ s.head = 1 := by
      rcases Nat.lt_or_ge s.head.toNat 1 with h0 | h0
      · exact .inl (BitVec.eq_of_toNat_eq (by simpa using h0))
      · exact .inr (BitVec.eq_of_toNat_eq (show s.head.toNat = 1 by omega))
    rcases hhead with h0 | h0 <;> rw [h0] <;> rfl
  have hcount : (s.request ax).count = chunk d p s := by
    show (halves 2 ax).toNat % 256 = _
    rw [toNat_halves (by decide), hax]
    omega
  have hbuf : (s.request ax).buf = 0x10000 + 512 * p := h.linear
  have hcylinder : (s.request ax).cylinder = s.track.toNat := by
    unfold Request.cylinder
    omega
  have hsector : (s.request ax).sector = s.sread.toNat + 1 := by
    unfold Request.sector
    omega
  have hhead : (s.request ax).head = s.head.toNat := by
    unfold Request.head
    omega
  refine ⟨⟨by omega, by omega, by omega, by omega, by omega, by omega⟩, hcount, hbuf, ?_⟩
  unfold Request.lba
  rw [hcylinder, hsector, hhead, Nat.add_sub_cancel, hlba]
  omega

theorem place_of_in {m : Ram} {dst n i : ℕ} {f : ℕ → Byte} (h : i < n) :
    place m dst n f (dst + i) = f i := by
  unfold place
  rw [if_pos (by omega), Nat.add_sub_cancel_left]

theorem place_of_out {m : Ram} {dst n x : ℕ} {f : ℕ → Byte} (h : x < dst ∨ dst + n ≤ x) :
    place m dst n f x = m x := by
  unfold place
  rw [if_neg (by omega)]

/-- A try leaves what is loaded already, and what does not belong to the system. -/
theorem At.call (hb : b.Serves d) (h : At d m p s) (hp : p < 384) {ax : Reg}
    (hax : ax.toNat = chunk d p s) : At d m p (s.call b (s.request ax)) := by
  obtain ⟨-, -, -, h4⟩ := chunk_bounds h hp
  obtain ⟨hfits, hcount, hbuf, -⟩ := h.request hb hp hax
  have hout : ∀ x, x < 0x10000 + 512 * p ∨ 0x10000 + 512 * p + 512 * chunk d p s ≤ x →
      (s.call b (s.request ax)).ram x = s.ram x := fun x hx =>
    hb.keeps _ _ _ hfits x (by rw [hbuf, hcount]; exact hx)
  exact { h with
    loaded := fun i hi => (hout _ (by omega)).trans (h.loaded i hi)
    kept := fun x hx => (hout _ (by omega)).trans (h.kept x hx)
    fits := fun r hr => by
      rcases List.mem_cons.1 hr with rfl | hr
      · exact hfits
      · exact h.fits r hr }

/-- One that does not fail loads the sectors. -/
theorem At.loaded_call (hb : b.Serves d) (h : At d m p s) (hp : p < 384) {ax : Reg}
    (hax : ax.toNat = chunk d p s) (hok : (b.read s.reads.length (s.request ax) s.ram).2 = false) :
    ∀ i < 512 * (p + chunk d p s),
      (s.call b (s.request ax)).ram (0x10000 + i) = d.disk (2560 + i) := by
  obtain ⟨hfits, hcount, hbuf, hlba⟩ := h.request hb hp hax
  intro i hi
  rcases Nat.lt_or_ge i (512 * p) with hlt | hge
  · exact (h.call hb hp hax).loaded i hlt
  · obtain ⟨k, rfl⟩ := Nat.exists_eq_add_of_le hge
    have hread := hb.reads _ _ _ hfits hok k (by rw [hcount]; omega)
    rw [hbuf, hlba] at hread
    rw [← Nat.add_assoc, ← Nat.add_assoc]
    exact hread

/-- `read_track` reads the next sectors, after as many tries as it takes. -/
theorem readTrack_at (hb : b.Serves d) (hp : p < 384) {ax : Reg} (k : ℕ) :
    ∀ {s : Loader}, At d m p s → ax.toNat = chunk d p s →
    (∀ (r : Request) m, r.Fits d.spt → (b.read (s.reads.length + k) r m).2 = false) →
    ∃ N s', (∀ fuel, N ≤ fuel → readTrack b ax fuel s = some s') ∧ At d m p s' ∧
      chunk d p s' = chunk d p s ∧ s'.sectors = s.sectors ∧
      ∀ i < 512 * (p + chunk d p s), s'.ram (0x10000 + i) = d.disk (2560 + i) := by
  induction k with
  | zero =>
    intro s h hax hk
    have hok : (b.read s.reads.length (s.request ax) s.ram).2 = false := hk _ s.ram (h.request hb hp hax).1
    refine ⟨1, s.call b (s.request ax), fun fuel hf => ?_, h.call hb hp hax, rfl, rfl,
      h.loaded_call hb hp hax hok⟩
    obtain ⟨n, rfl⟩ := Nat.exists_eq_add_of_le' hf
    rw [readTrack]
    exact if_neg (by rw [hok]; exact Bool.false_ne_true)
  | succ k ih =>
    intro s h hax hk
    by_cases hok : (b.read s.reads.length (s.request ax) s.ram).2 = true
    · have hk' : ∀ (r : Request) m, r.Fits d.spt →
          (b.read ((s.call b (s.request ax)).reads.length + k) r m).2 = false := by
        rw [show (s.call b (s.request ax)).reads.length + k = s.reads.length + (k + 1) from
          Nat.succ_add_eq_add_succ _ _]
        exact hk
      obtain ⟨N, s', hN, h', hc, hs, hl⟩ := ih (h.call hb hp hax) hax hk'
      refine ⟨N + 1, s', fun fuel hfuel => ?_, h', hc, hs, hl⟩
      obtain ⟨n, rfl⟩ := Nat.exists_eq_add_of_le' hfuel
      rw [← Nat.add_assoc, readTrack]
      exact (if_pos hok).trans (hN _ (by omega))
    · refine ⟨1, s.call b (s.request ax), fun fuel hfuel => ?_, h.call hb hp hax, rfl, rfl,
        h.loaded_call hb hp hax (Bool.eq_false_iff.2 hok)⟩
      obtain ⟨n, rfl⟩ := Nat.exists_eq_add_of_le' hfuel
      rw [readTrack]
      exact if_neg hok

theorem bit_cases {x : Reg} (h : x.toNat < 2) : x = 0 ∨ x = 1 := by
  rcases Nat.lt_or_ge x.toNat 1 with h0 | h0
  · exact .inl (BitVec.eq_of_toNat_eq (by simpa using h0))
  · exact .inr (BitVec.eq_of_toNat_eq (show x.toNat = 1 by omega))

/-- The place of the next sector, after a read of `n` sectors. -/
theorem nextSector_place (hb : b.Serves d) (h : At d m p s) (hp : p < 384) {ax : Reg} {n : ℕ}
    (hax : ax.toNat = n) (hn : s.sread.toNat + n ≤ d.spt) :
    (s.nextSector ax).sread.toNat < d.spt ∧ (s.nextSector ax).head.toNat < 2 ∧
      ((s.nextSector ax).track.toNat * 2 + (s.nextSector ax).head.toNat) * d.spt +
        (s.nextSector ax).sread.toNat = 5 + (p + n) := by
  have hspt := hb.spt_lt
  have hlt := hb.lt_spt
  have htrack := h.track_lt hb hp
  have hlba := h.lba
  have hsum : (ax + s.sread).toNat = s.sread.toNat + n := by
    rw [BitVec.toNat_add, hax]
    omega
  have hiff : ax + s.sread = s.sectors ↔ s.sread.toNat + n = d.spt := by
    rw [← hsum, ← h.sectors]
    exact BitVec.toNat_inj.symm
  unfold Loader.nextSector
  by_cases heq : s.sread.toNat + n = d.spt
  · rw [if_pos (hiff.2 heq)]
    rcases bit_cases h.head with h0 | h0
    · -- the other side of the same track
      rw [h0] at hlba ⊢
      refine ⟨show (0 : ℕ) < d.spt by omega, by dsimp only; decide, ?_⟩
      show (s.track.toNat * 2 + 1) * d.spt + 0 = 5 + (p + n)
      have hz : (0 : Reg).toNat = 0 := rfl
      rw [hz, Nat.add_zero] at hlba
      rw [Nat.add_mul]
      omega
    · -- the next track
      rw [h0] at hlba ⊢
      refine ⟨show (0 : ℕ) < d.spt by omega, by dsimp only; decide, ?_⟩
      have ht : (s.track + 1).toNat = s.track.toNat + 1 := by
        rw [BitVec.toNat_add]
        have h1 : (1 : Reg).toNat = 1 := rfl
        omega
      show ((s.track + 1).toNat * 2 + 0) * d.spt + 0 = 5 + (p + n)
      have ho : (1 : Reg).toNat = 1 := rfl
      rw [ho] at hlba
      rw [ht, show (s.track.toNat + 1) * 2 + 0 = s.track.toNat * 2 + 1 + 1 by omega, Nat.succ_mul]
      omega
  · rw [if_neg fun he => heq (hiff.1 he)]
    refine ⟨by dsimp only; omega, h.head, ?_⟩
    dsimp only
    omega

/-- Where it goes. -/
theorem nextAddress_place {s : Loader} (hes : s.es.toNat = 0x1000 * (1 + p / 128))
    (hbx : s.bx.toNat = p % 128 * 512) (hp : p < 384) {cx : Reg} {n : ℕ} (hcx : cx.toNat = n)
    (hn : n < 64) (hn' : p % 128 + n ≤ 128) :
    (s.nextAddress cx).es.toNat = 0x1000 * (1 + (p + n) / 128) ∧
      (s.nextAddress cx).bx.toNat = (p + n) % 128 * 512 := by
  have hshl : (cx <<< 9).toNat = n * 512 := by
    rw [BitVec.toNat_shiftLeft, hcx, Nat.shiftLeft_eq]
    omega
  unfold Loader.nextAddress
  dsimp only
  rw [hshl, hbx]
  split
  · dsimp only
    rw [BitVec.toNat_add, hes]
    have h1 : (0x1000 : Reg).toNat = 0x1000 := rfl
    have h0 : (0 : Reg).toNat = 0 := rfl
    omega
  · dsimp only
    rw [hes, BitVec.toNat_add, hshl, hbx]
    omega

theorem nextSector_keeps (s : Loader) (ax : Reg) :
    (s.nextSector ax).es = s.es ∧ (s.nextSector ax).bx = s.bx ∧
      (s.nextSector ax).sectors = s.sectors ∧ (s.nextSector ax).ram = s.ram ∧
      (s.nextSector ax).reads = s.reads := by
  unfold Loader.nextSector
  dsimp only
  split
  · exact ⟨rfl, rfl, rfl, rfl, rfl⟩
  · exact ⟨rfl, rfl, rfl, rfl, rfl⟩

theorem nextAddress_keeps (s : Loader) (cx : Reg) :
    (s.nextAddress cx).sectors = s.sectors ∧ (s.nextAddress cx).ram = s.ram ∧
      (s.nextAddress cx).sread = s.sread ∧ (s.nextAddress cx).head = s.head ∧
      (s.nextAddress cx).track = s.track ∧ (s.nextAddress cx).reads = s.reads := by
  unfold Loader.nextAddress
  dsimp only
  split
  · exact ⟨rfl, rfl, rfl, rfl, rfl, rfl⟩
  · exact ⟨rfl, rfl, rfl, rfl, rfl, rfl⟩

/-- One turn of the loop loads the rest of a track or of a segment. -/
theorem turn_at (hb : b.Serves d) (h : At d m p s) (hp : p < 384) :
    ∃ N s' n, (∀ fuel, N ≤ fuel → turn b fuel s = some s') ∧ 1 ≤ n ∧ p + n ≤ 384 ∧
      At d m (p + n) s' := by
  obtain ⟨ax, hax⟩ : ∃ ax, s.trackSectors = ax := ⟨_, rfl⟩
  have hchunk : ax.toNat = chunk d p s := hax ▸ trackSectors_eq hb h
  obtain ⟨j, hj, htries⟩ := hb.tries s.reads.length
  obtain ⟨k, rfl⟩ := Nat.exists_eq_add_of_le hj
  obtain ⟨N, t, hN, ht, hc, -, hl⟩ := readTrack_at hb hp k h hchunk htries
  rw [← hc] at hchunk hl
  obtain ⟨h1, h2, h3, h4⟩ := chunk_bounds ht hp
  have hspt := hb.spt_lt
  obtain ⟨g1, g2, g3⟩ := nextSector_place hb ht hp hchunk h2
  obtain ⟨k1, k2, k3, k4, k5⟩ := nextSector_keeps t ax
  obtain ⟨e1, e2⟩ := nextAddress_place (p := p) (by rw [k1]; exact ht.es)
    (by rw [k2]; exact ht.bx) hp hchunk (by omega) h3
  obtain ⟨a1, a2, a3, a4, a5, a6⟩ := nextAddress_keeps (t.nextSector ax) ax
  refine ⟨N, (t.nextSector ax).nextAddress ax, chunk d p t, fun fuel hf => ?_, h1, h4, ?_⟩
  · unfold turn
    dsimp only
    rw [hax, hN fuel hf, Option.map_some]
  · refine ⟨?_, e1, e2, ?_, ?_, ?_, fun i hi => ?_, fun x hx => ?_, ?_⟩
    · rw [a1, k3]
      exact ht.sectors
    · rw [a3]
      exact g1
    · rw [a4]
      exact g2
    · rw [a3, a4, a5]
      exact g3
    · rw [a2, k4]
      exact hl i hi
    · rw [a2, k4]
      exact ht.kept x hx
    · rw [a6, k5]
      exact ht.fits

/-- `read_it` loads all sectors of the system, from sector 5 on, and nothing else changes. -/
theorem rpRead_at (hb : b.Serves d) (k : ℕ) : ∀ {p : ℕ} {s : Loader}, At d m p s → p + k = 384 →
    ∃ N s', (∀ fuel n, N ≤ fuel → N ≤ n → rpRead b fuel n s = some s') ∧ At d m 384 s' := by
  induction k using Nat.strong_induction_on with
  | _ k ih =>
    intro p s h hk
    rcases Nat.lt_or_ge p 384 with hp | hp
    · obtain ⟨N, s₁, n, hN, hn, hle, h₁⟩ := turn_at hb h hp
      obtain ⟨N', s', hN', h'⟩ := ih (k - n) (by omega) h₁ (by omega)
      refine ⟨max N N' + 1, s', fun fuel l hf hl => ?_, h'⟩
      obtain ⟨l, rfl⟩ := Nat.exists_eq_add_of_le' (show 1 ≤ l by omega)
      have hes : s.es < endSeg := by
        rw [BitVec.lt_def, h.es, show endSeg.toNat = 0x4000 from rfl]
        omega
      rw [rpRead, if_pos hes, hN fuel (by omega), Option.bind_some]
      exact hN' fuel l (by omega) (by omega)
    · obtain rfl : p = 384 := by omega
      refine ⟨1, s, fun fuel l _ hl => ?_, h⟩
      obtain ⟨l, rfl⟩ := Nat.exists_eq_add_of_le' hl
      have hes : ¬ s.es < endSeg := by
        rw [BitVec.lt_def, h.es, show endSeg.toNat = 0x4000 from rfl]
        omega
      rw [rpRead, if_neg hes]

theorem readIt_at (hb : b.Serves d) (h : At d m 0 { s with bx := 0 }) :
    ∃ N s', (∀ fuel, N ≤ fuel → readIt b fuel s = some s') ∧ At d m 384 s' := by
  obtain ⟨N, s', hN, h'⟩ := rpRead_at hb 384 h rfl
  refine ⟨N, s', fun fuel hf => ?_, h'⟩
  have hes : s.es = 0x1000 := BitVec.eq_of_toNat_eq h.es
  have hz : s.es &&& 0x0fff = 0 := by
    rw [hes]
    rfl
  unfold readIt
  rw [if_neg (not_not.2 hz)]
  exact hN fuel fuel hf hf

/-! ## Before and after it -/

theorem setupRequest_fits (h : 5 < d.spt) : setupRequest.Fits d.spt ∧ setupRequest.count = 4 ∧
    setupRequest.buf = 0x90200 ∧ setupRequest.lba d.spt = 1 := by
  have hlba : setupRequest.lba d.spt = 1 := by
    show (0 * 2 + 0) * d.spt + (2 - 1) = 1
    omega
  exact ⟨⟨rfl, by decide, by decide, by decide, show 2 - 1 + 4 ≤ d.spt by omega, by decide⟩, rfl, rfl, hlba⟩

/-- `load_setup` puts four sectors behind the boot sector, after as many tries as it takes. -/
theorem loadSetup_at (hb : b.Serves d) (k : ℕ) : ∀ {s : Loader},
    (∀ (r : Request) m, r.Fits d.spt → (b.read (s.reads.length + k) r m).2 = false) →
    (∀ r ∈ s.reads, r.Fits d.spt) →
    ∃ N s', (∀ fuel, N ≤ fuel → loadSetup b fuel s = some s') ∧
      (∃ ram reads, s' = { s with ram := ram, reads := reads }) ∧
      (∀ i < 2048, s'.ram (0x90200 + i) = d.disk (512 + i)) ∧
      (∀ x, x < 0x90200 ∨ 0x90a00 ≤ x → s'.ram x = s.ram x) ∧ ∀ r ∈ s'.reads, r.Fits d.spt := by
  obtain ⟨hfits, hcount, hbuf, hlba⟩ := setupRequest_fits hb.lt_spt
  have hout : ∀ (s : Loader) x, x < 0x90200 ∨ 0x90a00 ≤ x → (s.call b setupRequest).ram x = s.ram x :=
    fun s x hx => hb.keeps _ _ _ hfits x (by rw [hbuf, hcount]; exact hx)
  have hall : ∀ s : Loader, (∀ r ∈ s.reads, r.Fits d.spt) → ∀ r ∈ (s.call b setupRequest).reads, r.Fits d.spt := by
    intro s hs r hr
    rcases List.mem_cons.1 hr with rfl | hr
    · exact hfits
    · exact hs r hr
  have hok : ∀ s : Loader, (b.read s.reads.length setupRequest s.ram).2 = false →
      (∀ r ∈ s.reads, r.Fits d.spt) →
      ∃ N s', (∀ fuel, N ≤ fuel → loadSetup b fuel s = some s') ∧
        (∃ ram reads, s' = { s with ram := ram, reads := reads }) ∧
        (∀ i < 2048, s'.ram (0x90200 + i) = d.disk (512 + i)) ∧
        (∀ x, x < 0x90200 ∨ 0x90a00 ≤ x → s'.ram x = s.ram x) ∧ ∀ r ∈ s'.reads, r.Fits d.spt := by
    intro s hf hs
    refine ⟨1, s.call b setupRequest, fun fuel hfuel => ?_, ⟨_, _, rfl⟩, fun i hi => ?_, hout s, hall s hs⟩
    · obtain ⟨n, rfl⟩ := Nat.exists_eq_add_of_le' hfuel
      rw [loadSetup]
      exact if_neg (by rw [hf]; exact Bool.false_ne_true)
    · have hread := hb.reads _ _ _ hfits hf i (by rw [hcount]; exact hi)
      rw [hbuf, hlba] at hread
      exact hread
  induction k with
  | zero => exact fun {s} hk hs => hok _ (hk _ s.ram hfits) hs
  | succ k ih =>
    intro s hk hs
    by_cases hf : (b.read s.reads.length setupRequest s.ram).2 = true
    · have hk' : ∀ (r : Request) m, r.Fits d.spt →
          (b.read ((s.call b setupRequest).reads.length + k) r m).2 = false := by
        rw [show (s.call b setupRequest).reads.length + k = s.reads.length + (k + 1) from
          Nat.succ_add_eq_add_succ _ _]
        exact hk
      obtain ⟨N, s', hN, ⟨ram, reads, rfl⟩, hin, hkeep, hfit⟩ := ih hk' (hall s hs)
      refine ⟨N + 1, _, fun fuel hfuel => ?_, ⟨ram, reads, rfl⟩, hin,
        fun x hx => (hkeep x hx).trans (hout s x hx), hfit⟩
      obtain ⟨n, rfl⟩ := Nat.exists_eq_add_of_le' hfuel
      rw [← Nat.add_assoc, loadSetup]
      exact (if_pos hf).trans (hN _ (by omega))
    · exact hok s (Bool.eq_false_iff.2 hf) hs

/-- What `setup.s` saves lies in the old boot sector, below `root_dev`. -/
theorem saveParams_of_out {q : Answers} {m : Ram} {x : ℕ} (h : x < 0x90000 ∨ 0x900a0 ≤ x) :
    saveParams q m x = m x := by
  unfold saveParams copyDrive
  split
  · rw [repMovsb_of_out _ (by omega), repMovsb_of_out _ (by omega)]
    iterate 7 rw [putWord_of_out (by omega)]
  · rw [place_of_out (by omega), repMovsb_of_out _ (by omega), repMovsb_of_out _ (by omega)]
    iterate 7 rw [putWord_of_out (by omega)]

/-- `do_move` takes the memory from 0x10000 to 0x90000 down to 0, one segment after the other. -/
theorem doMove_eq (m : Ram) (d : ℕ) : ∀ {k : ℕ} {ax : Reg} {m' : Ram}, k + d = 8 →
    ax.toNat = 0x1000 * k → (∀ x, m' x = if x < 0x10000 * k then m (x + 0x10000) else m x) →
    ∀ fuel, d + 1 ≤ fuel → ∃ m'', doMove fuel ax m' = some m'' ∧
      ∀ x, m'' x = if x < 0x80000 then m (x + 0x10000) else m x := by
  induction d with
  | zero =>
    intro k ax m' hk hax hm fuel hf
    obtain ⟨n, rfl⟩ := Nat.exists_eq_add_of_le' hf
    obtain rfl : k = 8 := by omega
    have hax' : ax = 0x8000 := BitVec.eq_of_toNat_eq hax
    refine ⟨m', ?_, hm⟩
    rw [doMove, hax']
    exact if_pos rfl
  | succ d ih =>
    intro k ax m' hk hax hm fuel hf
    obtain ⟨n, rfl⟩ := Nat.exists_eq_add_of_le' hf
    have hnext : (ax + 0x1000).toNat = 0x1000 * (k + 1) := by
      rw [BitVec.toNat_add, hax, show (0x1000 : Reg).toNat = 0x1000 from rfl]
      omega
    have hne : ax + 0x1000 ≠ 0x9000 := by
      intro h
      rw [h, show (0x9000 : Reg).toNat = 0x9000 from rfl] at hnext
      omega
    have hsrc : linear (ax + 0x1000) 0 = 0x10000 * (k + 1) := by
      unfold linear
      rw [hnext, show (0 : Reg).toNat = 0 from rfl]
      omega
    have hdst : linear ax 0 = 0x10000 * k := by
      unfold linear
      rw [hax, show (0 : Reg).toNat = 0 from rfl]
      omega
    obtain ⟨m'', h1, h2⟩ := @ih (k + 1) (ax + 0x1000)
      (repMovsw 0x8000 m' (linear (ax + 0x1000) 0) (linear ax 0)) (by omega) hnext
      (by
        intro x
        rw [repMovsw_eq (by omega), hsrc, hdst]
        by_cases hx : 0x10000 * k ≤ x ∧ x < 0x10000 * k + 2 * 0x8000
        · rw [if_pos hx, hm, if_neg (by omega), if_pos (by omega)]
          exact congrArg m (by omega)
        · rw [if_neg hx, hm]
          by_cases hx' : x < 0x10000 * k
          · rw [if_pos hx', if_pos (by omega)]
          · rw [if_neg hx', if_neg (by omega)]) (n + (d + 1)) (by omega)
    refine ⟨m'', ?_, h2⟩
    rw [← Nat.add_assoc, doMove]
    exact (if_neg hne).trans h1

/-- The root device that `bootsect.s` leaves in the boot sector, if it goes on. -/
def rootWord (spt : ℕ) (dev : Byte × Byte) : Option Reg :=
  let w : Reg := dev.1 ++ dev.2
  if w ≠ 0 then some w
  else if spt = 15 then some 0x0208
  else if spt = 18 then some 0x021c
  else none

theorem defineRoot_eq {s : Loader} (hs : s.sectors.toNat = d.spt)
    {dev : Byte × Byte} (hw : word s.ram rootDevAddr = dev.1 ++ dev.2) :
    defineRoot s = (rootWord d.spt dev).map fun w => { s with ram := putWord s.ram rootDevAddr w } := by
  have h15 : s.sectors = 15 ↔ d.spt = 15 := by
    rw [← hs, ← BitVec.toNat_inj]
    rfl
  have h18 : s.sectors = 18 ↔ d.spt = 18 := by
    rw [← hs, ← BitVec.toNat_inj]
    rfl
  unfold defineRoot rootWord
  dsimp only
  rw [hw]
  simp only [h15, h18]
  split_ifs <;> rfl

/-- What the loader leaves. -/
structure Booted (d : Diskette) (w : Reg) (m : Ram) : Prop where
  system : ∀ i < 0x30000, m i = d.disk (2560 + i)
  setup : ∀ i < 2048, m (0x90200 + i) = d.disk (512 + i)
  root : word m rootDevAddr = w

/-- The memory after `do_move`. -/
def moved (m : Ram) : Ram := fun x => if x < 0x80000 then m (x + 0x10000) else m x

theorem moved_of_lt {m : Ram} {x : ℕ} (h : x < 0x80000) : moved m x = m (x + 0x10000) :=
  if_pos h

theorem moved_of_ge {m : Ram} {x : ℕ} (h : 0x80000 ≤ x) : moved m x = m x :=
  if_neg (Nat.not_lt.2 h)

theorem doMove_moved (m : Ram) {fuel : ℕ} (h : 9 ≤ fuel) : doMove fuel 0 m = some (moved m) := by
  have h0 : ∀ x, m x = if x < 0x10000 * 0 then m (x + 0x10000) else m x := by
    intro x
    rw [if_neg (by omega)]
  obtain ⟨m', h1, h2⟩ := @doMove_eq m 8 0 0 m (Nat.zero_add 8) rfl h0 fuel h
  rw [h1, show m' = moved m from funext h2]

/-- The registers with which `read_it` begins. -/
theorem at_start (hb : b.Serves d) (m ram : Ram) {reads : List Request}
    (hreads : ∀ r ∈ reads, r.Fits d.spt) :
    At d ram 0 { Loader.start m with
                 ram := ram, reads := reads, sectors := b.params &&& 0xff, es := sysSeg, bx := 0 } := by
  have h1 := hb.lt_spt
  refine ⟨hb.params, rfl, rfl, h1, by dsimp only [Loader.start]; decide, ?_, fun i hi => by omega,
    fun x _ => rfl, hreads⟩
  show (0 * 2 + 0) * d.spt + 5 = 5 + 0
  omega

/-- The boot sector loads the other sectors of the diskette, with reads that fit, and `setup` moves the
system, or it stays where no root device is defined. -/
theorem boot_eq (hb : b.Serves d) (q : Answers) {m : Ram} (hm : ∀ i < 512, m (0x7c00 + i) = d.disk i) :
    ∃ N s m', (∀ fuel, N ≤ fuel → load b fuel m = some s ∧
        boot b q fuel m = (rootWord d.spt (d.disk 509, d.disk 508)).map m') ∧
      (∀ r ∈ s.reads, r.Fits d.spt) ∧ ∀ w, Booted d w (m' w) := by
  have hm₁ : ∀ x, (Loader.start m).ram x =
      if 0x90000 ≤ x ∧ x < 0x90200 then m (0x7c00 + (x - 0x90000)) else m x := by
    intro x
    have hdst : linear initSeg 0 = 0x90000 := by decide
    unfold Loader.start
    dsimp only
    rw [hdst, repMovsw_eq (by omega)]
  obtain ⟨j, -, hj⟩ := hb.tries 0
  obtain ⟨N₁, s₁, hN₁, ⟨r₁, c₁, rfl⟩, hin₁, hout₁, hfit₁⟩ := loadSetup_at (s := Loader.start m) hb j
    (by rw [show (Loader.start m).reads.length + j = j from Nat.zero_add j]; exact hj) fun r hr => by cases hr
  obtain ⟨N₂, s₂, hN₂, h₂⟩ := readIt_at
    (s := { Loader.start m with ram := r₁, reads := c₁, sectors := b.params &&& 0xff, es := sysSeg })
    hb (at_start hb m r₁ hfit₁)
  dsimp only at hin₁ hout₁
  have hboot : ∀ i < 512, s₂.ram (0x90000 + i) = d.disk i := by
    intro i hi
    rw [h₂.kept _ (by omega), hout₁ _ (by omega), hm₁, if_pos (by omega), Nat.add_sub_cancel_left,
      hm i hi]
  have hw : word s₂.ram rootDevAddr = d.disk 509 ++ d.disk 508 := by
    unfold word
    rw [show rootDevAddr + 1 = 0x90000 + 509 from rfl, show rootDevAddr = 0x90000 + 508 from rfl,
      hboot 509 (by omega), hboot 508 (by omega)]
  have hout : ∀ w x, x < 0x90000 ∨ 0x90200 ≤ x →
      saveParams q (putWord s₂.ram rootDevAddr w) x = s₂.ram x := by
    intro w x hx
    rw [saveParams_of_out (by omega), putWord_of_out (by unfold rootDevAddr; omega)]
  refine ⟨max 9 (max N₁ N₂), s₂, fun w => moved (saveParams q (putWord s₂.ram rootDevAddr w)),
    fun fuel hf => ?_, h₂.fits, fun w => ⟨fun i hi => ?_, fun i hi => ?_, ?_⟩⟩
  · have hload : load b fuel m = some s₂ := by
      unfold load
      rw [hN₁ fuel (by omega), Option.bind_some]
      exact hN₂ fuel (by omega)
    have hdef : defineRoot s₂ = (rootWord d.spt (d.disk 509, d.disk 508)).map fun w =>
        { s₂ with ram := putWord s₂.ram rootDevAddr w } := defineRoot_eq h₂.sectors hw
    refine ⟨hload, ?_⟩
    unfold boot bootsect
    rw [hload, Option.bind_some, hdef]
    cases rootWord d.spt (d.disk 509, d.disk 508) with
    | none => rfl
    | some w => exact doMove_moved _ (by omega)
  · dsimp only
    rw [moved_of_lt (by omega), hout w _ (by omega), Nat.add_comm i, h₂.loaded i (by omega)]
  · dsimp only
    rw [moved_of_ge (by omega), hout w _ (by omega), h₂.kept _ (by omega), hin₁ i hi]
  · have hword : ∀ x, rootDevAddr ≤ x → moved (saveParams q (putWord s₂.ram rootDevAddr w)) x =
        putWord s₂.ram rootDevAddr w x := by
      intro x hx
      unfold rootDevAddr at hx
      rw [moved_of_ge (by omega), saveParams_of_out (by omega)]
    unfold word
    dsimp only
    rw [hword _ (by omega), hword _ (by omega)]
    exact word_putWord _ _ _

/-- An image that `build` makes, on a diskette that the BIOS can read: no read goes past the end of a track
or of a segment, the system comes to 0, `setup` behind the boot sector, and the root device to where
`main` looks for it. If the image names no root device and the number of sectors in a track tells none, the
loader never goes on. -/
theorem boot_loads (hb : b.Serves d) (q : Answers) {root : RootArg}
    {fileBoot fileSetup fileSystem : Option (List Byte)} {image : List Byte}
    (hbuild : build root fileBoot fileSetup fileSystem = .ok image)
    (hdisk : ∀ i c, image[i]? = some c → d.disk i = c) {m : Ram}
    (hm : ∀ i < 512, m (0x7c00 + i) = d.disk i) :
    ∃ setup system dev, fileSetup = some setup ∧ fileSystem = some system ∧ root.rootDev = .ok dev ∧
      ∃ N s m', (∀ fuel, N ≤ fuel → load b fuel m = some s ∧
          boot b q fuel m = (rootWord d.spt dev).map m') ∧
        (∀ r ∈ s.reads, r.Fits d.spt) ∧
        ∀ w, (∀ i c, (system.drop gccHeader)[i]? = some c → m' w i = c) ∧
          (∀ i c, (setup.drop minixHeader)[i]? = some c → m' w (0x90200 + i) = c) ∧
          word (m' w) rootDevAddr = w := by
  obtain ⟨bt, s, y, rfl, rfl, rfl, hl⟩ := build_eq_ok hbuild
  obtain ⟨⟨major, minor, hroot, himage⟩, hlen, hslen, hylen⟩ := hl
  obtain ⟨N, t, m', hN, hfits, hm'⟩ := boot_eq hb q hm
  have hsect : (((bt.drop minixHeader).set 508 minor).set 509 major).length = 512 := by
    rw [List.length_set, List.length_set, hlen]
  have hpad : (s.drop minixHeader ++
      List.replicate (setupSects * 512 - (s.drop minixHeader).length) (0 : Byte)).length = 2048 := by
    rw [List.length_append, List.length_replicate, Nat.add_sub_cancel' hslen]
    rfl
  have hroot' : (d.disk 509, d.disk 508) = (major, minor) := by
    have h509 : image[509]? = some major := by
      rw [himage, List.append_assoc, List.getElem?_append_left (by rw [hsect]; omega),
        List.getElem?_set_self (by rw [List.length_set, hlen]; omega)]
    have h508 : image[508]? = some minor := by
      rw [himage, List.append_assoc, List.getElem?_append_left (by rw [hsect]; omega),
        List.getElem?_set_ne (by omega), List.getElem?_set_self (by rw [hlen]; omega)]
    rw [hdisk _ _ h509, hdisk _ _ h508]
  rw [hroot'] at hN
  refine ⟨s, y, (major, minor), rfl, rfl, hroot, N, t, m', hN, hfits, fun w => ⟨fun i c hc => ?_,
    fun i c hc => ?_, (hm' w).root⟩⟩
  · have hi : i < (y.drop gccHeader).length := (List.getElem?_eq_some_iff.1 hc).1
    have hsys : sysSize * 16 = 0x20000 := rfl
    rw [(hm' w).system i (by omega)]
    apply hdisk
    rw [himage, List.getElem?_append_right (by rw [List.length_append]; omega), List.length_append,
      hsect, hpad, show 2560 + i - (512 + 2048) = i by omega]
    exact hc
  · have hi : i < (s.drop minixHeader).length := (List.getElem?_eq_some_iff.1 hc).1
    have h4 : setupSects * 512 = 2048 := rfl
    rw [(hm' w).setup i (by omega)]
    apply hdisk
    rw [himage, List.append_assoc, List.getElem?_append_right (by omega), hsect,
      show 512 + i - 512 = i by omega, List.append_assoc, List.getElem?_append_left hi]
    exact hc

/-- A header of `boot` and of `setup`. -/
def tinyHeader : List Byte := [1, 3, 0x10, 4, 32, 0, 0, 0] ++ List.replicate 24 0

def tinyBoot : List Byte := tinyHeader ++ (List.replicate 510 0 ++ [0x55, 0xAA])

def tinySystem : List Byte := List.replicate 1024 0 ++ [0xEB, 0xFE]

/-- A diskette of 1.44 MB. -/
def tinyDiskette (image : List Byte) : Diskette := ⟨18, fun i => (image[i]?).getD 0⟩

instance (r : Request) (spt : ℕ) : Decidable (r.Fits spt) :=
  decidable_of_iff (r.dx.toNat % 256 = 0 ∧ r.head < 2 ∧ 1 ≤ r.sector ∧ 1 ≤ r.count ∧
      r.sector - 1 + r.count ≤ spt ∧ r.buf % 65536 + 512 * r.count ≤ 65536)
    ⟨fun ⟨h1, h2, h3, h4, h5, h6⟩ => ⟨h1, h2, h3, h4, h5, h6⟩,
      fun h => ⟨h.drive, h.head, h.sector, h.count, h.track, h.segment⟩⟩

/-- It reads that diskette, and the first read fails. -/
def tinyBios (image : List Byte) : Bios where
  read k r m :=
    if r.Fits 18 then
      (place m r.buf (512 * r.count) fun i =>
        if k = 0 then 0xff else (tinyDiskette image).disk (512 * r.lba 18 + i), k = 0)
    else (m, true)
  params := 0x4f12

theorem tinyBios_serves (image : List Byte) : (tinyBios image).Serves (tinyDiskette image) where
  lt_spt := show 5 < 18 by decide
  spt_lt := show 18 < 64 by decide
  params := show ((0x4f12 : Reg) &&& 0xff).toNat = 18 by decide
  reads k r m hr hok i hi := by
    have hread : (tinyBios image).read k r m = _ := if_pos hr
    rw [hread] at hok ⊢
    have hk : k ≠ 0 := of_decide_eq_false hok
    dsimp only
    rw [place_of_in hi, if_neg hk]
    rfl
  keeps k r m hr x hx := by
    have hread : (tinyBios image).read k r m = _ := if_pos hr
    rw [hread]
    dsimp only
    exact place_of_out hx
  tries k := ⟨k + 1, Nat.le_succ k, fun r m hr => by
    have hread : (tinyBios image).read (k + 1) r m = _ := if_pos hr
    rw [hread]
    rfl⟩

set_option maxRecDepth 100000 in
theorem tiny_build : ∃ image,
    build .floppy (some tinyBoot) (some (tinyHeader ++ [0x90])) (some tinySystem) = .ok image :=
  ⟨_, rfl⟩

set_option maxRecDepth 100000 in
/-- The root device is the diskette. -/
theorem boot_loads_tiny : ∃ image s m' N, (∀ fuel, N ≤ fuel →
    load (tinyBios image) fuel (fun x => (tinyDiskette image).disk (x - 0x7c00)) = some s ∧
      boot (tinyBios image) ⟨0, 0, 0, 0, (0, 0, 0), false⟩ fuel
        (fun x => (tinyDiskette image).disk (x - 0x7c00)) = some m') ∧ (∀ r ∈ s.reads, r.Fits 18) ∧
      m' 0 = 0xEB ∧ m' 0x90200 = 0x90 ∧ word m' rootDevAddr = 0x021c := by
  obtain ⟨image, h⟩ := tiny_build
  obtain ⟨setup, system, dev, hs, hy, hdev, N, s, m', hN, hfits, hm'⟩ := boot_loads (tinyBios_serves image)
    ⟨0, 0, 0, 0, (0, 0, 0), false⟩ h (fun i c hc => by unfold tinyDiskette; dsimp only; rw [hc]; rfl)
    (m := fun x => (tinyDiskette image).disk (x - 0x7c00))
    (fun i _ => by rw [Nat.add_sub_cancel_left])
  obtain rfl := Option.some.inj hs
  obtain rfl := Option.some.inj hy
  obtain rfl := Except.ok.inj hdev
  obtain ⟨h1, h2, h3⟩ := hm' 0x021c
  exact ⟨image, s, m' 0x021c, N, hN, hfits, h1 0 _ rfl, h2 0 _ rfl, h3⟩

end Linux011.Boot
