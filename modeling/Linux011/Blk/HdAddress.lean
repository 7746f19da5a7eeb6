import Linux011.Blk.Hd

/-!
# Sectors of the hard disk

The two divisions of `do_hd_request` give the cylinder, the head and the sector of a block, and the
controller puts them together again.

1. `Disks.Valid`: the partitions lie within the disks. `hdOut_block`: what the registers denote.
2. `Request.Sized`, what holds of every request. `Issues`: what a turn of `do_hd_request` comes to.
3. `requests_in_partition`.
-/

namespace Linux011.Hd

open Blk (Cmd)

/-! ## The registers -/

/-- At most 16 heads and 65536 cylinders; `sys_setup` reads the number of sectors from a byte. The
partitions lie within their disk. -/
structure Disks.Valid (d : Disks) : Prop where
  nrHd : d.nrHd ≤ 2
  head : ∀ i < d.nrHd, (d.info i).head.toNat ≤ 16
  sect : ∀ i < d.nrHd, (d.info i).sect.toNat ≤ 255
  cyl : ∀ i < d.nrHd, (d.info i).cyl.toNat ≤ 65536
  within : ∀ m < 5 * d.nrHd, (d.hd m).startSect.toNat + (d.hd m).nrSects.toNat ≤
    (d.info (m / 5)).cyl.toNat * (d.info (m / 5)).head.toNat * (d.info (m / 5)).sect.toNat

/-- The sector with this number, by cylinder, head and sector. -/
structure Info.Denotes (i : Info) (block cyl head sec : ℕ) : Prop where
  cyl_lt : cyl < i.cyl.toNat
  head_lt : head < i.head.toNat
  one_le : 1 ≤ sec
  sec_le : sec ≤ i.sect.toNat
  block_eq : (cyl * i.head.toNat + head) * i.sect.toNat + sec - 1 = block

theorem Info.denotes {i : Info} {block : ℕ}
    (h : block < i.cyl.toNat * i.head.toNat * i.sect.toNat) :
    i.Denotes block (block / i.sect.toNat / i.head.toNat) (block / i.sect.toNat % i.head.toNat)
      (block % i.sect.toNat + 1) := by
  have hsect : 0 < i.sect.toNat := Nat.pos_of_ne_zero fun h0 => by
    rw [h0, Nat.mul_zero] at h
    exact absurd h (Nat.not_lt_zero _)
  have hhead : 0 < i.head.toNat := Nat.pos_of_ne_zero fun h0 => by
    rw [h0, Nat.mul_zero, Nat.zero_mul] at h
    exact absurd h (Nat.not_lt_zero _)
  have htrack : block / i.sect.toNat < i.cyl.toNat * i.head.toNat :=
    (Nat.div_lt_iff_lt_mul hsect).2 h
  refine ⟨(Nat.div_lt_iff_lt_mul hhead).2 htrack, Nat.mod_lt _ hhead,
    Nat.succ_le_succ (Nat.zero_le _), Nat.mod_lt _ hsect, ?_⟩
  calc (block / i.sect.toNat / i.head.toNat * i.head.toNat + block / i.sect.toNat % i.head.toNat) *
        i.sect.toNat + (block % i.sect.toNat + 1) - 1
      = block / i.sect.toNat * i.sect.toNat + block % i.sect.toNat := by
        rw [Nat.div_add_mod', ← Nat.add_assoc, Nat.add_sub_cancel]
    _ = block := Nat.div_add_mod' _ _

/-- The register with the drive and the head. -/
theorem current_drive_head (drive head : Word) (hd : drive.toNat ≤ 1) (hh : head.toNat ≤ 15) :
    ((0xa0 ||| drive <<< 4 ||| head).setWidth 8 : Byte).toNat / 16 % 2 = drive.toNat ∧
      ((0xa0 ||| drive <<< 4 ||| head).setWidth 8 : Byte).toNat % 16 = head.toNat := by
  have hall : ∀ (a : Fin 2) (b : Fin 16),
      ((0xa0 ||| BitVec.ofNat 32 a <<< 4 ||| BitVec.ofNat 32 b).setWidth 8 : Byte).toNat / 16 % 2 = a ∧
        ((0xa0 ||| BitVec.ofNat 32 a <<< 4 ||| BitVec.ofNat 32 b).setWidth 8 : Byte).toNat % 16 = b := by
    decide
  have h := hall ⟨drive.toNat, by omega⟩ ⟨head.toNat, by omega⟩
  simpa only [BitVec.ofNat_toNat, BitVec.setWidth_eq] using h

theorem low_byte (w : Word) (h : w.toNat < 256) : (w.setWidth 8 : Byte).toNat = w.toNat := by
  rw [BitVec.toNat_setWidth]
  exact Nat.mod_eq_of_lt h

theorem two_bytes (w : Word) (h : w.toNat < 65536) :
    ((w >>> 8).setWidth 8 : Byte).toNat * 256 + (w.setWidth 8 : Byte).toNat = w.toNat := by
  rw [BitVec.toNat_setWidth, BitVec.toNat_setWidth, BitVec.toNat_ushiftRight, Nat.shiftRight_eq_div_pow]
  omega

/-- What the registers denote after a command. -/
structure Registers.Denote (g : Registers) (d : Disks) (drive block nsect : ℕ) (cmd : Byte) : Prop where
  drive_eq : g.drive = drive
  chs : (d.info drive).Denotes block g.cyl g.head g.sector.toNat
  nsector_eq : g.nsector.toNat = nsect
  command_eq : g.command = cmd

theorem Registers.Denote.absolute {g : Registers} {d : Disks} {drive block nsect : ℕ} {cmd : Byte}
    (h : g.Denote d drive block nsect cmd) : g.absolute d = block := by
  unfold Registers.absolute
  rw [h.drive_eq]
  exact h.chs.block_eq

/-- The state after a command. -/
def State.commanded (s : State) (g : Registers) (intr : Handler) : State :=
  { s with doHd := some intr, moved := 0, regs := some g }

theorem State.hdOut_eq (d : Disks) (ready : Bool) {drive : Word} (nsect sect head cyl : Word)
    (cmd : Byte) (intr : Handler) (hdrive : drive.toNat ≤ 1) (hhead : head.toNat ≤ 15) :
    ∃ g : Registers, g.command = cmd ∧
      ∀ s : State, s.hdOut d ready drive nsect sect head cyl cmd intr =
        if ready then .ok (s.commanded g intr) else .error .notReady := by
  have hgood : ¬(1 < drive ∨ 15 < head) := by
    rw [not_or]
    exact ⟨by bv_omega, by bv_omega⟩
  refine ⟨⟨(d.info drive.toNat).ctl.setWidth 8, ((d.info drive.toNat).wpcom >>> 2).setWidth 8,
    nsect.setWidth 8, sect.setWidth 8, cyl.setWidth 8, (cyl >>> 8).setWidth 8,
    (0xa0 ||| drive <<< 4 ||| head).setWidth 8, cmd⟩, rfl, fun s => ?_⟩
  unfold State.hdOut
  dsimp only
  rw [if_neg hgood]
  cases ready <;> rfl

/-- `hd_out` for a block of a disk. -/
theorem State.hdOut_block {d : Disks} (ready : Bool) {drive nsect block : Word} (cmd : Byte)
    (intr : Handler) (hd : d.Valid) (hdrive : drive.toNat < d.nrHd) (hn : nsect.toNat < 256)
    (hblock : block.toNat < (d.info drive.toNat).cyl.toNat * (d.info drive.toNat).head.toNat *
      (d.info drive.toNat).sect.toNat) :
    ∃ g : Registers, g.Denote d drive.toNat block.toNat nsect.toNat cmd ∧
      ∀ s : State, s.hdOut d ready drive nsect (block % (d.info drive.toNat).sect + 1)
          (block / (d.info drive.toNat).sect % (d.info drive.toNat).head)
          (block / (d.info drive.toNat).sect / (d.info drive.toNat).head) cmd intr =
        if ready then .ok (s.commanded g intr) else .error .notReady := by
  obtain ⟨i, hi⟩ : ∃ i, i = d.info drive.toNat := ⟨_, rfl⟩
  have hsect := hd.sect _ hdrive
  have hheads := hd.head _ hdrive
  have hcyls := hd.cyl _ hdrive
  rw [← hi] at hblock hsect hheads hcyls ⊢
  have hden := Info.denotes hblock
  obtain ⟨hcyl, hhead, -, hsec, -⟩ := id hden
  -- the words of the code are these numbers
  have hwsec : (block % i.sect + 1).toNat = block.toNat % i.sect.toNat + 1 := by
    rw [BitVec.toNat_add, BitVec.toNat_umod]
    change (_ + 1) % _ = _
    exact Nat.mod_eq_of_lt (by omega)
  have hwhead : (block / i.sect % i.head).toNat = block.toNat / i.sect.toNat % i.head.toNat := by
    rw [BitVec.toNat_umod, BitVec.toNat_udiv]
  have hwcyl : (block / i.sect / i.head).toNat = block.toNat / i.sect.toNat / i.head.toNat := by
    rw [BitVec.toNat_udiv, BitVec.toNat_udiv]
  have hd1 : drive.toNat ≤ 1 := by
    have h2 := hd.nrHd
    omega
  have hgood : ¬(1 < drive ∨ 15 < block / i.sect % i.head) := by
    rw [not_or, BitVec.not_lt, BitVec.not_lt, BitVec.le_def, BitVec.le_def, hwhead]
    exact ⟨hd1, by change _ ≤ 15; omega⟩
  obtain ⟨hgd, hgh⟩ := current_drive_head drive (block / i.sect % i.head) hd1 (by omega)
  refine ⟨⟨(d.info drive.toNat).ctl.setWidth 8, ((d.info drive.toNat).wpcom >>> 2).setWidth 8,
    nsect.setWidth 8, (block % i.sect + 1).setWidth 8, (block / i.sect / i.head).setWidth 8,
    ((block / i.sect / i.head) >>> 8).setWidth 8,
    (0xa0 ||| drive <<< 4 ||| block / i.sect % i.head).setWidth 8, cmd⟩, ⟨hgd, ?_, low_byte _ hn, rfl⟩,
    fun s => ?_⟩
  · have hgcyl := two_bytes (block / i.sect / i.head) (by omega)
    have hgsec := low_byte (block % i.sect + 1) (by omega)
    unfold Registers.cyl Registers.head
    dsimp only
    rw [hgcyl, hgsec, hgh, hwsec, hwhead, hwcyl, ← hi]
    exact hden
  · unfold State.hdOut
    dsimp only
    rw [if_neg hgood]
    cases ready <;> rfl

/-! ## A turn of `do_hd_request` -/

/-- What holds of a request that `make_request` has made, also half way through. -/
structure Request.Sized (r : Request) : Prop where
  major : r.major = 3
  bLock : r.bLock = true
  sector : r.sector.toNat + r.nrSectors.toNat ≤ 2 ^ 31
  nrSectors : r.nrSectors = 1 ∨ r.nrSectors = 2

/-- It passes the test of `do_hd_request`. -/
def Request.Inside (d : Disks) (r : Request) : Prop :=
  r.minor < 5 * d.nrHd ∧ r.sector.toNat + 2 ≤ (d.hd r.minor).nrSects.toNat

instance (d : Disks) (r : Request) : Decidable (r.Inside d) := inferInstanceAs (Decidable (_ ∧ _))

/-- The absolute number of its next sector. -/
def Request.absolute (d : Disks) (r : Request) : ℕ :=
  (d.hd r.minor).startSect.toNat + r.sector.toNat

/-- What a turn of `do_hd_request` comes to for a request that passes the test. -/
inductive Issues (d : Disks) (s : State) (r : Request) (ready drq : Bool) : Except Fault State → Prop
  | notReady : ready = false → Issues d s r ready drq (.error .notReady)
  | resets (g : Registers) (c : Cause) : ready = true → s.reset = some c → g.command = winSpecify →
      Issues d s r ready drq (.ok
        (({ s with reset := none, recalibrate := some c, atRepeat := false }.decideFor r c).commanded g
          .recal))
  | recalibrates (g : Registers) (c : Cause) : ready = true → s.reset = none →
      s.recalibrate = some c → g.command = winRestore →
      Issues d s r ready drq (.ok
        (({ s with recalibrate := none, atRepeat := false }.decideFor r c).commanded g .recal))
  | reads (g : Registers) : ready = true → s.reset = none → s.recalibrate = none → r.cmd = .read →
      g.Denote d (r.minor / 5) (r.absolute d) r.nrSectors.toNat winRead →
      Issues d s r ready drq (.ok ({ s with atRepeat := false }.commanded g .read))
  | writes (g : Registers) : ready = true → s.reset = none → s.recalibrate = none → r.cmd = .write →
      g.Denote d (r.minor / 5) (r.absolute d) r.nrSectors.toNat winWrite → drq = true →
      Issues d s r ready drq (.ok { s.commanded g .write with data := r.buffer, atRepeat := false })
  | refuses (g : Registers) : ready = true → s.reset = none → s.recalibrate = none → r.cmd = .write →
      g.Denote d (r.minor / 5) (r.absolute d) r.nrSectors.toNat winWrite → drq = false →
      Issues d s r ready drq (s.commanded g .write).badRwIntr

section Turn

variable {d : Disks} {s s' : State} {r : Request} {q : List Request} {ready drq : Bool}

theorem Request.Sized.toNat_le (h : r.Sized) : r.nrSectors.toNat ≤ 2 := by
  obtain h | h := h.nrSectors <;> rw [h] <;> decide

theorem Request.Sized.one_le (h : r.Sized) : 1 ≤ r.nrSectors.toNat := by
  obtain h | h := h.nrSectors <;> rw [h] <;> decide

/-- The test of `do_hd_request`. -/
theorem Request.Sized.inside_iff (h : r.Sized) : r.Inside d ↔
    ¬(5 * d.nrHd ≤ r.minor ∨ (d.hd r.minor).nrSects < r.sector + 2) := by
  have hle := h.sector
  have h2 : (r.sector + 2).toNat = r.sector.toNat + 2 := by bv_omega
  rw [not_or, not_le, BitVec.not_lt, BitVec.le_def, h2]
  rfl

theorem doHdRequest_rejects (hr : r.Sized) (hq : s.queue = r :: q) (h : ¬r.Inside d) :
    s.doHdRequest d ready drq = s.endRequest false := by
  unfold State.doHdRequest
  rw [hq]
  dsimp only
  rw [if_neg (not_not.2 hr.major), hr.bLock, if_neg (by decide),
    if_pos (not_not.1 (mt hr.inside_iff.2 h))]

theorem doHdRequest_issues (ready drq : Bool) (hd : d.Valid) (hr : r.Sized) (hq : s.queue = r :: q)
    (h : r.Inside d) :
    Issues d s r ready drq (s.doHdRequest d ready drq) := by
  obtain ⟨hminor, hnr⟩ := id h
  have hdrive : r.minor / 5 < d.nrHd := by omega
  have hdw : (BitVec.ofNat 32 (r.minor / 5)).toNat = r.minor / 5 := by
    have h2 := hd.nrHd
    rw [BitVec.toNat_ofNat]
    exact Nat.mod_eq_of_lt (by omega)
  have hwithin := hd.within _ hminor
  -- no sum is too large for a word
  have hsize : (d.info (r.minor / 5)).cyl.toNat * (d.info (r.minor / 5)).head.toNat *
      (d.info (r.minor / 5)).sect.toNat ≤ 65536 * 16 * 255 :=
    Nat.mul_le_mul (Nat.mul_le_mul (hd.cyl _ hdrive) (hd.head _ hdrive)) (hd.sect _ hdrive)
  have hblock : (r.sector + (d.hd r.minor).startSect).toNat = r.absolute d := by
    unfold Request.absolute
    rw [BitVec.toNat_add, Nat.mod_eq_of_lt (by omega), Nat.add_comm]
  have hpos : 0 < (d.info (r.minor / 5)).cyl.toNat * (d.info (r.minor / 5)).head.toNat *
      (d.info (r.minor / 5)).sect.toNat := by omega
  have hsect : (d.info (r.minor / 5)).sect ≠ 0 := fun h0 => by
    rw [h0] at hpos
    exact absurd hpos (Nat.lt_irrefl _)
  have hhead : (d.info (r.minor / 5)).head ≠ 0 := fun h0 => by
    rw [h0] at hpos
    rw [show (0 : Word).toNat = 0 from rfl, Nat.mul_zero, Nat.zero_mul] at hpos
    exact absurd hpos (Nat.lt_irrefl _)
  have hnsect : r.nrSectors.toNat < 256 := hr.toNat_le.trans_lt (by decide)
  have hlt : (r.sector + (d.hd r.minor).startSect).toNat <
      (d.info (BitVec.ofNat 32 (r.minor / 5)).toNat).cyl.toNat *
        (d.info (BitVec.ofNat 32 (r.minor / 5)).toNat).head.toNat *
        (d.info (BitVec.ofNat 32 (r.minor / 5)).toNat).sect.toNat := by
    rw [hdw, hblock]
    unfold Request.absolute
    omega
  have hdrive' : (BitVec.ofNat 32 (r.minor / 5)).toNat < d.nrHd := hdw.le.trans_lt hdrive
  have hone : (BitVec.ofNat 32 (r.minor / 5)).toNat ≤ 1 := by
    have h2 := hd.nrHd
    omega
  have hle : ((d.info (BitVec.ofNat 32 (r.minor / 5)).toNat).head - 1).toNat ≤ 15 := by
    have h16 := hd.head _ hdrive
    rw [hdw]
    bv_omega
  obtain ⟨queue, reset, recalibrate, doHd, atRepeat, regs, moved, data, added, ended, decided⟩ := s
  cases hq
  unfold State.doHdRequest
  dsimp only
  rw [if_neg (not_not.2 hr.major), hr.bLock, if_neg (by decide), if_neg (hr.inside_iff.1 h),
    if_neg (not_or.2 ⟨hsect, hhead⟩)]
  cases reset with
  | some c =>
    obtain ⟨g, hg, heq⟩ := State.hdOut_eq d ready
      (d.info (BitVec.ofNat 32 (r.minor / 5)).toNat).sect
      (d.info (BitVec.ofNat 32 (r.minor / 5)).toNat).sect
      ((d.info (BitVec.ofNat 32 (r.minor / 5)).toNat).head - 1)
      (d.info (BitVec.ofNat 32 (r.minor / 5)).toNat).cyl winSpecify .recal hone hle
    unfold State.resetHd
    dsimp only
    rw [heq]
    cases ready
    · exact .notReady rfl
    · exact .resets g c rfl rfl hg
  | none =>
    cases recalibrate with
    | some c =>
      obtain ⟨g, hg, heq⟩ := State.hdOut_eq d ready (d.info (r.minor / 5)).sect 0 0 0
        winRestore .recal hone (by decide)
      dsimp only
      rw [heq]
      cases ready
      · exact .notReady rfl
      · exact .recalibrates g c rfl rfl rfl hg
    | none =>
      cases hcmd : r.cmd with
      | write =>
        obtain ⟨g, hg, heq⟩ := State.hdOut_block ready winWrite .write hd hdrive' hnsect hlt
        rw [hdw] at heq hg
        rw [hblock] at hg
        dsimp only
        rw [heq]
        cases ready
        · exact .notReady rfl
        cases drq
        · exact .refuses g rfl rfl rfl hcmd hg rfl
        · exact .writes g rfl rfl rfl hcmd hg rfl
      | read =>
        obtain ⟨g, hg, heq⟩ := State.hdOut_block ready winRead .read hd hdrive' hnsect hlt
        rw [hdw] at heq hg
        rw [hblock] at hg
        dsimp only
        rw [heq]
        cases ready
        · exact .notReady rfl
        · exact .reads g rfl rfl rfl hcmd hg

/-! ## What a step does -/

theorem endRequest_ok {b : Bool} (hs : s.endRequest b = .ok s') :
    ∃ r q, s.queue = r :: q ∧ s' = { s with queue := q, ended := s.ended ++ [(r, b)] } := by
  unfold State.endRequest at hs
  split at hs
  · cases hs
  next r q hq =>
  cases hs
  exact ⟨r, q, hq, rfl⟩

/-- What `bad_rw_intr` does to the queue and to `reset`. -/
theorem badRwIntr_ok (hs : s.badRwIntr = .ok s') : ∃ r q, s.queue = r :: q ∧
    (r.errors + 1 < maxErrors ∧ s' = { s with
        queue := r.fail :: q
        reset := if maxErrors / 2 < r.errors + 1 then some (.errors r.id) else s.reset } ∨
      maxErrors ≤ r.errors + 1 ∧ ∃ c q', q = c :: q' ∧ s' = { s with
        queue := q
        ended := s.ended ++ [(r.fail, false)]
        reset := if maxErrors / 2 < c.errors then some (.errors r.id) else s.reset }) := by
  obtain ⟨queue, reset, recalibrate, doHd, atRepeat, regs, moved, data, added, ended, decided⟩ := s
  cases queue with
  | nil => cases hs
  | cons r q =>
    refine ⟨r, q, rfl, ?_⟩
    unfold State.badRwIntr at hs
    dsimp only at hs
    by_cases hmax : maxErrors ≤ r.fail.errors
    · rw [if_pos hmax] at hs
      cases q with
      | nil => cases hs
      | cons c q' =>
        refine .inr ⟨hmax, c, q', rfl, ?_⟩
        cases hs
        dsimp only
        split <;> rfl
    · rw [if_neg hmax] at hs
      refine .inl ⟨not_le.1 hmax, ?_⟩
      cases hs
      dsimp only
      split
      · next h => rw [if_pos (show maxErrors / 2 < r.errors + 1 from h)]
      · next h => rw [if_neg (show ¬maxErrors / 2 < r.errors + 1 from h)]

/-- `bad_rw_intr` only fails on a null `CURRENT`. -/
theorem badRwIntr_error {f : Fault} (hs : s.badRwIntr = .error f) : f = .null := by
  obtain ⟨queue, reset, recalibrate, doHd, atRepeat, regs, moved, data, added, ended, decided⟩ := s
  cases queue with
  | nil => cases hs; rfl
  | cons r q =>
    unfold State.badRwIntr at hs
    dsimp only at hs
    by_cases hmax : maxErrors ≤ r.fail.errors
    · rw [if_pos hmax] at hs
      cases q with
      | nil => cases hs; rfl
      | cons c q' => cases hs
    · rw [if_neg hmax] at hs
      cases hs

end Turn

/-- What an interrupt does. -/
inductive Interrupts (d : Disks) (s : State) : Bool → State → Prop
  | unexpected {ok : Bool} : s.doHd = none → Interrupts d s ok { s with doHd := none }
  | recal : s.doHd = some .recal → Interrupts d s true { s with doHd := none, atRepeat := true }
  | error {h : Handler} {t : State} : s.doHd = some h →
      { s with doHd := none }.badRwIntr = .ok t → Interrupts d s false { t with atRepeat := true }
  | reads {r : Request} {q : List Request} : s.doHd = some .read → s.queue = r :: q →
      r.nrSectors - 1 ≠ (0 : Word) → Interrupts d s true { s with
        doHd := some .read
        queue := r.read (s.transfer d .read r.buffer) :: q
        moved := s.moved + 1 }
  | read {r : Request} {q : List Request} : s.doHd = some .read → s.queue = r :: q →
      r.nrSectors - 1 = (0 : Word) → Interrupts d s true { s with
        doHd := none
        queue := q
        moved := s.moved + 1
        ended := s.ended ++ [(r.read (s.transfer d .read r.buffer), true)]
        atRepeat := true }
  | writes {r : Request} {q : List Request} : s.doHd = some .write → s.queue = r :: q →
      r.nrSectors - 1 ≠ (0 : Word) → Interrupts d s true { s with
        doHd := some .write
        queue := (r.wrote (s.transfer d .write s.data)).forth :: q
        moved := s.moved + 1
        data := r.buffer + 512 }
  | wrote {r : Request} {q : List Request} : s.doHd = some .write → s.queue = r :: q →
      r.nrSectors - 1 = (0 : Word) → Interrupts d s true { s with
        doHd := none
        queue := q
        moved := s.moved + 1
        ended := s.ended ++ [(r.wrote (s.transfer d .write s.data), true)]
        atRepeat := true }

/-- The handlers begin alike. -/
theorem bind_atRepeat {x : Except Fault State} {s' : State}
    (h : (do let s ← x; pure { s with atRepeat := true }) = .ok s') :
    ∃ t, x = .ok t ∧ s' = { t with atRepeat := true } := by
  cases x with
  | error f => cases h
  | ok t => cases h; exact ⟨t, rfl, rfl⟩

theorem interrupt_ok {d : Disks} {s s' : State} {ok : Bool} (hs : s.interrupt d ok = .ok s') :
    Interrupts d s ok s' := by
  unfold State.interrupt at hs
  dsimp only at hs
  cases hdo : s.doHd with
  | none =>
    rw [hdo] at hs
    cases hs
    exact .unexpected hdo
  | some h =>
    rw [hdo] at hs
    cases ok with
    | false =>
      obtain ⟨t, ht, rfl⟩ : ∃ t, { s with doHd := none }.badRwIntr = .ok t ∧
          s' = { t with atRepeat := true } := by
        cases h <;> exact bind_atRepeat hs
      exact .error hdo ht
    | true =>
      cases h with
      | recal =>
        cases hs
        exact .recal hdo
      | read =>
        obtain ⟨queue, reset, recalibrate, doHd, atRepeat, regs, moved, data, added, ended, decided⟩ := s
        cases queue with
        | nil => cases hs
        | cons r q =>
          unfold State.readIntr at hs
          dsimp only [Bool.not_true] at hs
          rw [if_neg (by decide)] at hs
          split at hs
          · next hn =>
            cases hs
            exact .reads hdo rfl hn
          · next hn =>
            obtain ⟨t, ht, rfl⟩ := bind_atRepeat hs
            cases ht
            exact .read hdo rfl (not_not.1 hn)
      | write =>
        obtain ⟨queue, reset, recalibrate, doHd, atRepeat, regs, moved, data, added, ended, decided⟩ := s
        cases queue with
        | nil => cases hs
        | cons r q =>
          unfold State.writeIntr at hs
          dsimp only [Bool.not_true] at hs
          rw [if_neg (by decide)] at hs
          split at hs
          · next hn =>
            cases hs
            exact .writes hdo rfl hn
          · next hn =>
            obtain ⟨t, ht, rfl⟩ := bind_atRepeat hs
            cases ht
            exact .wrote hdo rfl (not_not.1 hn)

/-- What a turn does to a queue of sized requests. -/
theorem turn_ok {d : Disks} {s s' : State} {ready drq : Bool} (hd : d.Valid)
    (h : ∀ r ∈ s.queue, r.Sized) (hs : s.doHdRequest d ready drq = .ok s') :
    s.queue = [] ∧ s' = { s with atRepeat := false } ∨ ∃ r q, s.queue = r :: q ∧
      (¬r.Inside d ∧ s' = { s with queue := q, ended := s.ended ++ [(r, false)] } ∨
        r.Inside d ∧ Issues d s r ready drq (.ok s')) := by
  cases hq : s.queue with
  | nil =>
    refine .inl ⟨rfl, ?_⟩
    unfold State.doHdRequest at hs
    rw [hq] at hs
    cases hs
    rfl
  | cons r q =>
    have hr : r.Sized := h r (hq ▸ List.mem_cons_self)
    refine .inr ⟨r, q, rfl, ?_⟩
    by_cases hin : r.Inside d
    · exact .inr ⟨hin, hs ▸ doHdRequest_issues ready drq hd hr hq hin⟩
    · rw [doHdRequest_rejects hr hq hin] at hs
      obtain ⟨r', q', hq', rfl⟩ := endRequest_ok hs
      cases hq.symm.trans hq'
      exact .inl ⟨hin, rfl⟩

/-! ## Every request is sized -/

/-- The requests are for blocks below 2^30. -/
def State.Small (_ : State) : Event → Prop
  | .add _ _ block _ _ => block.toNat < 2 ^ 30
  | _ => True

instance (s : State) (e : Event) : Decidable (s.Small e) := by
  cases e <;> unfold State.Small <;> infer_instance

section Sized

variable {d : Disks} {s s' : State} {r : Request} {q : List Request} {e : Event}

theorem Request.Sized.fail (h : r.Sized) : r.fail.Sized :=
  ⟨h.major, h.bLock, h.sector, h.nrSectors⟩

theorem Request.Sized.sub_one (h : r.Sized) (hn : r.nrSectors - 1 ≠ 0) :
    r.nrSectors = 2 ∧ r.nrSectors - 1 = 1 := by
  obtain h1 | h2 := h.nrSectors
  · exact absurd (by rw [h1]; decide) hn
  · exact ⟨h2, by rw [h2]; decide⟩

theorem Request.Sized.sector_succ (h : r.Sized) : (r.sector + 1).toNat = r.sector.toNat + 1 := by
  have hle := h.sector
  bv_omega

theorem Request.Sized.read (ts : List Transfer) (h : r.Sized) (hn : r.nrSectors - 1 ≠ 0) :
    (r.read ts).Sized := by
  obtain ⟨h2, h1⟩ := h.sub_one hn
  have hle := h.sector
  refine ⟨h.major, h.bLock, ?_, .inl h1⟩
  change (r.sector + 1).toNat + (r.nrSectors - 1).toNat ≤ _
  rw [h1, h.sector_succ]
  rw [h2] at hle
  exact hle

theorem Request.Sized.wrote {ts : List Transfer} (h : r.Sized) (hn : r.nrSectors - 1 ≠ 0) :
    (r.wrote ts).forth.Sized :=
  ⟨h.major, h.bLock, (Request.Sized.read ts h hn).sector, (Request.Sized.read ts h hn).nrSectors⟩

theorem made_sized {minor : Byte} {cmd : Cmd} {block buffer : Word} (h : block.toNat < 2 ^ 30) :
    (s.made minor cmd block buffer).Sized := by
  refine ⟨?_, rfl, ?_, .inr rfl⟩
  · have hall : ∀ m : Byte, (0x0300 ||| m.setWidth 16 : BitVec 16).toNat / 256 = 3 := by decide
    exact hall minor
  · change (block <<< 1).toNat + 2 ≤ _
    rw [BitVec.toNat_shiftLeft, Nat.shiftLeft_eq]
    omega

theorem mem_add {minor : Byte} {cmd : Cmd} {block buffer : Word} {k : ℕ}
    (h : r ∈ (s.add minor cmd block buffer k).queue) :
    r = s.made minor cmd block buffer ∨ r ∈ s.queue := by
  unfold State.add at h
  dsimp only at h
  split at h
  · exact .inl (List.mem_singleton.1 h)
  next c q hq =>
  rw [hq]
  dsimp only at h
  rcases List.mem_cons.1 h with rfl | h
  · exact .inr List.mem_cons_self
  rcases List.mem_append.1 h with h | h
  · exact .inr (List.mem_cons_of_mem _ (List.mem_of_mem_take h))
  rcases List.mem_cons.1 h with rfl | h
  · exact .inl rfl
  · exact .inr (List.mem_cons_of_mem _ (List.mem_of_mem_drop h))

theorem badRwIntr_sized (h : ∀ r ∈ s.queue, r.Sized) (hs : s.badRwIntr = .ok s') :
    ∀ r ∈ s'.queue, r.Sized := by
  obtain ⟨r, q, hq, ⟨-, rfl⟩ | ⟨-, c, q', rfl, rfl⟩⟩ := badRwIntr_ok hs
  all_goals
    rw [hq] at h
    obtain ⟨hr, hall⟩ := List.forall_mem_cons.1 h
  · exact List.forall_mem_cons.2 ⟨hr.fail, hall⟩
  · exact hall

theorem sized_interrupt {ok : Bool} (h : ∀ r ∈ s.queue, r.Sized) (hs : s.interrupt d ok = .ok s') :
    ∀ r ∈ s'.queue, r.Sized := by
  cases interrupt_ok hs with
  | unexpected => exact h
  | recal => exact h
  | error _ ht =>
    have := badRwIntr_sized (s := { s with doHd := none }) h ht
    exact this
  | reads _ hq hn =>
    rw [hq] at h
    obtain ⟨hr, hall⟩ := List.forall_mem_cons.1 h
    exact List.forall_mem_cons.2 ⟨hr.read _ hn, hall⟩
  | writes _ hq hn =>
    rw [hq] at h
    obtain ⟨hr, hall⟩ := List.forall_mem_cons.1 h
    exact List.forall_mem_cons.2 ⟨hr.wrote hn, hall⟩
  | read _ hq _ =>
    rw [hq] at h
    exact (List.forall_mem_cons.1 h).2
  | wrote _ hq _ =>
    rw [hq] at h
    exact (List.forall_mem_cons.1 h).2

theorem sized_turn {ready drq : Bool} (hd : d.Valid) (h : ∀ r ∈ s.queue, r.Sized)
    (hs : s.doHdRequest d ready drq = .ok s') : ∀ r ∈ s'.queue, r.Sized := by
  obtain ⟨-, rfl⟩ | ⟨r, q, hq, ⟨-, rfl⟩ | ⟨-, hi⟩⟩ := turn_ok hd h hs
  · exact h
  · rw [hq] at h
    exact (List.forall_mem_cons.1 h).2
  · obtain ⟨o, ho⟩ : ∃ o, o = Except.ok s' := ⟨_, rfl⟩
    rw [← ho] at hi
    cases hi with
    | notReady => cases ho
    | resets => cases ho; exact h
    | recalibrates => cases ho; exact h
    | reads => cases ho; exact h
    | writes => cases ho; exact h
    | refuses g => exact badRwIntr_sized (s := s.commanded g .write) h ho

theorem sized_next (hd : d.Valid) (h : ∀ r ∈ s.queue, r.Sized) (hok : s.Small e)
    (hs : s.next d e = some (.ok s')) : ∀ r ∈ s'.queue, r.Sized := by
  obtain ⟨minor, cmd, block, buffer, k, rfl, -, hx⟩ | ⟨ready, drq, rfl, -, hx⟩ |
    ⟨ok, rfl, -, hx⟩ := State.next_cases hs
  · cases hx
    intro r hr
    obtain rfl | hr := mem_add hr
    · exact made_sized hok
    · exact h r hr
  · exact sized_turn hd h hx
  · exact sized_interrupt h hx

theorem reachable_sized (hd : d.Valid) (h : (disk d).ReachableWhen State.Small s) :
    ∀ r ∈ s.queue, r.Sized := by
  refine h.invariant (I := fun s => ∀ r ∈ s.queue, r.Sized) ?_ ?_
  · rintro s rfl r hr
    cases hr
  · intro s e s' hI hok hs
    exact sized_next hd hI hok hs

end Sized

/-! ## Requests stay in their partition -/

/-- In every state reached, `do_hd_request` rejects the request or issues it within its partition, and
it does not divide by zero. -/
theorem requests_in_partition {d : Disks} {s : State} {r : Request} {q : List Request} (hd : d.Valid)
    (h : (disk d).ReachableWhen State.Small s) (hq : s.queue = r :: q) (ready drq : Bool) :
    (s.doHdRequest d ready drq = .ok { s with queue := q, ended := s.ended ++ [(r, false)] } ∨
      Issues d s r ready drq (s.doHdRequest d ready drq) ∧ r.minor < 5 * d.nrHd ∧
        (d.hd r.minor).startSect.toNat ≤ r.absolute d ∧
        r.absolute d + r.nrSectors.toNat ≤
          (d.hd r.minor).startSect.toNat + (d.hd r.minor).nrSects.toNat) ∧
      ∀ f, s.doHdRequest d ready drq = .error f → f = .notReady ∨ f = .null := by
  have hr : r.Sized := reachable_sized hd h r (hq ▸ List.mem_cons_self)
  by_cases hin : r.Inside d
  · have hi := doHdRequest_issues ready drq hd hr hq hin
    have hle := hr.toNat_le
    obtain ⟨hminor, hnr⟩ := hin
    refine ⟨.inr ⟨hi, hminor, Nat.le_add_right _ _, ?_⟩, fun f hf => ?_⟩
    · unfold Request.absolute
      omega
    rw [hf] at hi
    obtain ⟨o, ho⟩ : ∃ o, o = Except.error (ε := Fault) (α := State) f := ⟨_, rfl⟩
    rw [← ho] at hi
    cases hi with
    | notReady => cases ho; exact .inl rfl
    | refuses g => exact .inr (badRwIntr_error ho)
    | resets => cases ho
    | recalibrates => cases ho
    | reads => cases ho
    | writes => cases ho
  · have he : s.endRequest false = .ok { s with queue := q, ended := s.ended ++ [(r, false)] } := by
      unfold State.endRequest
      rw [hq]
    rw [doHdRequest_rejects hr hq hin, he]
    exact ⟨.inl rfl, fun f hf => by cases hf⟩

/-- A disk of 80 sectors, with a partition of 8. -/
def smallDisk : Disks where
  nrHd := 1
  info _ := ⟨2, 4, 10, 0, 8⟩
  hd m := if m = 0 then ⟨0, 80⟩ else if m = 1 then ⟨4, 8⟩ else ⟨0, 0⟩

theorem smallDisk_valid : smallDisk.Valid where
  nrHd := by decide
  head := by decide
  sect := by decide
  cyl := by decide
  within := by decide

/-- The disk is reset and recalibrates; then the last block of the partition is to be read, sectors 10 and
11 of the disk. -/
theorem requests_in_partition_small : ∃ s r, (disk smallDisk).ReachableWhen State.Small s ∧
    s.queue = [r] ∧
    (∃ s' g, s.doHdRequest smallDisk true true = .ok s' ∧ s'.regs = some g ∧
      g.absolute smallDisk = 10 ∧ g.command = winRead) ∧ ∀ ready drq,
      (s.doHdRequest smallDisk ready drq = .ok { s with queue := [], ended := s.ended ++ [(r, false)] } ∨
        Issues smallDisk s r ready drq (s.doHdRequest smallDisk ready drq) ∧
          r.minor < 5 * smallDisk.nrHd ∧ (smallDisk.hd r.minor).startSect.toNat ≤ r.absolute smallDisk ∧
          r.absolute smallDisk + r.nrSectors.toNat ≤
            (smallDisk.hd r.minor).startSect.toNat + (smallDisk.hd r.minor).nrSects.toNat) ∧
        ∀ f, s.doHdRequest smallDisk ready drq = .error f → f = .notReady ∨ f = .null := by
  have hrun : (System.execWhen (State.go smallDisk) State.Small .boot
      (.add 1 .read 3 0 0 :: (List.replicate 2 [.turn true true, .interrupt true]).flatten)).any (fun s =>
        s.atRepeat && s.queue.length == 1 && (s.go smallDisk (.turn true true)).any fun s' =>
          s'.regs.any fun g => g.absolute smallDisk == 10 && g.command == winRead) = true := by
    decide +kernel
  obtain ⟨s, hs, hP⟩ := exec_any hrun
  simp only [Bool.and_eq_true, beq_iff_eq, Option.any_eq_true] at hP
  obtain ⟨⟨hrep, hlen⟩, s', hgo, g, hg, habs, hcmd⟩ := hP
  obtain ⟨r, hq⟩ := List.length_eq_one_iff.1 hlen
  have hturn : s.doHdRequest smallDisk true true = .ok s' := by
    have hnext := next_of_go hgo
    dsimp only [State.next] at hnext
    rw [if_pos hrep] at hnext
    exact Option.some.inj hnext
  exact ⟨s, r, hs, hq, ⟨s', g, hturn, hg, habs, hcmd⟩, requests_in_partition smallDisk_valid hs hq⟩

end Linux011.Hd
