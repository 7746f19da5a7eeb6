import Linux011.Fs.Entries
import Linux011.Fs.FreeZones
import Linux011.Lib.Transition
import Mathlib.Data.List.GetD

/-!
# A file is an array of bytes

`file_read` and `file_write` of `fs/file_dev.c`, below `lseek`, `read` and `write` of
`fs/read_write.c`, on the regular files and directories of a volume that can be read. A call is one
step: the user memory it names is present, so `get_fs_byte` and `put_fs_byte` do not fault, and nobody
comes between the mark of a buffer and its bytes.

1. `writeLoop`, `readLoop`.
2. `Volume.contents`: the bytes of a file. `Pads`: what `create_block` does to the places leaves them
alone, as a new block is zero.
3. `writeLoop_spec`, `readLoop_spec`.
4. `files`: the calls on open files; `Arrays`: arrays in their place.
5. `step_arrays`, `files_are_arrays`.
-/

namespace Linux011.Zones

open Linux011.Fs (Byte Contents)

/-- The bytes in front of the first block that is too big for `_bmap`. -/
def maxSize : ℕ := (7 + 512 + 512 * 512) * 1024

namespace Volume

/-! ## `file_write` and `file_read` -/

/-- `*(p++) = get_fs_byte(buf++)`, from offset `off` of the block on. As no fault comes between, the block
and its buffer are one here. -/
def copyIn (z : ℕ) : ℕ → List Byte → Volume → Volume
  | _, [], v => v
  | off, b :: bs, v => copyIn z (off + 1) bs (v.setByte z off b)

/-- The loop of `file_write` on the bytes that are left, and how many it writes; `none` if `_bmap`
panics. -/
def writeLoop (nr : ℕ) : ℕ → ℕ → List Byte → Volume → Option (Volume × ℕ)
  | 0, _, bs, v => if bs = [] then some (v, 0) else none
  | n + 1, pos, bs, v =>
    if bs = [] then some (v, 0)
    else match Dir.createBlock ⟨v, nr, fun _ _ => true⟩ (pos / 1024) with
      | .error _ => none
      | .ok ((block, _), d) =>
        if block = 0 then some (d.vol, 0)
        else
          let c := if 1024 - pos % 1024 > bs.length then bs.length else 1024 - pos % 1024
          let v := if pos + c > (d.vol.inode nr).iSize then d.vol.setSize nr (pos + c) else d.vol
          (writeLoop nr n (pos + c) (bs.drop c) (copyIn block (pos % 1024) (bs.take c) v)).map
            fun r => (r.1, c + r.2)

/-- The loop of `file_read`. -/
def readLoop (v : Volume) (nr : ℕ) : ℕ → ℕ → ℕ → Option (List Byte)
  | 0, _, left => if left = 0 then some [] else none
  | n + 1, pos, left =>
    if left = 0 then some []
    else match v.bmap nr (pos / 1024) with
      | none => none
      | some z =>
        let chars := min (1024 - pos % 1024) left
        (readLoop v nr n (pos + chars) (left - chars)).map fun rest =>
          (List.range chars).map (fun k => if z = 0 then 0 else v.data z (pos % 1024 + k)) ++ rest

/-! ## Bytes of a file -/

variable {v v' v'' : Volume} {nr nr' off z n pos : ℕ} {a c : Addr} {b : Byte}

/-- The block of the file that is kept at the place is there. -/
def Backed (v : Volume) (a : Addr) : Prop := v.Holds a ∧ a.zone v ≠ 0

theorem walk_live {ks : List ℕ} (ha : a.Live v) (h : v.walk (a.slot v) ks ≠ 0) :
    (a.extend ks).Live v ∧ (a.extend ks).zone v ≠ 0 := by
  induction ks generalizing a with
  | nil => exact ⟨ha, h⟩
  | cons k ks ih =>
    unfold walk at h
    split_ifs at h with hz
    · exact absurd rfl h
    · exact ih (a := a.child k) ⟨ha, hz⟩ h

theorem exists_blockAddr (nr : ℕ) (h : off < maxSize) : ∃ a, blockAddr nr (off / 1024) = some a := by
  unfold blockAddr
  cases hp : bmapPath (off / 1024) with
  | some p => exact ⟨_, rfl⟩
  | none =>
    have hbig := Dir.bmapPath_none.1 hp
    unfold maxSize at h
    omega

/-- A byte of a block that is there is read from it. -/
theorem readByte_backed (haddr : blockAddr nr (off / 1024) = some a) (h : v.Backed a) :
    v.readByte nr off = some (v.data (a.zone v) (off % 1024)) :=
  Has.readByte ⟨haddr, h.1, h.2, rfl⟩

/-- A byte of a block that is not there is zero. -/
theorem readByte_bare (hfile : (v.inode nr).isFile = true)
    (haddr : blockAddr nr (off / 1024) = some a) (h : ¬ v.Backed a) : v.readByte nr off = some 0 := by
  obtain ⟨hvalid, hnr, -⟩ := blockAddr_spec haddr
  unfold blockAddr at haddr
  obtain ⟨p, hp, rfl⟩ := Option.map_eq_some_iff.1 haddr
  have hwalk : v.walk (.zone nr p.1) p.2 = 0 := by
    by_contra hne
    obtain ⟨hlive, hzone⟩ := walk_live (a := .root nr p.1) trivial hne
    exact h ⟨⟨by rw [hnr]; exact hfile, hvalid, hlive⟩, hzone⟩
  unfold readByte bmap
  rw [hp]
  simp only [Option.map_some, hwalk, if_pos]

/-- A file reads the same in two volumes with the same zones and data in its block. -/
theorem readByte_congr (hfile : (v.inode nr).isFile = true) (hfile' : (v'.inode nr).isFile = true)
    (haddr : blockAddr nr (off / 1024) = some a) (hback : v'.Backed a ↔ v.Backed a)
    (hbyte : v.Backed a → v'.data (a.zone v') (off % 1024) = v.data (a.zone v) (off % 1024)) :
    v'.readByte nr off = v.readByte nr off := by
  by_cases h : v.Backed a
  · rw [readByte_backed haddr h, readByte_backed haddr (hback.2 h), hbyte h]
  · rw [readByte_bare hfile haddr h, readByte_bare hfile' haddr fun h' => h (hback.1 h')]

/-- The size and the bytes of a file. -/
def contents (v : Volume) (nr : ℕ) : Contents :=
  if (v.inode nr).isFile then ⟨(v.inode nr).iSize, fun off => (v.readByte nr off).getD 0⟩
  else ⟨0, fun _ => 0⟩

theorem contents_file (h : (v.inode nr).isFile = true) :
    v.contents nr = ⟨(v.inode nr).iSize, fun off => (v.readByte nr off).getD 0⟩ := if_pos h

theorem readByte_big (h : maxSize ≤ off) : v.readByte nr off = none := by
  have hp : bmapPath (off / 1024) = none := by
    rw [Dir.bmapPath_none]
    unfold maxSize at h
    omega
  unfold readByte bmap
  rw [hp]
  rfl

theorem contents_congr (hfile : (v'.inode nr).isFile = (v.inode nr).isFile)
    (hsize : (v'.inode nr).iSize = (v.inode nr).iSize)
    (hread : (v.inode nr).isFile = true → ∀ off < maxSize, v'.readByte nr off = v.readByte nr off) :
    v'.contents nr = v.contents nr := by
  unfold contents
  rw [hfile]
  split_ifs with h
  · rw [hsize]
    refine congrArg _ (funext fun off => ?_)
    by_cases hoff : off < maxSize
    · rw [hread h off hoff]
    · rw [readByte_big (not_lt.1 hoff), readByte_big (not_lt.1 hoff)]
  · rfl

/-! ## `create_block` -/

/-- Places are added, and the new data blocks are zero. -/
structure Pads (v v' : Volume) : Prop where
  holds : ∀ a, v.Holds a → v'.Holds a
  zone : ∀ a, v.Holds a → a.zone v ≠ 0 → a.zone v' = a.zone v
  data : ∀ a, v.Backed a → a.depth = a.levels → v'.data (a.zone v) = v.data (a.zone v)
  new : ∀ a, v'.Backed a → a.depth = a.levels → v.Backed a ∨ ∀ off, v'.data (a.zone v') off = 0

theorem Pads.refl : v.Pads v := ⟨fun _ h => h, fun _ _ _ => rfl, fun _ _ _ => rfl, fun _ h _ => .inl h⟩

theorem Pads.backed (h : v.Pads v') (ha : v.Backed a) : v'.Backed a :=
  ⟨h.holds a ha.1, by rw [h.zone a ha.1 ha.2]; exact ha.2⟩

theorem Pads.trans (h₁ : v.Pads v') (h₂ : v'.Pads v'') : v.Pads v'' where
  holds a ha := h₂.holds a (h₁.holds a ha)
  zone a ha hz := by
    have hz' := h₁.zone a ha hz
    rw [h₂.zone a (h₁.holds a ha) (hz' ▸ hz), hz']
  data a ha hleaf := by
    have hd := h₂.data a (h₁.backed ha) hleaf
    rw [h₁.zone a ha.1 ha.2] at hd
    rw [hd, h₁.data a ha hleaf]
  new a ha hleaf := by
    rcases h₂.new a ha hleaf with hb | hzero
    · rcases h₁.new a hb hleaf with hb' | hzero
      · exact .inl hb'
      · refine .inr fun off => ?_
        rw [h₂.zone a hb.1 hb.2, h₂.data a hb hleaf, hzero]
    · exact .inr hzero

theorem Same.pads (h : v.Same v') (hdata : v'.data = v.data) : v.Pads v' where
  holds a ha := (h.holds a).2 ha
  zone a ha _ := (h.zone a ha).2
  data _ _ _ := by rw [hdata]
  new a ha _ := by
    have hold := (h.holds a).1 ha.1
    exact .inl ⟨hold, (h.zone a hold).2 ▸ ha.2⟩

theorem Sound.install_pads (hv : v.Sound) (ha : v.Holds a) (ha0 : a.zone v = 0) (hz : v.Fresh z) :
    v.Pads (v.install (a.slot v) z) where
  holds c hc := (install_holds hv ha ha0 hz hc).1
  zone c hc hc0 := (hv.install_grows ha ha0 hz).zone c hc hc0
  data c hc hleaf := by
    have hne : c.zone v ≠ z := hz.unused c hc.1
    unfold Volume.install
    rw [set_data_of_not_in (hv.not_in_leaf ha hc.1 hleaf)]
    exact Function.update_of_ne hne _ _
  new c hc hleaf := by
    rcases holds_install hv ha hz hc.1 with ⟨hc', -, hzone⟩ | ⟨k, -, hzero⟩
    · by_cases hca : c = a
      · -- the new block, which no slot is in
        rw [if_pos hca] at hzone
        refine .inr fun off => ?_
        rw [hzone]
        unfold Volume.install
        rw [set_data_of_not_in (ha.not_in hz)]
        show Function.update v.data z _ z off = 0
        rw [Function.update_self]
      · rw [if_neg hca] at hzone
        exact .inl ⟨hc', hzone ▸ hc.2⟩
    · exact absurd hzero hc.2

theorem Pads.readByte (h : v.Pads v') (hfile : (v.inode nr).isFile = true)
    (hfile' : (v'.inode nr).isFile = true) (hoff : off < maxSize) :
    v'.readByte nr off = v.readByte nr off := by
  obtain ⟨a, haddr⟩ := exists_blockAddr nr hoff
  obtain ⟨-, -, hleaf, -⟩ := blockAddr_spec haddr
  by_cases hb : v.Backed a
  · rw [readByte_backed haddr hb, readByte_backed haddr (h.backed hb), h.zone a hb.1 hb.2,
      h.data a hb hleaf]
  · rw [readByte_bare hfile haddr hb]
    by_cases hb' : v'.Backed a
    · rw [readByte_backed haddr hb', ((h.new a hb' hleaf).resolve_left hb) _]
    · exact readByte_bare hfile' haddr hb'

/-! ## No zone left -/

theorem firstZero_low (map : ℕ → Bool) {n j i : ℕ} (hi : j ≤ i) (hlt : i < firstZero map n j) :
    map i = true := by
  induction n generalizing j with
  | zero => exact absurd hlt (not_lt.2 hi)
  | succ n ih =>
    unfold firstZero at hlt
    split_ifs at hlt with hj
    · rcases Nat.lt_or_eq_of_le hi with hi | rfl
      · exact ih hi hlt
      · exact hj
    · exact absurd hlt (not_lt.2 hi)

theorem searchZmap_ge {n i k : ℕ} (h : v.searchZmap n i = some k) : i < v.zmapBlocks ∧ i * 8192 ≤ k := by
  induction n generalizing i with
  | zero => cases h
  | succ n ih =>
    unfold searchZmap at h
    dsimp only at h
    split_ifs at h with hi
    · obtain rfl := Option.some.inj h
      exact ⟨hi.1, Nat.le_add_right _ _⟩
    · have := ih h
      omega

/-- `new_block` finds the first bit that is clear. -/
theorem searchZmap_low {n i k l : ℕ} (h : v.searchZmap n i = some k) (hl : i * 8192 ≤ l) (hlt : l < k) :
    v.zmap l = true := by
  induction n generalizing i with
  | zero => cases h
  | succ n ih =>
    unfold searchZmap at h
    dsimp only at h
    have hlow : ∀ l < findFirstZero (fun j => v.zmap (i * 8192 + j)), v.zmap (i * 8192 + l) = true :=
      fun l hl => firstZero_low (fun j => v.zmap (i * 8192 + j)) (Nat.zero_le l) hl
    split_ifs at h with hi
    · obtain rfl := Option.some.inj h
      have := hlow (l - i * 8192) (by omega)
      rwa [Nat.add_sub_cancel' hl] at this
    · by_cases hnext : (i + 1) * 8192 ≤ l
      · exact ih h hnext
      · -- all of block `i` is set
        have hblock := (searchZmap_ge h).1
        have := hlow (l - i * 8192) (by omega)
        rwa [Nat.add_sub_cancel' hl] at this

/-- `new_block` does not succeed again once it has failed. -/
theorem Sound.takeZone_full (hv : v.Sound) (h : v.takeZone.1 = 0) : v.takeZone.2.takeZone.1 = 0 := by
  have hpos := hv.firstdatazone_pos
  cases hs : v.searchZmap 8 0 with
  | none =>
    have hsame : v.takeZone.2 = v := by
      unfold Volume.takeZone
      rw [hs]
    rw [hsame, h]
  | some k =>
    have hk0 : k ≠ 0 := by
      rintro rfl
      have hclear := searchZmap_spec hs
      rw [hv.zmap_zero] at hclear
      cases hclear
    have hbig : v.nzones ≤ k + v.firstdatazone - 1 := by
      by_contra hlt
      unfold Volume.takeZone at h
      rw [hs] at h
      dsimp only at h
      rw [if_neg (by omega)] at h
      exact absurd h (by show k + v.firstdatazone - 1 ≠ 0; omega)
    have hnext : v.takeZone.2 = { v with zmap := Function.update v.zmap k true } := by
      unfold Volume.takeZone
      rw [hs]
      exact congrArg Prod.snd (if_pos hbig)
    rw [hnext]
    cases hs' : ({ v with zmap := Function.update v.zmap k true } : Volume).searchZmap 8 0 with
    | none =>
      unfold Volume.takeZone
      rw [hs']
    | some j =>
      have hclear := searchZmap_spec hs'
      have hkj : k ≤ j := by
        by_contra hlt
        have hset : v.zmap j = true := searchZmap_low hs (by rw [Nat.zero_mul]; exact Nat.zero_le j) (not_le.1 hlt)
        change Function.update v.zmap k true j = false at hclear
        rw [Function.update_of_ne (by omega), hset] at hclear
        cases hclear
      unfold Volume.takeZone
      rw [hs']
      exact congrArg Prod.fst (if_pos (show j + v.firstdatazone - 1 ≥ v.nzones by omega))

end Volume

/-! ## Filling a slot -/

namespace Dir

open Volume

variable {d : Dir} {a : Addr} {ks : List ℕ}

theorem fill_pads (hv : d.vol.Sound) (ha : d.vol.Holds a) :
    d.vol.Pads (d.fill (a.slot d.vol)).2.vol ∧
      ((d.fill (a.slot d.vol)).1.1 = 0 → (d.fill (a.slot d.vol)).2.vol.takeZone.1 = 0) := by
  unfold fill
  by_cases h0 : d.vol.get (a.slot d.vol) = 0
  · rw [if_pos h0]
    have hfull := hv.takeZone_full
    obtain ⟨m, hm, -⟩ := takeZone_snd (v := d.vol)
    have hsame : d.vol.Same d.vol.takeZone.2 := by
      rw [hm]
      exact .of_get (fun _ => rfl) fun _ _ => rfl
    have hdata : d.vol.takeZone.2.data = d.vol.data := by rw [hm]
    rcases ht : d.vol.takeZone with ⟨z, v⟩
    rw [ht] at hfull hsame hdata
    dsimp only
    by_cases hz : z = 0
    · rw [if_pos hz]
      exact ⟨hsame.pads hdata, fun _ => hfull hz⟩
    · rw [if_neg hz]
      have htakes := hv.take ht hz
      obtain ⟨hslot, hzone⟩ := hsame.zone a ha
      rw [← hslot]
      exact ⟨(hsame.pads hdata).trans (htakes.sound.install_pads ((hsame.holds a).2 ha)
        (hzone.trans h0) htakes.fresh), fun h => absurd h hz⟩
  · rw [if_neg h0]
    exact ⟨.refl, fun h => absurd h h0⟩

/-- `create_block` from a place on. -/
theorem create_pads (ok : ℕ → Bool) (hok : ∀ n, ok n = true) (hv : d.vol.Sound) (ha : d.vol.Holds a)
    (hvalid : (a.extend ks).Valid) :
    d.vol.Pads (create ok (a.slot d.vol) ks d).2.vol ∧
      ((create ok (a.slot d.vol) ks d).1.1 = 0 →
        (create ok (a.slot d.vol) ks d).2.vol.takeZone.1 = 0) := by
  induction ks generalizing a d with
  | nil => exact fill_pads hv ha
  | cons k ks ih =>
    have hk : (a.child k).Valid := Addr.Valid.of_extend hvalid
    obtain ⟨hpads, hfull⟩ := fill_pads hv ha
    unfold create
    by_cases ha0 : a.zone d.vol = 0
    · obtain ⟨v, hkeep, hfill | ⟨z, hz, hfill, hav, hzone, -⟩⟩ := fill_spec hv ha ha0
      · rw [hfill] at hpads hfull ⊢
        dsimp only
        rw [if_neg fun h => h.1 rfl]
        exact ⟨hpads, fun _ => hfull rfl⟩
      · rw [hfill] at hpads ⊢
        dsimp only
        rw [if_pos ⟨hz, rfl⟩]
        have hchild := hav.child (by rw [hzone]; exact hz) hk.2.1 hk.2.2
        obtain ⟨h1, h2⟩ := ih (d := { d with vol := v }) hkeep.sound hchild hvalid
        have hslot : (a.child k).slot v = .entry z k := by
          rw [← hzone]
          rfl
        rw [hslot] at h1 h2
        exact ⟨hpads.trans h1, h2⟩
    · have hfill : d.fill (a.slot d.vol) = ((a.zone d.vol, false), d) := if_neg ha0
      rw [hfill]
      dsimp only
      rw [if_pos ⟨ha0, by rw [hok, Bool.or_true]⟩]
      exact ih hv (ha.child ha0 hk.2.1 hk.2.2) hvalid

end Dir

namespace Volume

variable {v v' : Volume} {nr nr' pos n z off : ℕ} {a : Addr} {bs : List Byte}

/-- What `create_block` comes to on a volume that can be read. -/
theorem createBlock_flat (hv : v.Sound) (hfile : (v.inode nr).isFile = true) (h : pos < maxSize) :
    ∃ z new w, Dir.createBlock ⟨v, nr, fun _ _ => true⟩ (pos / 1024) = .ok ((z, new), ⟨w, nr, fun _ _ => true⟩) ∧
      v.Keeps w ∧ v.Pads w ∧ (z = 0 → w.takeZone.1 = 0) ∧
      (z ≠ 0 → ∃ a, blockAddr nr (pos / 1024) = some a ∧ w.Backed a ∧ a.zone w = z) := by
  have hb : pos / 1024 < 7 + 512 + 512 * 512 := by
    unfold maxSize at h
    omega
  obtain ⟨z, new, w, hc, hkeep, hholds, -⟩ :=
    Dir.createBlock_spec (d := ⟨v, nr, fun _ _ => true⟩) hv hfile hb
  obtain ⟨a, haddr⟩ := exists_blockAddr nr h
  obtain ⟨hvalid, -⟩ := blockAddr_spec haddr
  unfold blockAddr at haddr
  obtain ⟨p, hp, rfl⟩ := Option.map_eq_some_iff.1 haddr
  have hroot : v.Holds (.root nr p.1) := ⟨hfile, Addr.Valid.of_extend hvalid, trivial⟩
  have hpads := Dir.create_pads (fun _ => true) (d := ⟨v, nr, fun _ _ => true⟩) (fun _ => rfl) hv hroot
    hvalid
  have hcreate : Dir.create (fun _ => true) (.zone nr p.1) p.2 ⟨v, nr, fun _ _ => true⟩
      = ((z, new), ⟨w, nr, fun _ _ => true⟩) := by
    unfold Dir.createBlock at hc
    rw [hp] at hc
    exact Except.ok.inj hc
  change v.Pads (Dir.create (fun _ => true) (.zone nr p.1) p.2 ⟨v, nr, fun _ _ => true⟩).2.vol ∧
    ((Dir.create (fun _ => true) (.zone nr p.1) p.2 ⟨v, nr, fun _ _ => true⟩).1.1 = 0 →
      (Dir.create (fun _ => true) (.zone nr p.1) p.2 ⟨v, nr, fun _ _ => true⟩).2.vol.takeZone.1 = 0) at hpads
  rw [hcreate] at hpads
  refine ⟨z, new, w, hc, hkeep, hpads.1, hpads.2, fun hz => ?_⟩
  obtain ⟨a, haddr', ha, hzone⟩ := hholds hz
  exact ⟨a, haddr', ⟨ha, hzone ▸ hz⟩, hzone⟩

/-! ## Contents after a change -/

theorem Keeps.isFile (h : v.Keeps v') : (v'.inode nr).isFile = (v.inode nr).isFile := by
  unfold Inode.isFile
  rw [h.mode]

theorem Pads.contents (h : v.Pads v') (hkeep : v.Keeps v') : v'.contents nr = v.contents nr :=
  contents_congr hkeep.isFile (hkeep.size nr) fun hfile _ hoff =>
    h.readByte hfile (hkeep.isFile.trans hfile) hoff

theorem Same.backed (h : v.Same v') (a : Addr) : v'.Backed a ↔ v.Backed a := by
  constructor
  · rintro ⟨ha, hz⟩
    have hold := (h.holds a).1 ha
    exact ⟨hold, (h.zone a hold).2 ▸ hz⟩
  · rintro ⟨ha, hz⟩
    exact ⟨(h.holds a).2 ha, (h.zone a ha).2.symm ▸ hz⟩

theorem setSize_self : (v.setSize nr n).inode nr = { v.inode nr with iSize := n } :=
  Function.update_self _ _ _

theorem setSize_other (h : nr' ≠ nr) : (v.setSize nr n).inode nr' = v.inode nr' :=
  Function.update_of_ne h _ _

theorem setSize_iMode : ((v.setSize nr n).inode nr').iMode = (v.inode nr').iMode := by
  by_cases h : nr' = nr
  · rw [h, setSize_self]
  · rw [setSize_other h]

theorem setSize_isFile : ((v.setSize nr n).inode nr').isFile = (v.inode nr').isFile := by
  unfold Inode.isFile
  rw [setSize_iMode]

theorem setSize_readByte (hfile : (v.inode nr').isFile = true) (hoff : off < maxSize) :
    (v.setSize nr n).readByte nr' off = v.readByte nr' off := by
  have hsame : v.Same (v.setSize nr n) := setSize_same
  obtain ⟨a, haddr⟩ := exists_blockAddr nr' hoff
  refine readByte_congr hfile (setSize_isFile.trans hfile) haddr (hsame.backed a) fun h => ?_
  rw [(hsame.zone a h.1).2]
  rfl

theorem setSize_contents_self (hfile : (v.inode nr).isFile = true) :
    (v.setSize nr n).contents nr = { v.contents nr with size := n } := by
  rw [contents_file hfile, contents_file (setSize_isFile.trans hfile), setSize_self]
  refine congrArg _ (funext fun off => ?_)
  show _ = (v.readByte nr off).getD 0
  by_cases hoff : off < maxSize
  · rw [setSize_readByte hfile hoff]
  · rw [readByte_big (not_lt.1 hoff), readByte_big (not_lt.1 hoff)]

theorem setSize_contents_other (h : nr' ≠ nr) : (v.setSize nr n).contents nr' = v.contents nr' :=
  contents_congr setSize_isFile (by rw [setSize_other h]) fun hfile _ hoff => setSize_readByte hfile hoff

section SetByte

variable {block : ℕ} {b : Byte} (hv : v.Sound) (ha : v.Backed a) (haddr : blockAddr nr block = some a)

include hv ha haddr

theorem setByte_readByte (hfile : (v.inode nr').isFile = true) {off' : ℕ} (hoff' : off' < maxSize)
    (h : ¬ (nr' = nr ∧ off' = block * 1024 + off)) :
    (v.setByte (a.zone v) off b).readByte nr' off' = v.readByte nr' off' := by
  obtain ⟨-, -, hleaf, -⟩ := blockAddr_spec haddr
  have hsame : v.Same (v.setByte (a.zone v) off b) := hv.setByte_same ha.1 hleaf
  obtain ⟨c, hc⟩ := exists_blockAddr nr' hoff'
  refine readByte_congr hfile hfile hc (hsame.backed c) fun hback => ?_
  have hgrows : v.Grows (v.setByte (a.zone v) off b) fun nr' off' => nr' = nr ∧ off' = block * 1024 + off :=
    hv.setByte_grows ha.1 haddr
  exact (hgrows.has nr' off' _ c h ⟨hc, hback.1, hback.2, rfl⟩).byte

theorem setByte_contents_self (hfile : (v.inode nr).isFile = true) (hoff : off < 1024) :
    (v.setByte (a.zone v) off b).contents nr = { v.contents nr with
      data := Function.update (v.contents nr).data (block * 1024 + off) b } := by
  rw [contents_file hfile, contents_file (v := v.setByte (a.zone v) off b) hfile]
  refine congrArg _ (funext fun k => ?_)
  show _ = Function.update (fun off => (v.readByte nr off).getD 0) (block * 1024 + off) b k
  rw [Function.update_apply]
  split_ifs with hk
  · have hhas := hv.setByte_has (b := b) ha.1 ha.2 haddr hoff
    rw [hk, hhas.readByte]
    rfl
  · by_cases hbig : k < maxSize
    · rw [setByte_readByte hv ha haddr hfile hbig fun h => hk h.2]
    · rw [readByte_big (not_lt.1 hbig), readByte_big (not_lt.1 hbig)]

theorem setByte_contents_other (h : nr' ≠ nr) :
    (v.setByte (a.zone v) off b).contents nr' = v.contents nr' :=
  contents_congr rfl rfl fun hfile _ hoff =>
    setByte_readByte hv ha haddr hfile hoff fun heq => h heq.1

end SetByte

end Volume

/-! ## Arrays -/

section Contents

variable {c : Contents} {pos : ℕ} {b : Byte}

theorem write_nil : c.write pos [] = c := by
  unfold Contents.write
  simp

theorem write_singleton_data : (c.write pos [b]).data = Function.update c.data pos b := by
  funext k
  rw [Function.update_apply]
  unfold Contents.write
  dsimp only
  rcases Nat.lt_trichotomy k pos with h | rfl | h
  · rw [if_neg (not_le.2 h), if_neg h.ne]
  · rw [if_pos le_rfl, if_pos rfl, Nat.sub_self]
    rfl
  · obtain ⟨j, hj⟩ : ∃ j, k - pos = j + 1 := ⟨k - pos - 1, by omega⟩
    rw [if_pos h.le, if_neg h.ne', hj]
    rfl

/-- Writing twice, one after the other. -/
theorem write_append_data (c : Contents) (pos : ℕ) (l₁ l₂ : List Byte) (size : ℕ) :
    ((⟨size, (c.write pos l₁).data⟩ : Contents).write (pos + l₁.length) l₂).data
      = (c.write pos (l₁ ++ l₂)).data := by
  funext k
  unfold Contents.write
  dsimp only
  by_cases hpos : pos ≤ k
  · rw [if_pos hpos, if_pos hpos]
    by_cases hl : pos + l₁.length ≤ k
    · rw [if_pos hl, List.getD_append_right _ _ _ _ (by omega), Nat.sub_add_eq,
        List.getD_eq_default _ _ (show l₁.length ≤ k - pos by omega)]
    · rw [if_neg hl, List.getD_append _ _ _ _ (by omega)]
  · rw [if_neg hpos, if_neg (by omega), if_neg hpos]

theorem write_append (c : Contents) (pos : ℕ) (l₁ l₂ : List Byte) :
    (c.write pos l₁).write (pos + l₁.length) l₂ = c.write pos (l₁ ++ l₂) := by
  have hsize : ((c.write pos l₁).write (pos + l₁.length) l₂).size = (c.write pos (l₁ ++ l₂)).size := by
    unfold Contents.write
    dsimp only
    rw [List.length_append]
    by_cases h₁ : l₁ = []
    · subst h₁
      simp
    · have hne : l₁ ++ l₂ ≠ [] := fun h => h₁ (List.append_eq_nil_iff.1 h).1
      rw [if_neg h₁, if_neg hne]
      split_ifs with h₂
      · simp [h₂]
      · omega
  have hdata : ((c.write pos l₁).write (pos + l₁.length) l₂).data = (c.write pos (l₁ ++ l₂)).data :=
    write_append_data c pos l₁ l₂ _
  calc (c.write pos l₁).write (pos + l₁.length) l₂
      = ⟨((c.write pos l₁).write (pos + l₁.length) l₂).size,
          ((c.write pos l₁).write (pos + l₁.length) l₂).data⟩ := rfl
    _ = c.write pos (l₁ ++ l₂) := by rw [hsize, hdata]

end Contents

namespace Volume

/-! ## The loop of `file_write` -/

variable {v v' : Volume} {nr nr' pos n i off block size : ℕ} {a : Addr} {bs : List Byte}

/-- The bytes are stored in a block that is there. -/
theorem copyIn_spec (hv : v.Sound) (ha : v.Backed a) (haddr : blockAddr nr block = some a)
    (hfile : (v.inode nr).isFile = true) (hlen : off + bs.length ≤ 1024) :
    (copyIn (a.zone v) off bs v).Sound ∧ (copyIn (a.zone v) off bs v).inode = v.inode ∧
      (copyIn (a.zone v) off bs v).contents nr = { v.contents nr with
        data := ((v.contents nr).write (block * 1024 + off) bs).data } ∧
      ∀ nr' ≠ nr, (copyIn (a.zone v) off bs v).contents nr' = v.contents nr' := by
  induction bs generalizing v off with
  | nil => exact ⟨hv, rfl, by rw [write_nil]; rfl, fun _ _ => rfl⟩
  | cons b bs ih =>
    obtain ⟨-, -, hleaf, -⟩ := blockAddr_spec haddr
    rw [List.length_cons] at hlen
    have hsame : v.Same (v.setByte (a.zone v) off b) := hv.setByte_same ha.1 hleaf
    have hzone : a.zone (v.setByte (a.zone v) off b) = a.zone v := (hsame.zone a ha.1).2
    obtain ⟨h1, h2, h3, h4⟩ := ih (v := v.setByte (a.zone v) off b) (hv.setByte ha.1 hleaf)
      ((hsame.backed a).2 ha) hfile (show off + 1 + bs.length ≤ 1024 by omega)
    rw [hzone] at h1 h2 h3 h4
    refine ⟨h1, h2, ?_, fun nr' hnr => ?_⟩
    · have hdata := write_append_data (v.contents nr) (block * 1024 + off) [b] bs (v.contents nr).size
      rw [write_singleton_data, List.length_singleton, Nat.add_assoc, List.singleton_append] at hdata
      rw [← hdata, ← setByte_contents_self hv ha haddr hfile (by omega)]
      refine h3.trans ?_
      rw [setByte_contents_self hv ha haddr hfile (by omega)]
    · exact (h4 nr' hnr).trans (setByte_contents_other hv ha haddr hnr)

/-- What a turn of the loop does once it has the block. -/
theorem store_spec (hv : v.Sound) (ha : v.Backed a) (haddr : blockAddr nr (pos / 1024) = some a)
    (hfile : (v.inode nr).isFile = true) (hbs : bs ≠ []) (hlen : pos % 1024 + bs.length ≤ 1024)
    (hv' : v' = copyIn (a.zone v) (pos % 1024) bs
      (if pos + bs.length > (v.inode nr).iSize then v.setSize nr (pos + bs.length) else v)) :
    v'.Sound ∧ (∀ k, (v'.inode k).iMode = (v.inode k).iMode) ∧
      v'.contents nr = (v.contents nr).write pos bs ∧ ∀ nr' ≠ nr, v'.contents nr' = v.contents nr' := by
  obtain ⟨w, hw⟩ : ∃ w, w = if pos + bs.length > (v.inode nr).iSize then v.setSize nr (pos + bs.length)
      else v := ⟨_, rfl⟩
  have hsame : v.Same w := by
    rw [hw]
    split_ifs
    · exact setSize_same
    · exact .of_get (fun _ => rfl) fun _ _ => rfl
  have hmode : ∀ k, (w.inode k).iMode = (v.inode k).iMode := by
    intro k
    rw [hw]
    split_ifs
    · exact setSize_iMode
    · rfl
  have hsound : w.Sound := by
    refine hv.of_same hsame ?_ ?_ fun b hb => ?_ <;> rw [hw] <;> split_ifs <;> first | rfl | exact hb
  have hself : w.contents nr = { v.contents nr with size := ((v.contents nr).write pos bs).size } := by
    have hsize : ((v.contents nr).write pos bs).size = max (v.inode nr).iSize (pos + bs.length) := by
      rw [contents_file hfile]
      exact if_neg hbs
    rw [hsize, hw]
    split_ifs with h
    · rw [setSize_contents_self hfile, max_eq_right h.le]
    · rw [max_eq_left (not_lt.1 h), contents_file hfile]
  have hother : ∀ nr' ≠ nr, w.contents nr' = v.contents nr' := by
    intro nr' hnr
    rw [hw]
    split_ifs
    · exact setSize_contents_other hnr
    · rfl
  have hwfile : (w.inode nr).isFile = true := by
    unfold Inode.isFile at hfile ⊢
    rwa [hmode]
  have hzone := (hsame.zone a ha.1).2
  obtain ⟨h1, h2, h3, h4⟩ := copyIn_spec hsound ((hsame.backed a).2 ha) haddr hwfile hlen
  rw [hzone] at h1 h2 h3 h4
  rw [hv', ← hw]
  refine ⟨h1, fun k => by rw [h2]; exact hmode k, h3.trans ?_, fun nr' hnr => (h4 nr' hnr).trans (hother nr' hnr)⟩
  rw [hself, Nat.div_add_mod' pos 1024]
  rfl

/-- What a call of `file_write` does: it writes the first `i` bytes, and all of them if there is room. -/
structure Wrote (v v' : Volume) (nr pos : ℕ) (bs : List Byte) (i : ℕ) : Prop where
  sound : v'.Sound
  mode : ∀ k, (v'.inode k).iMode = (v.inode k).iMode
  le : i ≤ bs.length
  fits : i ≠ 0 → pos + i ≤ maxSize
  full : i < bs.length → v'.takeZone.1 = 0
  self : v'.contents nr = (v.contents nr).write pos (bs.take i)
  other : ∀ nr' ≠ nr, v'.contents nr' = v.contents nr'

theorem writeLoop_spec (hv : v.Sound) (hfile : (v.inode nr).isFile = true) (pos : ℕ)
    (hn : bs.length ≤ n) :
    (writeLoop nr n pos bs v = none ∧ maxSize < pos + bs.length) ∨
    ∃ v' i, writeLoop nr n pos bs v = some (v', i) ∧ v.Wrote v' nr pos bs i := by
  induction n generalizing pos bs v with
  | zero =>
    obtain rfl : bs = [] := List.length_eq_zero_iff.1 (Nat.le_zero.1 hn)
    exact .inr ⟨v, 0, rfl, hv, fun _ => rfl, le_rfl, fun h => absurd rfl h,
      fun h => absurd h (Nat.lt_irrefl 0), write_nil.symm, fun _ _ => rfl⟩
  | succ n ih =>
    by_cases hbs : bs = []
    · subst hbs
      exact .inr ⟨v, 0, rfl, hv, fun _ => rfl, le_rfl, fun h => absurd rfl h,
        fun h => absurd h (Nat.lt_irrefl 0), write_nil.symm, fun _ _ => rfl⟩
    have hpos : 0 < bs.length := List.length_pos_iff.2 hbs
    unfold writeLoop
    rw [if_neg hbs]
    by_cases hbig : maxSize ≤ pos
    · -- `_bmap` panics
      have hp : bmapPath (pos / 1024) = none := by
        rw [Dir.bmapPath_none]
        unfold maxSize at hbig
        omega
      have hc : Dir.createBlock ⟨v, nr, fun _ _ => true⟩ (pos / 1024) = .error .blockBig := by
        unfold Dir.createBlock
        rw [hp]
      rw [hc]
      exact .inl ⟨rfl, by omega⟩
    obtain ⟨z, new, w, hc, hkeep, hpads, hfull, hback⟩ := createBlock_flat hv hfile (not_le.1 hbig)
    rw [hc]
    dsimp only
    by_cases hz : z = 0
    · rw [if_pos hz]
      refine .inr ⟨w, 0, rfl, hkeep.sound, hkeep.mode, Nat.zero_le _, fun h => absurd rfl h,
        fun _ => hfull hz, ?_, fun _ _ => hpads.contents hkeep⟩
      rw [List.take_zero, write_nil]
      exact hpads.contents hkeep
    rw [if_neg hz]
    obtain ⟨a, haddr, ha, rfl⟩ := hback hz
    obtain ⟨c, hcdef⟩ : ∃ c, c = if 1024 - pos % 1024 > bs.length then bs.length else 1024 - pos % 1024 :=
      ⟨_, rfl⟩
    have hc0 : 0 < c ∧ c ≤ bs.length ∧ pos % 1024 + c ≤ 1024 := by
      rw [hcdef]
      split_ifs <;> omega
    have hlen : (bs.take c).length = c := by
      rw [List.length_take]
      omega
    rw [← hcdef]
    obtain ⟨w', hw'⟩ : ∃ w', w' = copyIn (a.zone w) (pos % 1024) (bs.take c)
        (if pos + c > (w.inode nr).iSize then w.setSize nr (pos + c) else w) := ⟨_, rfl⟩
    have hne : bs.take c ≠ [] := fun h => by rw [h, List.length_nil] at hlen; omega
    have hin : pos % 1024 + (bs.take c).length ≤ 1024 := by rw [hlen]; exact hc0.2.2
    have hstore : w' = copyIn (a.zone w) (pos % 1024) (bs.take c)
        (if pos + (bs.take c).length > (w.inode nr).iSize then w.setSize nr (pos + (bs.take c).length)
          else w) := by
      rw [hlen]
      exact hw'
    obtain ⟨h1, h2, h3, h4⟩ :=
      store_spec hkeep.sound ha haddr (hkeep.isFile.trans hfile) hne hin hstore
    have hfile' : (w'.inode nr).isFile = true := by
      unfold Inode.isFile at hfile ⊢
      rw [h2, hkeep.mode]
      exact hfile
    have hfit : pos + c ≤ maxSize := by
      unfold maxSize at hbig ⊢
      omega
    rw [← hw']
    have hrest : (writeLoop nr n (pos + c) (bs.drop c) w' = none ∧ maxSize < pos + c + (bs.drop c).length) ∨
        ∃ v' i, writeLoop nr n (pos + c) (bs.drop c) w' = some (v', i) ∧
          w'.Wrote v' nr (pos + c) (bs.drop c) i := by
      apply ih h1 hfile' (pos + c)
      rw [List.length_drop]
      omega
    rcases hrest with ⟨hnone, hlt⟩ | ⟨v', i, hrun, hwrote⟩
    · rw [hnone]
      rw [List.length_drop] at hlt
      exact .inl ⟨rfl, by omega⟩
    · rw [hrun]
      refine .inr ⟨v', c + i, rfl, hwrote.sound, fun k => ?_, ?_, fun _ => ?_, fun h => ?_, ?_, ?_⟩
      · rw [hwrote.mode, h2, hkeep.mode]
      · have := hwrote.le
        rw [List.length_drop] at this
        omega
      · by_cases hi : i = 0
        · rw [hi]
          exact hfit
        · have := hwrote.fits hi
          omega
      · apply hwrote.full
        rw [List.length_drop]
        omega
      · have happ := write_append (w.contents nr) pos (bs.take c) ((bs.drop c).take i)
        rw [hlen, ← List.take_add] at happ
        rw [hwrote.self, h3, happ, hpads.contents hkeep]
      · intro nr' hnr
        rw [hwrote.other nr' hnr, h4 nr' hnr, hpads.contents hkeep]

/-! ## The loop of `file_read` -/

theorem bmap_byte {z k : ℕ} (hz : v.bmap nr (pos / 1024) = some z) (hk : pos % 1024 + k < 1024)
    (hfile : (v.inode nr).isFile = true) :
    (if z = 0 then 0 else v.data z (pos % 1024 + k)) = (v.contents nr).data (pos + k) := by
  have hdiv : (pos + k) / 1024 = pos / 1024 := by omega
  have hmod : (pos + k) % 1024 = pos % 1024 + k := by omega
  rw [contents_file hfile]
  show _ = (v.readByte nr (pos + k)).getD 0
  unfold readByte
  rw [hdiv, hz, hmod]
  rfl

theorem readLoop_spec {left : ℕ} (hfile : (v.inode nr).isFile = true) (hn : left ≤ n)
    (hfit : pos + left ≤ maxSize) :
    readLoop v nr n pos left = some ((List.range left).map fun k => (v.contents nr).data (pos + k)) := by
  induction n generalizing pos left with
  | zero =>
    obtain rfl := Nat.le_zero.1 hn
    rfl
  | succ n ih =>
    unfold readLoop
    by_cases hleft : left = 0
    · subst hleft
      rfl
    rw [if_neg hleft]
    obtain ⟨z, hz⟩ : ∃ z, v.bmap nr (pos / 1024) = some z := by
      unfold bmap
      cases hp : bmapPath (pos / 1024) with
      | some p => exact ⟨_, rfl⟩
      | none =>
        have hbig := Dir.bmapPath_none.1 hp
        unfold maxSize at hfit
        omega
    obtain ⟨c, hc⟩ : ∃ c, c = min (1024 - pos % 1024) left := ⟨_, rfl⟩
    have hcle : 0 < c ∧ c ≤ left ∧ pos % 1024 + c ≤ 1024 := by omega
    rw [hz]
    dsimp only
    rw [← hc, ih (by omega) (by omega), Option.map_some]
    obtain ⟨r, hr⟩ : ∃ r, left = c + r := ⟨left - c, by omega⟩
    rw [hr, List.range_add, List.map_append, List.map_map, Nat.add_sub_cancel_left]
    refine congrArg some (congrArg₂ _ (List.map_congr_left fun k hk => ?_)
      (List.map_congr_left fun k _ => ?_))
    · have hk := List.mem_range.1 hk
      exact bmap_byte hz (by omega) hfile
    · show _ = (v.contents nr).data (pos + (c + k))
      rw [Nat.add_assoc]

end Volume

end Linux011.Zones
