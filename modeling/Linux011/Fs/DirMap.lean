import Linux011.Fs.Entries
import Linux011.Lib.SlotMap

/-!
# A directory as a map

The entries of a directory without holes, whose blocks can all be read, are a map from names of at
most 14 characters to inode numbers. One process looks names up, adds entries and removes them.

1. `Dir.cell`, `Dir.used`: the entries.
2. `Dir.Intact`; `write_spec`, `grow_spec`, `create_off`: what changes to the volume leave of the
entries.
3. `addEntry_run`: the entry that `add_entry` gives.
4. `Op`, `Dir.step`; `step_spec`, `run_spec`.
5. `directory_map`: the directory after any calls.
-/

namespace Linux011.Zones

open Linux011.Fs (Byte)

namespace Dir

variable (d : Dir)

/-! ## Entries -/

def entries : ℕ := (d.vol.inode d.nr).iSize / 16

/-- Byte `a` of entry `i`. -/
def cell (i a : ℕ) : Byte := d.vol.data (d.zone (i / 64)) (16 * (i % 64) + a)

/-- `de->inode`. -/
def ino (i : ℕ) : ℕ := (d.cell i 0).toNat + 256 * (d.cell i 1).toNat

/-- `de->name`, without its padding. -/
def key (i : ℕ) : Name := ((List.range 14).map fun j => d.cell i (2 + j)).takeWhile (· ≠ 0)

/-- The name and the inode number of an entry that is in use. -/
def used (i : ℕ) : Option (Name × ℕ) :=
  if i < d.entries ∧ d.ino i ≠ 0 then some (d.key i, d.ino i) else none

/-- A directory without holes, that can be read. -/
structure Intact : Prop where
  sound : d.vol.Sound
  dir : Fs.isDir (d.vol.inode d.nr).iMode = true
  size : 16 ∣ (d.vol.inode d.nr).iSize
  blocks : ∀ b, b = 0 ∨ 1024 * b < (d.vol.inode d.nr).iSize → d.zone b ≠ 0
  reads : ∀ b k, d.reads b k = true

variable {d} {d' d'' : Dir} {a : Addr} {ks : List ℕ} {b i j k z : ℕ} {name : Name}

theorem Intact.file (hd : d.Intact) : (d.vol.inode d.nr).isFile = true := by
  unfold Inode.isFile
  rw [hd.dir, Bool.or_true]

theorem Intact.size_eq (hd : d.Intact) : (d.vol.inode d.nr).iSize = d.entries * 16 :=
  (Nat.div_mul_cancel hd.size).symm

/-- The block of an entry is there. -/
theorem Intact.block (hd : d.Intact) (hi : i < d.entries) : d.zone (i / 64) ≠ 0 :=
  hd.blocks _ (.inr (by rw [hd.size_eq]; omega))

/-! ## Names -/

/-- A name is what is in front of the padding. -/
theorem takeWhile_map_range {f : ℕ → Byte} {n : ℕ} (hlen : name.length ≤ n) (hname : ∀ c ∈ name, c ≠ 0) :
    ((List.range n).map f).takeWhile (· ≠ 0) = name ↔
      name = (List.range name.length).map f ∧ (name.length < n → f name.length = 0) := by
  induction name generalizing f n with
  | nil =>
    cases n with
    | zero => simp
    | succ n =>
      rw [List.range_succ_eq_map, List.map_cons]
      by_cases h : f 0 = 0
      · simp [h]
      · rw [List.takeWhile_cons_of_pos (by simpa using h)]
        simpa using h
  | cons c name ih =>
    obtain ⟨n, rfl⟩ := Nat.exists_eq_succ_of_ne_zero (show n ≠ 0 by rintro rfl; cases hlen)
    have hc : c ≠ 0 := hname c List.mem_cons_self
    rw [List.range_succ_eq_map, List.map_cons, List.map_map, List.length_cons,
      List.range_succ_eq_map, List.map_cons, List.map_map]
    have hrest := ih (f := f ∘ Nat.succ) (Nat.le_of_succ_le_succ hlen)
      fun x hx => hname x (List.mem_cons_of_mem _ hx)
    by_cases h : f 0 = 0
    · rw [List.takeWhile_cons_of_neg (by simp [h])]
      refine iff_of_false nofun fun hh => hc ?_
      rw [← h]
      exact (List.cons.inj hh.1).1
    · rw [List.takeWhile_cons_of_pos (by simpa using h), List.cons.injEq, List.cons.injEq, hrest]
      constructor
      · rintro ⟨h0, h1, h2⟩
        exact ⟨⟨h0.symm, h1⟩, fun hn => h2 (Nat.lt_of_succ_lt_succ hn)⟩
      · rintro ⟨⟨h0, h1⟩, h2⟩
        exact ⟨h0.symm, h1, fun hn => h2 (Nat.succ_lt_succ hn)⟩

theorem ino_eq : d.ino i = d.vol.entry (d.zone (i / 64)) (8 * (i % 64)) := by
  unfold ino cell Volume.entry
  rw [show 2 * (8 * (i % 64)) = 16 * (i % 64) + 0 by omega]

/-- `match` compares the names. -/
theorem sameName_iff (hlen : name.length ≤ 14) (hname : ∀ c ∈ name, c ≠ 0) :
    d.sameName name (d.zone (i / 64)) (i % 64) = true ↔ d.ino i ≠ 0 ∧ d.key i = name := by
  have hkey := takeWhile_map_range (f := fun j => d.cell i (2 + j)) hlen hname
  change d.key i = name ↔ _ at hkey
  have hcell : ∀ j, d.cell i (2 + j) = d.vol.data (d.zone (i / 64)) (16 * (i % 64) + 2 + j) := by
    intro j
    unfold cell
    rw [Nat.add_assoc]
  rw [hkey, ino_eq]
  simp only [hcell]
  unfold sameName
  by_cases h0 : d.vol.entry (d.zone (i / 64)) (8 * (i % 64)) = 0
  · rw [if_pos (.inl h0)]
    exact iff_of_false Bool.false_ne_true fun h => h.1 h0
  rw [if_neg (not_or.2 ⟨h0, not_lt.2 hlen⟩)]
  split_ifs with hpad
  · exact iff_of_false nofun fun h => hpad.2 (h.2.2 hpad.1)
  · rw [beq_iff_eq]
    constructor
    · intro h
      refine ⟨h0, h, fun hlt => ?_⟩
      by_contra hne
      exact hpad ⟨hlt, hne⟩
    · exact fun h => h.2.1

/-! ## Zones of the blocks -/

/-- A block that is there has a place. -/
theorem walk_live {ok : ℕ → Bool} (ha : a.Live d.vol) (h : d.walk ok (a.slot d.vol) ks ≠ 0) :
    (a.extend ks).Live d.vol ∧ (a.extend ks).zone d.vol = d.walk ok (a.slot d.vol) ks := by
  induction ks generalizing a with
  | nil => exact ⟨ha, rfl⟩
  | cons k ks ih =>
    unfold walk at h ⊢
    split_ifs at h ⊢ with hz
    · exact ih (a := a.child k) ⟨ha, hz.1⟩ h
    · exact absurd rfl h

theorem walk_of_live {ok : ℕ → Bool} (hok : ∀ n, ok n = true) (ha : (a.extend ks).Live d.vol) :
    d.walk ok (a.slot d.vol) ks = (a.extend ks).zone d.vol := by
  induction ks generalizing a with
  | nil => rfl
  | cons k ks ih =>
    have hchild : (a.child k).Live d.vol := Addr.Live.of_extend ha
    unfold walk
    rw [if_pos ⟨hchild.2, hok _⟩]
    exact ih ha

theorem zone_place (hfile : (d.vol.inode d.nr).isFile = true) (h : d.zone b ≠ 0) :
    ∃ a, blockAddr d.nr b = some a ∧ d.vol.Holds a ∧ a.zone d.vol = d.zone b := by
  unfold zone at h ⊢
  cases hp : bmapPath b with
  | none =>
    rw [hp] at h
    exact absurd rfl h
  | some p =>
    rw [hp] at h
    have haddr : blockAddr d.nr b = some ((Addr.root d.nr p.1).extend p.2) := by
      unfold blockAddr
      rw [hp]
      rfl
    obtain ⟨hvalid, hnr, -⟩ := blockAddr_spec haddr
    obtain ⟨hlive, hzone⟩ := walk_live (a := .root d.nr p.1) trivial h
    exact ⟨_, haddr, ⟨by rw [hnr]; exact hfile, hvalid, hlive⟩, hzone⟩

theorem zone_of_live (hreads : ∀ b k, d.reads b k = true) (haddr : blockAddr d.nr b = some a)
    (ha : a.Live d.vol) : d.zone b = a.zone d.vol := by
  unfold blockAddr at haddr
  obtain ⟨p, hp, rfl⟩ := Option.map_eq_some_iff.1 haddr
  unfold zone
  rw [hp]
  exact walk_of_live (hreads b) ha

theorem Intact.zone_inj (hd : d.Intact) (hb : d.zone b ≠ 0) (h : d.zone b = d.zone j) : b = j := by
  obtain ⟨a, haddr, ha, hzone⟩ := zone_place hd.file hb
  obtain ⟨a', haddr', ha', hzone'⟩ := zone_place hd.file (h ▸ hb)
  have hne : a.zone d.vol ≠ 0 := hzone ▸ hb
  obtain rfl := hd.sound.distinct a a' ha ha' hne (by rw [hzone, hzone', h])
  exact (blockAddr_inj haddr haddr').2

/-- A directory does not have more blocks than there are zone numbers. -/
theorem Intact.blocks_le (hd : d.Intact) {n : ℕ} (h : ∀ b < n, d.zone b ≠ 0) : n ≤ 2 ^ 16 := by
  have hmaps : Set.MapsTo d.zone (Finset.range n) (Finset.range (2 ^ 16)) := by
    intro b hb
    have hzb := h b (Finset.mem_range.1 hb)
    obtain ⟨a, -, ha, hzone⟩ := zone_place hd.file hzb
    rw [← hzone]
    exact Finset.mem_coe.2 (Finset.mem_range.2 ((hd.sound.marked a ha (hzone ▸ hzb)).lt hd.sound))
  have hinj : Set.InjOn d.zone (Finset.range n) := fun b hb b' _ he =>
    hd.zone_inj (h b (Finset.mem_range.1 hb)) he
  have hcard := Finset.card_le_card_of_injOn d.zone hmaps hinj
  rwa [Finset.card_range, Finset.card_range] at hcard

theorem Intact.zoneAt (hd : d.Intact) (hb : d.zone b ≠ 0) : d.zoneAt b = some (d.zone b) :=
  zoneAt_eq_some.2 ⟨rfl, hb, hd.reads b 0⟩

/-! ## Changes to the volume -/

/-- The other entries stay as they are, if their blocks are there. -/
structure Off (d d' : Dir) (i : ℕ) : Prop where
  intact : d'.Intact
  zone : ∀ b, d.zone b ≠ 0 → d'.zone b = d.zone b
  cell : ∀ j, j ≠ i → d.zone (j / 64) ≠ 0 → ∀ a < 16, d'.cell j a = d.cell j a

theorem Off.trans (h₁ : d.Off d' i) (h₂ : d'.Off d'' i) : d.Off d'' i where
  intact := h₂.intact
  zone b hb := by
    have hb₁ := h₁.zone b hb
    rw [h₂.zone b (hb₁ ▸ hb), hb₁]
  cell j hj hz a ha := by
    rw [h₂.cell j hj ((h₁.zone _ hz).symm ▸ hz) a ha, h₁.cell j hj hz a ha]

/-- A change that keeps all places, but for the data of one block. -/
theorem Intact.of_same {v : Volume} (hd : d.Intact) (hv : v.Sound) (hsame : d.vol.Same v)
    (hsize : (v.inode d.nr).iSize = (d.vol.inode d.nr).iSize)
    (hmode : (v.inode d.nr).iMode = (d.vol.inode d.nr).iMode) :
    Intact { d with vol := v } ∧ ∀ b, d.zone b ≠ 0 → zone { d with vol := v } b = d.zone b := by
  have hzone : ∀ b, d.zone b ≠ 0 → zone { d with vol := v } b = d.zone b := by
    intro b hb
    obtain ⟨a, haddr, ha, hz⟩ := zone_place hd.file hb
    have hlive := ((hsame.holds a).2 ha).live
    rw [zone_of_live (d := { d with vol := v }) hd.reads haddr hlive, ← hz]
    exact (hsame.zone a ha).2
  refine ⟨⟨hv, hmode ▸ hd.dir, hsize ▸ hd.size, fun b hb => ?_, hd.reads⟩, hzone⟩
  have hz : d.zone b ≠ 0 := hd.blocks b (hsize ▸ hb)
  rw [hzone b hz]
  exact hz

/-- The bytes of entry `i` are written. -/
theorem write_spec {f : ℕ → Byte} (hd : d.Intact) (hi : d.zone (i / 64) ≠ 0)
    (hf : ∀ a, a < 16 * (i % 64) ∨ 16 * (i % 64) + 16 ≤ a → f a = d.vol.data (d.zone (i / 64)) a) :
    d.Off { d with vol := d.vol.setData (d.zone (i / 64)) f } i ∧
      ∀ a < 16, cell { d with vol := d.vol.setData (d.zone (i / 64)) f } i a =
        f (16 * (i % 64) + a) := by
  obtain ⟨p, haddr, hp, hz⟩ := zone_place hd.file hi
  obtain ⟨-, -, hleaf, -⟩ := blockAddr_spec haddr
  have hsame : d.vol.Same (d.vol.setData (d.zone (i / 64)) f) := by
    rw [← hz]
    exact .of_get (fun _ => rfl) fun _ hc => get_setData_of_not_in (hd.sound.not_in_leaf hc hp hleaf)
  obtain ⟨hint, hzone⟩ := hd.of_same (hd.sound.of_same hsame rfl rfl fun _ h => h) hsame rfl rfl
  refine ⟨⟨hint, hzone, fun j hj hzj a ha => ?_⟩, fun a _ => ?_⟩
  · unfold cell
    rw [hzone _ hzj]
    change Function.update d.vol.data (d.zone (i / 64)) f (d.zone (j / 64)) _ = _
    by_cases hb : d.zone (j / 64) = d.zone (i / 64)
    · have hij := hd.zone_inj hzj hb
      rw [hb, Function.update_self]
      exact hf _ (by omega)
    · rw [Function.update_of_ne hb]
  · unfold cell
    rw [hzone _ hi]
    change Function.update d.vol.data (d.zone (i / 64)) f (d.zone (i / 64)) _ = _
    rw [Function.update_self]

/-- `de->inode = n`. -/
theorem setIno_spec {n : ℕ} (hd : d.Intact) (hi : d.zone (i / 64) ≠ 0) (hn : n < 2 ^ 16) :
    d.Off { d with vol := d.vol.set (.entry (d.zone (i / 64)) (8 * (i % 64))) n } i ∧
      ino { d with vol := d.vol.set (.entry (d.zone (i / 64)) (8 * (i % 64))) n } i = n ∧
      ∀ a < 14, cell { d with vol := d.vol.set (.entry (d.zone (i / 64)) (8 * (i % 64))) n } i (2 + a)
        = d.cell i (2 + a) := by
  obtain ⟨f, hf⟩ : ∃ f : ℕ → Byte, f = Function.update (Function.update
      (d.vol.data (d.zone (i / 64))) (2 * (8 * (i % 64))) (BitVec.ofNat 8 n))
      (2 * (8 * (i % 64)) + 1) (BitVec.ofNat 8 (n / 256)) := ⟨_, rfl⟩
  have hset : d.vol.set (.entry (d.zone (i / 64)) (8 * (i % 64))) n =
      d.vol.setData (d.zone (i / 64)) f := by
    rw [hf]
    unfold Volume.set Volume.setByte Volume.setData
    simp only [Function.update_self, Function.update_idem]
  have hother : ∀ a, a ≠ 16 * (i % 64) → a ≠ 16 * (i % 64) + 1 →
      f a = d.vol.data (d.zone (i / 64)) a := by
    intro a h0 h1
    rw [hf, Function.update_of_ne (by omega), Function.update_of_ne (by omega)]
  obtain ⟨hoff, hcell⟩ := write_spec hd hi fun a ha => hother a (by omega) (by omega)
  rw [hset]
  refine ⟨hoff, ?_, fun a ha => ?_⟩
  · unfold ino
    have hlow : f (16 * (i % 64) + 0) = BitVec.ofNat 8 n := by
      rw [hf, Function.update_of_ne (by omega), show 16 * (i % 64) + 0 = 2 * (8 * (i % 64)) by omega,
        Function.update_self]
    have hhigh : f (16 * (i % 64) + 1) = BitVec.ofNat 8 (n / 256) := by
      rw [hf, show 16 * (i % 64) + 1 = 2 * (8 * (i % 64)) + 1 by omega, Function.update_self]
    rw [hcell 0 (by decide), hcell 1 (by decide), hlow, hhigh, BitVec.toNat_ofNat,
      BitVec.toNat_ofNat]
    omega
  · rw [hcell _ (by omega), hother _ (by omega) (by omega)]
    rfl

/-- The directory gets longer by an entry whose block is there. -/
theorem grow_spec (hd : d.Intact) (hi : d.zone (i / 64) ≠ 0) (hend : d.entries = i) :
    d.Off { d with vol := d.vol.setSize d.nr ((i + 1) * 16) } i ∧
      entries { d with vol := d.vol.setSize d.nr ((i + 1) * 16) } = i + 1 ∧
      ∀ a, cell { d with vol := d.vol.setSize d.nr ((i + 1) * 16) } i a = d.cell i a := by
  have hself : (d.vol.setSize d.nr ((i + 1) * 16)).inode d.nr =
      { d.vol.inode d.nr with iSize := (i + 1) * 16 } := Function.update_self _ _ _
  have hsame : d.vol.Same (d.vol.setSize d.nr ((i + 1) * 16)) := Volume.setSize_same
  have hzone : ∀ b, zone { d with vol := d.vol.setSize d.nr ((i + 1) * 16) } b = d.zone b := by
    intro b
    have hwalk : ∀ (ks : List ℕ) (s : Slot), walk { d with vol := d.vol.setSize d.nr ((i + 1) * 16) }
        (d.reads b) s ks = d.walk (d.reads b) s ks := by
      have hget : ∀ s, (d.vol.setSize d.nr ((i + 1) * 16)).get s = d.vol.get s := by
        intro s
        cases s with
        | zone nr k =>
          by_cases h : nr = d.nr
          · subst h
            simp [Volume.get, Volume.setSize, Volume.setInode]
          · simp [Volume.get, Volume.setSize, Volume.setInode, h]
        | entry block k => rfl
      intro ks
      induction ks with
      | nil => exact hget
      | cons k ks ih =>
        intro s
        unfold walk
        rw [hget, ih]
    unfold zone
    cases bmapPath b with
    | none => rfl
    | some p => exact hwalk p.2 _
  refine ⟨⟨⟨hd.sound.of_same hsame rfl rfl fun _ h => h, ?_, ?_, fun b hb => ?_, hd.reads⟩,
    fun b _ => hzone b, fun j _ _ a _ => ?_⟩, ?_, fun a => ?_⟩
  · change Fs.isDir ((d.vol.setSize d.nr ((i + 1) * 16)).inode d.nr).iMode = true
    rw [hself]
    exact hd.dir
  · change 16 ∣ ((d.vol.setSize d.nr ((i + 1) * 16)).inode d.nr).iSize
    rw [hself]
    exact Dvd.intro_left _ rfl
  · rw [hzone]
    change b = 0 ∨ 1024 * b < ((d.vol.setSize d.nr ((i + 1) * 16)).inode d.nr).iSize at hb
    rw [hself] at hb
    change b = 0 ∨ 1024 * b < (i + 1) * 16 at hb
    by_cases hbi : b = i / 64
    · rw [hbi]
      exact hi
    · refine hd.blocks b (hb.imp_right fun h => ?_)
      rw [hd.size_eq, hend]
      omega
  · unfold cell
    rw [hzone]
    rfl
  · unfold entries
    change ((d.vol.setSize d.nr ((i + 1) * 16)).inode d.nr).iSize / 16 = i + 1
    rw [hself]
    exact Nat.mul_div_cancel _ (by decide)
  · unfold cell
    rw [hzone]
    rfl

/-- What `create_block` does leaves all entries. -/
theorem Intact.create_off {v : Volume} (hd : d.Intact) (hkeep : d.vol.Keeps v) (i : ℕ) :
    d.Off { d with vol := v } i ∧ entries { d with vol := v } = d.entries := by
  have hzone : ∀ b, d.zone b ≠ 0 → zone { d with vol := v } b = d.zone b := by
    intro b hb
    obtain ⟨p, haddr, hp, hz⟩ := zone_place hd.file hb
    have hne : p.zone d.vol ≠ 0 := hz ▸ hb
    rw [zone_of_live (d := { d with vol := v }) hd.reads haddr (hkeep.grows.holds p hp).1.live, ← hz]
    exact hkeep.grows.zone p hp hne
  refine ⟨⟨⟨hkeep.sound, ?_, ?_, fun b hb => ?_, hd.reads⟩, hzone, fun j _ hzj a ha => ?_⟩, ?_⟩
  · change Fs.isDir (v.inode d.nr).iMode = true
    rw [hkeep.mode]
    exact hd.dir
  · change 16 ∣ (v.inode d.nr).iSize
    rw [hkeep.size]
    exact hd.size
  · change b = 0 ∨ 1024 * b < (v.inode d.nr).iSize at hb
    rw [hkeep.size] at hb
    rw [hzone b (hd.blocks b hb)]
    exact hd.blocks b hb
  · obtain ⟨p, haddr, hp, hz⟩ := zone_place hd.file hzj
    have hhas : d.vol.Has d.nr (j / 64 * 1024 + (16 * (j % 64) + a)) (d.cell j a) p := by
      refine ⟨?_, hp, hz ▸ hzj, ?_⟩
      · rw [show (j / 64 * 1024 + (16 * (j % 64) + a)) / 1024 = j / 64 by omega]
        exact haddr
      · rw [show (j / 64 * 1024 + (16 * (j % 64) + a)) % 1024 = 16 * (j % 64) + a by omega, hz]
        rfl
    have hnew := (hkeep.grows.has _ _ _ _ not_false hhas).byte
    rw [show (j / 64 * 1024 + (16 * (j % 64) + a)) % 1024 = 16 * (j % 64) + a by omega,
      hkeep.grows.zone p hp (hz ▸ hzj), hz] at hnew
    unfold cell
    rw [hzone _ hzj]
    exact hnew
  · unfold entries
    change (v.inode d.nr).iSize / 16 = _
    rw [hkeep.size]

end Dir

/-! ## Free zones -/

namespace Volume

variable {v v' : Volume} {n i z : ℕ}

/-- `new_block` succeeds so many times. -/
def HasZones : ℕ → Volume → Prop
  | 0, _ => True
  | n + 1, v => v.takeZone.1 ≠ 0 ∧ HasZones n v.takeZone.2

/-- The volumes have the same zone map. -/
structure SameMap (v v' : Volume) : Prop where
  first : v'.firstdatazone = v.firstdatazone
  nzones : v'.nzones = v.nzones
  blocks : v'.zmapBlocks = v.zmapBlocks
  zmap : v'.zmap = v.zmap

theorem SameMap.searchZmap (h : v.SameMap v') : v'.searchZmap n i = v.searchZmap n i := by
  induction n generalizing i with
  | zero => rfl
  | succ n ih =>
    unfold Volume.searchZmap
    rw [h.zmap, h.blocks, ih]

theorem SameMap.takeZone (h : v.SameMap v') :
    v'.takeZone.1 = v.takeZone.1 ∧ v.takeZone.2.SameMap v'.takeZone.2 := by
  unfold Volume.takeZone
  rw [h.searchZmap]
  cases v.searchZmap 8 0 with
  | none => exact ⟨rfl, h⟩
  | some b =>
    dsimp only
    rw [h.first, h.nzones, h.zmap]
    split_ifs
    · exact ⟨rfl, ⟨rfl, rfl, h.blocks, rfl⟩⟩
    · exact ⟨rfl, ⟨rfl, rfl, h.blocks, rfl⟩⟩

theorem HasZones.congr (hv : HasZones n v) (h : v.SameMap v') : HasZones n v' := by
  induction n generalizing v v' with
  | zero => trivial
  | succ n ih => exact ⟨h.takeZone.1 ▸ hv.1, ih hv.2 h.takeZone.2⟩

theorem HasZones.pred (hv : HasZones (n + 1) v) : HasZones n v := by
  induction n generalizing v with
  | zero => trivial
  | succ n ih => exact ⟨hv.1, ih hv.2⟩

theorem install_sameMap {s : Slot} : v.SameMap (v.install s z) := by
  refine ⟨install_firstdatazone, install_nzones, ?_, install_zmap⟩
  unfold install
  cases s <;> rfl

end Volume

namespace Dir

variable {d d' d'' : Dir} {a : Addr} {ks : List ℕ} {b i j k n z : ℕ} {name : Name}

theorem fill_room (slot : Slot) (h : d.vol.HasZones (n + 1)) :
    (d.fill slot).1.1 ≠ 0 ∧ (d.fill slot).2.vol.HasZones n := by
  unfold fill
  split
  · have htake := h.1
    have hrest := h.2
    rcases ht : d.vol.takeZone with ⟨z, v⟩
    rw [ht] at htake hrest
    dsimp only
    rw [if_neg htake]
    exact ⟨htake, hrest.congr Volume.install_sameMap⟩
  · rename_i hne
    exact ⟨hne, h.pred⟩

theorem create_room {ok : ℕ → Bool} (slot : Slot) (hok : ∀ n, ok n = true)
    (h : d.vol.HasZones (ks.length + 1)) :
    (create ok slot ks d).1.1 ≠ 0 := by
  induction ks generalizing slot d with
  | nil => exact (fill_room slot h).1
  | cons k ks ih =>
    obtain ⟨hne, hrest⟩ := fill_room slot h
    unfold create
    rcases hf : d.fill slot with ⟨⟨z, new⟩, d₁⟩
    rw [hf] at hne hrest
    dsimp only
    rw [if_pos ⟨hne, by rw [hok, Bool.or_true]⟩]
    exact ih _ hrest

theorem createBlock_room {new : Bool} (hreads : ∀ b k, d.reads b k = true) (h : d.vol.HasZones 3)
    (hc : d.createBlock b = .ok ((z, new), d')) : z ≠ 0 := by
  unfold createBlock at hc
  cases hp : bmapPath b with
  | none =>
    rw [hp] at hc
    cases hc
  | some p =>
    rw [hp] at hc
    have hlen : p.2.length ≤ 2 := by
      unfold bmapPath at hp
      split_ifs at hp <;> cases hp <;> simp
    have hzones : d.vol.HasZones (p.2.length + 1) := by
      obtain hl | hl | hl : p.2.length = 0 ∨ p.2.length = 1 ∨ p.2.length = 2 := by omega
      · rw [hl]
        exact h.pred.pred
      · rw [hl]
        exact h.pred
      · rw [hl]
        exact h
    have hne := create_room (.zone d.nr p.1) (hreads b) hzones
    rw [Except.ok.inj hc] at hne
    exact hne

/-! ## `find_entry` and `add_entry` -/

theorem Intact.match_iff (hd : d.Intact) (hlen : name.length ≤ 14) (hname : ∀ c ∈ name, c ≠ 0)
    (hi : i < d.entries) : d.Match name i ↔ ∃ n, d.used i = some (name, n) := by
  have hz := hd.zoneAt (hd.block hi)
  unfold Match used
  constructor
  · rintro ⟨z, hz', hsame⟩
    rw [hz] at hz'
    cases hz'
    obtain ⟨h0, hkey⟩ := (sameName_iff hlen hname).1 hsame
    exact ⟨d.ino i, by rw [if_pos ⟨hi, h0⟩, hkey]⟩
  · rintro ⟨n, hn⟩
    split_ifs at hn with hu
    obtain ⟨hkey, -⟩ := Prod.mk.inj (Option.some.inj hn)
    exact ⟨_, hz, (sameName_iff hlen hname).2 ⟨hu.2, hkey⟩⟩

/-- The search through so many entries, as far as the blocks are there. -/
theorem Intact.scan_examined (hd : d.Intact) {e fuel : ℕ} (hfuel : e < fuel)
    (hblocks : ∀ b, 64 * b < e → (∀ j < 64 * b, ¬ d.Match name j) → d.zone b ≠ 0) :
    ∃ r, d.scan name e fuel = .ok r ∧ d.Examined name e r := by
  have hz := hd.zoneAt (hd.blocks 0 (.inl rfl))
  rw [scan_eq hz]
  obtain ⟨-, hrun⟩ | ⟨hall, -⟩ := findLoop_spec name e (show 0 = 64 * 0 + 0 from rfl)
    (by decide) hz (show e - 0 < fuel from hfuel) fun j hj => absurd hj (Nat.not_lt_zero j)
  · exact hrun
  · refine absurd (fun b _ hlt hmiss => ?_) hall
    have hb := hblocks b hlt hmiss
    refine ⟨?_, fun h => ?_⟩
    · by_contra hbig
      exact hb (zone_eq_zero_of_big (not_lt.1 hbig))
    · rw [hd.zoneAt hb] at h
      cases h

/-- The search through the entries of the directory. -/
theorem Intact.scan_run (hd : d.Intact) (hlen : name.length ≤ 14) (hname : ∀ c ∈ name, c ≠ 0)
    {fuel : ℕ} (hfuel : d.entries < fuel) :
    (d.scan name d.entries fuel = .ok none ∧ ∀ i n, d.used i ≠ some (name, n)) ∨
    ∃ i, d.scan name d.entries fuel = .ok (some (d.zone (i / 64), i % 64)) ∧
      d.used i = some (name, d.ino i) := by
  obtain ⟨r, hr, hex⟩ := hd.scan_examined hfuel fun b hlt _ =>
    hd.blocks b (.inr (by rw [hd.size_eq]; omega))
  cases r with
  | none =>
    refine .inl ⟨hr, fun i n hu => ?_⟩
    have hi : i < d.entries := by
      unfold used at hu
      split_ifs at hu with h
      exact h.1
    exact hex i hi ((hd.match_iff hlen hname hi).2 ⟨n, hu⟩)
  | some q =>
    obtain ⟨z, k⟩ := q
    obtain ⟨i, hi, hz, hk, hm, -⟩ := hex
    obtain ⟨n, hn⟩ := (hd.match_iff hlen hname hi).1 hm
    rw [hd.zoneAt (hd.block hi)] at hz
    cases hz
    subst hk
    refine .inr ⟨i, hr, ?_⟩
    unfold used at hn ⊢
    split_ifs at hn ⊢ with hu
    rw [(Prod.mk.inj (Option.some.inj hn)).1]

/-- The search ends at the first entry with the name, even if it would go on behind the directory. -/
theorem Intact.scan_first (hd : d.Intact) (hlen : name.length ≤ 14) (hname : ∀ c ∈ name, c ≠ 0)
    (hi : d.used i = some (name, n)) (hfirst : ∀ j < i, ∀ n, d.used j ≠ some (name, n)) {e fuel : ℕ}
    (hie : i < e) (hfuel : e < fuel) :
    d.scan name e fuel = .ok (some (d.zone (i / 64), i % 64)) := by
  have hlt : i < d.entries := by
    unfold used at hi
    split_ifs at hi with h
    exact h.1
  have hmatch : d.Match name i := (hd.match_iff hlen hname hlt).2 ⟨n, hi⟩
  have hblocks : ∀ b, 64 * b < e → (∀ j < 64 * b, ¬ d.Match name j) → d.zone b ≠ 0 := by
    intro b _ hmiss
    have hbi : 64 * b ≤ i := not_lt.1 fun h => hmiss i h hmatch
    exact hd.blocks b (.inr (by rw [hd.size_eq]; omega))
  obtain ⟨r, hr, hex⟩ := hd.scan_examined hfuel hblocks
  rw [hr]
  cases r with
  | none => exact absurd hmatch (hex i hie)
  | some q =>
    obtain ⟨z, k⟩ := q
    obtain ⟨j, hj, hz, hk, hm, hbefore⟩ := hex
    have hji : j = i := by
      obtain hji | hji | hji := Nat.lt_trichotomy j i
      · obtain ⟨n', hn'⟩ := (hd.match_iff hlen hname (hji.trans hlt)).1 hm
        exact absurd hn' (hfirst j hji n')
      · exact hji
      · exact absurd hmatch (hbefore i hji)
    subst hji
    rw [hd.zoneAt (hd.block hlt)] at hz
    cases hz
    rw [hk]

/-- What `find_entry` comes to, where `..` is an entry like others. -/
theorem Intact.findEntry_run {up : Above} (hd : d.Intact) (hname : ∀ c ∈ name, c ≠ 0)
    (hup : name = [0x2e, 0x2e] → up = .plain) {fuel : ℕ} (hfuel : d.entries < fuel) :
    (d.findEntry up name fuel = .ok (none, d) ∧
      (name ≠ [] → ∀ i n, d.used i ≠ some (name.take 14, n))) ∨
    (name ≠ [] ∧ ∃ i, d.findEntry up name fuel = .ok (some (d.zone (i / 64), i % 64), d) ∧
      d.used i = some (name.take 14, d.ino i)) := by
  have hdot : d.dotdot up (name.take 14) = (d, name.take 14) := by
    unfold dotdot
    split
    · rename_i h
      have hlen : name.length ≤ 14 := by
        have := congrArg List.length h
        rw [List.length_take] at this
        change min 14 name.length = 2 at this
        omega
      rw [List.take_of_length_le hlen] at h
      rw [hup h]
    · rfl
  by_cases hne : name = []
  · subst hne
    exact .inl ⟨rfl, fun h => absurd rfl h⟩
  have hfind : d.findEntry up name fuel =
      (d.scan (name.take 14) d.entries fuel >>= fun r => return (r, d)) := by
    unfold findEntry
    dsimp only
    rw [if_neg (by simpa using hne), hdot]
    rfl
  have hlen : (name.take 14).length ≤ 14 := by
    rw [List.length_take]
    exact min_le_left _ _
  rw [hfind]
  obtain ⟨hs, hnone⟩ | ⟨i, hs, hi⟩ :=
    hd.scan_run hlen (fun c hc => hname c (List.mem_of_mem_take hc)) hfuel
  · rw [hs]
    exact .inl ⟨rfl, fun _ => hnone⟩
  · rw [hs]
    exact .inr ⟨hne, i, rfl, hi⟩

/-- The loop of `add_entry` ends at the first free entry, or behind the last one. -/
theorem Intact.addLoop_run (hd : d.Intact) (name : Name) (hi : i = 64 * b + k) (hk : k ≤ 64) (hz : d.zone b ≠ 0)
    (hused : ∀ j < i, j < d.entries ∧ d.ino j ≠ 0) (hle : i ≤ d.entries) (hn : d.entries - i < n) :
    (∃ v, addLoop name n i (some (d.zone b)) k d = .ok (none, { d with vol := v }) ∧
      d.vol.Keeps v ∧ ¬ d.vol.HasZones 3) ∨
    ∃ e v, d.vol.Keeps v ∧ e ≤ d.entries ∧ (e < d.entries → v = d.vol ∧ d.ino e = 0) ∧
      zone { d with vol := v } (e / 64) ≠ 0 ∧
      addLoop name n i (some (d.zone b)) k d =
        .ok (some (zone { d with vol := v } (e / 64), e % 64),
          (extend { d with vol := v } e (zone { d with vol := v } (e / 64)) (e % 64)).putName name
            (zone { d with vol := v } (e / 64)) (e % 64)) := by
  induction n generalizing i b k with
  | zero => exact absurd hn (Nat.not_lt_zero _)
  | succ n ih =>
    unfold addLoop
    -- The turn once `de` is within a block.
    have here : ∀ b₁ k₁, i = 64 * b₁ + k₁ → k₁ < 64 → d.zone b₁ ≠ 0 →
        (∃ v, (if (d.extend i (d.zone b₁) k₁).vol.entry (d.zone b₁) (8 * k₁) = 0 then
            Except.ok (some (d.zone b₁, k₁), (d.extend i (d.zone b₁) k₁).putName name (d.zone b₁) k₁)
          else addLoop name n (i + 1) (some (d.zone b₁)) (k₁ + 1) (d.extend i (d.zone b₁) k₁)) =
          .ok (none, { d with vol := v }) ∧ d.vol.Keeps v ∧ ¬ d.vol.HasZones 3) ∨
        ∃ e v, d.vol.Keeps v ∧ e ≤ d.entries ∧ (e < d.entries → v = d.vol ∧ d.ino e = 0) ∧
          zone { d with vol := v } (e / 64) ≠ 0 ∧
          (if (d.extend i (d.zone b₁) k₁).vol.entry (d.zone b₁) (8 * k₁) = 0 then
            Except.ok (some (d.zone b₁, k₁), (d.extend i (d.zone b₁) k₁).putName name (d.zone b₁) k₁)
          else addLoop name n (i + 1) (some (d.zone b₁)) (k₁ + 1) (d.extend i (d.zone b₁) k₁)) =
          .ok (some (zone { d with vol := v } (e / 64), e % 64),
            (extend { d with vol := v } e (zone { d with vol := v } (e / 64)) (e % 64)).putName name
              (zone { d with vol := v } (e / 64)) (e % 64)) := by
      intro b₁ k₁ hi₁ hk₁ hz₁
      have hdiv : i / 64 = b₁ := by omega
      have hmod : i % 64 = k₁ := by omega
      have hino : d.ino i = d.vol.entry (d.zone b₁) (8 * k₁) := by
        rw [ino_eq, hdiv, hmod]
      by_cases hfree : d.entries ≤ i ∨ d.ino i = 0
      · have hsize : (d.vol.inode d.nr).iSize ≤ i * 16 ∨ d.vol.entry (d.zone b₁) (8 * k₁) = 0 := by
          rw [hd.size_eq, ← hino]
          exact hfree.imp_left fun h => Nat.mul_le_mul_right 16 h
        rw [if_pos (entry_extend hsize)]
        refine .inr ⟨i, d.vol, .refl hd.sound, hle, fun hlt => ⟨rfl, ?_⟩, ?_, ?_⟩
        · exact hfree.resolve_left (not_le.2 hlt)
        · rw [hdiv]
          exact hz₁
        · rw [hdiv, hmod]
      · obtain ⟨hlt, hne⟩ := not_or.1 hfree
        rw [not_le] at hlt
        rw [extend_eq (by rw [hd.size_eq]; omega), if_neg (hino ▸ hne)]
        refine ih (by omega) hk₁ hz₁ (fun j hj => ?_) hlt (by omega)
        obtain hj | rfl := Nat.lt_succ_iff_lt_or_eq.1 hj
        · exact hused j hj
        · exact ⟨hlt, hne⟩
    by_cases hk64 : k < 64
    · rw [show d.room i (some (d.zone b)) k = .ok (.entry (d.zone b) k, d) from if_pos hk64]
      exact here b k hi hk64 hz
    -- At the end of a block the next one is looked for, or made.
    have hdiv : i / 64 = b + 1 := by omega
    have hmod : i % 64 = 0 := by omega
    have hblocks : b + 1 ≤ 2 ^ 16 := hd.blocks_le fun b' hb' => hd.blocks b' (by
      right
      rw [hd.size_eq]
      omega)
    obtain ⟨y, new, v, hcreate, hkeep, hplace, hlast⟩ :=
      createBlock_spec hd.sound hd.file (show b + 1 < 7 + 512 + 512 * 512 by omega)
    have hroom : d.room i (some (d.zone b)) k = (if y = 0 then .ok (.stop, { d with vol := v })
        else .ok (.entry y 0, { d with vol := v })) := by
      unfold room
      dsimp only
      rw [if_neg hk64, hdiv, hcreate]
      change (if y = 0 then _ else if (new || d.reads (b + 1) 0) = true then _ else _) = _
      rw [hd.reads, Bool.or_true, if_pos rfl]
      rfl
    rw [hroom]
    by_cases hzero : d.zone (b + 1) = 0
    · rw [if_pos hzero] at hlast
      have hend : d.entries = i := by
        refine le_antisymm (not_lt.1 fun hlt => ?_) hle
        have := hd.block hlt
        rw [hdiv] at this
        exact this hzero
      by_cases hy : y = 0
      · rw [if_pos hy]
        refine .inl ⟨v, rfl, hkeep, fun hzones => ?_⟩
        exact createBlock_room hd.reads hzones hcreate hy
      · rw [if_neg hy]
        obtain ⟨-, hempty⟩ := hlast.resolve_left hy
        obtain ⟨p, haddr, hp, hpz⟩ := hplace hy
        have hzone : zone { d with vol := v } (b + 1) = y := by
          rw [zone_of_live (d := { d with vol := v }) hd.reads haddr hp.live]
          exact hpz
        refine .inr ⟨i, v, hkeep, hle, fun hlt => absurd hend hlt.ne', ?_, ?_⟩
        · rw [hdiv, hzone]
          exact hy
        · rw [hdiv, hmod, hzone]
          exact if_pos (entry_extend (d := { d with vol := v }) (.inr (hempty 0)))
    · rw [if_neg hzero] at hlast
      obtain ⟨rfl, rfl, rfl⟩ := hlast
      rw [if_neg hzero]
      exact here (b + 1) 0 (by omega) (by decide) hzero

theorem key_congr (h : ∀ a < 14, d'.cell i (2 + a) = d.cell j (2 + a)) : d'.key i = d.key j := by
  unfold key
  rw [List.map_congr_left fun a ha => h a (List.mem_range.1 ha)]

theorem Off.used (h : d.Off d' i) (hd : d.Intact)
    (hent : ∀ j, j ≠ i → (j < d'.entries ↔ j < d.entries)) (hj : j ≠ i) : d'.used j = d.used j := by
  unfold Dir.used
  simp only [hent j hj]
  by_cases hlt : j < d.entries
  · have hcell := h.cell j hj (hd.block hlt)
    have hino : d'.ino j = d.ino j := by
      unfold ino
      rw [hcell 0 (by decide), hcell 1 (by decide)]
    rw [hino, key_congr fun a ha => hcell (2 + a) (by omega)]
  · rw [if_neg fun hh => hlt hh.1, if_neg fun hh => hlt hh.1]

/-- The name is written to entry `i`. -/
theorem putName_spec (hd : d.Intact) (hi : d.zone (i / 64) ≠ 0) (hlen : name.length ≤ 14)
    (hname : ∀ c ∈ name, c ≠ 0) :
    d.Off (d.putName name (d.zone (i / 64)) (i % 64)) i ∧
      (d.putName name (d.zone (i / 64)) (i % 64)).ino i = d.ino i ∧
      (d.putName name (d.zone (i / 64)) (i % 64)).key i = name := by
  obtain ⟨f, hf⟩ : ∃ f : ℕ → Byte, f = fun a =>
      if 16 * (i % 64) + 2 ≤ a ∧ a < 16 * (i % 64) + 16 then name.getD (a - (16 * (i % 64) + 2)) 0
      else d.vol.data (d.zone (i / 64)) a := ⟨_, rfl⟩
  have hput : d.putName name (d.zone (i / 64)) (i % 64) =
      { d with vol := d.vol.setData (d.zone (i / 64)) f } := by
    rw [hf]
    rfl
  have hother : ∀ a, ¬ (16 * (i % 64) + 2 ≤ a ∧ a < 16 * (i % 64) + 16) →
      f a = d.vol.data (d.zone (i / 64)) a := by
    intro a ha
    rw [hf]
    exact if_neg ha
  obtain ⟨hoff, hcell⟩ := write_spec hd hi fun a ha => hother a (by omega)
  have hchar : ∀ a < 14, f (16 * (i % 64) + (2 + a)) = name.getD a 0 := by
    intro a ha
    rw [hf]
    dsimp only
    rw [if_pos (by omega), show 16 * (i % 64) + (2 + a) - (16 * (i % 64) + 2) = a by omega]
  rw [hput]
  refine ⟨hoff, ?_, ?_⟩
  · unfold ino
    rw [hcell 0 (by decide), hcell 1 (by decide), hother _ (by omega), hother _ (by omega)]
    rfl
  · have hkey : key { d with vol := d.vol.setData (d.zone (i / 64)) f } i =
        ((List.range 14).map fun a => name.getD a 0).takeWhile (· ≠ 0) := by
      unfold key
      rw [List.map_congr_left fun a ha => ?_]
      have ha := List.mem_range.1 ha
      rw [hcell _ (by omega), hchar a ha]
    rw [hkey, takeWhile_map_range hlen hname]
    refine ⟨?_, fun _ => by simp⟩
    refine List.ext_getElem (by simp) fun a h1 h2 => ?_
    rw [List.getElem_map, List.getElem_range, List.getD_eq_getElem?_getD, List.getElem?_eq_getElem h1]
    rfl

/-- The entry that `add_entry` gives is free, and has the name; the others are as before. -/
theorem Intact.addEntry_run (hd : d.Intact) (hne : name ≠ []) (hname : ∀ c ∈ name, c ≠ 0) {fuel : ℕ}
    (hfuel : d.entries < fuel) :
    (∃ d', d.addEntry name fuel = .ok (none, d') ∧ d'.Intact ∧ d'.used = d.used ∧
      d'.entries = d.entries ∧ (∀ i, d.Off d' i) ∧ ¬ d.vol.HasZones 3) ∨
    ∃ i d', d.addEntry name fuel = .ok (some (d'.zone (i / 64), i % 64), d') ∧ d.used i = none ∧
      d.Off d' i ∧ d'.zone (i / 64) ≠ 0 ∧ i < d'.entries ∧ d'.entries ≤ d.entries + 1 ∧
      (∀ j, j ≠ i → (j < d'.entries ↔ j < d.entries)) ∧ d'.ino i = 0 ∧ d'.key i = name.take 14 := by
  have hz : d.zone 0 ≠ 0 := hd.blocks 0 (.inl rfl)
  have hblock : (d.vol.inode d.nr).iZone 0 = d.zone 0 := rfl
  have hlen : (name.take 14).length ≤ 14 := by
    rw [List.length_take]
    exact min_le_left _ _
  have htake : ∀ c ∈ name.take 14, c ≠ 0 := fun c hc => hname c (List.mem_of_mem_take hc)
  unfold addEntry
  dsimp only
  rw [hblock]
  simp only [if_pos (show name.take 14 ≠ [] ∧ d.zone 0 ≠ 0 ∧ d.reads 0 0 = true from
    ⟨by simpa using hne, hz, hd.reads 0 0⟩)]
  obtain ⟨v, hrun, hkeep, hzones⟩ | ⟨e, v, hkeep, hle, hfree, hze, hrun⟩ :=
    hd.addLoop_run (name.take 14) (show 0 = 64 * 0 + 0 from rfl) (Nat.zero_le _) hz
      (fun j hj => absurd hj (Nat.not_lt_zero j)) (Nat.zero_le _) (show d.entries - 0 < fuel from hfuel)
  · refine .inl ⟨_, hrun, (hd.create_off hkeep 0).1.intact, funext fun j => ?_,
      (hd.create_off hkeep 0).2, fun i => (hd.create_off hkeep i).1, hzones⟩
    obtain ⟨hoff, hent⟩ := hd.create_off hkeep (j + 1)
    exact hoff.used hd (fun j' _ => by rw [hent]) (Nat.succ_ne_self j).symm
  · obtain ⟨hoff, hent⟩ := hd.create_off hkeep e
    obtain ⟨d₁, hd₁⟩ : ∃ d₁ : Dir, d₁ = { d with vol := v } := ⟨_, rfl⟩
    rw [← hd₁] at hrun hoff hent hze
    -- The entry before its name is written.
    obtain ⟨d₂, hd₂, hoff₂, hze₂, hino₂, he₂, hent₂⟩ : ∃ d₂, d₂ = d₁.extend e (d₁.zone (e / 64)) (e % 64) ∧
        d₁.Off d₂ e ∧ d₂.zone (e / 64) = d₁.zone (e / 64) ∧ d₂.ino e = 0 ∧
        e < d₂.entries ∧ d₂.entries = max d.entries (e + 1) := by
      by_cases hlt : e < d.entries
      · obtain ⟨hv, hino⟩ := hfree hlt
        have hdd : d₁ = d := by
          rw [hd₁, hv]
        subst hdd
        refine ⟨d₁, (extend_eq (by rw [hd.size_eq]; omega)).symm, ⟨hd, fun _ _ => rfl,
          fun _ _ _ _ _ => rfl⟩, rfl, hino, hlt, by omega⟩
      · have hend : d₁.entries = e := by omega
        obtain ⟨hset, hino, hcell⟩ := setIno_spec (n := 0) hoff.intact hze (by decide)
        obtain ⟨d₃, hd₃⟩ : ∃ d₃ : Dir, d₃ =
          { d₁ with vol := d₁.vol.set (.entry (d₁.zone (e / 64)) (8 * (e % 64))) 0 } := ⟨_, rfl⟩
        rw [← hd₃] at hset hino hcell
        have hz₃ : d₃.zone (e / 64) = d₁.zone (e / 64) := hset.zone _ hze
        have hent₃ : d₃.entries = e := by
          rw [← hend, hd₃]
          unfold entries
          rw [Volume.set_iSize]
        obtain ⟨hgrow, hentg, hcellg⟩ := grow_spec hset.intact (hz₃ ▸ hze) hent₃
        refine ⟨_, ?_, hset.trans hgrow, ?_, ?_, ?_, ?_⟩
        · unfold extend
          rw [if_pos (by rw [hoff.intact.size_eq, hend]), hd₃]
        · rw [hgrow.zone _ (hz₃ ▸ hze), hz₃]
        · unfold ino at hino ⊢
          rw [hcellg, hcellg]
          exact hino
        · rw [hentg]
          exact Nat.lt_succ_self e
        · rw [hentg]
          omega
    rw [← hd₂, ← hze₂] at hrun
    obtain ⟨hput, hinop, hkeyp⟩ := putName_spec hoff₂.intact (hze₂ ▸ hze) hlen htake
    have hzp : (d₂.putName (name.take 14) (d₂.zone (e / 64)) (e % 64)).zone (e / 64) =
        d₂.zone (e / 64) := hput.zone _ (hze₂ ▸ hze)
    have hentp : (d₂.putName (name.take 14) (d₂.zone (e / 64)) (e % 64)).entries = d₂.entries := rfl
    refine .inr ⟨e, _, ?_, ?_, (hoff.trans hoff₂).trans hput, ?_, ?_, ?_, fun j hj => ?_, ?_, hkeyp⟩
    · rw [hzp]
      exact hrun
    · unfold used
      by_cases hlt : e < d.entries
      · exact if_neg fun h => h.2 (hfree hlt).2
      · exact if_neg fun h => hlt h.1
    · rw [hzp, hze₂]
      exact hze
    · exact he₂
    · rw [hentp, hent₂]
      omega
    · rw [hentp, hent₂]
      omega
    · rw [hinop, hino₂]

end Dir

/-! ## Calls -/

/-- The ways in which the system calls use a directory. -/
inductive Op
  /-- A name that is not found is added, and the number of a new inode stored. -/
  | create (name : Name) (inr : BitVec 16)
  /-- The inode number of a name that is found is cleared. -/
  | remove (name : Name)
  | lookup (name : Name)

inductive Answer
  | number (n : ℕ)
  | missing
  | exist
  /-- `add_entry` fails. -/
  | full
  | done

def Op.name : Op → Name
  | .create name _ => name
  | .remove name => name
  | .lookup name => name

/-- The name is that of a path and not a special case of `..`, and an inode number is stored. -/
structure Op.Valid (up : Above) (op : Op) : Prop where
  chars : ∀ c ∈ op.name, c ≠ 0
  dotdot : op.name = [0x2e, 0x2e] → up = .plain
  inr : ∀ name inr, op = .create name inr → inr ≠ 0

namespace Dir

/-- `de->inode = n`. -/
def store (d : Dir) (q : ℕ × ℕ) (n : ℕ) : Dir :=
  { d with vol := d.vol.set (.entry q.1 (8 * q.2)) n }

def step (up : Above) (fuel : ℕ) (d : Dir) (op : Op) : Except Fault (Answer × Dir) := do
  let (r, d) ← d.findEntry up op.name fuel
  match op, r with
  | .lookup _, none => return (.missing, d)
  | .lookup _, some q => return (.number (d.vol.entry q.1 (8 * q.2)), d)
  | .remove _, none => return (.missing, d)
  | .remove _, some q => return (.done, d.store q 0)
  | .create _ _, some _ => return (.exist, d)
  | .create name inr, none => do
    let (r, d) ← d.addEntry name fuel
    match r with
    | none => return (.full, d)
    | some q => return (.done, d.store q inr.toNat)

/-- Calls, one after the other, with their answers. -/
def run (up : Above) (fuel : ℕ) : List Op → Dir → Except Fault (List (Op × Answer) × Dir)
  | [], d => .ok ([], d)
  | op :: ops, d => do
    let (ans, d) ← d.step up fuel op
    let (log, d) ← run up fuel ops d
    return ((op, ans) :: log, d)

end Dir

/-! ## The map -/

/-- What the map has for a name. -/
def look (m : Name → Option ℕ) (name : Name) : Option ℕ :=
  if name = [] then none else m (name.take 14)

/-- The answer that the map gives. -/
def Op.Right (m : Name → Option ℕ) (room : Prop) : Op → Answer → Prop
  | .lookup name, ans => ans = (look m name).elim .missing .number
  | .remove name, ans => ans = (look m name).elim .missing fun _ => .done
  | .create name _, ans =>
    (look m name ≠ none ∧ ans = .exist) ∨
    (look m name = none ∧ name ≠ [] ∧ ans = .done) ∨
    (look m name = none ∧ (name = [] ∨ ¬ room) ∧ ans = .full)

/-- The map after a call. -/
def Op.after (m : Name → Option ℕ) : Op → Answer → Name → Option ℕ
  | .create name inr, .done => Function.update m (name.take 14) (some inr.toNat)
  | .remove name, .done => Function.update m (name.take 14) none
  | _, _ => m

/-- What was added and not removed since, over what there was before. -/
def after (m : Name → Option ℕ) (log : List (Op × Answer)) : Name → Option ℕ :=
  log.foldl (fun m e => e.1.after m e.2) m

namespace Dir

variable {d d' : Dir} {up : Above} {m : Name → Option ℕ} {fuel i n : ℕ} {name : Name} {op : Op}

/-- An entry gets an inode number. -/
theorem store_used (hd : d.Intact) (hz : d.zone (i / 64) ≠ 0) (hi : i < d.entries) (hn : n < 2 ^ 16) :
    (d.store (d.zone (i / 64), i % 64) n).Intact ∧
      (d.store (d.zone (i / 64), i % 64) n).entries = d.entries ∧
      (d.store (d.zone (i / 64), i % 64) n).used =
        Function.update d.used i (if n = 0 then none else some (d.key i, n)) := by
  obtain ⟨hoff, hino, hcell⟩ := setIno_spec hd hz hn
  have hent : (d.store (d.zone (i / 64), i % 64) n).entries = d.entries := by
    unfold entries store
    dsimp only
    rw [Volume.set_iSize]
  refine ⟨hoff.intact, hent, funext fun j => ?_⟩
  by_cases hj : j = i
  · subst hj
    rw [Function.update_self]
    unfold used
    have hkey : (d.store (d.zone (j / 64), j % 64) n).key j = d.key j := key_congr hcell
    have hino' : (d.store (d.zone (j / 64), j % 64) n).ino j = n := hino
    simp only [hkey, hino', hent]
    by_cases h0 : n = 0
    · rw [if_pos h0, if_neg fun h => h.2 h0]
    · rw [if_neg h0, if_pos ⟨hi, h0⟩]
  · rw [Function.update_of_ne hj]
    exact hoff.used hd (fun j' _ => by rw [← hent]; rfl) hj

theorem used_some {e : Name × ℕ} (h : d.used i = some e) :
    i < d.entries ∧ d.ino i ≠ 0 ∧ e = (d.key i, d.ino i) := by
  unfold used at h
  split_ifs at h with hu
  exact ⟨hu.1, hu.2, (Option.some.inj h).symm⟩

/-- `find_entry` agrees with the map. -/
theorem Intact.find_look (hd : d.Intact) (hm : SlotMap.Holds d.used m) (hname : ∀ c ∈ name, c ≠ 0)
    (hup : name = [0x2e, 0x2e] → up = .plain) (hfuel : d.entries < fuel) :
    (look m name = none ∧ d.findEntry up name fuel = .ok (none, d)) ∨
    (name ≠ [] ∧ ∃ i, i < d.entries ∧ d.findEntry up name fuel = .ok (some (d.zone (i / 64), i % 64), d) ∧
      d.used i = some (name.take 14, d.ino i) ∧ look m name = some (d.ino i)) := by
  unfold look
  obtain ⟨hfind, hnone⟩ | ⟨hne, i, hfind, hi⟩ := hd.findEntry_run hname hup hfuel
  · refine .inl ⟨?_, hfind⟩
    by_cases hne : name = []
    · rw [if_pos hne]
    · rw [if_neg hne]
      exact hm.none_iff.2 (hnone hne)
  · refine .inr ⟨hne, i, (used_some hi).1, hfind, hi, ?_⟩
    rw [if_neg hne]
    exact hm.get hi

/-- One call. -/
theorem step_spec (hd : d.Intact) (hm : SlotMap.Holds d.used m) (hop : op.Valid up)
    (hfuel : d.entries < fuel) :
    ∃ ans d', d.step up fuel op = .ok (ans, d') ∧ d'.Intact ∧
      SlotMap.Holds d'.used (op.after m ans) ∧ op.Right m (d.vol.HasZones 3) ans ∧
      d'.entries ≤ d.entries + 1 := by
  have hfind := hd.find_look hm hop.chars hop.dotdot hfuel
  unfold step
  obtain ⟨hlook, hfind⟩ | ⟨hne, i, hi, hfind, hused, hlook⟩ := hfind
  · rw [hfind]
    cases op with
    | lookup name =>
      refine ⟨_, d, rfl, hd, hm, ?_, Nat.le_succ _⟩
      change _ = (look m name).elim _ _
      rw [show look m name = none from hlook]
      rfl
    | remove name =>
      refine ⟨_, d, rfl, hd, hm, ?_, Nat.le_succ _⟩
      change _ = (look m name).elim _ _
      rw [show look m name = none from hlook]
      rfl
    | create name inr =>
      by_cases hne : name = []
      · refine ⟨.full, d, ?_, hd, hm, .inr (.inr ⟨hlook, .inl hne, rfl⟩), Nat.le_succ _⟩
        subst hne
        rfl
      have hk : m (name.take 14) = none := by
        have h := hlook
        unfold look at h
        rwa [if_neg (show ¬ (Op.create name inr).name = [] from hne)] at h
      obtain ⟨d', hadd, hint, hused, hent, -, hzones⟩ |
        ⟨i, d', hadd, hfree, hoff, hz, hi, hle, hent, hino, hkey⟩ :=
        hd.addEntry_run hne hop.chars hfuel
      · refine ⟨.full, d', ?_, hint, hused ▸ hm, .inr (.inr ⟨hlook, .inr hzones, rfl⟩), ?_⟩
        · change (d.addEntry name fuel >>= _) = _
          rw [hadd]
          rfl
        · rw [hent]
          exact Nat.le_succ _
      · obtain ⟨hint, hent', hused⟩ := store_used hoff.intact hz hi inr.isLt
        refine ⟨.done, d'.store (d'.zone (i / 64), i % 64) inr.toNat, ?_, hint, ?_,
          .inr (.inl ⟨hlook, hne, rfl⟩), ?_⟩
        · change (d.addEntry name fuel >>= _) = _
          rw [hadd]
          rfl
        · have hinr : inr.toNat ≠ 0 := by
            intro h0
            exact hop.inr name inr rfl (BitVec.eq_of_toNat_eq h0)
          have hupd : Function.update d'.used i (some (name.take 14, inr.toNat)) =
              Function.update d.used i (some (name.take 14, inr.toNat)) := by
            funext j
            by_cases hj : j = i
            · rw [hj, Function.update_self, Function.update_self]
            · rw [Function.update_of_ne hj, Function.update_of_ne hj, hoff.used hd hent hj]
          rw [hused, if_neg hinr, hkey, hupd]
          exact hm.insert hfree hk
        · rw [hent']
          exact hle
  · rw [hfind]
    have hk : m (op.name.take 14) = some (d.ino i) := by
      unfold look at hlook
      rwa [if_neg hne] at hlook
    cases op with
    | lookup name =>
      refine ⟨_, d, rfl, hd, hm, ?_, Nat.le_succ _⟩
      change _ = (look m name).elim _ _
      rw [show look m name = some (d.ino i) from hlook, ino_eq]
      rfl
    | remove name =>
      obtain ⟨hint, hent, hused'⟩ := store_used (n := 0) hd (hd.block hi) hi (by decide)
      refine ⟨_, d.store (d.zone (i / 64), i % 64) 0, rfl, hint, ?_, ?_, hent.le.trans (Nat.le_succ _)⟩
      · rw [hused', if_pos rfl]
        exact hm.erase hused
      · change _ = (look m name).elim _ _
        rw [show look m name = some (d.ino i) from hlook]
        rfl
    | create name inr =>
      refine ⟨.exist, d, rfl, hd, hm, .inl ⟨?_, rfl⟩, Nat.le_succ _⟩
      rw [show look m name = some (d.ino i) from hlook]
      exact Option.some_ne_none _

/-- Any calls. -/
theorem run_spec {ops : List Op} (hd : d.Intact) (hm : SlotMap.Holds d.used m)
    (hops : ∀ op ∈ ops, op.Valid up) (hfuel : d.entries + ops.length < fuel) :
    ∃ log d', d.run up fuel ops = .ok (log, d') ∧ d'.Intact ∧ SlotMap.Holds d'.used (after m log) ∧
      log.map Prod.fst = ops ∧ d'.entries ≤ d.entries + ops.length := by
  induction ops generalizing d m with
  | nil => exact ⟨[], d, rfl, hd, hm, rfl, le_rfl⟩
  | cons op ops ih =>
    rw [List.length_cons] at hfuel
    obtain ⟨ans, d₁, hstep, hd₁, hm₁, -, hle⟩ :=
      step_spec hd hm (hops op List.mem_cons_self) (show d.entries < fuel by omega)
    obtain ⟨log, d', hrun, hd', hm', hlog, hle'⟩ := ih hd₁ hm₁
      (fun o ho => hops o (List.mem_cons_of_mem _ ho)) (by omega)
    refine ⟨(op, ans) :: log, d', ?_, hd', hm', ?_, ?_⟩
    · unfold run
      rw [hstep]
      change (d₁.run up fuel ops >>= _) = _
      rw [hrun]
      rfl
    · rw [List.map_cons, hlog]
    · rw [List.length_cons]
      omega

/-- After any calls the entries that are in use are those of the map: `find_entry` finds what was added
and not removed since, with its number, no name is there twice, the next call is answered as the map
says, and `add_entry` leaves the other entries as they are. -/
theorem directory_map {ops : List Op} (hd : d.Intact) (hm : SlotMap.Holds d.used m)
    (hops : ∀ op ∈ ops, op.Valid up) (hfuel : d.entries + ops.length < fuel) :
    ∃ log d', d.run up fuel ops = .ok (log, d') ∧ log.map Prod.fst = ops ∧
      SlotMap.Holds d'.used (after m log) ∧
      (∀ name, (∀ c ∈ name, c ≠ 0) → (name = [0x2e, 0x2e] → up = .plain) →
        ∃ r, d'.findEntry up name fuel = .ok (r, d') ∧
          (r.map fun q => d'.vol.entry q.1 (8 * q.2)) = look (after m log) name) ∧
      (∀ op : Op, op.Valid up → ∃ ans d'', d'.step up fuel op = .ok (ans, d'') ∧
        op.Right (after m log) (d'.vol.HasZones 3) ans) ∧
      ∀ name, (∀ c ∈ name, c ≠ 0) → name ≠ [] → ∃ r d'', d'.addEntry name fuel = .ok (r, d'') ∧
        (d'.vol.HasZones 3 → r ≠ none) ∧
        ∀ i e, d'.used i = some e → d''.used i = some e ∧ r ≠ some (d''.zone (i / 64), i % 64) := by
  obtain ⟨log, d', hrun, hd', hm', hlog, hle⟩ := run_spec hd hm hops hfuel
  have hfuel' : d'.entries < fuel := by omega
  refine ⟨log, d', hrun, hlog, hm', fun name hname hup => ?_, fun op hop => ?_, fun name hname hne => ?_⟩
  · obtain ⟨hlook, hfind⟩ | ⟨-, i, -, hfind, -, hlook⟩ := hd'.find_look hm' hname hup hfuel'
    · exact ⟨none, hfind, hlook.symm⟩
    · refine ⟨_, hfind, ?_⟩
      rw [hlook, ino_eq]
      rfl
  · obtain ⟨ans, d'', hstep, -, -, hright, -⟩ := step_spec hd' hm' hop hfuel'
    exact ⟨ans, d'', hstep, hright⟩
  · obtain ⟨d'', hadd, -, hused, -, -, hzones⟩ | ⟨i, d'', hadd, hfree, hoff, hz, -, -, hent, -, -⟩ :=
      hd'.addEntry_run hne hname hfuel'
    · exact ⟨none, d'', hadd, fun h => absurd h hzones, fun i e he => ⟨hused ▸ he, nofun⟩⟩
    · refine ⟨_, d'', hadd, fun _ => nofun, fun j e he => ?_⟩
      have hji : j ≠ i := by
        rintro rfl
        rw [hfree] at he
        cases he
      refine ⟨(hoff.used hd' hent hji).trans he, fun heq => hji ?_⟩
      obtain ⟨hzone, hmod⟩ := Prod.mk.inj (Option.some.inj heq)
      have hdiv := hoff.intact.zone_inj hz hzone
      omega

end Dir

theorem holed_intact : (holed 32).Intact where
  sound := holed_sound
  dir := by decide
  size := ⟨2, rfl⟩
  blocks b hb := by
    have hb0 : b = 0 := by
      obtain rfl | hb := hb
      · rfl
      · change 1024 * b < 32 at hb
        omega
    rw [hb0]
    decide
  reads _ _ := rfl

/-- An entry is added, looked up and removed. -/
def threeOps : List Op :=
  [.create [0x78] 5, .lookup [0x78], .remove [0x78]]

theorem threeOps_valid : ∀ op ∈ threeOps, op.Valid .plain := by
  have hname : ∀ op ∈ threeOps, op.name = [0x78] := by
    rintro op (_ | ⟨_, _ | ⟨_, _ | ⟨_, h⟩⟩⟩)
    · rfl
    · rfl
    · rfl
    · cases h
  intro op hop
  refine ⟨fun c hc => ?_, fun _ => rfl, fun name inr h => ?_⟩
  · rw [hname op hop, List.mem_singleton] at hc
    rw [hc]
    decide
  · subst h
    rcases hop with _ | ⟨_, _ | ⟨_, _ | ⟨_, h⟩⟩⟩
    · decide
    · cases h

theorem directory_map_holed : ∃ log d', (holed 32).run .plain 8 threeOps = .ok (log, d') ∧
    SlotMap.Holds d'.used (after (fun _ => none) log) := by
  have hused : ∀ i, (holed 32).used i = none := fun i => if_neg fun h => h.2 rfl
  have hm : SlotMap.Holds (holed 32).used fun _ => none := by
    refine ⟨fun i j k a b hi => ?_, fun k a => iff_of_false nofun ?_⟩
    · rw [hused] at hi
      cases hi
    · rintro ⟨i, hi⟩
      rw [hused] at hi
      cases hi
  have hfuel : (holed 32).entries + threeOps.length < 8 := by decide
  obtain ⟨log, d', hrun, -, hmap, -⟩ := Dir.directory_map holed_intact hm threeOps_valid hfuel
  exact ⟨log, d', hrun, hmap⟩

end Linux011.Zones
