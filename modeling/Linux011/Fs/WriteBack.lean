import Linux011.Fs.Writers

/-!
# Blocks that are written back

The calls of `file_write` over the buffers of their blocks: `sync` puts a dirty buffer into a write request and
clears `b_dirt`, and `getblk` takes a clean buffer that nobody holds for another block. `file_write` sets
`b_dirt` before it copies the bytes, and `get_fs_byte` may sleep.

1. `Cache`: the blocks as `bread` gives them, what is on the device, and `b_dirt`. `cached`: the runs.
2. `Calm`: no buffer is put into a write request while bytes are still to be copied there.
3. `Kept`: a block that is not dirty is on the device. `Kept.next`.
4. `writes_kept`: nothing written is lost, nor is a zone.
-/

namespace Linux011.Zones

open Linux011.Fs (Byte)

/-- `file_write` calls, with the buffers of the device. -/
structure Cache (ι : Type*) where
  /-- The calls, and the blocks as `bread` gives them: of the buffer, if there is one. -/
  calls : State ι
  disk : ℕ → ℕ → Byte
  /-- `b_dirt`. -/
  dirt : ℕ → Bool
  /-- The buffer is locked, for a write request. -/
  locked : ℕ → Bool

inductive Access (ι : Type*)
  | call (e : Event ι)
  /-- `ll_rw_block(WRITE,bh)` in `sys_sync` or `sync_dev`. -/
  | sync (block : ℕ)
  /-- The device has written the block. -/
  | written (block : ℕ)
  /-- `getblk` takes the buffer for another block. -/
  | reuse (block : ℕ)

/-- The buffers in which the next step of a call sets `b_dirt`. -/
def Proc.dirties (pr : Proc) : List ℕ :=
  match pr.pc with
  | .getblk (.entry block _) z _ => [z, block]
  | .getblk (.zone _ _) z _ => [z]
  | .bread z [] => [z]
  | _ => []

/-- A call holds the buffer of the block where it sleeps. -/
def Proc.holds (pr : Proc) (block : ℕ) : Bool :=
  match pr.pc with
  | .getblk (.entry t _) z _ => t = block || z = block
  | .getblk (.zone _ _) z _ => z = block
  | .bread z _ => z = block
  | .copy z _ _ => z = block
  | _ => false

/-- A call has bytes to copy to the block. -/
def Proc.Copies (pr : Proc) (block : ℕ) : Prop := ∃ off left, pr.pc = .copy block off (left + 1)

variable {ι : Type*}

namespace Cache

/-- The buffers that an event of the calls makes dirty. -/
def dirties (s : Cache ι) : Event ι → List ℕ
  | .write _ _ => []
  | .run p => (s.calls.proc p).toList.flatMap Proc.dirties

def Held (s : Cache ι) (block : ℕ) : Prop := ∃ p, ∃ pr ∈ s.calls.proc p, pr.holds block = true

/-- `getblk` takes only buffers that nobody holds. -/
def Allows (s : Cache ι) : Access ι → Prop
  | .reuse block => ¬s.Held block
  | _ => True

def next [DecidableEq ι] (nr : ℕ) (s : Cache ι) : Access ι → Option (Cache ι)
  | .call e =>
    let dirties := s.dirties e
    (s.calls.next nr e).map fun calls =>
      { s with calls := calls, dirt := fun block => s.dirt block || dirties.contains block }
  | .sync block =>
    if s.dirt block && !s.locked block then
      some { s with dirt := Function.update s.dirt block false
                    locked := Function.update s.locked block true }
    else none
  | .written block =>
    if s.locked block then
      some { s with disk := Function.update s.disk block (s.calls.vol.data block)
                    locked := Function.update s.locked block false }
    else none
  | .reuse block =>
    -- the block is read from the device when it is wanted again
    if !s.dirt block && !s.locked block then
      some { s with calls := { s.calls with vol := s.calls.vol.setData block (s.disk block) } }
    else none

end Cache

/-- The runs of `file_write` calls on inode `nr`, with writes of the buffers and new uses of them at any
time. -/
def cached (ι : Type*) [DecidableEq ι] (v : Volume) (nr : ℕ) : System (Cache ι) (Access ι) where
  init s := s.calls = ⟨v, fun _ => none⟩ ∧ (∀ block, s.locked block = false) ∧
    ∀ block, s.dirt block = false → s.disk block = v.data block
  step s a s' := s.Allows a ∧ s.next nr a = some s'

/-! ## Conditions -/

/-- The calls write to different bytes, and there is a zone whenever one is asked for. -/
def Spacious (nr : ℕ) (s : Cache ι) : Access ι → Prop
  | .call e => HasRoom nr s.calls e
  | _ => True

/-- `new_block` is not called for a slot while another process sleeps in it for the same slot, and no buffer
is put into a write request while a call has bytes to copy there. -/
def Calm (nr : ℕ) (s : Cache ι) : Access ι → Prop
  | .call e => Alone nr s.calls e
  | .sync block => ∀ p, ∀ pr ∈ s.calls.proc p, ¬pr.Copies block
  | _ => True

/-! ## What is on the device -/

/-- A block that is not dirty is on the device, unless it is being written; and a block to which bytes are
copied is dirty. -/
structure Kept (s : Cache ι) : Prop where
  clean : ∀ block, s.dirt block = false → s.locked block = false → s.disk block = s.calls.vol.data block
  copies : ∀ p, ∀ pr ∈ s.calls.proc p, ∀ block, pr.Copies block → s.dirt block = true

section Steps

variable {nr z : ℕ} {p : ι} {v v' : Volume} {pr pr' : Proc} {s s' : Cache ι} {e : Event ι} {a : Access ι}

theorem create_data (slot : Slot) (ks : List ℕ) : (pr.create v slot ks).1.data = v.data ∧
    ∀ block, ¬(pr.create v slot ks).2.Copies block := by
  have htake : v.takeZone.2.data = v.data := by
    unfold Volume.takeZone
    split
    · rfl
    · dsimp only
      split_ifs <;> rfl
  have hpc : ∀ {pr : Proc}, (∀ block off left, pr.pc ≠ .copy block off left) → ∀ block, ¬pr.Copies block :=
    fun h block ⟨off, left, hcopy⟩ => h block off (left + 1) hcopy
  unfold Proc.create
  split_ifs
  · dsimp only
    split_ifs
    · exact ⟨htake, hpc (by simp)⟩
    · exact ⟨htake, hpc (by simp)⟩
  · exact ⟨rfl, hpc (by simp)⟩

theorem setData_data {block other : ℕ} {f : ℕ → Byte} (h : other ≠ block) :
    (v.setData block f).data other = v.data other := Function.update_of_ne h _ _

/-- A step of a call changes blocks that it makes dirty, and the one to which it copies. -/
theorem resume_data (hs : pr.resume nr v = some (v', pr')) :
    (∀ block, v'.data block = v.data block ∨ block ∈ pr.dirties ∨ pr.Copies block) ∧
      ∀ block, pr'.Copies block → block ∈ pr.dirties ∨ pr.Copies block := by
  have hquiet : ∀ {pr' : Proc}, (∀ block off left, pr'.pc ≠ .copy block off left) →
      ∀ block, pr'.Copies block → block ∈ pr.dirties ∨ pr.Copies block :=
    fun h block ⟨off, left, hcopy⟩ => absurd hcopy (h block off (left + 1))
  have hcreate : ∀ slot ks, pr.create v slot ks = (v', pr') →
      (∀ block, v'.data block = v.data block ∨ block ∈ pr.dirties ∨ pr.Copies block) ∧
        ∀ block, pr'.Copies block → block ∈ pr.dirties ∨ pr.Copies block := by
    intro slot ks heq
    obtain ⟨hdata, hcopies⟩ : (pr.create v slot ks).1.data = v.data ∧
        ∀ block, ¬(pr.create v slot ks).2.Copies block := create_data slot ks
    rw [heq] at hdata hcopies
    exact ⟨fun block => .inl (congrFun hdata block), fun block h => absurd h (hcopies block)⟩
  cases hpc : pr.pc with
  | loop =>
    unfold Proc.resume at hs
    rw [hpc] at hs
    dsimp only at hs
    split_ifs at hs
    · cases hpath : bmapPath (pr.pos / 1024) with
      | none =>
        rw [hpath] at hs
        cases hs
      | some path =>
        rw [hpath] at hs
        exact hcreate _ _ (Option.some.inj hs)
    · cases hs
      exact ⟨fun _ => .inl rfl, hquiet (by simp)⟩
  | getblk slot z ks =>
    unfold Proc.resume at hs
    rw [hpc] at hs
    cases hs
    refine ⟨fun block => ?_, hquiet (by simp)⟩
    by_cases hmem : block ∈ pr.dirties
    · exact .inr (.inl hmem)
    · left
      unfold Proc.dirties at hmem
      rw [hpc] at hmem
      have hz : block ≠ z := by
        rintro rfl
        cases slot <;> simp at hmem
      have hslot : ¬slot.In block := by
        cases slot with
        | zone nr k => exact id
        | entry t k =>
          rintro rfl
          simp at hmem
      exact (set_data_of_not_in hslot).trans (setData_data hz)
  | bread z ks =>
    unfold Proc.resume at hs
    rw [hpc] at hs
    cases ks with
    | nil =>
      dsimp only at hs
      cases hs
      have hmem : z ∈ pr.dirties := by
        unfold Proc.dirties
        rw [hpc]
        exact List.mem_singleton_self z
      refine ⟨fun block => .inl ?_, ?_⟩
      · split_ifs <;> rfl
      · rintro block ⟨off, left, hcopy⟩
        injection hcopy with hz
        exact .inl (hz ▸ hmem)
    | cons k ks => exact hcreate _ _ (Option.some.inj hs)
  | copy z off left =>
    unfold Proc.resume at hs
    rw [hpc] at hs
    cases left with
    | zero =>
      cases hs
      exact ⟨fun _ => .inl rfl, hquiet (by simp)⟩
    | succ left =>
      have hcopies : pr.Copies z := ⟨off, left, hpc⟩
      dsimp only at hs
      cases hrest : pr.rest with
      | nil =>
        rw [hrest] at hs
        cases hs
      | cons b rest =>
        rw [hrest] at hs
        cases hs
        refine ⟨fun block => ?_, ?_⟩
        · by_cases hz : block = z
          · exact .inr (.inr (hz ▸ hcopies))
          · exact .inl (setData_data hz)
        · rintro block ⟨off', left', hcopy⟩
          cases hcopy
          exact .inr hcopies
  | done =>
    unfold Proc.resume at hs
    rw [hpc] at hs
    cases hs

variable [DecidableEq ι]

theorem Kept.call (h : Kept s) {calls : State ι} (hs : s.calls.next nr e = some calls) :
    Kept { s with calls := calls, dirt := fun block => s.dirt block || (s.dirties e).contains block } := by
  cases e with
  | write p c =>
    unfold State.next at hs
    dsimp only at hs
    split_ifs at hs
    cases hs
    refine ⟨fun block hd hl => h.clean block (Bool.or_eq_false_iff.1 hd).1 hl, fun q pr hq block hcopies => ?_⟩
    rcases State.setProc_cases hq with ⟨-, rfl⟩ | ⟨-, hq⟩
    · obtain ⟨off, left, hcopy⟩ := hcopies
      cases hcopy
    · exact Bool.or_eq_true_iff.2 (.inl (h.copies q pr hq block hcopies))
  | run p =>
    unfold State.next at hs
    dsimp only at hs
    cases hp : s.calls.proc p with
    | none =>
      rw [hp] at hs
      cases hs
    | some pr =>
      rw [hp] at hs
      obtain ⟨⟨v', pr'⟩, hresume, rfl⟩ := Option.map_eq_some_iff.1 hs
      obtain ⟨hdata, hcopies⟩ := resume_data hresume
      have hdirties : ∀ block, block ∈ pr.dirties → (s.dirties (.run p)).contains block = true := by
        intro block hmem
        show ((s.calls.proc p).toList.flatMap Proc.dirties).contains block = true
        rw [hp]
        exact List.contains_iff_mem.2 (by simpa using hmem)
      refine ⟨fun block hd hl => ?_, fun q qr hq block hcopy => ?_⟩
      · obtain ⟨hd, hno⟩ := Bool.or_eq_false_iff.1 hd
        obtain hsame | hmem | hcopy := hdata block
        · exact (h.clean block hd hl).trans hsame.symm
        · rw [hdirties block hmem] at hno
          cases hno
        · rw [h.copies p pr hp block hcopy] at hd
          cases hd
      · rcases State.setProc_cases hq with ⟨-, rfl⟩ | ⟨-, hq⟩
        · obtain hmem | hcopy := hcopies block hcopy
          · exact Bool.or_eq_true_iff.2 (.inr (hdirties block hmem))
          · exact Bool.or_eq_true_iff.2 (.inl (h.copies p pr hp block hcopy))
        · exact Bool.or_eq_true_iff.2 (.inl (h.copies q qr hq block hcopy))

/-- A step of a calm run: the calls take it, or nothing changes for them. -/
theorem Kept.next (h : Kept s) (hcalm : Calm nr s a) (hs : s.next nr a = some s') :
    Kept s' ∧ ((∃ e, a = .call e ∧ s.calls.next nr e = some s'.calls) ∨ s'.calls = s.calls) := by
  cases a with
  | call e =>
    obtain ⟨calls, hcalls, rfl⟩ := Option.map_eq_some_iff.1 hs
    exact ⟨h.call hcalls, .inl ⟨e, rfl, hcalls⟩⟩
  | sync block =>
    unfold Cache.next at hs
    dsimp only at hs
    split_ifs at hs
    cases hs
    refine ⟨⟨fun b hd hl => ?_, fun p pr hp b hcopies => ?_⟩, .inr rfl⟩
    · by_cases hb : b = block
      · rw [hb] at hl
        exact absurd ((Function.update_self ..).symm.trans hl) (by decide)
      · exact h.clean b ((Function.update_of_ne hb _ _).symm.trans hd)
          ((Function.update_of_ne hb _ _).symm.trans hl)
    · have hb : b ≠ block := by
        rintro rfl
        exact hcalm p pr hp hcopies
      exact (Function.update_of_ne hb _ _).trans (h.copies p pr hp b hcopies)
  | written block =>
    unfold Cache.next at hs
    dsimp only at hs
    split_ifs at hs
    cases hs
    refine ⟨⟨fun b hd hl => ?_, h.copies⟩, .inr rfl⟩
    by_cases hb : b = block
    · rw [hb]
      exact Function.update_self ..
    · exact (Function.update_of_ne hb _ _).trans (h.clean b hd ((Function.update_of_ne hb _ _).symm.trans hl))
  | reuse block =>
    unfold Cache.next at hs
    dsimp only at hs
    split_ifs at hs with hfree
    obtain ⟨hd, hl⟩ := Bool.and_eq_true_iff.1 hfree
    have hsame : s.calls.vol.setData block (s.disk block) = s.calls.vol := by
      unfold Volume.setData
      rw [h.clean block (by simpa using hd) (by simpa using hl), Function.update_eq_self]
    rw [hsame] at hs
    cases hs
    exact ⟨h, .inr rfl⟩

/-- Under the calls the buffers do not show. -/
theorem calls_reachable (hs : (cached ι v nr).ReachableWhen (fun s a => Spacious nr s a ∧ Calm nr s a) s) :
    (writers ι v nr).ReachableWhen (fun s e => HasRoom nr s e ∧ Alone nr s e) s.calls ∧ Kept s := by
  refine hs.invariant (I := fun s => (writers ι v nr).ReachableWhen
    (fun s e => HasRoom nr s e ∧ Alone nr s e) s.calls ∧ Kept s) (fun s h => ?_) fun s a s' hI hok hstep => ?_
  · obtain ⟨hcalls, hlocked, hdisk⟩ := h
    refine ⟨.init hcalls, fun block hd _ => ?_, fun p pr hp => ?_⟩
    · rw [hcalls]
      exact hdisk block hd
    · rw [hcalls] at hp
      cases hp
  · obtain ⟨hreach, hkept⟩ := hI
    obtain ⟨hkept', ⟨e, rfl, hnext⟩ | hsame⟩ := hkept.next hok.2 hstep.2
    · exact ⟨hreach.step hok hnext, hkept'⟩
    · exact ⟨hsame ▸ hreach, hkept'⟩

end Steps

/-! ## The calls together -/

section Calls

variable [DecidableEq ι] {nr : ℕ} {v : Volume} {s : Cache ι}

/-- When a call has returned, it has stored all its bytes and they are read back; when all have returned, every
zone taken is in the inode. -/
theorem writes_kept (hv : v.Sound) (hfile : (v.inode nr).isFile = true)
    (hs : (cached ι v nr).ReachableWhen (fun s a => Spacious nr s a ∧ Calm nr s a) s) :
    (∀ p, ∀ pr ∈ s.calls.proc p, pr.pc = .done → pr.i = pr.buf.length ∧
      ∀ k b, pr.buf[k]? = some b → s.calls.vol.readByte nr (pr.start + k) = some b) ∧
    ((∀ p, ∀ pr ∈ s.calls.proc p, pr.pc = .done) →
      ∀ z, s.calls.vol.Marked z → ¬ v.Marked z → s.calls.vol.Reaches nr z) :=
  calls_kept hv hfile (calls_reachable hs).1

end Calls

/-! ## Two writers -/

section Two

variable {ι : Type*} [DecidableEq ι] [Fintype ι] {nr : ℕ}

instance (pr : Proc) (block : ℕ) : Decidable (pr.Copies block) :=
  decidable_of_iff ((match pr.pc with
    | .copy z _ (_ + 1) => z == block
    | _ => false) = true) (by
      unfold Proc.Copies
      cases pr.pc with
      | copy z off left => cases left <;> simp
      | loop | getblk | bread | done => simp)

instance (s : State ι) : ∀ e, Decidable (HasRoom nr s e)
  | .write _ _ => inferInstanceAs (Decidable (∀ q, ∀ pr ∈ s.proc q, _))
  | .run _ => inferInstanceAs (Decidable (_ → _))

instance (s : State ι) : ∀ e, Decidable (Alone nr s e)
  | .write _ _ => inferInstanceAs (Decidable True)
  | .run _ => inferInstanceAs (Decidable (_ → _))

instance (s : Cache ι) : ∀ a, Decidable (s.Allows a)
  | .reuse block => inferInstanceAs (Decidable (¬∃ p, ∃ pr ∈ s.calls.proc p, pr.holds block = true))
  | .call _ | .sync _ | .written _ => inferInstanceAs (Decidable True)

instance (s : Cache ι) : ∀ a, Decidable (Spacious nr s a)
  | .call e => inferInstanceAs (Decidable (HasRoom nr s.calls e))
  | .sync _ | .written _ | .reuse _ => inferInstanceAs (Decidable True)

instance (s : Cache ι) : ∀ a, Decidable (Calm nr s a)
  | .call e => inferInstanceAs (Decidable (Alone nr s.calls e))
  | .sync block => inferInstanceAs (Decidable (∀ p, ∀ pr ∈ s.calls.proc p, ¬pr.Copies block))
  | .written _ | .reuse _ => inferInstanceAs (Decidable True)

end Two

/-- A device with an empty regular file. -/
def emptyFile : Volume where
  firstdatazone := 10
  nzones := 20
  zmapBlocks := 1
  zmap b := b == 0
  data _ _ := 0
  inode _ := ⟨0o100644, fun _ => 0, 0⟩

theorem emptyFile_zone {a : Addr} (ha : emptyFile.Holds a) : a.zone emptyFile = 0 := by
  induction a with
  | root nr k => rfl
  | child up k ih => exact absurd (ih ha.up) ha.live.2

theorem emptyFile_sound : emptyFile.Sound where
  firstdatazone_pos := by decide
  nzones_lt := by decide
  zmap_zero := rfl
  marked _ ha hz := absurd (emptyFile_zone ha) hz
  distinct _ _ ha _ hz := absurd (emptyFile_zone ha) hz

/-- Two processes write a byte each to the first block, at offsets 0 and 1. -/
def twoCalls : List (Access Bool) :=
  [.call (.write false ⟨false, 0, [1]⟩), .call (.write true ⟨false, 1, [2]⟩)]

def runs (ps : List Bool) : List (Access Bool) := ps.map fun p => .call (.run p)

/-- The rest of a call once its zone is in its slot. -/
def finish (p : Bool) : List (Access Bool) := runs [p, p, p, p]

/-- No buffer is in use. -/
def emptyCache : Cache Bool := ⟨⟨emptyFile, fun _ => none⟩, fun _ _ => 0, fun _ => false, fun _ => false⟩

/-- The state after some steps that all meet a condition has a property that can be checked. -/
theorem cached_exec (ok : Cache Bool → Access Bool → Prop) [∀ s a, Decidable (ok s a)]
    (as : List (Access Bool)) (P : Cache Bool → Prop) [DecidablePred P]
    (h : (System.execWhen (fun s a => if s.Allows a then s.next 0 a else none) ok emptyCache as).any (P ·) =
      true) : ∃ s, (cached Bool emptyFile 0).ReachableWhen ok s ∧ P s := by
  obtain ⟨s, hs, hP⟩ := (Option.any_eq_true _ _).1 h
  have hinit : (cached Bool emptyFile 0).init emptyCache := ⟨rfl, fun _ => rfl, fun _ _ => rfl⟩
  refine ⟨s, .exec (fun s a s' hnext => ?_) (.init hinit) hs, of_decide_eq_true hP⟩
  split_ifs at hnext with hallows
  exact ⟨hallows, hnext⟩

/-- The first process has its zone in the file before the second one tests the slot, and the block is written
and read again. -/
theorem writes_kept_two : ∃ s : Cache Bool, (∀ p, ∀ pr ∈ s.calls.proc p, pr.pc = .done) ∧
    s.dirt 10 = false ∧ s.calls.vol.readByte 0 0 = some 1 ∧ s.calls.vol.readByte 0 1 = some 2 ∧
    ∀ z, s.calls.vol.Marked z → ¬ emptyFile.Marked z → s.calls.vol.Reaches 0 z := by
  obtain ⟨s, hs, hdone, hdirt, ⟨pr, hpr, hstart, hbuf⟩, qr, hqr, hstart', hbuf'⟩ := cached_exec
    (fun s a => Spacious 0 s a ∧ Calm 0 s a)
    (twoCalls ++ runs [false, false, true] ++ finish false ++ [.sync 10] ++ finish true ++
      [.written 10, .sync 10, .written 10, .reuse 10])
    (fun s => (∀ p, ∀ pr ∈ s.calls.proc p, pr.pc = .done) ∧ s.dirt 10 = false ∧
      (∃ pr ∈ s.calls.proc false, pr.start = 0 ∧ pr.buf[0]? = some 1) ∧
      ∃ pr ∈ s.calls.proc true, pr.start = 1 ∧ pr.buf[0]? = some 2)
    (by decide +kernel)
  have hkept := writes_kept emptyFile_sound rfl hs
  have hread := (hkept.1 false pr hpr (hdone false pr hpr)).2 0 1 hbuf
  have hread' := (hkept.1 true qr hqr (hdone true qr hqr)).2 0 2 hbuf'
  rw [hstart] at hread
  rw [hstart'] at hread'
  exact ⟨s, hdone, hdirt, hread, hread', hkept.2 hdone⟩

/-- The buffer is written while the byte is still to be copied, and is not dirty when it has been. -/
example : ∃ s : Cache Bool, (cached Bool emptyFile 0).ReachableWhen (Spacious 0) s ∧
    (∀ p, ∀ pr ∈ s.calls.proc p, pr.pc = .done) ∧
    (∃ pr ∈ s.calls.proc false, pr.start = 0 ∧ pr.buf[0]? = some 1) ∧ s.calls.vol.readByte 0 0 = some 0 :=
  cached_exec (Spacious 0)
    (.call (.write false ⟨false, 0, [1]⟩) :: runs [false, false, false] ++ [.sync 10, .written 10] ++
      runs [false, false, false] ++ [.reuse 10]) _ (by decide +kernel)

/-- Both find `i_zone[0]` empty: the zone of the first one that comes back is replaced. -/
theorem zone_lost : ∃ s : Cache Bool, (cached Bool emptyFile 0).ReachableWhen (Spacious 0) s ∧
    (∀ p, ∀ pr ∈ s.calls.proc p, pr.pc = .done) ∧
    (∃ pr ∈ s.calls.proc false, pr.start = 0 ∧ pr.buf[0]? = some 1) ∧ s.calls.vol.readByte 0 0 = some 0 ∧
    s.calls.vol.Marked 10 ∧ ¬ emptyFile.Marked 10 ∧ ¬ s.calls.vol.Reaches 0 10 := by
  obtain ⟨s, hs, hdone, hcall, hread, ⟨hfirst, hlast, hbit⟩, hzone⟩ := cached_exec (Spacious 0)
    (twoCalls ++ runs [false, true, false, true] ++ finish false ++ finish true)
    (fun s => (∀ p, ∀ pr ∈ s.calls.proc p, pr.pc = .done) ∧
      (∃ pr ∈ s.calls.proc false, pr.start = 0 ∧ pr.buf[0]? = some 1) ∧
      s.calls.vol.readByte 0 0 = some 0 ∧
      (s.calls.vol.firstdatazone ≤ 10 ∧ 10 < s.calls.vol.nzones ∧
        s.calls.vol.zmap (s.calls.vol.bitOf 10) = true) ∧
      ∀ k < 9, (s.calls.vol.inode 0).iZone k = if k = 0 then 11 else 0)
    (by decide +kernel)
  refine ⟨s, hs, hdone, hcall, hread, ⟨hfirst, hlast, hbit⟩, fun h => ?_, ?_⟩
  · exact absurd h.bit (by decide)
  · -- no table is above any place, as `i_zone[7]` and `i_zone[8]` are 0
    have hroot : ∀ a, s.calls.vol.Holds a → a.nr = 0 → ∃ k < 9, a = .root 0 k := by
      intro a ha hnr
      induction a with
      | root nr k => exact ⟨k, ha.valid, by rw [← hnr]; rfl⟩
      | child up k ih =>
        obtain ⟨j, hj, rfl⟩ := ih ha.up hnr
        have hlevels : 0 < j - 6 := ha.valid.2.2
        have hzero : (Addr.root 0 j).zone s.calls.vol = 0 := by
          show (s.calls.vol.inode 0).iZone j = 0
          rw [hzone j hj, if_neg (by omega)]
        exact absurd hzero ha.live.2
    rintro ⟨a, ha, hnr, haz⟩
    obtain ⟨k, hk, rfl⟩ := hroot a ha hnr
    change (s.calls.vol.inode 0).iZone k = 10 at haz
    rw [hzone k hk] at haz
    split_ifs at haz
    omega

end Linux011.Zones
