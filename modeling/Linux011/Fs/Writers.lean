import Linux011.Fs.Volume
import Linux011.Lib.Transition

/-!
# Concurrent writers of a file

`file_write` of `fs/file_dev.c` with `create_block` and `new_block`: the calls of any number of
processes on one inode, interleaved where the code can sleep (`getblk`, `bread`, `get_fs_byte`,
`brelse`). `getblk` in `new_block` always finds a buffer that nobody else holds.

1. `Proc.resume`: what a call does from one sleep to the next; `writers`: the runs.
2. `HasRoom`, `Alone`: the conditions on the steps.
3. `Proc.Ok`, `Inv`: what the calls rely on.
4. `calls_kept`: nothing written is lost, nor is a zone, as long as a block is its buffer.
-/

namespace Linux011.Zones

open Linux011.Fs (Byte)

/-- The arguments of `file_write`. -/
structure Call where
  /-- `filp->f_flags & O_APPEND`. -/
  append : Bool
  fPos : ℕ
  buf : List Byte

/-- Where a call of `file_write` sleeps. -/
inductive Pc
  /-- At the head of the loop, in the `brelse` at its end. -/
  | loop
  /-- In the `getblk` of `new_block` for an empty slot; `ks` leads on to the data block. -/
  | getblk (slot : Slot) (zone : ℕ) (ks : List ℕ)
  /-- In `bread` of a table or, if `ks` is empty, of the data block. -/
  | bread (zone : ℕ) (ks : List ℕ)
  /-- In `get_fs_byte`, before the byte that goes to offset `off` of the block. -/
  | copy (zone off left : ℕ)
  | done
  deriving DecidableEq

structure Proc where
  /-- All of the user's buffer. -/
  buf : List Byte
  /-- The offset at which the call began. -/
  start : ℕ
  pos : ℕ
  i : ℕ
  /-- The bytes from where `buf` points now. -/
  rest : List Byte
  pc : Pc

/-- `create_block` from a slot on, up to the next sleep. Without a zone the loop is left. -/
def Proc.create (v : Volume) (pr : Proc) (slot : Slot) (ks : List ℕ) : Volume × Proc :=
  if v.get slot = 0 then
    let (z, v') := v.takeZone
    if z = 0 then (v', { pr with pc := .done }) else (v', { pr with pc := .getblk slot z ks })
  else (v, { pr with pc := .bread (v.get slot) ks })

/-- One call of `file_write` from a sleep to the next one; `none` if `_bmap` panics. -/
def Proc.resume (nr : ℕ) (v : Volume) (pr : Proc) : Option (Volume × Proc) :=
  match pr.pc with
  | .loop =>
    if pr.i < pr.buf.length then
      match bmapPath (pr.pos / 1024) with
      | none => none
      | some (k, ks) => some (pr.create v (.zone nr k) ks)
    else some (v, { pr with pc := .done })
  | .getblk slot z ks => some (v.install slot z, { pr with pc := .bread z ks })
  | .bread z (k :: ks) => some (pr.create v (.entry z k) ks)
  | .bread z [] =>
    let off := pr.pos % 1024
    let c := if 1024 - off > pr.buf.length - pr.i then pr.buf.length - pr.i else 1024 - off
    let pos := pr.pos + c
    let v' := if pos > (v.inode nr).iSize then v.setSize nr pos else v
    some (v', { pr with pos := pos, i := pr.i + c, pc := .copy z off c })
  | .copy _ _ 0 => some (v, { pr with pc := .loop })
  | .copy z off (left + 1) =>
    match pr.rest with
    | [] => none
    | b :: rest => some (v.setByte z off b, { pr with rest := rest, pc := .copy z (off + 1) left })
  | .done => none

/-- `return (i?i:-1)`. -/
def Proc.result (pr : Proc) : ℤ :=
  if pr.i = 0 then -1 else pr.i

/-- The volume and the calls made so far, each by a process of its own. -/
structure State (ι : Type*) where
  vol : Volume
  proc : ι → Option Proc

inductive Event (ι : Type*)
  | write (p : ι) (c : Call)
  | run (p : ι)

variable {ι : Type*} [DecidableEq ι]

def State.setProc (s : State ι) (p : ι) (pr : Proc) : State ι :=
  { s with proc := Function.update s.proc p (some pr) }

/-- The position at which a call starts. -/
def Call.pos (c : Call) (v : Volume) (nr : ℕ) : ℕ :=
  if c.append then (v.inode nr).iSize else c.fPos

def State.next (nr : ℕ) (s : State ι) : Event ι → Option (State ι)
  | .write p c =>
    let pos := c.pos s.vol nr
    if (s.proc p).isSome then none
    else some (s.setProc p ⟨c.buf, pos, pos, 0, c.buf, .loop⟩)
  | .run p =>
    match s.proc p with
    | none => none
    | some pr => (pr.resume nr s.vol).map fun r => { s.setProc p r.2 with vol := r.1 }

/-- The runs of `file_write` calls on inode `nr` of a volume. -/
def writers (ι : Type*) [DecidableEq ι] (v : Volume) (nr : ℕ) : System (State ι) (Event ι) where
  init s := s = ⟨v, fun _ => none⟩
  step s e s' := s.next nr e = some s'

/-! ## Conditions -/

/-- The slot that `create_block` tests in the next step of the call. -/
def Proc.tests (nr : ℕ) (pr : Proc) : Option Slot :=
  match pr.pc with
  | .loop =>
    if pr.i < pr.buf.length then (bmapPath (pr.pos / 1024)).map fun p => .zone nr p.1 else none
  | .bread z (k :: _) => some (.entry z k)
  | _ => none

/-- The slot for which the next step of process `p` calls `new_block`. -/
def State.takes (nr : ℕ) (s : State ι) (p : ι) : Option Slot :=
  ((s.proc p).bind (Proc.tests nr)).filter fun slot => s.vol.get slot = 0

/-- The slot for which a call sleeps in `new_block`. -/
def Proc.allocates (pr : Proc) : Option Slot :=
  match pr.pc with
  | .getblk slot _ _ => some slot
  | _ => none

/-- A call writes to other bytes than those before it, and there is a zone whenever one is asked
for. -/
def HasRoom (nr : ℕ) (s : State ι) : Event ι → Prop
  | .write _ c => ∀ q, ∀ pr ∈ s.proc q, c.pos s.vol nr + c.buf.length ≤ pr.start ∨
      pr.start + pr.buf.length ≤ c.pos s.vol nr
  | .run p => s.takes nr p ≠ none → s.vol.takeZone.1 ≠ 0

/-- `new_block` is not called for a slot while another process sleeps in it for the same slot. -/
def Alone (nr : ℕ) (s : State ι) : Event ι → Prop
  | .write _ _ => True
  | .run p => s.takes nr p ≠ none → ∀ q, (s.proc q).bind Proc.allocates ≠ s.takes nr p

/-! ## What a call relies on -/

/-- The bytes stored so far. -/
def Proc.stored (pr : Proc) : ℕ :=
  match pr.pc with
  | .copy _ _ left => pr.i - left
  | _ => pr.i

/-- What holds where the call sleeps. -/
def Proc.At (nr : ℕ) (v : Volume) (pr : Proc) : Prop :=
  match pr.pc with
  | .loop => True
  | .getblk slot z ks => pr.i < pr.buf.length ∧ v.Fresh z ∧ ∃ a, a.slot v = slot ∧ v.Holds a ∧
      a.zone v = 0 ∧ blockAddr nr (pr.pos / 1024) = some (a.extend ks)
  | .bread z ks => pr.i < pr.buf.length ∧ ∃ a, a.zone v = z ∧ v.Holds a ∧ z ≠ 0 ∧
      blockAddr nr (pr.pos / 1024) = some (a.extend ks)
  | .copy z off left => left ≤ pr.i ∧ off + left ≤ 1024 ∧ ∃ a block, a.zone v = z ∧ v.Holds a ∧
      z ≠ 0 ∧ blockAddr nr block = some a ∧ pr.start + (pr.i - left) = block * 1024 + off
  | .done => pr.i = pr.buf.length

structure Proc.Ok (nr : ℕ) (v : Volume) (pr : Proc) : Prop where
  le : pr.i ≤ pr.buf.length
  pos : pr.pos = pr.start + pr.i
  rest : pr.rest = pr.buf.drop pr.stored
  has : ∀ k b, k < pr.stored → pr.buf[k]? = some b → ∃ a, v.Has nr (pr.start + k) b a
  «at» : pr.At nr v

/-- The offsets the call writes to. -/
def Proc.Writes (nr : ℕ) (pr : Proc) (nr' off : ℕ) : Prop :=
  nr' = nr ∧ pr.start ≤ off ∧ off < pr.start + pr.buf.length

variable {nr z : ℕ} {p q : ι} {v v' v₀ : Volume} {pr pr' : Proc} {slot : Slot} {ks : List ℕ}
  {W : ℕ → ℕ → Prop}

/-- What another process leaves of what the call relies on. -/
theorem Proc.Ok.grows (h : pr.Ok nr v) (g : v.Grows v' W)
    (hW : ∀ off, pr.Writes nr nr off → ¬ W nr off)
    (hget : ∀ a z ks, pr.pc = .getblk (a.slot v) z ks → v.Holds a → a.zone v = 0 → v.Fresh z →
      a.zone v' = 0 ∧ v'.Fresh z) : pr.Ok nr v' where
  le := h.le
  pos := h.pos
  rest := h.rest
  has k b hk hb := by
    obtain ⟨a, ha⟩ := h.has k b hk hb
    have hlt : k < pr.buf.length := (List.getElem?_eq_some_iff.1 hb).1
    exact ⟨a, g.has _ _ _ _ (hW _ ⟨rfl, by omega, by omega⟩) ha⟩
  «at» := by
    have hat := h.at
    unfold Proc.At at hat ⊢
    split at hat <;> rename_i hpc
    · trivial
    · obtain ⟨hi, hz, a, rfl, ha, ha0, haddr⟩ := hat
      obtain ⟨hzero, hfresh⟩ := hget a _ _ hpc ha ha0 hz
      exact ⟨hi, hfresh, a, (g.holds a ha).2, (g.holds a ha).1, hzero, haddr⟩
    · obtain ⟨hi, a, rfl, ha, ha0, haddr⟩ := hat
      exact ⟨hi, a, g.zone a ha ha0, (g.holds a ha).1, ha0, haddr⟩
    · obtain ⟨hi, hoff, a, block, rfl, ha, ha0, haddr, hstart⟩ := hat
      exact ⟨hi, hoff, a, block, g.zone a ha ha0, (g.holds a ha).1, ha0, haddr, hstart⟩
    · exact hat

/-- How a step of a call changes zones: it takes one, installs the one it has taken, or neither. -/
inductive Proc.Moves (nr : ℕ) (v : Volume) (pr : Proc) (v' : Volume) (pr' : Proc) : Prop
  | take (slot : Slot) (z : ℕ) (ks : List ℕ) : pr'.pc = .getblk slot z ks →
      pr.tests nr = some slot → v.get slot = 0 → v.Takes v' z → Proc.Moves nr v pr v' pr'
  | install (a : Addr) (z : ℕ) (ks : List ℕ) : pr.pc = .getblk (a.slot v) z ks → v.Holds a →
      a.nr = nr → a.zone v = 0 → v.Fresh z → v' = v.install (a.slot v) z →
      (∀ slot z ks, pr'.pc ≠ .getblk slot z ks) → Proc.Moves nr v pr v' pr'
  | keep : v.Same v' → (∀ z, v'.Marked z ↔ v.Marked z) → (∀ slot z ks, pr.pc ≠ .getblk slot z ks) →
      (∀ slot z ks, pr'.pc ≠ .getblk slot z ks) → Proc.Moves nr v pr v' pr'

/-- What a step of a call does. -/
structure Proc.Steps (nr : ℕ) (v : Volume) (pr : Proc) (v' : Volume) (pr' : Proc) : Prop where
  start : pr'.start = pr.start
  buf : pr'.buf = pr.buf
  sound : v'.Sound
  grows : v.Grows v' (pr.Writes nr)
  ok : pr'.Ok nr v'
  moves : pr.Moves nr v v' pr'

theorem Volume.Grows.mono {W' : ℕ → ℕ → Prop} (h : v.Grows v' W) (hW : ∀ m off, W m off → W' m off) :
    v.Grows v' W' :=
  ⟨h.holds, h.zone, h.marked, fun m off b a hn => h.has m off b a fun hw => hn (hW m off hw)⟩

theorem Volume.Same.refl : v.Same v :=
  ⟨fun _ => Iff.rfl, fun _ _ => ⟨rfl, rfl⟩⟩

/-- `create_block` from a place on. -/
theorem Proc.Ok.create (h : pr.Ok nr v) (hv : v.Sound) {a : Addr} (ha : v.Holds a)
    (haddr : blockAddr nr (pr.pos / 1024) = some (a.extend ks)) (hi : pr.i < pr.buf.length)
    (htests : pr.tests nr = some (a.slot v)) (hstored : pr.stored = pr.i)
    (hroom : v.get (a.slot v) = 0 → v.takeZone.1 ≠ 0) :
    pr.Steps nr v (pr.create v (a.slot v) ks).1 (pr.create v (a.slot v) ks).2 := by
  have hpc : ∀ slot z ks, pr.pc ≠ .getblk slot z ks := by
    intro slot z ks hpc
    simp [Proc.tests, hpc] at htests
  unfold Proc.create
  by_cases hz : v.get (a.slot v) = 0
  · obtain ⟨z, hz0⟩ : ∃ z, v.takeZone.1 = z := ⟨_, rfl⟩
    have hne : z ≠ 0 := hz0 ▸ hroom hz
    have htake : v.Takes v.takeZone.2 z := hv.take (by rw [← hz0]) hne
    have hslot := (htake.same.zone a ha).1
    have hzone := (htake.same.zone a ha).2
    rw [if_pos hz]
    dsimp only
    rw [hz0, if_neg hne]
    refine ⟨rfl, rfl, htake.sound, htake.grows.mono fun _ _ h => h.elim, ?_,
      .take _ z ks rfl htests hz htake⟩
    refine ⟨h.le, h.pos, hstored ▸ h.rest, fun k b hk hb => ?_, hi, htake.fresh, a, hslot,
      (htake.same.holds a).2 ha, hzone.trans hz, haddr⟩
    obtain ⟨c, hc⟩ := h.has k b (by rw [hstored]; exact hk) hb
    exact ⟨c, htake.grows.has _ _ _ _ id hc⟩
  · rw [if_neg hz]
    refine ⟨rfl, rfl, hv, Volume.Same.refl.grows (fun _ h => h) fun _ _ _ _ _ _ => rfl, ?_,
      .keep .refl (fun _ => Iff.rfl) hpc fun _ _ _ h => by cases h⟩
    exact ⟨h.le, h.pos, hstored ▸ h.rest, fun k b hk hb => h.has k b (by rw [hstored]; exact hk) hb,
      hi, a, rfl, ha, hz, haddr⟩

/-! ## The steps of a call -/

/-- A step that changes only the call. -/
theorem Proc.Steps.keep (hv : v.Sound) (hstart : pr'.start = pr.start) (hbuf : pr'.buf = pr.buf)
    (hok : pr'.Ok nr v) (hpc : ∀ slot z ks, pr.pc ≠ .getblk slot z ks)
    (hpc' : ∀ slot z ks, pr'.pc ≠ .getblk slot z ks) : pr.Steps nr v v pr' :=
  ⟨hstart, hbuf, hv, Volume.Same.refl.grows (fun _ h => h) fun _ _ _ _ _ _ => rfl, hok,
    .keep .refl (fun _ => Iff.rfl) hpc hpc'⟩

section Resume

variable (h : pr.Ok nr v) (hv : v.Sound)

include h hv

theorem Proc.Ok.loop (hpc : pr.pc = .loop) (hfile : (v.inode nr).isFile = true)
    (hroom : ∀ slot, pr.tests nr = some slot → v.get slot = 0 → v.takeZone.1 ≠ 0)
    (hs : pr.resume nr v = some (v', pr')) : pr.Steps nr v v' pr' := by
  have hstored : pr.stored = pr.i := by simp [Proc.stored, hpc]
  unfold Proc.resume at hs
  rw [hpc] at hs
  dsimp only at hs
  split_ifs at hs with hi
  · cases hpath : bmapPath (pr.pos / 1024) with
    | none => rw [hpath] at hs; cases hs
    | some p =>
      rw [hpath] at hs
      have htests : pr.tests nr = some (.zone nr p.1) := by simp [Proc.tests, hpc, hi, hpath]
      have haddr : blockAddr nr (pr.pos / 1024) = some ((Addr.root nr p.1).extend p.2) := by
        simp [blockAddr, hpath]
      have hvalid : (Addr.root nr p.1).Valid :=
        Addr.Valid.of_extend (blockAddr_spec haddr).1
      have hroot : v.Holds (Addr.root nr p.1) := ⟨hfile, hvalid, trivial⟩
      have hsteps : pr.Steps nr v (pr.create v (.zone nr p.1) p.2).1
          (pr.create v (.zone nr p.1) p.2).2 :=
        h.create hv hroot haddr hi htests hstored (hroom _ htests)
      rw [Option.some.inj hs] at hsteps
      exact hsteps
  · cases hs
    have hle := h.le
    have heq : pr.i = pr.buf.length := by omega
    have hok : Proc.Ok nr v { pr with pc := .done } :=
      ⟨h.le, h.pos, hstored ▸ h.rest, fun k b hk hb => h.has k b (by rw [hstored]; exact hk) hb,
        heq⟩
    exact .keep hv rfl rfl hok (by simp [hpc]) (by simp)

theorem Proc.Ok.getblk {slot : Slot} (hpc : pr.pc = .getblk slot z ks)
    (hs : pr.resume nr v = some (v', pr')) : pr.Steps nr v v' pr' := by
  have hstored : pr.stored = pr.i := by simp [Proc.stored, hpc]
  have hat := h.at
  unfold Proc.At at hat
  rw [hpc] at hat
  obtain ⟨hi, hz, a, rfl, ha, ha0, haddr⟩ := hat
  have hgrows := hv.install_grows ha ha0 hz
  obtain ⟨hholds, hslot, hzone⟩ := Volume.install_holds hv ha ha0 hz ha
  have hnr : a.nr = nr := by
    rw [← (blockAddr_spec haddr).2.1, Addr.extend_nr]
  unfold Proc.resume at hs
  rw [hpc] at hs
  cases hs
  refine ⟨rfl, rfl, hv.install ha hz, hgrows.mono fun _ _ h => h.elim, ?_,
    .install a z ks hpc ha hnr ha0 hz rfl (by simp)⟩
  refine ⟨h.le, h.pos, hstored ▸ h.rest, fun k b hk hb => ?_, hi, a, ?_, hholds,
    hz.marked.ne_zero hv, haddr⟩
  · obtain ⟨c, hc⟩ := h.has k b (by rw [hstored]; exact hk) hb
    exact ⟨c, hgrows.has _ _ _ _ id hc⟩
  · rw [hzone, if_pos rfl]

theorem Proc.Ok.bread {k : ℕ} (hpc : pr.pc = .bread z (k :: ks))
    (hroom : ∀ slot, pr.tests nr = some slot → v.get slot = 0 → v.takeZone.1 ≠ 0)
    (hs : pr.resume nr v = some (v', pr')) : pr.Steps nr v v' pr' := by
  have hstored : pr.stored = pr.i := by simp [Proc.stored, hpc]
  have hat := h.at
  unfold Proc.At at hat
  rw [hpc] at hat
  obtain ⟨hi, a, rfl, ha, ha0, haddr⟩ := hat
  have hextend : ((a.child k).extend ks).Valid := (blockAddr_spec haddr).1
  have hvalid : (a.child k).Valid := hextend.of_extend
  have hchild : v.Holds (a.child k) := ha.child ha0 hvalid.2.1 hvalid.2.2
  have htests : pr.tests nr = some ((a.child k).slot v) := by
    simp [Proc.tests, hpc, Addr.slot, Addr.zone]
  have hsteps : pr.Steps nr v (pr.create v (.entry (a.zone v) k) ks).1
      (pr.create v (.entry (a.zone v) k) ks).2 :=
    h.create hv hchild haddr hi htests hstored (hroom _ htests)
  unfold Proc.resume at hs
  rw [hpc] at hs
  rw [Option.some.inj hs] at hsteps
  exact hsteps

/-- The data block has been read: the position and the size are advanced before the bytes are
stored. -/
theorem Proc.Ok.bread_nil (hpc : pr.pc = .bread z []) (hs : pr.resume nr v = some (v', pr')) :
    pr.Steps nr v v' pr' := by
  have hstored : pr.stored = pr.i := by simp [Proc.stored, hpc]
  have hat := h.at
  unfold Proc.At at hat
  rw [hpc] at hat
  obtain ⟨hi, a, rfl, ha, ha0, haddr⟩ := hat
  have hpos := h.pos
  unfold Proc.resume at hs
  rw [hpc] at hs
  dsimp only at hs
  obtain ⟨c, hc⟩ : ∃ c, (if 1024 - pr.pos % 1024 > pr.buf.length - pr.i then pr.buf.length - pr.i
    else 1024 - pr.pos % 1024) = c := ⟨_, rfl⟩
  obtain ⟨w, hw⟩ : ∃ w, (if pr.pos + c > (v.inode nr).iSize then v.setSize nr (pr.pos + c)
    else v) = w := ⟨_, rfl⟩
  have hc1 : c ≤ pr.buf.length - pr.i := by split_ifs at hc <;> omega
  have hc2 : pr.pos % 1024 + c ≤ 1024 := by split_ifs at hc <;> omega
  have hsame : v.Same w := by
    rw [← hw]
    split_ifs
    · exact Volume.setSize_same
    · exact .refl
  have hmark : ∀ y, w.Marked y ↔ v.Marked y := by
    intro y
    rw [← hw]
    split_ifs
    · exact ⟨fun h => ⟨h.first, h.last, h.bit⟩, fun h => ⟨h.first, h.last, h.bit⟩⟩
    · exact Iff.rfl
  have hsound : w.Sound := by
    rw [← hw]
    split_ifs
    · exact hv.of_same Volume.setSize_same rfl rfl fun _ h => h
    · exact hv
  have hdata : w.data = v.data := by
    rw [← hw]
    split_ifs <;> rfl
  have hgrows : v.Grows w fun _ _ => False :=
    hsame.grows (fun y hy => (hmark y).2 hy) fun _ _ _ _ _ _ => by rw [hdata]
  rw [hc, hw] at hs
  cases hs
  refine ⟨rfl, rfl, hsound, hgrows.mono fun _ _ h => h.elim, ?_,
    .keep hsame hmark (by simp [hpc]) (by simp)⟩
  have hstored' : Proc.stored ⟨pr.buf, pr.start, pr.pos + c, pr.i + c, pr.rest,
      .copy (a.zone v) (pr.pos % 1024) c⟩ = pr.i := by
    show pr.i + c - c = pr.i
    omega
  refine ⟨show pr.i + c ≤ pr.buf.length by omega, show pr.pos + c = pr.start + (pr.i + c) by omega,
    ?_, fun k b hk hb => ?_, ?_⟩
  · rw [hstored', ← hstored]
    exact h.rest
  · obtain ⟨d, hd⟩ := h.has k b (by rw [hstored, ← hstored']; exact hk) hb
    exact ⟨d, hgrows.has _ _ _ _ id hd⟩
  · refine ⟨show c ≤ pr.i + c by omega, hc2, a, pr.pos / 1024, (hsame.zone a ha).2,
      (hsame.holds a).2 ha, ha0, haddr, ?_⟩
    show pr.start + (pr.i + c - c) = pr.pos / 1024 * 1024 + pr.pos % 1024
    omega

theorem Proc.Ok.copy_zero {off : ℕ} (hpc : pr.pc = .copy z off 0)
    (hs : pr.resume nr v = some (v', pr')) : pr.Steps nr v v' pr' := by
  have hstored : pr.stored = pr.i := by simp [Proc.stored, hpc]
  unfold Proc.resume at hs
  rw [hpc] at hs
  cases hs
  have hok : Proc.Ok nr v { pr with pc := .loop } :=
    ⟨h.le, h.pos, hstored ▸ h.rest, fun k b hk hb => h.has k b (by rw [hstored]; exact hk) hb,
      trivial⟩
  exact .keep hv rfl rfl hok (by simp [hpc]) (by simp)

/-- One byte is stored. -/
theorem Proc.Ok.copy_succ {off left : ℕ} (hpc : pr.pc = .copy z off (left + 1))
    (hs : pr.resume nr v = some (v', pr')) : pr.Steps nr v v' pr' := by
  have hstored : pr.stored = pr.i - (left + 1) := by simp [Proc.stored, hpc]
  have hat := h.at
  unfold Proc.At at hat
  rw [hpc] at hat
  obtain ⟨hi, hoff, a, block, rfl, ha, ha0, haddr, hstart⟩ := hat
  have hle := h.le
  have hrest := h.rest
  have hlt : pr.i - (left + 1) < pr.buf.length := by omega
  rw [hstored, List.drop_eq_getElem_cons hlt] at hrest
  unfold Proc.resume at hs
  rw [hpc] at hs
  dsimp only at hs
  rw [hrest] at hs
  cases hs
  obtain ⟨-, -, hleaf, -⟩ := blockAddr_spec haddr
  have hgrows : v.Grows (v.setByte (a.zone v) off pr.buf[pr.i - (left + 1)]) fun m o =>
      m = nr ∧ o = block * 1024 + off := hv.setByte_grows ha haddr
  have hsame : v.Same (v.setByte (a.zone v) off pr.buf[pr.i - (left + 1)]) :=
    hv.setByte_same ha hleaf
  have hstored' : Proc.stored ⟨pr.buf, pr.start, pr.pos, pr.i,
      pr.buf.drop (pr.i - (left + 1) + 1), .copy (a.zone v) (off + 1) left⟩ = pr.i - left := rfl
  have hwrites : ∀ m o, m = nr ∧ o = block * 1024 + off → pr.Writes nr m o := by
    rintro m o ⟨rfl, rfl⟩
    exact ⟨rfl, by omega, by omega⟩
  refine ⟨rfl, rfl, hv.setByte ha hleaf, hgrows.mono hwrites, ?_,
    .keep hsame (fun _ => ⟨fun h => ⟨h.first, h.last, h.bit⟩, fun h => ⟨h.first, h.last, h.bit⟩⟩)
      (by simp [hpc]) (by simp)⟩
  refine ⟨h.le, h.pos, ?_, fun k b hk hb => ?_, ?_⟩
  · rw [hstored', show pr.i - (left + 1) + 1 = pr.i - left by omega]
  · rw [hstored'] at hk
    by_cases hkeq : k = pr.i - (left + 1)
    · subst hkeq
      have hb' : pr.buf[pr.i - (left + 1)] = b :=
        Option.some.inj ((List.getElem?_eq_getElem hlt).symm.trans hb)
      refine ⟨a, ?_⟩
      show Volume.Has _ nr (pr.start + (pr.i - (left + 1))) b a
      rw [hstart, ← hb']
      exact hv.setByte_has ha ha0 haddr (by omega)
    · obtain ⟨d, hd⟩ := h.has k b (by omega) hb
      have hother : ¬ (nr = nr ∧ pr.start + k = block * 1024 + off) := by omega
      exact ⟨d, hgrows.has _ _ _ _ hother hd⟩
  · exact ⟨show left ≤ pr.i by omega, show off + 1 + left ≤ 1024 by omega, a, block,
      (hsame.zone a ha).2, (hsame.holds a).2 ha, ha0, haddr,
      show pr.start + (pr.i - left) = block * 1024 + (off + 1) by omega⟩

/-- What a call does from one sleep to the next. -/
theorem Proc.Ok.resume (hfile : (v.inode nr).isFile = true)
    (hroom : ∀ slot, pr.tests nr = some slot → v.get slot = 0 → v.takeZone.1 ≠ 0)
    (hs : pr.resume nr v = some (v', pr')) : pr.Steps nr v v' pr' := by
  cases hpc : pr.pc with
  | loop => exact h.loop hv hpc hfile hroom hs
  | getblk slot z ks => exact h.getblk hv hpc hs
  | bread z ks =>
    cases ks with
    | nil => exact h.bread_nil hv hpc hs
    | cons k ks => exact h.bread hv hpc hroom hs
  | copy z off left =>
    cases left with
    | zero => exact h.copy_zero hv hpc hs
    | succ left => exact h.copy_succ hv hpc hs
  | done =>
    unfold Proc.resume at hs
    rw [hpc] at hs
    cases hs

end Resume

/-! ## All calls together -/

/-- What holds between the steps of the calls; `v₀` is the volume before them. -/
structure Inv (v₀ : Volume) (nr : ℕ) (s : State ι) : Prop where
  sound : s.vol.Sound
  file : (s.vol.inode nr).isFile = true
  ok : ∀ p pr, s.proc p = some pr → pr.Ok nr s.vol
  apart : ∀ p q pr qr, s.proc p = some pr → s.proc q = some qr → p ≠ q → ∀ off,
    pr.Writes nr nr off → ¬ qr.Writes nr nr off
  alone : ∀ p q pr qr slot slot' z z' ks ks', s.proc p = some pr → s.proc q = some qr → p ≠ q →
    pr.pc = .getblk slot z ks → qr.pc = .getblk slot' z' ks' → slot ≠ slot' ∧ z ≠ z'
  kept : ∀ z, s.vol.Marked z → v₀.Marked z ∨ (∃ a, s.vol.Holds a ∧ a.nr = nr ∧ a.zone s.vol = z) ∨
    ∃ p pr slot ks, s.proc p = some pr ∧ pr.pc = .getblk slot z ks

omit [DecidableEq ι] in
theorem Inv.start (hv : v.Sound) (hfile : (v.inode nr).isFile = true) :
    Inv v nr (⟨v, fun _ => none⟩ : State ι) where
  sound := hv
  file := hfile
  ok _ _ h := by cases h
  apart _ _ _ _ h := by cases h
  alone _ _ _ _ _ _ _ _ _ _ h := by cases h
  kept _ h := .inl h

variable {s s' : State ι} {c : Call}

theorem State.setProc_self : (s.setProc p pr).proc p = some pr := by
  simp [State.setProc]

theorem State.setProc_of_ne (h : q ≠ p) : (s.setProc p pr).proc q = s.proc q := by
  simp [State.setProc, h]

theorem State.setProc_cases {qr : Proc} (h : (s.setProc p pr).proc q = some qr) :
    (q = p ∧ qr = pr) ∨ (q ≠ p ∧ s.proc q = some qr) := by
  by_cases hqp : q = p
  · subst hqp
    rw [State.setProc_self] at h
    exact .inl ⟨rfl, (Option.some.inj h).symm⟩
  · rw [State.setProc_of_ne hqp] at h
    exact .inr ⟨hqp, h⟩

omit [DecidableEq ι] in
theorem State.takes_eq (hp : s.proc p = some pr) (ht : pr.tests nr = some slot)
    (hz : s.vol.get slot = 0) : s.takes nr p = some slot := by
  simp [State.takes, hp, ht, hz]

/-- A new call. -/
theorem Inv.write (hI : Inv v₀ nr s) (hroom : HasRoom nr s (.write p c))
    (hs : s.next nr (.write p c) = some s') : Inv v₀ nr s' := by
  unfold State.next at hs
  dsimp only at hs
  split_ifs at hs with hp
  · cases hs
    have hnone : s.proc p = none := by simpa using hp
    obtain ⟨pr, hpr⟩ : ∃ pr, pr = Proc.mk c.buf (c.pos s.vol nr) (c.pos s.vol nr) 0 c.buf .loop :=
      ⟨_, rfl⟩
    rw [← hpr]
    have hloop : pr.pc = .loop := by rw [hpr]
    have hnew : ∀ q qr, s.proc q = some qr → ∀ off, pr.Writes nr nr off →
        ¬ qr.Writes nr nr off := by
      rintro q qr hq off ⟨-, h1, h2⟩ ⟨-, h3, h4⟩
      rw [hpr] at h1 h2
      dsimp only at h1 h2
      have := hroom q qr hq
      omega
    refine ⟨hI.sound, hI.file, ?_, ?_, ?_, ?_⟩
    · intro q qr hq
      rcases State.setProc_cases hq with ⟨-, rfl⟩ | ⟨-, hq⟩
      · rw [hpr]
        exact ⟨Nat.zero_le _, rfl, rfl, fun k b hk _ => absurd hk (Nat.not_lt_zero k), trivial⟩
      · exact hI.ok q qr hq
    · intro q q' qr qr' hq hq' hne off hw hw'
      rcases State.setProc_cases hq with ⟨hqp, hqr⟩ | ⟨-, hold⟩
      · rcases State.setProc_cases hq' with ⟨hqp', -⟩ | ⟨-, hold'⟩
        · exact hne (hqp.trans hqp'.symm)
        · exact hnew q' qr' hold' off (hqr ▸ hw) hw'
      · rcases State.setProc_cases hq' with ⟨-, hqr'⟩ | ⟨-, hold'⟩
        · exact hnew q qr hold off (hqr' ▸ hw') hw
        · exact hI.apart q q' qr qr' hold hold' hne off hw hw'
    · intro q q' qr qr' slot slot' z z' ks ks' hq hq' hne hpc hpc'
      rcases State.setProc_cases hq with ⟨-, rfl⟩ | ⟨-, hq⟩
      · rw [hloop] at hpc
        cases hpc
      · rcases State.setProc_cases hq' with ⟨-, rfl⟩ | ⟨-, hq'⟩
        · rw [hloop] at hpc'
          cases hpc'
        · exact hI.alone q q' qr qr' slot slot' z z' ks ks' hq hq' hne hpc hpc'
    · intro z hz
      rcases hI.kept z hz with h | h | ⟨q, qr, slot, ks, hq, hpc⟩
      · exact .inl h
      · exact .inr (.inl h)
      · have hqp : q ≠ p := by
          rintro rfl
          rw [hnone] at hq
          cases hq
        exact .inr (.inr ⟨q, qr, slot, ks, (State.setProc_of_ne hqp).trans hq, hpc⟩)

/-- A slot in which another process is about to install its zone stays empty, and the zone unused. -/
theorem Proc.Moves.other {qr : Proc} {a : Addr} {y : ℕ} {ls : List ℕ} (hv : v.Sound)
    (h : pr.Moves nr v v' pr')
    (halone : ∀ slot slot' z z' ks ks', pr.pc = .getblk slot z ks → qr.pc = .getblk slot' z' ks' →
      slot ≠ slot' ∧ z ≠ z')
    (hpc : qr.pc = .getblk (a.slot v) y ls) (ha : v.Holds a) (ha0 : a.zone v = 0)
    (hy : v.Fresh y) : a.zone v' = 0 ∧ v'.Fresh y := by
  cases h with
  | take slot z ks _ _ _ htake =>
    exact ⟨(htake.same.zone a ha).2.trans ha0,
      htake.same.fresh (fun z hz => (htake.marked z).2 (.inr hz)) hy⟩
  | install b z ks hpc' hb _ hb0 hz hv' _ =>
    obtain ⟨hslot, hzy⟩ := halone _ _ _ _ _ _ hpc' hpc
    have hab : a ≠ b := fun h => hslot (by rw [h])
    rw [hv']
    refine ⟨?_, hv.install_fresh hb hz hy hzy.symm⟩
    rw [(Volume.install_holds hv hb hb0 hz ha).2.2, if_neg hab, ha0]
  | keep hsame hmark _ _ =>
    exact ⟨(hsame.zone a ha).2.trans ha0, hsame.fresh (fun z hz => (hmark z).2 hz) hy⟩

/-- A zone that is marked after the step was marked before the calls, is in the inode, or is about to
be installed. -/
theorem Proc.Moves.kept (h : pr.Moves nr s.vol v' pr') (hI : Inv v₀ nr s) (hp : s.proc p = some pr)
    (hv : v'.Sound) (z : ℕ) (hz : v'.Marked z) :
    v₀.Marked z ∨ (∃ a, v'.Holds a ∧ a.nr = nr ∧ a.zone v' = z) ∨
      ∃ q qr slot ks, (s.setProc p pr').proc q = some qr ∧ qr.pc = .getblk slot z ks := by
  -- the zones of other processes stay with them
  have hother : (∀ slot ks, pr.pc ≠ .getblk slot z ks) →
      (∃ q qr slot ks, s.proc q = some qr ∧ qr.pc = .getblk slot z ks) →
      ∃ q qr slot ks, (s.setProc p pr').proc q = some qr ∧ qr.pc = .getblk slot z ks := by
    rintro hpc ⟨q, qr, slot, ks, hq, hqpc⟩
    have hqp : q ≠ p := by
      rintro rfl
      rw [hp] at hq
      exact hpc slot ks (Option.some.inj hq ▸ hqpc)
    exact ⟨q, qr, slot, ks, (State.setProc_of_ne hqp).trans hq, hqpc⟩
  have hsame : s.vol.Same v' → (∃ a, s.vol.Holds a ∧ a.nr = nr ∧ a.zone s.vol = z) →
      ∃ a, v'.Holds a ∧ a.nr = nr ∧ a.zone v' = z := by
    rintro hsame ⟨a, ha, hnr, haz⟩
    exact ⟨a, (hsame.holds a).2 ha, hnr, (hsame.zone a ha).2.trans haz⟩
  cases h with
  | take slot y ks hpc' htests _ htake =>
    rcases (htake.marked z).1 hz with rfl | hz
    · exact .inr (.inr ⟨p, pr', slot, ks, State.setProc_self, hpc'⟩)
    · have hpc : ∀ slot ks, pr.pc ≠ .getblk slot z ks := by
        intro slot ks hpc
        simp [Proc.tests, hpc] at htests
      exact (hI.kept z hz).imp_right (Or.imp (hsame htake.same) (hother hpc))
  | install a y ks hpc ha hnr ha0 hy hv' _ =>
    subst hv'
    have hold : s.vol.Marked z := by
      have hz' := hz
      exact ⟨by simpa using hz'.first, by simpa using hz'.last,
        by simpa [Volume.bitOf] using hz'.bit⟩
    obtain ⟨hholds, -, hzone⟩ := Volume.install_holds hI.sound ha ha0 hy ha
    rw [if_pos rfl] at hzone
    by_cases hzy : z = y
    · exact .inr (.inl ⟨a, hholds, hnr, hzone.trans hzy.symm⟩)
    · refine (hI.kept z hold).imp_right (Or.imp ?_ (hother ?_))
      · rintro ⟨b, hb, hbnr, hbz⟩
        have hba : b ≠ a := by
          rintro rfl
          exact hold.ne_zero hI.sound (hbz.symm.trans ha0)
        obtain ⟨h1, -, h3⟩ := Volume.install_holds hI.sound ha ha0 hy hb
        rw [if_neg hba] at h3
        exact ⟨b, h1, hbnr, h3.trans hbz⟩
      · intro slot ks hpc'
        rw [hpc] at hpc'
        injection hpc' with _ hyz _
        exact hzy hyz.symm
  | keep hsame' hmark hpc _ =>
    exact (hI.kept z ((hmark z).1 hz)).imp_right
      (Or.imp (hsame hsame') (hother fun slot ks => hpc slot z ks))

theorem Inv.run (hI : Inv v₀ nr s) (hroom : HasRoom nr s (.run p)) (halone : Alone nr s (.run p))
    (hs : s.next nr (.run p) = some s') : Inv v₀ nr s' := by
  unfold State.next at hs
  dsimp only at hs
  cases hp : s.proc p with
  | none => rw [hp] at hs; cases hs
  | some pr =>
    rw [hp] at hs
    obtain ⟨⟨v', pr'⟩, hresume, rfl⟩ := Option.map_eq_some_iff.1 hs
    dsimp only
    have hsteps : pr.Steps nr s.vol v' pr' :=
      (hI.ok p pr hp).resume hI.sound hI.file
        (fun slot ht hz => hroom (by rw [State.takes_eq hp ht hz]; simp)) hresume
    have hwrites : ∀ off, pr'.Writes nr nr off ↔ pr.Writes nr nr off := by
      intro off
      unfold Proc.Writes
      rw [hsteps.start, hsteps.buf]
    have htake : ∀ slot z ks q qr slot' z' ks', pr'.pc = .getblk slot z ks → q ≠ p →
        s.proc q = some qr → qr.pc = .getblk slot' z' ks' → slot ≠ slot' ∧ z ≠ z' := by
      intro slot z ks q qr slot' z' ks' hpc hqp hq hpc'
      cases hsteps.moves with
      | take slot₁ z₁ ks₁ hpc₁ htests hzero htake =>
        rw [hpc] at hpc₁
        cases hpc₁
        refine ⟨?_, ?_⟩
        · rintro rfl
          have htakes := State.takes_eq hp htests hzero
          refine halone (by rw [htakes]; simp) q ?_
          rw [htakes, hq]
          simp [Proc.allocates, hpc']
        · rintro rfl
          have hat := (hI.ok q qr hq).at
          unfold Proc.At at hat
          rw [hpc'] at hat
          exact htake.unmarked hat.2.1.marked
      | install _ _ _ _ _ _ _ _ _ hnot => exact absurd hpc (hnot _ _ _)
      | keep _ _ _ hnot => exact absurd hpc (hnot _ _ _)
    refine ⟨hsteps.sound, ?_, ?_, ?_, ?_, ?_⟩
    · have hroot : s.vol.Holds (.root nr 0) := ⟨hI.file, show 0 < 9 by omega, trivial⟩
      exact (hsteps.grows.holds _ hroot).1.file
    · intro q qr hq
      rcases State.setProc_cases hq with ⟨-, rfl⟩ | ⟨hqp, hold⟩
      · exact hsteps.ok
      · refine (hI.ok q qr hold).grows hsteps.grows
          (fun off hw => hI.apart q p qr pr hold hp hqp off hw) ?_
        intro a y ls hpc ha ha0 hy
        exact hsteps.moves.other hI.sound
          (fun slot slot' z z' ks ks' => hI.alone p q pr qr slot slot' z z' ks ks' hp hold
            (Ne.symm hqp)) hpc ha ha0 hy
    · intro q q' qr qr' hq hq' hne off hw hw'
      rcases State.setProc_cases hq with ⟨hqp, hqr⟩ | ⟨-, hold⟩
      · rcases State.setProc_cases hq' with ⟨hqp', -⟩ | ⟨hqp', hold'⟩
        · exact hne (hqp.trans hqp'.symm)
        · exact hI.apart p q' pr qr' hp hold' (Ne.symm hqp') off ((hwrites off).1 (hqr ▸ hw)) hw'
      · rcases State.setProc_cases hq' with ⟨hqp', hqr'⟩ | ⟨-, hold'⟩
        · exact hI.apart q p qr pr hold hp (hqp' ▸ hne) off hw ((hwrites off).1 (hqr' ▸ hw'))
        · exact hI.apart q q' qr qr' hold hold' hne off hw hw'
    · intro q q' qr qr' slot slot' z z' ks ks' hq hq' hne hpc hpc'
      rcases State.setProc_cases hq with ⟨hqp, hqr⟩ | ⟨hqp, hold⟩
      · rcases State.setProc_cases hq' with ⟨hqp', -⟩ | ⟨hqp', hold'⟩
        · exact absurd (hqp.trans hqp'.symm) hne
        · exact htake _ _ _ q' qr' _ _ _ (hqr ▸ hpc) hqp' hold' hpc'
      · rcases State.setProc_cases hq' with ⟨-, hqr'⟩ | ⟨-, hold'⟩
        · obtain ⟨h1, h2⟩ := htake _ _ _ q qr _ _ _ (hqr' ▸ hpc') hqp hold hpc
          exact ⟨h1.symm, h2.symm⟩
        · exact hI.alone q q' qr qr' slot slot' z z' ks ks' hold hold' hne hpc hpc'
    · exact hsteps.moves.kept hI hp hsteps.sound

theorem writers_inv (hv : v.Sound) (hfile : (v.inode nr).isFile = true)
    (hs : (writers ι v nr).ReachableWhen (fun s e => HasRoom nr s e ∧ Alone nr s e) s) :
    Inv v nr s := by
  refine hs.invariant (fun s h => ?_) fun s e s' hI hok hstep => ?_
  · cases h
    exact .start hv hfile
  · cases e with
    | write p c => exact hI.write hok.1 hstep
    | run p => exact hI.run hok.1 hok.2 hstep

/-- The inode has the zone in one of its places. -/
def Volume.Reaches (v : Volume) (nr z : ℕ) : Prop :=
  ∃ a, v.Holds a ∧ a.nr = nr ∧ a.zone v = z

/-- When a call has returned, it has stored all its bytes and they are read back; when all have
returned, every zone taken is in the inode. -/
theorem calls_kept (hv : v.Sound) (hfile : (v.inode nr).isFile = true)
    (hs : (writers ι v nr).ReachableWhen (fun s e => HasRoom nr s e ∧ Alone nr s e) s) :
    (∀ p, ∀ pr ∈ s.proc p, pr.pc = .done → pr.i = pr.buf.length ∧
      ∀ k b, pr.buf[k]? = some b → s.vol.readByte nr (pr.start + k) = some b) ∧
    ((∀ p, ∀ pr ∈ s.proc p, pr.pc = .done) →
      ∀ z, s.vol.Marked z → ¬ v.Marked z → s.vol.Reaches nr z) := by
  have hI := writers_inv hv hfile hs
  refine ⟨fun p pr hp hdone => ?_, fun hall z hz hnew => ?_⟩
  · have hok := hI.ok p pr hp
    have hi : pr.i = pr.buf.length := by
      have hat := hok.at
      unfold Proc.At at hat
      rwa [hdone] at hat
    refine ⟨hi, fun k b hb => ?_⟩
    have hk : k < pr.stored := by
      have hlt : k < pr.buf.length := (List.getElem?_eq_some_iff.1 hb).1
      simpa [Proc.stored, hdone, hi] using hlt
    obtain ⟨a, ha⟩ := hok.has k b hk hb
    exact ha.readByte
  · rcases hI.kept z hz with h | h | ⟨p, pr, slot, ks, hp, hpc⟩
    · exact absurd h hnew
    · exact h
    · rw [hall p pr hp] at hpc
      cases hpc

end Linux011.Zones
