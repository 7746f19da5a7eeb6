import Linux011.Fs.FlatFile

/-!
# Open files as arrays

`sys_lseek`, `sys_read` and `sys_write` of `fs/read_write.c`, `sys_close` and the end of `open_namei`,
for descriptors `φ` of regular files and directories of one volume. A call is one step, with its user
memory present (see `Linux011.Fs.FlatFile`).

1. `OpenFiles.step`: the calls, on the zones of the volume.
2. `Arrays.next`: the calls on arrays of bytes, with positions below 2 ^ 31. An array takes as many
bytes of a `write` as the answer says.
3. `seek_eq`, `readCount_eq`: the arithmetic of the code is that of the arrays.
4. `Good.step`, `files_are_arrays`.
-/

namespace Linux011.Zones

open Linux011.Fs (Byte Contents)

/-- `struct file`; the position is never negative. -/
structure Filp where
  nr : ℕ
  /-- `f_flags & O_APPEND`. -/
  append : Bool
  fPos : ℕ

structure OpenFiles (φ : Type*) where
  vol : Volume
  filp : φ → Option Filp

inductive FileCall (φ : Type*)
  /-- Inode `nr` is opened. -/
  | sysOpen (f : φ) (nr : ℕ) (append trunc : Bool)
  | sysClose (f : φ)
  | sysLseek (f : φ) (offset : BitVec 32) (origin : ℕ)
  | sysRead (f : φ) (count : BitVec 32)
  | sysWrite (f : φ) (buf : List Byte)

inductive Reply
  | done
  | pos (p : ℕ)
  | bytes (bs : List Byte)
  | wrote (n : ℕ)
  | error (e : Fs.Errno)
  deriving DecidableEq

/-- Fewer bytes were written than there were. -/
def Reply.Short (r : Reply) (buf : List Byte) : Prop :=
  r = .error .eperm ∨ ∃ n < buf.length, r = .wrote n

variable {φ : Type*}

/-! ## The code -/

/-- The new position in `sys_lseek`, which an `int` holds. -/
def seek (fPos size : ℕ) (offset : BitVec 32) : ℕ → Option ℤ
  | 0 => some offset.toInt
  | 1 => some ((fPos + offset.toInt).bmod (2 ^ 32))
  | 2 => some ((size + offset.toInt).bmod (2 ^ 32))
  | _ => none

/-- `count` in `sys_read`, once it is compared with the size. -/
def readCount (count fPos size : ℕ) : ℤ :=
  if (count + fPos) % 2 ^ 32 > size then ((size : ℤ) - fPos).bmod (2 ^ 32) else count

namespace OpenFiles

variable [DecidableEq φ] (s : OpenFiles φ) (f : φ)

def setPos (o : Filp) (pos : ℕ) : OpenFiles φ :=
  { s with filp := Function.update s.filp f (some { o with fPos := pos }) }

def lseek (offset : BitVec 32) (origin : ℕ) : OpenFiles φ × Reply :=
  match s.filp f with
  | none => (s, .error .ebadf)
  | some o =>
    match seek o.fPos (s.vol.inode o.nr).iSize offset origin with
    | none => (s, .error .einval)
    | some pos => if pos < 0 then (s, .error .einval) else (s.setPos f o pos.toNat, .pos pos.toNat)

def read (count : BitVec 32) : Option (OpenFiles φ × Reply) :=
  match s.filp f with
  | none => some (s, .error .einval)
  | some o =>
    if count.toInt < 0 then some (s, .error .einval)
    else if count = 0 then some (s, .bytes [])
    else
      let n := readCount count.toNat o.fPos (s.vol.inode o.nr).iSize
      if n ≤ 0 then some (s, .bytes [])
      else (s.vol.readLoop o.nr n.toNat o.fPos n.toNat).map fun bs =>
        (s.setPos f o (o.fPos + bs.length), .bytes bs)

/-- `file_write`. -/
def fileWrite (o : Filp) (buf : List Byte) : Option (OpenFiles φ × Reply) :=
  let pos := if o.append then (s.vol.inode o.nr).iSize else o.fPos
  (s.vol.writeLoop o.nr buf.length pos buf).map fun r =>
    let s := { s with vol := r.1 }
    (if o.append then s else s.setPos f o (pos + r.2), if r.2 = 0 then .error .eperm else .wrote r.2)

def write (buf : List Byte) : Option (OpenFiles φ × Reply) :=
  match s.filp f with
  | none => some (s, .error .einval)
  | some o =>
    if buf = [] then some (s, .wrote 0)
    else if Fs.isReg (s.vol.inode o.nr).iMode then s.fileWrite f o buf
    else some (s, .error .einval)

def close : OpenFiles φ × Reply :=
  match s.filp f with
  | none => (s, .error .einval)
  | some _ => ({ s with filp := Function.update s.filp f none }, .done)

/-- A file or directory is opened in a free descriptor, and only a file is truncated. -/
def Opens (nr : ℕ) (trunc : Bool) : Prop :=
  s.filp f = none ∧ (s.vol.inode nr).isFile = true ∧ (trunc = true → Fs.isReg (s.vol.inode nr).iMode = true)

def openFile (nr : ℕ) (append trunc : Bool) : Option (OpenFiles φ × Reply) :=
  (if trunc then s.vol.truncate nr else some s.vol).map fun v =>
    ({ vol := v, filp := Function.update s.filp f (some ⟨nr, append, 0⟩) }, .done)

/-- The calls that can be made now. -/
def Allowed : FileCall φ → Prop
  | .sysOpen f nr _ trunc => s.Opens f nr trunc
  | _ => True

instance : ∀ c, Decidable (s.Allowed c)
  | .sysOpen _ _ _ _ => inferInstanceAs (Decidable (_ = none ∧ _ ∧ _))
  | .sysClose _ | .sysLseek _ _ _ | .sysRead _ _ | .sysWrite _ _ => inferInstanceAs (Decidable True)

/-- One call; `none` if the kernel panics. -/
def step : FileCall φ → Option (OpenFiles φ × Reply)
  | .sysOpen f nr append trunc => s.openFile f nr append trunc
  | .sysClose f => some (s.close f)
  | .sysLseek f offset origin => some (s.lseek f offset origin)
  | .sysRead f count => s.read f count
  | .sysWrite f buf => s.write f buf

end OpenFiles

/-- The calls of any processes on the files of a volume. -/
def fileCalls (φ : Type*) [DecidableEq φ] : Machine (OpenFiles φ) (FileCall φ) Reply :=
  Machine.when ⟨OpenFiles.step⟩ OpenFiles.Allowed

/-! ## Arrays -/

/-- The files as arrays. -/
structure Arrays (φ : Type*) where
  file : ℕ → Contents
  isReg : ℕ → Bool
  filp : φ → Option Filp

namespace Arrays

/-- The position that `lseek` asks for. -/
def target (fPos size : ℕ) (offset : BitVec 32) : ℕ → Option ℤ
  | 0 => some offset.toInt
  | 1 => some (fPos + offset.toInt)
  | 2 => some (size + offset.toInt)
  | _ => none

variable [DecidableEq φ] (a : Arrays φ) (f : φ)

def setPos (o : Filp) (pos : ℕ) : Arrays φ :=
  { a with filp := Function.update a.filp f (some { o with fPos := pos }) }

/-- The state `a`, if the answer is `r`. -/
def answers (r r' : Reply) : Option (Arrays φ) := if r' = r then some a else none

/-- Where a write begins. -/
def start (o : Filp) : ℕ := if o.append then (a.file o.nr).size else o.fPos

/-- The first `n` bytes of `buf` are written. -/
def put (o : Filp) (buf : List Byte) (n : ℕ) : Arrays φ :=
  let a' := { a with
    file := Function.update a.file o.nr ((a.file o.nr).write (a.start o) (buf.take n)) }
  if o.append then a' else a'.setPos f o (a.start o + n)

/-- The state after a call with an answer, if an array may give it. -/
def next : FileCall φ → Reply → Option (Arrays φ)
  | .sysOpen f nr append trunc, r =>
    answers { a with
      file := if trunc then Function.update a.file nr ⟨0, fun _ => 0⟩ else a.file
      filp := Function.update a.filp f (some ⟨nr, append, 0⟩) } .done r
  | .sysClose f, r =>
    if a.filp f = none then a.answers (.error .einval) r
    else answers { a with filp := Function.update a.filp f none } .done r
  | .sysLseek f offset origin, r =>
    match a.filp f with
    | none => a.answers (.error .ebadf) r
    | some o =>
      match target o.fPos (a.file o.nr).size offset origin with
      | none => a.answers (.error .einval) r
      | some pos =>
        if 0 ≤ pos ∧ pos < 2 ^ 31 then (a.setPos f o pos.toNat).answers (.pos pos.toNat) r
        else a.answers (.error .einval) r
  | .sysRead f count, r =>
    match a.filp f with
    | none => a.answers (.error .einval) r
    | some o =>
      if count.toInt < 0 then a.answers (.error .einval) r
      else
        let bs := (a.file o.nr).read o.fPos count.toNat
        (a.setPos f o (o.fPos + bs.length)).answers (.bytes bs) r
  | .sysWrite f buf, r =>
    match a.filp f with
    | none => a.answers (.error .einval) r
    | some o =>
      if buf = [] then a.answers (.wrote 0) r
      else if a.isReg o.nr then
        match r with
        | .wrote n => if 0 < n ∧ n ≤ buf.length then some (a.put f o buf n) else none
        | r => a.answers (.error .eperm) r
      else a.answers (.error .einval) r

/-- The state after some calls with their answers. -/
def run : Arrays φ → List (FileCall φ) → List Reply → Option (Arrays φ)
  | a, [], [] => some a
  | a, c :: cs, r :: rs => (a.next c r).bind fun a => run a cs rs
  | _, _, _ => none

end Arrays

/-! ## 32-bit arithmetic -/

section Arithmetic

variable {fPos size count : ℕ} {n : ℤ}

theorem bmod_eq (hlow : -2 ^ 31 ≤ n) (hhigh : n < 2 ^ 32) :
    n.bmod (2 ^ 32) = if n < 2 ^ 31 then n else n - 2 ^ 32 := by
  rw [Int.bmod_def]
  split_ifs <;> omega

theorem toInt_bounds (offset : BitVec 32) : -2 ^ 31 ≤ offset.toInt ∧ offset.toInt < 2 ^ 31 :=
  ⟨BitVec.le_toInt offset, BitVec.toInt_lt⟩

/-- An overflow is seen as a negative position. -/
theorem seek_eq (hpos : fPos < 2 ^ 31) (hsize : size < 2 ^ 31) (offset : BitVec 32)
    (origin : ℕ) :
    (seek fPos size offset origin = none ∧ Arrays.target fPos size offset origin = none) ∨
    ∃ pos pos', seek fPos size offset origin = some pos ∧ Arrays.target fPos size offset origin = some pos' ∧
      (0 ≤ pos ↔ 0 ≤ pos' ∧ pos' < 2 ^ 31) ∧ (0 ≤ pos → pos = pos') := by
  have hoff := toInt_bounds offset
  have hwrap : ∀ k : ℕ, k < 2 ^ 31 → (0 ≤ ((k : ℤ) + offset.toInt).bmod (2 ^ 32) ↔
      0 ≤ (k : ℤ) + offset.toInt ∧ (k : ℤ) + offset.toInt < 2 ^ 31) ∧
      (0 ≤ ((k : ℤ) + offset.toInt).bmod (2 ^ 32) →
        ((k : ℤ) + offset.toInt).bmod (2 ^ 32) = k + offset.toInt) := by
    intro k hk
    rw [bmod_eq (by omega) (by omega)]
    split_ifs <;> omega
  obtain rfl | rfl | rfl | ⟨k, rfl⟩ : origin = 0 ∨ origin = 1 ∨ origin = 2 ∨ ∃ k, origin = k + 3 := by
    by_cases h : 3 ≤ origin
    · exact .inr (.inr (.inr ⟨origin - 3, by omega⟩))
    · omega
  · exact .inr ⟨_, _, rfl, rfl, by omega, fun _ => rfl⟩
  · exact .inr ⟨_, _, rfl, rfl, hwrap fPos hpos⟩
  · exact .inr ⟨_, _, rfl, rfl, hwrap size hsize⟩
  · exact .inl ⟨rfl, rfl⟩

/-- The bytes that there are. -/
theorem readCount_eq (hcount : count < 2 ^ 31) (hpos : fPos < 2 ^ 31) (hsize : size < 2 ^ 31) :
    (readCount count fPos size).toNat = min count (size - fPos) := by
  unfold readCount
  rw [Nat.mod_eq_of_lt (by omega)]
  split_ifs with h
  · rw [bmod_eq (by omega) (by omega), if_pos (by omega)]
    omega
  · omega

end Arithmetic

/-! ## The calls keep to the arrays -/

namespace OpenFiles

/-- The files as arrays. -/
def arrays (s : OpenFiles φ) : Arrays φ where
  file := s.vol.contents
  isReg nr := Fs.isReg (s.vol.inode nr).iMode
  filp := s.filp

structure Good (s : OpenFiles φ) : Prop where
  sound : s.vol.Sound
  size : ∀ nr, (s.vol.contents nr).size ≤ maxSize
  filp : ∀ f o, s.filp f = some o → (s.vol.inode o.nr).isFile = true ∧ o.fPos < 2 ^ 31

variable {s s' : OpenFiles φ} {f : φ} {o : Filp} {pos : ℕ}

@[simp] theorem arrays_filp : s.arrays.filp = s.filp := rfl

@[simp] theorem arrays_file {nr : ℕ} : s.arrays.file nr = s.vol.contents nr := rfl

theorem Good.iSize (h : s.Good) (hf : s.filp f = some o) :
    (s.vol.inode o.nr).iSize = (s.vol.contents o.nr).size ∧ (s.vol.contents o.nr).size < 2 ^ 31 := by
  have hsize := h.size o.nr
  refine ⟨?_, ?_⟩
  · rw [Volume.contents_file (h.filp f o hf).1]
  · refine hsize.trans_lt ?_
    unfold maxSize
    omega

/-- A volume on which files have changed. -/
theorem Good.vol {v : Volume} (h : s.Good) (hv : v.Sound)
    (hmode : ∀ nr, (v.inode nr).iMode = (s.vol.inode nr).iMode)
    (hsize : ∀ nr, (v.contents nr).size ≤ maxSize) : Good { s with vol := v } where
  sound := hv
  size := hsize
  filp f o hf := by
    obtain ⟨hfile, hpos⟩ := h.filp f o hf
    refine ⟨?_, hpos⟩
    unfold Inode.isFile at hfile ⊢
    rw [hmode]
    exact hfile

theorem arrays_vol {v : Volume} {nr : ℕ} {c : Contents}
    (hmode : ∀ nr, (v.inode nr).iMode = (s.vol.inode nr).iMode)
    (hself : v.contents nr = c) (hother : ∀ nr' ≠ nr, v.contents nr' = s.vol.contents nr') :
    ({ s with vol := v } : OpenFiles φ).arrays
      = { s.arrays with file := Function.update s.arrays.file nr c } := by
  have hfile : v.contents = Function.update s.vol.contents nr c := by
    funext k
    rw [Function.update_apply]
    split_ifs with hk
    · rw [hk, hself]
    · exact hother k hk
  have hreg : (fun nr => Fs.isReg (v.inode nr).iMode) = fun nr => Fs.isReg (s.vol.inode nr).iMode := by
    funext k
    rw [hmode]
  show (⟨v.contents, fun nr => Fs.isReg (v.inode nr).iMode, s.filp⟩ : Arrays φ) = _
  rw [hfile, hreg]
  rfl

variable [DecidableEq φ]

theorem arrays_setPos : (s.setPos f o pos).arrays = s.arrays.setPos f o pos := rfl

theorem Good.setPos (h : s.Good) (hf : s.filp f = some o) (hpos : pos < 2 ^ 31) : (s.setPos f o pos).Good where
  sound := h.sound
  size := h.size
  filp g p hg := by
    change Function.update s.filp f _ g = some p at hg
    by_cases hgf : g = f
    · rw [hgf, Function.update_self] at hg
      cases hg
      exact ⟨(h.filp f o hf).1, hpos⟩
    · rw [Function.update_of_ne hgf] at hg
      exact h.filp g p hg

theorem Good.lseek (h : s.Good) (offset : BitVec 32) (origin : ℕ) :
    s.arrays.next (.sysLseek f offset origin) (s.lseek f offset origin).2
        = some (s.lseek f offset origin).1.arrays ∧
      (s.lseek f offset origin).1.Good := by
  unfold OpenFiles.lseek Arrays.next
  simp only [arrays_filp, arrays_file]
  cases hf : s.filp f with
  | none => exact ⟨if_pos rfl, h⟩
  | some o =>
    obtain ⟨hsize, hlt⟩ := h.iSize hf
    dsimp only
    rw [hsize]
    rcases seek_eq (h.filp f o hf).2 hlt offset origin with ⟨h1, h2⟩ | ⟨pos, pos', h1, h2, hiff, heq⟩
    · rw [h1, h2]
      exact ⟨if_pos rfl, h⟩
    · rw [h1, h2]
      dsimp only
      by_cases hneg : pos < 0
      · rw [if_pos hneg, if_neg fun hp => absurd (hiff.2 hp) (not_le.2 hneg)]
        exact ⟨if_pos rfl, h⟩
      · have hpos := not_lt.1 hneg
        have hrange := hiff.1 hpos
        obtain rfl := heq hpos
        rw [if_neg hneg, if_pos hrange]
        exact ⟨if_pos rfl, h.setPos hf (by omega)⟩

theorem setPos_self (hf : s.filp f = some o) : s.setPos f o o.fPos = s := by
  unfold OpenFiles.setPos
  rw [Function.update_eq_self_iff.2 hf.symm]

theorem Good.read (h : s.Good) (count : BitVec 32) : ∃ s' r, s.read f count = some (s', r) ∧
    s.arrays.next (.sysRead f count) r = some s'.arrays ∧ s'.Good := by
  unfold OpenFiles.read Arrays.next
  simp only [arrays_filp, arrays_file]
  cases hf : s.filp f with
  | none => exact ⟨s, _, rfl, if_pos rfl, h⟩
  | some o =>
    obtain ⟨hfile, hpos⟩ := h.filp f o hf
    obtain ⟨hsize, hlt⟩ := h.iSize hf
    dsimp only
    rw [hsize]
    by_cases hneg : count.toInt < 0
    · simp only [if_pos hneg]
      exact ⟨s, _, rfl, if_pos rfl, h⟩
    simp only [if_neg hneg]
    have hcount : count.toNat < 2 ^ 31 := by
      rw [BitVec.toInt_eq_toNat_cond] at hneg
      have := count.isLt
      split_ifs at hneg <;> omega
    obtain ⟨n, hn⟩ : ∃ n, n = min count.toNat ((s.vol.contents o.nr).size - o.fPos) := ⟨_, rfl⟩
    have hread : readCount count.toNat o.fPos (s.vol.contents o.nr).size ≤ n ∧
        (readCount count.toNat o.fPos (s.vol.contents o.nr).size).toNat = n := by
      have heq := readCount_eq hcount hpos hlt
      omega
    have habs : (s.vol.contents o.nr).read o.fPos count.toNat
        = (List.range n).map fun k => (s.vol.contents o.nr).data (o.fPos + k) := by
      unfold Contents.read
      rw [show ((s.vol.contents o.nr).size - (o.fPos : ℤ)).toNat = (s.vol.contents o.nr).size - o.fPos by
        omega, ← hn]
      rfl
    simp only [habs, List.length_map, List.length_range]
    by_cases hn0 : n = 0
    · -- nothing is read
      have hnil : (if count = 0 then some (s, Reply.bytes [])
          else if readCount count.toNat o.fPos (s.vol.contents o.nr).size ≤ 0 then some (s, .bytes [])
          else (s.vol.readLoop o.nr (readCount count.toNat o.fPos (s.vol.contents o.nr).size).toNat o.fPos
            (readCount count.toNat o.fPos (s.vol.contents o.nr).size).toNat).map fun bs =>
              (s.setPos f o (o.fPos + bs.length), .bytes bs)) = some (s, .bytes []) := by
        by_cases hc : count = 0
        · exact if_pos hc
        · rw [if_neg hc, if_pos (by omega)]
      simp only [hnil, hn0, Nat.add_zero, ← arrays_setPos, setPos_self hf]
      exact ⟨s, _, rfl, if_pos rfl, h⟩
    · have hc : count ≠ 0 := by
        rintro rfl
        exact hn0 (by rw [hn]; exact Nat.zero_min _)
      have hmax : o.fPos + n ≤ (s.vol.contents o.nr).size := by omega
      rw [if_neg hc, if_neg (by omega), hread.2,
        Volume.readLoop_spec hfile le_rfl (hmax.trans (h.size o.nr))]
      simp only [Option.map_some, List.length_map, List.length_range]
      exact ⟨_, _, rfl, if_pos rfl, h.setPos hf (by omega)⟩

theorem put_zero (hf : s.filp f = some o) {buf : List Byte} : s.arrays.put f o buf 0 = s.arrays := by
  unfold Arrays.put
  rw [List.take_zero, write_nil, Function.update_eq_self]
  split_ifs with happ
  · rfl
  · have hstart : s.arrays.start o + 0 = o.fPos := if_neg happ
    rw [hstart]
    exact congrArg arrays (setPos_self hf)

theorem Good.fileWrite (h : s.Good) (hf : s.filp f = some o) {buf : List Byte} (hbuf : buf ≠ [])
    (hreg : Fs.isReg (s.vol.inode o.nr).iMode = true) :
    (s.fileWrite f o buf = none ∧ maxSize < s.arrays.start o + buf.length) ∨
    ∃ s' r, s.fileWrite f o buf = some (s', r) ∧ s.arrays.next (.sysWrite f buf) r = some s'.arrays ∧
      s'.Good ∧ (r.Short buf → s'.vol.takeZone.1 = 0) := by
  obtain ⟨hfile, hpos⟩ := h.filp f o hf
  obtain ⟨hsize, -⟩ := h.iSize hf
  obtain ⟨pos, hposeq⟩ : ∃ pos, pos = s.arrays.start o := ⟨_, rfl⟩
  have hcode : (if o.append then (s.vol.inode o.nr).iSize else o.fPos) = pos := by
    rw [hposeq, hsize]
    rfl
  unfold OpenFiles.fileWrite
  rw [hcode, ← hposeq]
  dsimp only
  rcases Volume.writeLoop_spec h.sound hfile pos (le_refl buf.length) with
    ⟨hnone, hbig⟩ | ⟨v, i, hrun, hw⟩
  · rw [hnone]
    exact .inl ⟨rfl, hbig⟩
  rw [hrun]
  have hvol : Good { s with vol := v } := by
    refine h.vol hw.sound hw.mode fun nr => ?_
    by_cases hnr : nr = o.nr
    · rw [hnr, hw.self]
      have hold := h.size o.nr
      show (if buf.take i = [] then _ else max _ (pos + (buf.take i).length)) ≤ maxSize
      split_ifs with hnil
      · exact hold
      · have hi : i ≠ 0 := fun hi => hnil (by rw [hi, List.take_zero])
        rw [List.length_take, min_eq_left hw.le]
        exact max_le hold (hw.fits hi)
    · rw [hw.other nr hnr]
      exact h.size nr
  have harr := arrays_vol hw.mode hw.self hw.other
  have hput : (if o.append then { s with vol := v }
      else ({ s with vol := v } : OpenFiles φ).setPos f o (pos + i)).arrays
      = s.arrays.put f o buf i := by
    unfold Arrays.put
    rw [← hposeq]
    dsimp only
    split_ifs
    · exact harr
    · rw [arrays_setPos, harr]
      rfl
  refine .inr ⟨_, _, rfl, ?_, ?_, ?_⟩
  · unfold Arrays.next
    rw [hput]
    simp only [arrays_filp, hf, if_neg hbuf]
    rw [if_pos (show s.arrays.isReg o.nr = true from hreg)]
    by_cases hi : i = 0
    · rw [if_pos hi, hi]
      rw [put_zero hf]
      exact if_pos rfl
    · rw [if_neg hi]
      exact if_pos ⟨Nat.pos_of_ne_zero hi, hw.le⟩
  · split_ifs with happ
    · exact hvol
    · refine hvol.setPos hf ?_
      by_cases hi : i = 0
      · rw [hi, hposeq]
        unfold Arrays.start
        rw [if_neg happ]
        exact hpos
      · have := hw.fits hi
        unfold maxSize at this
        omega
  · intro hshort
    have hvol' : (if o.append then { s with vol := v }
        else ({ s with vol := v } : OpenFiles φ).setPos f o (pos + i)).vol = v := by
      split_ifs <;> rfl
    rw [hvol']
    apply hw.full
    by_cases hi : i = 0
    · rw [hi]
      exact List.length_pos_iff.2 hbuf
    · rw [if_neg hi] at hshort
      obtain hr | ⟨n, hn, hr⟩ := hshort
      · cases hr
      · cases hr
        exact hn

theorem Good.write (h : s.Good) (buf : List Byte) :
    (s.write f buf = none ∧ ∃ o, s.filp f = some o ∧ maxSize < s.arrays.start o + buf.length) ∨
    ∃ s' r, s.write f buf = some (s', r) ∧ s.arrays.next (.sysWrite f buf) r = some s'.arrays ∧
      s'.Good ∧ (r.Short buf → s'.vol.takeZone.1 = 0) := by
  have hshort : ∀ r : Reply, (∀ n, r ≠ .wrote n) → r ≠ .error .eperm → ¬ r.Short buf := by
    rintro r hn he (hr | ⟨n, -, hr⟩)
    · exact he hr
    · exact hn n hr
  cases hf : s.filp f with
  | none =>
    have hwrite : s.write f buf = some (s, .error .einval) := by
      unfold OpenFiles.write
      rw [hf]
    refine .inr ⟨s, _, hwrite, ?_, h, fun hr => absurd hr (hshort _ (fun n hr => by cases hr) fun hr => by cases hr)⟩
    unfold Arrays.next
    simp only [arrays_filp, hf]
    exact if_pos rfl
  | some o =>
    by_cases hbuf : buf = []
    · have hwrite : s.write f buf = some (s, .wrote 0) := by
        unfold OpenFiles.write
        rw [hf]
        exact if_pos hbuf
      refine .inr ⟨s, _, hwrite, ?_, h, ?_⟩
      · unfold Arrays.next
        simp only [arrays_filp, hf, if_pos hbuf]
        exact if_pos rfl
      · rintro (hr | ⟨n, hn, -⟩)
        · cases hr
        · rw [hbuf] at hn
          exact absurd hn (Nat.not_lt_zero n)
    by_cases hreg : Fs.isReg (s.vol.inode o.nr).iMode = true
    · have hwrite : s.write f buf = s.fileWrite f o buf := by
        unfold OpenFiles.write
        rw [hf]
        exact (if_neg hbuf).trans (if_pos hreg)
      rw [hwrite]
      exact (h.fileWrite hf hbuf hreg).imp_left fun hnone => ⟨hnone.1, o, rfl, hnone.2⟩
    · have hwrite : s.write f buf = some (s, .error .einval) := by
        unfold OpenFiles.write
        rw [hf]
        exact (if_neg hbuf).trans (if_neg hreg)
      refine .inr ⟨s, _, hwrite, ?_, h,
        fun hr => absurd hr (hshort _ (fun n hr => by cases hr) fun hr => by cases hr)⟩
      unfold Arrays.next
      simp only [arrays_filp, hf, if_neg hbuf]
      rw [if_neg (show ¬ s.arrays.isReg o.nr = true from hreg)]
      exact if_pos rfl

theorem Good.update (h : s.Good) {x : Option Filp}
    (hx : ∀ o, x = some o → (s.vol.inode o.nr).isFile = true ∧ o.fPos < 2 ^ 31) :
    Good { s with filp := Function.update s.filp f x } where
  sound := h.sound
  size := h.size
  filp g p hg := by
    change Function.update s.filp f x g = some p at hg
    rw [Function.update_apply] at hg
    split_ifs at hg
    · exact hx p hg
    · exact h.filp g p hg

theorem Good.close (h : s.Good) :
    s.arrays.next (.sysClose f) (s.close f).2 = some (s.close f).1.arrays ∧ (s.close f).1.Good := by
  cases hf : s.filp f with
  | none =>
    have hclose : s.close f = (s, .error .einval) := by
      unfold OpenFiles.close
      rw [hf]
    rw [hclose]
    refine ⟨?_, h⟩
    unfold Arrays.next
    simp only [arrays_filp, hf, if_pos]
    exact if_pos rfl
  | some o =>
    have hclose : s.close f = ({ s with filp := Function.update s.filp f none }, .done) := by
      unfold OpenFiles.close
      rw [hf]
    rw [hclose]
    refine ⟨?_, h.update fun p hp => by cases hp⟩
    unfold Arrays.next
    simp only [arrays_filp, hf]
    exact (if_neg fun hn => by cases hn).trans (if_pos rfl)

/-- A truncated file is an empty array. -/
theorem contents_truncated {v : Volume} {nr : ℕ} (hfile : (v.inode nr).isFile = true) :
    (v.truncated nr).contents nr = ⟨0, fun _ => 0⟩ ∧
      ∀ nr' ≠ nr, (v.truncated nr).contents nr' = v.contents nr' := by
  refine ⟨?_, fun nr' hnr => ?_⟩
  · rw [Volume.contents_file (Volume.truncated_isFile.trans hfile), Volume.truncated_self]
    refine congrArg _ (funext fun off => ?_)
    by_cases hoff : off < maxSize
    · rw [Volume.readByte_truncated_self (by unfold maxSize at hoff; omega)]
      rfl
    · rw [Volume.readByte_big (not_lt.1 hoff)]
      rfl
  · exact Volume.contents_congr Volume.truncated_isFile (by rw [Volume.truncated_other hnr])
      fun _ _ _ => Volume.readByte_truncated_other hnr

theorem Good.openFile (h : s.Good) {nr : ℕ} (append : Bool) {trunc : Bool} (ho : s.Opens f nr trunc) :
    ∃ s' r, s.openFile f nr append trunc = some (s', r) ∧
      s.arrays.next (.sysOpen f nr append trunc) r = some s'.arrays ∧ s'.Good := by
  obtain ⟨-, hfile, -⟩ := ho
  cases trunc with
  | false =>
    refine ⟨_, _, rfl, ?_, h.update fun o hp => ?_⟩
    · unfold Arrays.next
      exact if_pos rfl
    · cases hp
      exact ⟨hfile, Nat.two_pow_pos 31⟩
  | true =>
    obtain ⟨hself, hother⟩ := contents_truncated hfile
    have hvol : Good { s with vol := s.vol.truncated nr } := by
      refine h.vol (h.sound.truncated hfile) (fun _ => Volume.truncated_mode) fun k => ?_
      by_cases hk : k = nr
      · rw [hk, hself]
        exact Nat.zero_le _
      · rw [hother k hk]
        exact h.size k
    have hrun : s.openFile f nr append true = some (⟨s.vol.truncated nr,
        Function.update s.filp f (some ⟨nr, append, 0⟩)⟩, .done) := by
      unfold OpenFiles.openFile
      rw [if_pos rfl, Volume.truncate_eq h.sound hfile]
      rfl
    have harr := arrays_vol (s := s) (fun _ => Volume.truncated_mode) hself hother
    refine ⟨_, _, hrun, ?_, ?_⟩
    · unfold Arrays.next
      refine (if_pos rfl).trans ?_
      exact congrArg (fun a : Arrays φ => some
        { a with filp := Function.update s.filp f (some ⟨nr, append, 0⟩) }) harr.symm
    · refine hvol.update fun o hp => ?_
      cases hp
      exact ⟨Volume.truncated_isFile.trans hfile, Nat.two_pow_pos 31⟩

/-- One call. -/
theorem Good.step (h : s.Good) {c : FileCall φ} (hc : s.Allowed c) :
    (s.step c = none ∧ ∃ f buf o, c = .sysWrite f buf ∧ s.filp f = some o ∧
      maxSize < s.arrays.start o + buf.length) ∨
    ∃ s' r, s.step c = some (s', r) ∧ s.arrays.next c r = some s'.arrays ∧ s'.Good ∧
      ∀ f buf, c = .sysWrite f buf → r.Short buf → s'.vol.takeZone.1 = 0 := by
  cases c with
  | sysOpen f nr append trunc =>
    obtain ⟨s', r, h1, h2, h3⟩ := h.openFile append hc
    exact .inr ⟨s', r, h1, h2, h3, fun _ _ hw => by cases hw⟩
  | sysClose f => exact .inr ⟨_, _, rfl, h.close.1, h.close.2, fun _ _ hw => by cases hw⟩
  | sysLseek f offset origin =>
    obtain ⟨h1, h2⟩ := h.lseek (f := f) offset origin
    exact .inr ⟨_, _, rfl, h1, h2, fun _ _ hw => by cases hw⟩
  | sysRead f count =>
    obtain ⟨s', r, h1, h2, h3⟩ := h.read (f := f) count
    exact .inr ⟨s', r, h1, h2, h3, fun _ _ hw => by cases hw⟩
  | sysWrite f buf =>
    rcases h.write (f := f) buf with ⟨h1, o, h2, h3⟩ | ⟨s', r, h1, h2, h3, h4⟩
    · exact .inl ⟨h1, f, buf, o, rfl, h2, h3⟩
    · refine .inr ⟨s', r, h1, h2, h3, fun g buf' hw => ?_⟩
      cases hw
      exact h4

end OpenFiles

/-! ## Whole runs -/

theorem OpenFiles.Good.run {s s' : OpenFiles φ} [DecidableEq φ] (h : s.Good) {calls : List (FileCall φ)}
    {answers : List Reply} (hrun : (fileCalls φ).exec s calls = some (s', answers)) :
    s.arrays.run calls answers = some s'.arrays ∧ s'.Good := by
  induction calls generalizing s answers with
  | nil =>
    cases hrun
    exact ⟨rfl, h⟩
  | cons c calls ih =>
    obtain ⟨t, r, rs, hstep, hrest, rfl⟩ := Machine.exec_cons_eq_some hrun
    obtain ⟨hc, hstep⟩ := Machine.when_step_eq_some hstep
    rcases h.step hc with ⟨hnone, -⟩ | ⟨t', r', hsome, hnext, ht, -⟩
    · rw [show s.step c = some (t, r) from hstep] at hnone
      cases hnone
    · rw [show s.step c = some (t, r) from hstep] at hsome
      cases hsome
      obtain ⟨h1, h2⟩ := ih ht hrest
      refine ⟨?_, h2⟩
      show (s.arrays.next c r).bind _ = _
      rw [hnext]
      exact h1

/-- Files on a sound volume are arrays of bytes: what is written to one is read from it and from no
other, zones that it gives up may go to others, and `new_block` fails where a write is cut short. -/
theorem files_are_arrays {φ : Type*} [DecidableEq φ] {v : Volume} (hv : v.Sound)
    (hsize : ∀ nr, (v.contents nr).size ≤ maxSize) {calls : List (FileCall φ)} {s : OpenFiles φ}
    {answers : List Reply} (h : (fileCalls φ).exec ⟨v, fun _ => none⟩ calls = some (s, answers)) :
    (OpenFiles.arrays ⟨v, fun _ => none⟩).run calls answers = some s.arrays ∧ s.vol.Sound ∧
    ∀ c, s.Allowed c →
      (s.step c = none → ∃ f buf o, c = .sysWrite f buf ∧ s.filp f = some o ∧
        maxSize < s.arrays.start o + buf.length) ∧
      ∀ s' r f buf, s.step c = some (s', r) → c = .sysWrite f buf → r.Short buf →
        s'.vol.takeZone.1 = 0 := by
  have hgood : OpenFiles.Good (φ := φ) ⟨v, fun _ => none⟩ := ⟨hv, hsize, fun _ _ hf => by cases hf⟩
  obtain ⟨hrun, hs⟩ := hgood.run h
  refine ⟨hrun, hs.sound, fun c hc => ?_⟩
  rcases hs.step hc with ⟨hnone, hbig⟩ | ⟨t, r, hsome, -, -, hshort⟩
  · refine ⟨fun _ => hbig, fun s' r f buf hstep _ _ => ?_⟩
    rw [hnone] at hstep
    cases hstep
  · refine ⟨fun hnone => ?_, fun s' r' f buf hstep hw hr => ?_⟩
    · rw [hnone] at hsome
      cases hsome
    · rw [hsome] at hstep
      cases hstep
      exact hshort f buf hw hr

/-- A volume with empty files. -/
def blank : Volume where
  firstdatazone := 10
  nzones := 20
  zmapBlocks := 1
  zmap b := b == 0
  data _ _ := 0
  inode _ := ⟨0o100644, fun _ => 0, 0⟩

theorem blank_zone {a : Addr} (ha : blank.Holds a) : a.zone blank = 0 := by
  induction a with
  | root nr k => rfl
  | child up k ih => exact absurd (ih ha.up) ha.live.2

theorem blank_sound : blank.Sound where
  firstdatazone_pos := by decide
  nzones_lt := by decide
  zmap_zero := rfl
  marked _ ha hz := absurd (blank_zone ha) hz
  distinct _ _ ha _ hz := absurd (blank_zone ha) hz

/-- Two bytes across the end of a block; the file is truncated, and another gets its zones. -/
def twoFiles : List (FileCall (Fin 3)) :=
  [.sysOpen 0 0 false false, .sysLseek 0 1023 0, .sysWrite 0 [1, 2], .sysOpen 1 0 false true,
    .sysOpen 2 1 true false, .sysLseek 2 1 0, .sysWrite 2 [3], .sysWrite 2 [4], .sysLseek 2 0 0,
    .sysRead 2 9]

theorem files_are_arrays_two : ∃ s, (fileCalls (Fin 3)).exec ⟨blank, fun _ => none⟩ twoFiles = some (s,
      [.done, .pos 1023, .wrote 2, .done, .done, .pos 1, .wrote 1, .wrote 1, .pos 0, .bytes [3, 4]]) ∧
    s.vol.Sound := by
  have hrun : ((fileCalls (Fin 3)).exec ⟨blank, fun _ => none⟩ twoFiles).map (·.2) = some
      [.done, .pos 1023, .wrote 2, .done, .done, .pos 1, .wrote 1, .wrote 1, .pos 0, .bytes [3, 4]] := by
    decide +kernel
  obtain ⟨⟨s, answers⟩, hs, rfl⟩ := Option.map_eq_some_iff.1 hrun
  refine ⟨s, hs, (files_are_arrays blank_sound (fun nr => ?_) hs).2.1⟩
  have hfile : (blank.inode nr).isFile = true := by
    show Inode.isFile ⟨0o100644, fun _ => 0, 0⟩ = true
    decide
  rw [Volume.contents_file hfile]
  exact Nat.zero_le _

end Linux011.Zones
