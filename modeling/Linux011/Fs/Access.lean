import Linux011.Fs.File
import Linux011.Lib.Transition

/-!
# Write access

Processes without privileges and their open files. A file opened without write access should not change
through its descriptors.

1. `Event`, `State.call`, and `Run`, which remembers for each entry of `file_table` whether its `open`
   asked for write access and got it.
2. `Run.Inv`: entries are counted by their descriptors, so the flags of an entry are those of its `open`.
3. `write_access`: `sys_write` looks at the mode of pipes only.
-/

namespace Linux011.Fs

variable {ι : Type*} [DecidableEq ι]

/-! ## Runs -/

/-- A system call of the task `p`. -/
inductive Event (ι : Type*)
  | open (p : Fin 64) (flag mode : BitVec 16) (l : Lookup ι)
  | creat (p : Fin 64) (mode : BitVec 16) (l : Lookup ι)
  | close (p : Fin 64) (fd : ℕ)
  | dup (p : Fin 64) (fildes : ℕ)
  | dup2 (p : Fin 64) (oldfd newfd : ℕ)
  | fcntl (p : Fin 64) (fd : ℕ) (cmd : Cmd) (arg : BitVec 32)
  | fork (p nr : Fin 64)
  | lseek (p : Fin 64) (fd : ℕ) (offset : BitVec 32) (origin : ℕ)
  | read (p : Fin 64) (fd : ℕ) (count : BitVec 32) (w : Outcome ι)
  | write (p : Fin 64) (fd : ℕ) (buf : List Byte) (w : Outcome ι)

def Event.proc : Event ι → Fin 64
  | .open p .. | .creat p .. | .close p .. | .dup p .. | .dup2 p .. | .fcntl p .. | .fork p ..
  | .lseek p .. | .read p .. | .write p .. => p

/-- A directory is one, and a new inode is free. -/
def Lookup.Valid (s : State ι) : Lookup ι → Prop
  | .directory dir => (s.inode dir).any fun n => isDir n.iMode
  | .missing _ (some i) _ => (s.inode i).isNone
  | _ => True

/-- What the call does and returns. -/
def State.call (s : State ι) (t : Task) : Event ι → State ι × Except Errno ℕ
  | .open p flag mode l => sysOpen s p t flag mode l
  | .creat p mode l => sysCreat s p t mode l
  | .close p fd => sysClose s p t fd
  | .dup p fildes => sysDup s p t fildes
  | .dup2 p oldfd newfd => sysDup2 s p t oldfd newfd
  | .fcntl p fd cmd arg => sysFcntl s p t fd cmd arg
  | .fork _ nr => (copyProcess s t nr, .ok nr)
  | .lseek _ fd offset origin => sysLseek s t fd offset origin
  | .read _ fd count w => ((sysRead s t fd count w).1, (sysRead s t fd count w).2.map List.length)
  | .write _ fd buf w => sysWrite s t fd buf w

/-- What a call needs to take place: `fork` needs a free slot, and a write must not panic. -/
def State.Enabled (s : State ι) : Event ι → Prop
  | .open _ _ _ l | .creat _ _ l => l.Valid s
  | .fork _ nr => s.task nr = none
  | .write p fd buf w => ∀ t, s.task p = some t → s.Fits t fd buf w.room
  | _ => True

/-- The flags ask for write access. -/
def requested (flag : BitVec 16) : Bool :=
  flag &&& oAccmode == oWronly || flag &&& oAccmode == oRdwr || flag &&& oTrunc != 0

/-- The file may be written by the task, or did not exist. -/
def Lookup.permits (s : State ι) (t : Task) : Lookup ι → Bool
  | .found (some i) => (s.inode i).any fun n => permission t n mayWrite
  | .missing .. => true
  | _ => false

/-- A state, and the entries of `file_table` that were opened with write access. -/
structure Run (ι : Type*) extends State ι where
  granted : FileNr → Bool

/-- The entry that an `open` takes, if it succeeds, and whether it has write access. -/
def State.grant (s : State ι) (t : Task) : Event ι → Option (FileNr × Bool)
  | .open p flag mode l =>
    match (sysOpen s p t flag mode l).2 with
    | .ok _ => s.freeFile.map fun f => (f, requested flag && l.permits s t)
    | .error _ => none
  | .creat p mode l =>
    match (sysCreat s p t mode l).2 with
    | .ok _ => s.freeFile.map fun f => (f, l.permits s t)
    | .error _ => none
  | _ => none

def regrant (g : FileNr → Bool) : Option (FileNr × Bool) → FileNr → Bool
  | none => g
  | some (f, b) => Function.update g f b

/-- The run after the call. -/
def Run.after (r : Run ι) (t : Task) (e : Event ι) : Run ι where
  toState := (r.call t e).1
  granted := regrant r.granted (r.grant t e)

def openFiles (ι : Type*) [DecidableEq ι] : System (Run ι) (Event ι) where
  init r := (∀ p t, r.task p = some t → t.euid ≠ 0 ∧ ∀ fd, t.filp fd = none) ∧
    ∀ f, (r.file f).fCount = 0
  step r e r' := ∃ t, r.task e.proc = some t ∧ r.Enabled e ∧ r' = r.after t e

/-- A write to a regular file or a block device goes through a descriptor that asked for it. -/
def Run.Allowed (r : Run ι) : Event ι → Prop
  | .write p fd buf _ => buf ≠ [] → ∀ t f i n, r.task p = some t → t.file fd = some f →
      (r.file f.2).fInode = some i → r.inode i = some n → n.iPipe = false →
      isReg n.iMode ∨ isBlk n.iMode → requested (r.file f.2).fFlags = true
  | _ => True

/-- The call is an `open` that asks for write access to an existing file and gets it, or a write through
a descriptor that was opened so. -/
def Run.Authorized (r : Run ι) (t : Task) : Event ι → Prop
  | .open _ flag _ l => requested flag = true ∧ l.permits r.toState t = true
  | .creat _ _ l => l.permits r.toState t = true
  | .write _ fd _ _ => ∃ f, t.file fd = some f ∧ r.granted f.2 = true
  | _ => False

/-! ## Counts of descriptors -/

/-- How many descriptors of the task point to the entry. -/
def taskRefs (f : FileNr) : Option Task → ℕ
  | none => 0
  | some t => (Finset.univ.filter fun fd => t.filp fd = some f).card

/-- How many descriptors point to the entry. -/
def State.refs (s : State ι) (f : FileNr) : ℕ :=
  ∑ p, taskRefs f (s.task p)

/-- The entry is open. -/
def State.IsOpen (s : State ι) (f : FileNr) : Prop :=
  ∃ p t fd, s.task p = some t ∧ t.filp fd = some f

omit [DecidableEq ι] in
theorem State.isOpen_iff {s : State ι} {f : FileNr} : s.IsOpen f ↔ s.refs f ≠ 0 := by
  unfold State.refs State.IsOpen
  rw [Ne, Finset.sum_eq_zero_iff, not_forall]
  constructor
  · rintro ⟨p, t, fd, ht, hfd⟩
    refine ⟨p, fun h => ?_⟩
    have h := h (Finset.mem_univ p)
    rw [ht] at h
    exact (Count.card_filter_pos (Finset.mem_univ fd) hfd).ne' h
  · rintro ⟨p, hp⟩
    cases ht : s.task p with
    | none => simp [ht, taskRefs] at hp
    | some t =>
      have hp : taskRefs f (some t) ≠ 0 := fun h => hp fun _ => by rw [ht, h]
      obtain ⟨fd, hfd⟩ := Finset.card_pos.1 (Nat.pos_of_ne_zero hp)
      exact ⟨p, t, fd, ht, (Finset.mem_filter.1 hfd).2⟩

omit [DecidableEq ι] in
/-- The references when one task changes. -/
theorem State.refs_setTask (s : State ι) (p : Fin 64) (t : Task) (f : FileNr) :
    (s.setTask p t).refs f + taskRefs f (s.task p) = s.refs f + taskRefs f (some t) :=
  Count.sum_update s.task (taskRefs f) p (some t)

theorem Task.setFilp_self (t : Task) (fd : Fd) (o : Option FileNr) : (t.setFilp fd o).filp fd = o :=
  Function.update_self ..

theorem Task.setFilp_of_ne (t : Task) {fd x : Fd} (o : Option FileNr) (hx : x ≠ fd) :
    (t.setFilp fd o).filp x = t.filp x :=
  Function.update_of_ne hx ..

/-- The references of a task when one descriptor changes. -/
theorem taskRefs_setFilp (t : Task) (fd : Fd) (o : Option FileNr) (f : FileNr) :
    taskRefs f (some (t.setFilp fd o)) + (if t.filp fd = some f then 1 else 0) =
      taskRefs f (some t) + (if o = some f then 1 else 0) := by
  have h := Count.card_filter_change (P := fun x => t.filp x = some f)
    (Q := fun x => (t.setFilp fd o).filp x = some f) (Finset.mem_univ fd) fun x _ hx => by
      rw [t.setFilp_of_ne o hx]
  rw [t.setFilp_self] at h
  exact h

omit [DecidableEq ι] in
/-- There are not more descriptors than that, so `f_count` does not run over. -/
theorem State.refs_le (s : State ι) (f : FileNr) : s.refs f ≤ 64 * 20 := by
  have htask : ∀ p, taskRefs f (s.task p) ≤ 20 := fun p => by
    unfold taskRefs
    split
    · exact Nat.zero_le _
    · exact (Finset.card_le_univ _).trans (Fintype.card_fin 20).le
  have hsum := Finset.sum_le_card_nsmul Finset.univ (fun p => taskRefs f (s.task p)) 20 fun p _ => htask p
  rw [Finset.card_univ, Fintype.card_fin] at hsum
  exact hsum

/-- The counts are those of the descriptors. -/
def State.Counted (s : State ι) : Prop :=
  ∀ f, (s.file f).fCount = BitVec.ofNat 16 (s.refs f)

namespace State.Counted

variable {s s' : State ι} {p nr : Fin 64} {t t' : Task}

section

omit [DecidableEq ι]

/-- One descriptor of one task changes, and the counts with it. -/
theorem setFilp (h : s.Counted) (ht : s.task p = some t) (t' : Task) (file : FileNr → File ι)
    {fd : Fd} {o : Option FileNr} (hfilp : t'.filp = t.filp)
    (hcount : ∀ f, (file f).fCount + (if t.filp fd = some f then 1#16 else 0#16) =
      (s.file f).fCount + (if o = some f then 1#16 else 0#16)) :
    ({ s with file := file }.setTask p (t'.setFilp fd o)).Counted := by
  intro f
  have h1 := State.refs_setTask { s with file := file } p (t'.setFilp fd o) f
  have h2 := taskRefs_setFilp t' fd o f
  have h3 : taskRefs f (some t') = taskRefs f (some t) := by simp [taskRefs, hfilp]
  have h4 := h f
  have h5 := hcount f
  have h6 : ({ s with file := file } : State ι).refs f = s.refs f := rfl
  rw [hfilp] at h2
  rw [show ({ s with file := file } : State ι).task p = some t from ht] at h1
  change (file f).fCount = _
  split_ifs at h2 h5 <;> bv_omega

/-- The fields of a task that do not matter here change. -/
theorem setTask (h : s.Counted) (ht : s.task p = some t) (hfilp : t'.filp = t.filp) :
    (s.setTask p t').Counted := by
  intro f
  have h1 := s.refs_setTask p t' f
  have h3 : taskRefs f (some t') = taskRefs f (some t) := by simp [taskRefs, hfilp]
  have h4 := h f
  rw [ht] at h1
  exact h4.trans (congrArg (BitVec.ofNat 16) (by omega))

/-- The fields of an entry that do not matter here change. -/
theorem modifyFile (h : s.Counted) {f : FileNr} {x : File ι → File ι}
    (hc : (x (s.file f)).fCount = (s.file f).fCount) : (s.modifyFile f x).Counted := by
  intro f'
  change _ = BitVec.ofNat 16 (s.refs f')
  rw [← h f']
  by_cases hf : f' = f
  · subst hf
    simpa [State.modifyFile, State.setFile] using hc
  · simp [State.modifyFile, State.setFile, Function.update_of_ne hf]

theorem of_eq (h : s.Counted) (htask : s'.task = s.task) (hfile : s'.file = s.file) : s'.Counted := by
  intro f
  rw [hfile, h f]
  simp only [State.refs, htask]

theorem toNat (h : s.Counted) (f : FileNr) : (s.file f).fCount.toNat = s.refs f := by
  rw [h f, BitVec.toNat_ofNat, Nat.mod_eq_of_lt ((s.refs_le f).trans_lt (by decide))]

theorem toNat_le (h : s.Counted) (f : FileNr) : (s.file f).fCount.toNat ≤ 64 * 20 :=
  (h.toNat f).le.trans (s.refs_le f)

theorem ne_zero (h : s.Counted) {f : FileNr} (hf : s.IsOpen f) : (s.file f).fCount ≠ 0 := by
  intro h0
  rw [State.isOpen_iff, ← h.toNat f, h0] at hf
  exact hf rfl

end

end State.Counted

omit [DecidableEq ι] in
/-- Every entry gains the descriptors of the child. -/
theorem forkFiles_apply (t : Task) (file : FileNr → File ι) (f : FileNr) :
    forkFiles t file f =
      { file f with fCount := (file f).fCount + BitVec.ofNat 16 (taskRefs f (some t)) } := by
  have hfold : ∀ (l : List Fd) (file : FileNr → File ι),
      l.foldl (fun file fd => addRef file (t.filp fd)) file f =
        { file f with fCount := (file f).fCount +
            BitVec.ofNat 16 (l.filter fun fd => t.filp fd = some f).length } := by
    intro l
    induction l with
    | nil => intro file; simp
    | cons fd l ih =>
      intro file
      rw [List.foldl_cons, ih]
      cases hfd : t.filp fd with
      | none => simp [addRef, hfd]
      | some f' =>
        by_cases he : f' = f
        · subst he
          simp only [addRef, Function.update_self, hfd, decide_true, List.filter_cons_of_pos,
            List.length_cons, BitVec.ofNat_add]
          rw [BitVec.add_assoc, BitVec.add_comm (1 : BitVec 16)]
          rfl
        · simp [addRef, hfd, he, Function.update_of_ne (Ne.symm he)]
  have hcard : (Finset.univ.filter fun fd => t.filp fd = some f).card =
      ((List.finRange 20).filter fun fd => t.filp fd = some f).length := by
    rw [← List.toFinset_card_of_nodup ((List.nodup_finRange 20).filter _), List.toFinset_filter]
    congr 1
    ext fd
    simp
  rw [forkFiles, hfold, taskRefs, hcard]

omit [DecidableEq ι] in
theorem State.Counted.copyProcess {s : State ι} {t : Task} {nr : Fin 64} (h : s.Counted)
    (hnr : s.task nr = none) : (copyProcess s t nr).Counted := by
  intro f
  have h1 := State.refs_setTask { s with file := forkFiles t s.file } nr { t with leader := false } f
  have h2 : ({ s with file := forkFiles t s.file } : State ι).refs f = s.refs f := rfl
  have h3 : taskRefs f (some { t with leader := false }) = taskRefs f (some t) := rfl
  rw [show ({ s with file := forkFiles t s.file } : State ι).task nr = none from hnr] at h1
  have h4 := h f
  have h5 : ((Fs.copyProcess s t nr).file f).fCount =
      (s.file f).fCount + BitVec.ofNat 16 (taskRefs f (some t)) := by
    change (forkFiles t s.file f).fCount = _
    rw [forkFiles_apply]
  have h6 : taskRefs f none = 0 := rfl
  rw [h5, h4, ← BitVec.ofNat_add]
  refine congrArg (BitVec.ofNat 16) ?_
  unfold Fs.copyProcess
  omega

/-! ## The invariant -/

/-- No task is privileged, the entries are counted, and the flags of an open entry ask for write access
exactly if it was opened with it. -/
structure Sound (s : State ι) (granted : FileNr → Bool) : Prop where
  user : ∀ p t, s.task p = some t → t.euid ≠ 0
  counted : s.Counted
  granted : ∀ f, s.IsOpen f → granted f = requested (s.file f).fFlags

variable {s s' : State ι} {g g' : FileNr → Bool} {p : Fin 64} {t t' : Task}

omit [DecidableEq ι] in
theorem task_setTask_eq_some {q : Fin 64} {u : Task} (h : (s.setTask p t).task q = some u) :
    q = p ∧ u = t ∨ s.task q = some u := by
  by_cases hq : q = p
  · subst hq
    have h : some t = some u := by simpa [State.setTask] using h
    exact .inl ⟨rfl, (Option.some.inj h).symm⟩
  · exact .inr (by simpa [State.setTask, Function.update_of_ne hq] using h)

namespace Sound

section

omit [DecidableEq ι]

/-- One descriptor of one task changes, and the counts with it. -/
theorem setFilp (h : Sound s g) (ht : s.task p = some t) (t' : Task) (file : FileNr → File ι)
    {fd : Fd} {o : Option FileNr} (hfilp : t'.filp = t.filp) (heuid : t'.euid = t.euid)
    (hcount : ∀ f, (file f).fCount + (if t.filp fd = some f then 1#16 else 0#16) =
      (s.file f).fCount + (if o = some f then 1#16 else 0#16))
    (hg : ∀ f, s.IsOpen f ∨ o = some f → g' f = requested (file f).fFlags) :
    Sound ({ s with file := file }.setTask p (t'.setFilp fd o)) g' where
  user q u hu := by
    obtain ⟨-, rfl⟩ | hu := task_setTask_eq_some hu
    · exact fun h0 => h.user p t ht (heuid ▸ h0)
    · exact h.user q u hu
  counted := State.Counted.setFilp h.counted ht t' file hfilp hcount
  granted f hf := by
    refine hg f ?_
    obtain ⟨q, u, fd', hu, hfd'⟩ := hf
    obtain ⟨rfl, rfl⟩ | hu := task_setTask_eq_some hu
    · by_cases he : fd' = fd
      · subst he
        exact .inr (by rwa [Task.setFilp_self] at hfd')
      · rw [Task.setFilp_of_ne _ _ he, hfilp] at hfd'
        exact .inl ⟨q, t, fd', ht, hfd'⟩
    · exact .inl ⟨q, u, fd', hu, hfd'⟩

/-- The fields of a task that do not matter here change. -/
theorem setTask (h : Sound s g) (ht : s.task p = some t) (hfilp : t'.filp = t.filp)
    (heuid : t'.euid = t.euid) : Sound (s.setTask p t') g where
  user q u hu := by
    obtain ⟨-, rfl⟩ | hu := task_setTask_eq_some hu
    · exact fun h0 => h.user p t ht (heuid ▸ h0)
    · exact h.user q u hu
  counted := State.Counted.setTask h.counted ht hfilp
  granted f hf := by
    refine h.granted f ?_
    obtain ⟨q, u, fd', hu, hfd'⟩ := hf
    obtain ⟨rfl, rfl⟩ | hu := task_setTask_eq_some hu
    · exact ⟨q, t, fd', ht, hfilp ▸ hfd'⟩
    · exact ⟨q, u, fd', hu, hfd'⟩

/-- The fields of an entry that do not matter here change. -/
theorem modifyFile (h : Sound s g) {f : FileNr} {x : File ι → File ι}
    (hc : (x (s.file f)).fCount = (s.file f).fCount)
    (hr : requested (x (s.file f)).fFlags = requested (s.file f).fFlags) :
    Sound (s.modifyFile f x) g where
  user := h.user
  counted := State.Counted.modifyFile h.counted hc
  granted f' hf' := by
    rw [h.granted f' hf']
    by_cases hf : f' = f
    · subst hf
      rw [← hr]
      simp [State.modifyFile, State.setFile]
    · simp [State.modifyFile, State.setFile, Function.update_of_ne hf]

/-- Only the inodes change. -/
theorem of_eq (h : Sound s g) (htask : s'.task = s.task) (hfile : s'.file = s.file) : Sound s' g := by
  have hrefs : ∀ f, s'.refs f = s.refs f := fun f => by simp only [State.refs, htask]
  refine ⟨fun q u hu => h.user q u (htask ▸ hu), State.Counted.of_eq h.counted htask hfile,
    fun f hf => ?_⟩
  · rw [hfile]
    refine h.granted f ?_
    rw [State.isOpen_iff] at hf ⊢
    rwa [← hrefs]

end

end Sound

/-! ## `open` -/

theorem openFlag_accmode_ne_zero {flag : BitVec 16} (h : requested flag = true) :
    openFlag flag &&& oAccmode ≠ 0 := by
  intro h0
  unfold openFlag at h0
  split at h0
  · next hc =>
    have h1 : (flag ||| oWronly) &&& oAccmode = flag &&& oAccmode ||| oWronly := by
      rw [BitVec.and_comm, BitVec.and_or_distrib_left, BitVec.and_comm oAccmode flag]
      rfl
    rw [h1, hc.2] at h0
    exact absurd h0 (by decide)
  · next hc =>
    rw [not_and_or, not_not] at hc
    rcases hc with hc | hc
    · simp [requested, h0, hc, oWronly, oRdwr] at h
    · exact hc h0

theorem requested_of_oTrunc {flag : BitVec 16} (h : openFlag flag &&& oTrunc ≠ 0) :
    requested flag = true := by
  have hflag : flag &&& oTrunc ≠ 0 := by
    unfold openFlag at h
    split at h
    · next hc => exact hc.1
    · exact h
  simp only [requested, Bool.or_eq_true, bne_iff_ne]
  exact .inr hflag

theorem accMode_openFlag {flag : BitVec 16} (h : requested flag = true) :
    accMode (openFlag flag) = 2 ∨ accMode (openFlag flag) = 6 ∨ accMode (openFlag flag) = 0xffff := by
  unfold accMode
  split
  · next h0 => exact absurd (BitVec.eq_of_toNat_eq h0) (openFlag_accmode_ne_zero h)
  · exact .inl rfl
  · exact .inr (.inl rfl)
  · exact .inr (.inr rfl)

/-- `permission` for the mode that `open` asks for is permission to write, if it asks for that. -/
theorem permission_mayWrite {n : Inode} {flag : BitVec 16} (hu : t.euid ≠ 0)
    (hr : requested flag = true) (h : permission t n (accMode (openFlag flag)) = true) :
    permission t n mayWrite = true := by
  unfold permission at h ⊢
  split
  · next hc => rw [if_pos hc] at h; exact h
  · next hc =>
    rw [if_neg hc] at h
    dsimp only at h ⊢
    generalize (if t.euid = n.iUid then n.iMode >>> 6
      else if t.egid = n.iGid.setWidth 16 then n.iMode >>> 3 else n.iMode) = mode at h ⊢
    have hu' : (t.euid == 0) = false := by simpa using hu
    rw [hu', Bool.or_false, beq_iff_eq] at h ⊢
    rcases accMode_openFlag hr with he | he | he
    · rw [he] at h
      exact h
    · rw [he] at h
      calc mode &&& 2 &&& 7 = (mode &&& 6 &&& 7) &&& 2 := by
            rw [BitVec.and_assoc, BitVec.and_assoc, BitVec.and_assoc]
            rfl
        _ = 2 := by rw [h]; rfl
    · rw [he] at h
      have h7 : (mode &&& 0xffff &&& 7).toNat ≤ 7 := by
        rw [BitVec.toNat_and]
        exact Nat.and_le_right
      rw [h] at h7
      exact absurd h7 (by decide)

/-- What an `open_namei` that succeeds does: it asked for write access only where that is permitted,
and it changes the contents of no file but one that it truncates. -/
theorem openNamei_eq_ok {flag mode : BitVec 16} {l : Lookup ι} {i : ι} (hu : t.euid ≠ 0)
    (hl : l.Valid s) (h : openNamei s t flag mode l = .ok (s', i)) :
    s'.task = s.task ∧ s'.file = s.file ∧ (requested flag = true → l.permits s t = true) ∧
    ∀ j n, s.inode j = some n → ∃ n', s'.inode j = some n' ∧ n'.iMode = n.iMode ∧
      (n'.contents ≠ n.contents → requested flag = true) := by
  have hsame : ∀ j n, s.inode j = some n → ∃ n', s.inode j = some n' ∧ n'.iMode = n.iMode ∧
      (n'.contents ≠ n.contents → requested flag = true) :=
    fun j n hn => ⟨n, hn, rfl, fun hne => absurd rfl hne⟩
  cases l with
  | noDir => cases h
  | directory dir =>
    dsimp only [openNamei] at h
    split at h
    · next hc =>
      cases h
      refine ⟨rfl, rfl, fun hr => absurd ?_ (openFlag_accmode_ne_zero hr), hsame⟩
      calc openFlag flag &&& oAccmode =
            openFlag flag &&& (oAccmode ||| oCreat ||| oTrunc) &&& oAccmode := by
            rw [BitVec.and_assoc]
            rfl
        _ = 0 := by rw [hc]; rfl
    · cases h
  | missing dir new room =>
    dsimp only [openNamei] at h
    split at h
    · cases h
    split at h
    · cases h
    split at h
    · cases h
    · next j =>
      split at h
      · cases h
        refine ⟨rfl, rfl, fun _ => rfl, fun k n hn => ?_⟩
        have hk : k ≠ i := by
          rintro rfl
          have hl : (s.inode k).isNone := hl
          rw [hn] at hl
          exact absurd hl (by simp)
        refine ⟨n, ?_, rfl, fun hne => absurd rfl hne⟩
        simpa [State.setInode, Function.update_of_ne hk] using hn
      · cases h
  | found j =>
    dsimp only [openNamei] at h
    split at h
    · cases h
    split at h
    · cases h
    · next j =>
      split at h
      · cases h
      · next n hn =>
        split at h
        · cases h
        · next hp =>
          rw [not_or, Bool.not_eq_false] at hp
          have hperm : requested flag = true → Lookup.permits s t (.found (some j)) = true :=
            fun hr => by simpa [Lookup.permits, hn] using permission_mayWrite hu hr hp.2
          by_cases htr : openFlag flag &&& oTrunc ≠ 0
          · rw [if_pos htr] at h
            cases h
            refine ⟨rfl, rfl, hperm, fun k m hm => ?_⟩
            by_cases hk : k = i
            · subst hk
              rw [hn] at hm
              cases hm
              refine ⟨truncate n, by simp [State.setInode], ?_, fun _ => requested_of_oTrunc htr⟩
              unfold truncate
              split <;> rfl
            · exact ⟨m, by simpa [State.setInode, Function.update_of_ne hk] using hm, rfl,
                fun hne => absurd rfl hne⟩
          · rw [if_neg htr] at h
            cases h
            exact ⟨rfl, rfl, hperm, hsame⟩

theorem freeFd_eq_some {arg : ℕ} {fd : Fd} (h : t.freeFd arg = some fd) : t.filp fd = none := by
  have h := List.find?_some h
  simp only [Bool.and_eq_true] at h
  simpa using h.2

omit [DecidableEq ι] in
theorem freeFile_eq_some {f : FileNr} (h : s.freeFile = some f) : (s.file f).fCount = 0 := by
  have h := List.find?_some h
  simpa using h

/-- `sys_open` keeps the invariant, and truncates only where write access was asked for and permitted. -/
theorem sysOpen_spec (h : Sound s g) (ht : s.task p = some t) {flag mode : BitVec 16} {l : Lookup ι}
    (hl : l.Valid s) :
    Sound (sysOpen s p t flag mode l).1 (regrant g (match (sysOpen s p t flag mode l).2 with
      | .ok _ => s.freeFile.map fun f => (f, requested flag && l.permits s t)
      | .error _ => none)) ∧
    ∀ j n, s.inode j = some n → ∃ n', (sysOpen s p t flag mode l).1.inode j = some n' ∧
      n'.iMode = n.iMode ∧
      (n'.contents ≠ n.contents → requested flag = true ∧ l.permits s t = true) := by
  have hsame : ∀ j n, s.inode j = some n → ∃ n', s.inode j = some n' ∧ n'.iMode = n.iMode ∧
      (n'.contents ≠ n.contents → requested flag = true ∧ l.permits s t = true) :=
    fun j n hn => ⟨n, hn, rfl, fun hne => absurd rfl hne⟩
  unfold sysOpen
  cases hfd : t.freeFd 0 with
  | none => exact ⟨h, hsame⟩
  | some fd =>
    have hclear : (t.clearCloseOnExec fd).filp = t.filp := rfl
    dsimp only
    cases hf : s.freeFile with
    | none => exact ⟨h.setTask ht rfl rfl, hsame⟩
    | some f =>
      dsimp only
      cases ho : openNamei s (t.clearCloseOnExec fd) flag
          (mode &&& (0o777 &&& ~~~(t.clearCloseOnExec fd).umask)) l with
      | error e => exact ⟨h.setTask ht rfl rfl, hsame⟩
      | ok r =>
        obtain ⟨s₁, i⟩ := r
        obtain ⟨htask, hfile, hperm, hcont⟩ := openNamei_eq_ok (h.user p t ht) hl ho
        have hperm : requested flag = true → l.permits s t = true := hperm
        have h₁ : Sound s₁ g := h.of_eq htask hfile
        have ht₁ : s₁.task p = some t := by rw [htask, ht]
        have hcont' : ∀ j n, s.inode j = some n → ∃ n', s₁.inode j = some n' ∧ n'.iMode = n.iMode ∧
            (n'.contents ≠ n.contents → requested flag = true ∧ l.permits s t = true) := by
          intro j n hn
          obtain ⟨n', hn', hm, hc⟩ := hcont j n hn
          exact ⟨n', hn', hm, fun hne => ⟨hc hne, hperm (hc hne)⟩⟩
        dsimp only
        cases hi : s₁.inode i with
        | none => exact ⟨h₁.setTask ht₁ rfl rfl, hcont'⟩
        | some n =>
          dsimp only
          cases htty : openTty (t.clearCloseOnExec fd) n with
          | none => exact ⟨h₁.setTask ht₁ rfl rfl, hcont'⟩
          | some t₂ =>
            refine ⟨?_, hcont'⟩
            have htty' : t₂.filp = t.filp ∧ t₂.euid = t.euid := by
              unfold openTty at htty
              split_ifs at htty <;> cases htty <;> exact ⟨rfl, rfl⟩
            have hfd' := freeFd_eq_some hfd
            have hf' := freeFile_eq_some hf
            refine h₁.setFilp ht₁ t₂ (Function.update s₁.file f ⟨n.iMode, flag, 1, some i, 0⟩) htty'.1
              htty'.2 (fun f' => ?_) fun f' hor => ?_
            · rw [hfd', if_neg (by simp), hfile]
              by_cases he : f' = f
              · subst he
                rw [Function.update_self, if_pos rfl, hf']
                rfl
              · rw [Function.update_of_ne he, if_neg (by simpa using Ne.symm he)]
            · by_cases he : f' = f
              · subst he
                rw [Function.update_self]
                cases hr : requested flag with
                | true => simp [regrant, hperm hr]
                | false => simp [regrant]
              · rw [Function.update_of_ne he]
                have hopen : s₁.IsOpen f' := hor.resolve_right (by simpa using Ne.symm he)
                simpa [regrant, Function.update_of_ne he] using h₁.granted f' hopen

/-! ## The calls on descriptors -/

theorem file_eq_some {fd : ℕ} {x : Fd × FileNr} (h : t.file fd = some x) : t.filp x.1 = some x.2 := by
  unfold Task.file at h
  split at h
  · obtain ⟨f, hf, rfl⟩ := Option.map_eq_some_iff.1 h
    exact hf
  · cases h

section

omit [DecidableEq ι]

theorem sysClose_sound (h : Sound s g) (ht : s.task p = some t) (fd : ℕ) :
    Sound (sysClose s p t fd).1 g := by
  unfold sysClose
  split
  · next hfd =>
    dsimp only
    split
    · exact h.setTask ht rfl rfl
    · next f hf =>
      have hf : t.filp ⟨fd, hfd⟩ = some f := hf
      have hopen : s.IsOpen f := ⟨p, t, _, ht, hf⟩
      refine h.setFilp ht (t.clearCloseOnExec _)
        (Function.update s.file f { s.file f with fCount := (s.file f).fCount - 1 }) rfl rfl
        (fun f' => ?_) fun f' hor => ?_
      · rw [hf, if_neg (by simp : ¬ (none : Option FileNr) = some f')]
        by_cases he : f' = f
        · subst he
          rw [Function.update_self, if_pos rfl, BitVec.add_zero]
          exact BitVec.sub_add_cancel _ _
        · rw [Function.update_of_ne he, if_neg (by simpa using Ne.symm he)]
      · have hor : s.IsOpen f' := hor.resolve_right (by simp)
        rw [h.granted f' hor]
        by_cases he : f' = f
        · subst he
          simp
        · simp [Function.update_of_ne he]
  · exact h

theorem dupfd_sound (h : Sound s g) (ht : s.task p = some t) (fd arg : ℕ) :
    Sound (dupfd s p t fd arg).1 g := by
  unfold dupfd
  split
  · exact h
  · next old f hf =>
    split
    · exact h
    split
    · exact h
    · next new hnew =>
      have hnew := freeFd_eq_some hnew
      have hf : t.filp old = some f := file_eq_some hf
      refine h.setFilp ht (t.clearCloseOnExec _)
        (Function.update s.file f { s.file f with fCount := (s.file f).fCount + 1 }) rfl rfl
        (fun f' => ?_) fun f' hor => ?_
      · rw [hnew, if_neg (by simp : ¬ (none : Option FileNr) = some f')]
        by_cases he : f' = f
        · subst he
          rw [Function.update_self, if_pos rfl, BitVec.add_zero]
          rfl
        · rw [Function.update_of_ne he, if_neg (by simpa using Ne.symm he)]
      · by_cases he : f' = f
        · subst he
          rw [h.granted f' ⟨p, t, old, ht, hf⟩]
          simp
        · have hor : s.IsOpen f' := hor.resolve_right (by simpa using Ne.symm he)
          rw [h.granted f' hor]
          simp [Function.update_of_ne he]

theorem sysDup2_sound (h : Sound s g) (ht : s.task p = some t) (oldfd newfd : ℕ) :
    Sound (sysDup2 s p t oldfd newfd).1 g := by
  have hc := sysClose_sound h ht newfd
  unfold sysDup2
  dsimp only
  split
  · exact hc
  · next t' ht' => exact dupfd_sound hc ht' oldfd newfd

end

/-- `F_SETFL` does not change the flags of the access mode. -/
theorem requested_setfl (flags arg : BitVec 16) :
    requested (flags &&& ~~~(oAppend ||| oNonblock) ||| arg &&& (oAppend ||| oNonblock)) =
      requested flags := by
  have hmask : ∀ m : BitVec 16, ~~~(oAppend ||| oNonblock) &&& m = m →
      (oAppend ||| oNonblock) &&& m = 0#16 →
      (flags &&& ~~~(oAppend ||| oNonblock) ||| arg &&& (oAppend ||| oNonblock)) &&& m = flags &&& m := by
    intro m h1 h2
    rw [BitVec.and_or_distrib_right, BitVec.and_assoc, BitVec.and_assoc, h1, h2, BitVec.and_zero,
      BitVec.or_zero]
  unfold requested
  rw [hmask oAccmode (by decide) (by decide), hmask oTrunc (by decide) (by decide)]

section

omit [DecidableEq ι]

theorem sysFcntl_sound (h : Sound s g) (ht : s.task p = some t) (fd : ℕ) (cmd : Cmd) (arg : BitVec 32) :
    Sound (sysFcntl s p t fd cmd arg).1 g := by
  unfold sysFcntl
  split
  · exact h
  · next fd f hf =>
    cases cmd with
    | dupfd => exact dupfd_sound h ht _ _
    | getfd => exact h
    | setfd =>
      dsimp only
      split
      · exact h.setTask ht rfl rfl
      · exact h.setTask ht rfl rfl
    | getfl => exact h
    | setfl =>
      dsimp only
      refine h.modifyFile ?_ ?_
      · rfl
      · exact requested_setfl (s.file f).fFlags (arg.setWidth 16)
    | other => exact h

theorem copyProcess_sound (h : Sound s g) (ht : s.task p = some t) {nr : Fin 64} (hnr : s.task nr = none) :
    Sound (copyProcess s t nr) g where
  user q u hu := by
    obtain ⟨-, rfl⟩ | hu := task_setTask_eq_some hu
    · exact h.user p t ht
    · exact h.user q u hu
  counted := State.Counted.copyProcess h.counted hnr
  granted f hf := by
    have hflags : ((copyProcess s t nr).file f).fFlags = (s.file f).fFlags := by
      change (forkFiles t s.file f).fFlags = _
      rw [forkFiles_apply]
    rw [hflags]
    refine h.granted f ?_
    obtain ⟨q, u, fd', hu, hfd'⟩ := hf
    obtain ⟨rfl, rfl⟩ | hu := task_setTask_eq_some hu
    · exact ⟨p, t, fd', ht, hfd'⟩
    · exact ⟨q, u, fd', hu, hfd'⟩

theorem sysLseek_sound (h : Sound s g) (fd : ℕ) (offset : BitVec 32) (origin : ℕ) :
    Sound (sysLseek s t fd offset origin).1 g := by
  unfold sysLseek
  split
  · exact h
  split
  · exact h
  split
  · exact h
  split
  · exact h
  split
  · exact h
  split
  · exact h
  · dsimp only
    refine h.modifyFile ?_ ?_ <;> rfl

theorem sysRead_sound (h : Sound s g) (fd : ℕ) (count : BitVec 32) (w : Outcome ι) :
    Sound (sysRead s t fd count w).1 g := by
  unfold sysRead
  dsimp only
  split
  · exact h
  split
  · exact h
  split
  · exact h
  split
  · exact h
  split
  · exact h
  split
  · dsimp only
    refine h.modifyFile ?_ ?_ <;> rfl
  split
  · dsimp only
    refine h.modifyFile ?_ ?_ <;> rfl
  · exact h

end

/-! ## `write` -/

theorem fileWrite_sound (h : Sound s g) (f : FileNr) (i : ι) (n : Inode) (buf : List Byte) (room : ℕ) :
    Sound (fileWrite s f i n buf room).1 g := by
  have h' : ∀ m, Sound (s.setInode i m) g := fun m => h.of_eq rfl rfl
  unfold fileWrite
  dsimp only
  split
  · exact h' _
  · refine (h' _).modifyFile ?_ ?_ <;> rfl

theorem sysWrite_sound (h : Sound s g) (fd : ℕ) (buf : List Byte) (w : Outcome ι) :
    Sound (sysWrite s t fd buf w).1 g := by
  unfold sysWrite
  split
  · exact h
  split
  · exact h
  split
  · exact h
  split
  · exact h
  split
  · exact h
  split
  · dsimp only
    refine h.modifyFile ?_ ?_ <;> rfl
  split
  · have h' : Sound (s.setContents w.disk) g := h.of_eq rfl rfl
    dsimp only
    refine h'.modifyFile ?_ ?_ <;> rfl
  split
  · exact fileWrite_sound h _ _ _ _ _
  · exact h

/-! ## Runs -/

/-- Every call keeps the invariant. -/
theorem Sound.after {r : Run ι} {e : Event ι} (h : Sound r.toState r.granted)
    (ht : r.task e.proc = some t) (he : r.Enabled e) :
    Sound (r.after t e).toState (r.after t e).granted := by
  cases e with
  | «open» p flag mode l => exact (sysOpen_spec h ht he).1
  | creat p mode l => exact (sysOpen_spec h ht he).1
  | close p fd => exact sysClose_sound h ht fd
  | dup p fildes => exact dupfd_sound h ht fildes 0
  | dup2 p oldfd newfd => exact sysDup2_sound h ht oldfd newfd
  | fcntl p fd cmd arg => exact sysFcntl_sound h ht fd cmd arg
  | fork p nr => exact copyProcess_sound h ht he
  | lseek p fd offset origin => exact sysLseek_sound h fd offset origin
  | read p fd count w => exact sysRead_sound h fd count w
  | write p fd buf w => exact sysWrite_sound h fd buf w

theorem reachable_sound {r : Run ι} (hr : (openFiles ι).Reachable r) : Sound r.toState r.granted := by
  refine System.Reachable.invariant (I := fun r => Sound r.toState r.granted) (fun r h0 => ?_)
    (fun r e r' ih he => ?_) hr
  · obtain ⟨htask, hfile⟩ := h0
    have hclosed : ∀ f, ¬ r.IsOpen f := by
      rintro f ⟨p, t, fd, ht, hfd⟩
      rw [(htask p t ht).2 fd] at hfd
      cases hfd
    refine ⟨fun p t ht => (htask p t ht).1, fun f => ?_, fun f hf => absurd hf (hclosed f)⟩
    have hzero : r.refs f = 0 := not_not.1 fun hne => hclosed f (State.isOpen_iff.2 hne)
    rw [hfile f, hzero]
    rfl
  · obtain ⟨t, ht, hen, rfl⟩ := he
    exact ih.after ht hen

section

omit [DecidableEq ι]

theorem sysClose_inode (s : State ι) (fd : ℕ) : (sysClose s p t fd).1.inode = s.inode := by
  unfold sysClose
  split
  · dsimp only
    split <;> rfl
  · rfl

theorem dupfd_inode (s : State ι) (fd arg : ℕ) : (dupfd s p t fd arg).1.inode = s.inode := by
  unfold dupfd
  split
  · rfl
  split
  · rfl
  split <;> rfl

theorem sysDup2_inode (s : State ι) (oldfd newfd : ℕ) :
    (sysDup2 s p t oldfd newfd).1.inode = s.inode := by
  have hc := sysClose_inode (p := p) (t := t) s newfd
  unfold sysDup2
  dsimp only
  split
  · exact hc
  · rw [dupfd_inode, hc]

theorem sysFcntl_inode (s : State ι) (fd : ℕ) (cmd : Cmd) (arg : BitVec 32) :
    (sysFcntl s p t fd cmd arg).1.inode = s.inode := by
  unfold sysFcntl
  split
  · rfl
  · cases cmd with
    | dupfd => exact dupfd_inode s _ _
    | setfd => dsimp only; split <;> rfl
    | getfd | getfl | setfl | other => rfl

theorem sysLseek_inode (s : State ι) (fd : ℕ) (offset : BitVec 32) (origin : ℕ) :
    (sysLseek s t fd offset origin).1.inode = s.inode := by
  unfold sysLseek
  repeat' split
  all_goals rfl

theorem sysRead_inode (s : State ι) (fd : ℕ) (count : BitVec 32) (w : Outcome ι) :
    (sysRead s t fd count w).1.inode = s.inode := by
  unfold sysRead
  dsimp only
  repeat' split
  all_goals rfl

end

/-- `file_write` changes one file. -/
theorem fileWrite_inode (s : State ι) (f : FileNr) (i : ι) (n : Inode) (buf : List Byte) (room : ℕ) :
    ∃ c, (fileWrite s f i n buf room).1.inode = Function.update s.inode i (some { n with contents := c }) := by
  unfold fileWrite
  dsimp only
  split
  · exact ⟨_, rfl⟩
  · exact ⟨_, rfl⟩

omit [DecidableEq ι] in
theorem State.setContents_inode {s : State ι} {i : ι} {n : Inode} {disk : ι → Contents}
    (h : s.inode i = some n) : (s.setContents disk).inode i = some { n with contents := disk i } := by
  simp [State.setContents, h]

/-- A write changes files only through a descriptor of a regular file or of a block device. -/
theorem sysWrite_contents (s : State ι) (fd : ℕ) (buf : List Byte) (w : Outcome ι) {j : ι} {m : Inode}
    (hm : s.inode j = some m) : ∃ m', (sysWrite s t fd buf w).1.inode j = some m' ∧
      m'.iMode = m.iMode ∧ (m'.contents ≠ m.contents → buf ≠ [] ∧ ∃ f i n, t.file fd = some f ∧
        (s.file f.2).fInode = some i ∧ s.inode i = some n ∧ n.iPipe = false ∧
        (isReg n.iMode ∨ isBlk n.iMode)) := by
  have hsame : ∃ m', s.inode j = some m' ∧ m'.iMode = m.iMode ∧ (m'.contents ≠ m.contents →
      buf ≠ [] ∧ ∃ f i n, t.file fd = some f ∧ (s.file f.2).fInode = some i ∧ s.inode i = some n ∧
        n.iPipe = false ∧ (isReg n.iMode ∨ isBlk n.iMode)) :=
    ⟨m, hm, rfl, fun hne => absurd rfl hne⟩
  unfold sysWrite
  split
  · exact hsame
  · next fd' f hf =>
    split
    · exact hsame
    · next hbuf =>
      split
      · exact hsame
      · next i hi =>
        split
        · exact hsame
        · next n hn =>
          split
          · exact hsame
          · next hpipe =>
            have hpipe : n.iPipe = false := by simpa using hpipe
            split
            · exact hsame
            split
            · next hblk =>
              refine ⟨{ m with contents := w.disk j }, State.setContents_inode hm, rfl, fun _ => ⟨hbuf, ?_⟩⟩
              exact ⟨(fd', f), i, n, hf, hi, hn, hpipe, .inr hblk⟩
            split
            · next hreg =>
              obtain ⟨c, hc⟩ := fileWrite_inode s f i n buf w.room
              rw [hc]
              by_cases hj : j = i
              · subst hj
                rw [hn] at hm
                cases hm
                refine ⟨{ m with contents := c }, by simp, rfl, fun _ => ⟨hbuf, ?_⟩⟩
                exact ⟨(fd', f), j, m, hf, hi, hn, hpipe, .inl hreg⟩
              · rw [Function.update_of_ne hj]
                exact hsame
            · exact hsame

/-- Where the contents of a file change, write access was given. -/
theorem call_contents {r : Run ι} {e : Event ι} (h : Sound r.toState r.granted)
    (ht : r.task e.proc = some t) (he : r.Enabled e) (hok : r.Allowed e) {j : ι} {m : Inode}
    (hm : r.inode j = some m) : ∃ m', (r.after t e).inode j = some m' ∧ m'.iMode = m.iMode ∧
      (m'.contents ≠ m.contents → r.Authorized t e) := by
  have hsame : ∀ {inode : ι → Option Inode}, inode = r.inode → ∃ m', inode j = some m' ∧
      m'.iMode = m.iMode ∧ (m'.contents ≠ m.contents → r.Authorized t e) := by
    rintro _ rfl
    exact ⟨m, hm, rfl, fun hne => absurd rfl hne⟩
  cases e with
  | «open» p flag mode l => exact (sysOpen_spec h ht he).2 j m hm
  | creat p mode l =>
    obtain ⟨m', hm', hmode, hc⟩ := (sysOpen_spec h ht he).2 j m hm
    exact ⟨m', hm', hmode, fun hne => (hc hne).2⟩
  | close p fd => exact hsame (sysClose_inode _ fd)
  | dup p fildes => exact hsame (dupfd_inode _ fildes 0)
  | dup2 p oldfd newfd => exact hsame (sysDup2_inode _ oldfd newfd)
  | fcntl p fd cmd arg => exact hsame (sysFcntl_inode _ fd cmd arg)
  | fork p nr => exact hsame rfl
  | lseek p fd offset origin => exact hsame (sysLseek_inode _ fd offset origin)
  | read p fd count w => exact hsame (sysRead_inode _ fd count w)
  | write p fd buf w =>
    obtain ⟨m', hm', hmode, hc⟩ := sysWrite_contents (t := t) r.toState fd buf w hm
    refine ⟨m', hm', hmode, fun hne => ?_⟩
    obtain ⟨hbuf, f, i, n, hf, hi, hn, hpipe, hkind⟩ := hc hne
    refine ⟨f, hf, ?_⟩
    rw [h.granted f.2 ⟨p, t, f.1, ht, file_eq_some hf⟩]
    exact hok hbuf t f i n ht hf hi hn hpipe hkind

/-- **The contents of a regular file change only where write access was asked for and permitted, exactly
as long as no write goes through a descriptor that did not ask for it**: such a write is carried out. -/
theorem write_access :
    (∀ (r : Run ι) e r', (openFiles ι).Reachable r → r.Allowed e → (openFiles ι).step r e r' →
      ∀ i n, r.inode i = some n → isReg n.iMode → ∃ n', r'.inode i = some n' ∧
        (n'.contents ≠ n.contents → ∃ t, r.task e.proc = some t ∧ r.Authorized t e)) ∧
    ∀ (r : Run ι) p t fd buf w f i n, (openFiles ι).Reachable r → r.task p = some t →
      t.file fd = some f → (r.file f.2).fInode = some i → r.inode i = some n → n.iPipe = false →
      isReg n.iMode → requested (r.file f.2).fFlags = false → buf ≠ [] → 0 < w.room →
      r.Enabled (.write p fd buf w) → ¬ r.Authorized t (.write p fd buf w) ∧
        (sysWrite r.toState t fd buf w).2 = .ok (min w.room buf.length) := by
  refine ⟨fun r e r' hr hok he i n hn _ => ?_, ?_⟩
  · obtain ⟨t, ht, hen, rfl⟩ := he
    obtain ⟨n', hn', -, hc⟩ := call_contents (reachable_sound hr) ht hen hok hn
    exact ⟨n', hn', fun hne => ⟨t, ht, hc hne⟩⟩
  · intro r p t fd buf w f i n hr ht hf hi hn hpipe hreg hreq hbuf hroom _
    constructor
    · rintro ⟨f', hf', hg⟩
      rw [hf] at hf'
      cases hf'
      rw [(reachable_sound hr).granted f.2 ⟨p, t, f.1, ht, file_eq_some hf⟩, hreq] at hg
      cases hg
    · have hchr : isChr n.iMode = false := by
        have hreg : n.iMode &&& 0o170000#16 = 0o100000#16 := by simpa [isReg] using hreg
        simp [isChr, hreg]
      have hblk : isBlk n.iMode = false := by
        have hreg : n.iMode &&& 0o170000#16 = 0o100000#16 := by simpa [isReg] using hreg
        simp [isBlk, hreg]
      have htake : buf.take w.room ≠ [] := by
        rw [Ne, List.take_eq_nil_iff, not_or]
        exact ⟨hroom.ne', hbuf⟩
      unfold sysWrite
      simp [hf, hbuf, hi, hn, hpipe, hchr, hblk, hreg, fileWrite, htake, List.length_take]

/-- A task without privileges, and one file of a byte that everyone may read. Others may write it if
`mode` says so. -/
def oneFile (mode : BitVec 16) : Run Unit where
  task := Function.update (fun _ => none) 0 (some ⟨1000, 100, 0, false, -1, 0, fun _ => none⟩)
  file := fun _ => ⟨0, 0, 0, none, 0⟩
  inode := fun _ => some ⟨0o100444 ||| mode, 0, 0, 1, 0x301, 0, false, ⟨1, fun _ => 0⟩⟩
  granted := fun _ => false

theorem oneFile_reachable (mode : BitVec 16) : (openFiles Unit).Reachable (oneFile mode) := by
  refine .start ⟨fun p t ht => ?_, fun _ => rfl⟩
  by_cases hp : p = 0
  · subst hp
    have ht : some _ = some t := ht
    cases ht
    exact ⟨by decide, fun _ => rfl⟩
  · have ht : Function.update (fun _ => none) 0 _ p = some t := ht
    rw [Function.update_of_ne hp] at ht
    cases ht

/-- The task opens the file. -/
def opened (mode flag : BitVec 16) : Run Unit :=
  (oneFile mode).after ⟨1000, 100, 0, false, -1, 0, fun _ => none⟩ (.open 0 flag 0 (.found (some ())))

theorem opened_reachable (mode flag : BitVec 16) : (openFiles Unit).Reachable (opened mode flag) := by
  have hen : (oneFile mode).Enabled (.open 0 flag 0 (.found (some ()))) := trivial
  exact .next (oneFile_reachable mode) ⟨_, rfl, hen, rfl⟩

/-- A write of one byte. -/
def writeByte : Event Unit := .write 0 0 [0x41] ⟨1, .ok 1, 0, fun _ => ⟨0, fun _ => 0⟩⟩

/-- There is room for the byte. -/
theorem writeByte_enabled {r : Run Unit} {t : Task} {f : Fd × FileNr} {n : Inode} (ht : r.task 0 = some t)
    (hf : t.file 0 = some f) (hn : r.inode () = some n) (hpos : r.writePos f.2 n < maxSize) :
    r.Enabled writeByte := by
  intro t' ht' f' i n' hf' _ hn' _
  obtain rfl := Option.some.inj (ht.symm.trans ht')
  obtain rfl := Option.some.inj (hf.symm.trans hf')
  obtain rfl := Option.some.inj (hn.symm.trans hn')
  exact hpos

/-- Opened for reading and writing, the file may be written; opened for reading, it is written too. -/
theorem write_access_oneFile :
    (∃ (r : Run Unit) (t : Task), (openFiles Unit).Reachable r ∧ r.Authorized t writeByte) ∧
    ∃ (r : Run Unit) (t : Task), (openFiles Unit).Reachable r ∧ ¬ r.Authorized t writeByte := by
  constructor
  · let r := opened 2 oRdwr
    have hr := opened_reachable 2 oRdwr
    have hd : ((r.task 0).bind fun t => ((r.after t writeByte).inode ()).map fun n =>
      n.contents.data 0) = some 0x41 := by decide
    have hf : (r.task 0).bind (fun t => t.file 0) = some (0, 0) := by decide
    obtain ⟨t, ht, hd⟩ := Option.bind_eq_some_iff.1 hd
    rw [ht] at hf
    have hf : t.file 0 = some (0, 0) := hf
    have hok : r.Allowed writeByte := by
      intro _ t' f i n ht' hf' _ _ _ _
      have ht' : r.task 0 = some t' := ht'
      rw [ht] at ht'
      cases ht'
      have hf' : t.file 0 = some f := hf'
      rw [hf] at hf'
      cases hf'
      decide
    have hn : r.inode () = some ⟨0o100446, 0, 0, 1, 0x301, 0, false, ⟨1, fun _ => 0⟩⟩ := rfl
    have hen : r.Enabled writeByte := writeByte_enabled ht hf hn (by decide)
    obtain ⟨n', hn', hauth⟩ := write_access.1 r writeByte _ hr hok ⟨t, ht, hen, rfl⟩ () _ hn (by decide)
    obtain ⟨t', ht', hauth⟩ := hauth fun he => by
      rw [hn'] at hd
      have hd : n'.contents.data 0 = 0x41 := Option.some.inj hd
      rw [he] at hd
      exact absurd hd (by decide)
    exact ⟨r, t', hr, hauth⟩
  · let r := opened 0 0
    have hr := opened_reachable 0 0
    have ht : (r.task 0).bind (fun t => t.file 0) = some (0, 0) := by decide
    obtain ⟨t, ht, hf⟩ := Option.bind_eq_some_iff.1 ht
    have hi : (r.file 0).fInode = some () := by decide
    have hn : r.inode () = some ⟨0o100444, 0, 0, 1, 0x301, 0, false, ⟨1, fun _ => 0⟩⟩ := rfl
    have hen : r.Enabled writeByte := writeByte_enabled ht hf hn (by decide)
    exact ⟨r, t, hr, (write_access.2 r 0 t 0 [0x41] _ (0, 0) () _ hr ht hf hi hn rfl (by decide) (by decide)
      (by decide) (by decide) hen).1⟩

/-- The task opens the file of somebody else for reading, which is all that it may do, and writes it. -/
theorem read_only_written : ∃ (r : Run Unit) (t : Task) (n n' : Inode), (openFiles Unit).Reachable r ∧
    r.task 0 = some t ∧ r.inode () = some n ∧ isReg n.iMode ∧ permission t n mayWrite = false ∧
    (r.file 0).fFlags = 0 ∧ r.Enabled writeByte ∧ (r.after t writeByte).inode () = some n' ∧
    n.contents.data 0 = 0 ∧ n'.contents.data 0 = 0x41 ∧
    (sysWrite r.toState t 0 [0x41] ⟨1, .ok 1, 0, fun _ => ⟨0, fun _ => 0⟩⟩).2 = .ok 1 := by
  let r := opened 0 0
  let n : Inode := ⟨0o100444, 0, 0, 1, 0x301, 0, false, ⟨1, fun _ => 0⟩⟩
  have h : ((r.task 0).bind fun t => ((r.after t writeByte).inode ()).map fun n' =>
      decide (permission t n mayWrite = false ∧ n'.contents.data 0 = 0x41 ∧
        (sysWrite r.toState t 0 [0x41] ⟨1, .ok 1, 0, fun _ => ⟨0, fun _ => 0⟩⟩).2.toOption = some 1)) =
      some true := by decide
  have hf : (r.task 0).bind (fun t => t.file 0) = some (0, 0) := by decide
  obtain ⟨t, ht, h⟩ := Option.bind_eq_some_iff.1 h
  obtain ⟨n', hn', h⟩ := Option.map_eq_some_iff.1 h
  rw [ht] at hf
  have hen : r.Enabled writeByte := writeByte_enabled ht hf (rfl : r.inode () = some n) (by decide)
  obtain ⟨hp, hd, hw⟩ := of_decide_eq_true h
  refine ⟨r, t, n, n', opened_reachable 0 0, ht, rfl, by decide, hp, by decide, hen, hn', rfl, hd, ?_⟩
  cases hres : (sysWrite r.toState t 0 [0x41] ⟨1, .ok 1, 0, fun _ => ⟨0, fun _ => 0⟩⟩).2 with
  | error e => rw [hres] at hw; cases hw
  | ok k => rw [hres] at hw; cases hw; rfl

end Linux011.Fs
