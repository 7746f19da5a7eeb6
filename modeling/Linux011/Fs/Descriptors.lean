import Linux011.Fs.Access
import Linux011.Lib.Table

/-!
# Descriptor tables

The calls of `fs/open.c`, `fs/fcntl.c`, `fs/pipe.c` and `fs/exec.c` that change the descriptors of a
task, cut where they may sleep: `open` and `pipe` have claimed entries of both tables by then. A page
fault may end a task in the middle of a call.

1. `Place`, `Proc`, `Tables`; what a call returns and changes is kept until the next call of the task.
2. `openClaim`, `openEnd`, `pipeClaim`, `pipeEnd`, `execClose`, `exitClose`. `Tables.next`.
3. `Own`: what the step of a task does to the others. `Holds`: what a task in a call relies on.
4. `descriptors_kept`.
-/

namespace Linux011.Fs

variable {ι : Type*} [DecidableEq ι]

/-- The system calls. -/
inductive Call
  | open (flag mode : BitVec 16)
  | close (fd : ℕ)
  | dup (fildes : ℕ)
  | dup2 (oldfd newfd : ℕ)
  | fcntl (fd : ℕ) (cmd : Cmd) (arg : BitVec 32)
  | pipe
  /-- `nr` is a free slot, `ok` says if there is memory. -/
  | fork (nr : Fin 64) (ok : Bool)
  /-- `ok` says if `do_execve` gets to its point of no return. -/
  | execve (ok : Bool)
  deriving DecidableEq

/-- Where a task is. -/
inductive Place
  | user
  /-- In `open_namei`, or where `sys_open` sleeps after it. -/
  | opening (fd : Fd) (f : FileNr) (flag mode : BitVec 16)
  /-- In `get_pipe_inode`. -/
  | piping (f₀ f₁ : FileNr) (fd₀ fd₁ : Fd)
  /-- In the `sys_close` of `sys_dup2`. -/
  | duping (oldfd newfd : ℕ)
  /-- Before the descriptor `fd` in the loop of `do_execve`. -/
  | execing (fd : ℕ)
  /-- The same in `do_exit`. -/
  | exiting (fd : ℕ)
  deriving DecidableEq

/-- A task and its last call. -/
structure Proc where
  place : Place
  call : Option Call
  /-- The descriptors when it was made. -/
  before : Fd → Option FileNr
  /-- How it changed the counts of `file_table` so far. -/
  moved : FileNr → ℤ
  /-- The descriptors it returned. -/
  result : Option (Except Errno (List ℕ))

/-- A step of a call ends where the task sleeps, or the call returns. -/
inductive Reply
  | goto (place : Place)
  | ret (result : Except Errno (List ℕ))

def descriptor (r : Except Errno ℕ) : Reply :=
  .ret (r.map fun fd => [fd])

def status (r : Except Errno ℕ) : Reply :=
  .ret (r.map fun _ => [])

/-! ## `open` -/

/-- `sys_open` up to `open_namei`. -/
def openClaim (s : State ι) (p : Fin 64) (t : Task) (flag mode : BitVec 16) : State ι × Reply :=
  match t.freeFd 0 with
  | none => (s, .ret (.error .einval))
  | some fd =>
    let t := t.clearCloseOnExec fd
    match s.freeFile with
    | none => (s.setTask p t, .ret (.error .einval))
    | some f =>
      ((s.modifyFile f fun x => { x with fCount := x.fCount + 1 }).setTask p (t.setFilp fd (some f)),
        .goto (.opening fd f flag (mode &&& (0o777 &&& ~~~t.umask))))

/-- `current->filp[fd]=NULL; f->f_count=0;` -/
def unclaim (s : State ι) (p : Fin 64) (t : Task) (fd : Fd) (f : FileNr) : State ι :=
  (s.modifyFile f fun x => { x with fCount := 0 }).setTask p (t.setFilp fd none)

/-- `sys_open` from `open_namei` on. -/
def openEnd (s : State ι) (p : Fin 64) (t : Task) (fd : Fd) (f : FileNr) (flag mode : BitVec 16)
    (l : Lookup ι) : State ι × Reply :=
  match openNamei s t flag mode l with
  | .error e => (unclaim s p t fd f, .ret (.error e))
  | .ok (s, i) =>
    match s.inode i with
    | none => (unclaim s p t fd f, .ret (.error .eacces))
    | some n =>
      match openTty t n with
      | none => (unclaim s p t fd f, .ret (.error .eperm))
      | some t => ((s.setFile f ⟨n.iMode, flag, 1, some i, 0⟩).setTask p t, .ret (.ok [fd.val]))

/-! ## `pipe` -/

/-- The first two free entries of `file_table`. -/
def State.freeFiles (s : State ι) : List FileNr :=
  ((List.finRange 64).filter fun f => (s.file f).fCount == 0).take 2

/-- The first two free descriptors. -/
def Task.freeFds (t : Task) : List Fd :=
  ((List.finRange 20).filter fun fd => (t.filp fd).isNone).take 2

def State.setCount (s : State ι) (f : FileNr) (count : BitVec 16) : State ι :=
  s.modifyFile f fun x => { x with fCount := count }

/-- `sys_pipe` up to `get_pipe_inode`. What it claims of one table it gives back if there is no second,
or too little in the other. -/
def pipeClaim (s : State ι) (p : Fin 64) (t : Task) : State ι × Reply :=
  match s.freeFiles with
  | [f₀, f₁] =>
    let s := (s.setCount f₀ 1).setCount f₁ 1
    match t.freeFds with
    | [fd₀, fd₁] =>
      (s.setTask p ((t.setFilp fd₀ (some f₀)).setFilp fd₁ (some f₁)), .goto (.piping f₀ f₁ fd₀ fd₁))
    | [fd₀] =>
      (((s.setCount f₀ 0).setCount f₁ 0).setTask p ((t.setFilp fd₀ (some f₀)).setFilp fd₀ none),
        .ret (.error .eperm))
    | _ => ((s.setCount f₀ 0).setCount f₁ 0, .ret (.error .eperm))
  | [f₀] => ((s.setCount f₀ 1).setCount f₀ 0, .ret (.error .eperm))
  | _ => (s, .ret (.error .eperm))

/-- `sys_pipe` after `get_pipe_inode`. -/
def pipeEnd (s : State ι) (p : Fin 64) (t : Task) (f₀ f₁ : FileNr) (fd₀ fd₁ : Fd) :
    Option ι → State ι × Reply
  | none =>
    (((s.setCount f₀ 0).setCount f₁ 0).setTask p ((t.setFilp fd₀ none).setFilp fd₁ none),
      .ret (.error .eperm))
  | some i =>
    ((s.modifyFile f₀ fun x => { x with fMode := 1, fInode := some i, fPos := 0 }).modifyFile f₁
        fun x => { x with fMode := 2, fInode := some i, fPos := 0 },
      .ret (.ok [fd₀.val, fd₁.val]))

/-! ## `execve` and `exit` -/

/-- A turn of the loop of `do_execve`, and what follows it. -/
def execClose (s : State ι) (p : Fin 64) (t : Task) (fd : ℕ) : State ι × Reply :=
  if fd < 20 then
    (if t.closeOnExec.getLsbD fd then (sysClose s p t fd).1 else s, .goto (.execing (fd + 1)))
  else (s.setTask p { t with closeOnExec := 0 }, .ret (.ok []))

/-- The same for `do_exit`; in the end the task leaves the table. -/
def exitClose (s : State ι) (p : Fin 64) (t : Task) (fd : ℕ) : State ι × Reply :=
  if fd < 20 then
    (if (t.file fd).isSome then (sysClose s p t fd).1 else s, .goto (.exiting (fd + 1)))
  else ({ s with task := Function.update s.task p none }, .goto .user)

/-! ## Runs -/

/-- A call up to its first sleep. -/
def State.enter (s : State ι) (p : Fin 64) (t : Task) : Call → State ι × Reply
  | .open flag mode => openClaim s p t flag mode
  | .close fd => ((sysClose s p t fd).1, status (sysClose s p t fd).2)
  | .dup fildes => ((sysDup s p t fildes).1, descriptor (sysDup s p t fildes).2)
  | .dup2 oldfd newfd => ((sysClose s p t newfd).1, .goto (.duping oldfd newfd))
  | .fcntl fd cmd arg =>
    ((sysFcntl s p t fd cmd arg).1,
      if cmd = .dupfd then descriptor (sysFcntl s p t fd cmd arg).2
      else status (sysFcntl s p t fd cmd arg).2)
  | .pipe => pipeClaim s p t
  | .fork nr ok => if ok then (copyProcess s t nr, .ret (.ok [])) else (s, .ret (.error .eperm))
  | .execve ok => (s, if ok then .goto (.execing 0) else .ret (.error .eperm))

/-- How a sleep ends: what `open_namei` or `get_pipe_inode` find, where it was in one of them. -/
structure Wake (ι : Type*) where
  lookup : Lookup ι
  inode : Option ι

/-- A call from where the task sleeps. -/
def State.resume (s : State ι) (p : Fin 64) (t : Task) (w : Wake ι) : Place → Option (State ι × Reply)
  | .user => none
  | .opening fd f flag mode => some (openEnd s p t fd f flag mode w.lookup)
  | .piping f₀ f₁ fd₀ fd₁ => some (pipeEnd s p t f₀ f₁ fd₀ fd₁ w.inode)
  | .duping oldfd newfd => some ((dupfd s p t oldfd newfd).1, descriptor (dupfd s p t oldfd newfd).2)
  | .execing fd => some (execClose s p t fd)
  | .exiting fd => some (exitClose s p t fd)

structure Tables (ι : Type*) extends State ι where
  proc : Fin 64 → Proc

/-- What the call of a task in this place of the run has done. -/
def Proc.after (u : Proc) (s s' : State ι) (r : Reply) : Proc where
  place := match r with
    | .goto place => place
    | .ret _ => .user
  call := u.call
  before := u.before
  moved f := u.moved f + ((s'.file f).fCount.toNat - (s.file f).fCount.toNat)
  result := match r with
    | .goto _ => none
    | .ret result => some result

def Tables.settle (r : Tables ι) (p : Fin 64) (u : Proc) (out : State ι × Reply) : Tables ι where
  toState := out.1
  proc := Function.update r.proc p (u.after r.toState out.1 out.2)

def Proc.start (filp : Fd → Option FileNr) (call : Option Call) : Proc :=
  ⟨.user, call, filp, fun _ => 0, none⟩

inductive TablesEvent (ι : Type*)
  | call (p : Fin 64) (c : Call)
  /-- The task goes on. -/
  | resume (p : Fin 64) (w : Wake ι)
  /-- The task begins to exit. -/
  | exit (p : Fin 64)

/-- A child begins with no call. -/
def Tables.forked (r : Tables ι) (t : Task) : Call → Fin 64 → Proc
  | .fork nr true => Function.update r.proc nr (.start t.filp none)
  | _ => r.proc

def Tables.next (r : Tables ι) : TablesEvent ι → Option (Tables ι)
  | .call p c => (r.task p).bind fun t =>
    if (r.proc p).place = .user ∧ ∀ nr ok, c = .fork nr ok → r.task nr = none then
      some ({ r with proc := r.forked t c }.settle p (.start t.filp (some c)) (r.enter p t c))
    else none
  | .resume p w => (r.task p).bind fun t =>
    (r.resume p t w (r.proc p).place).map (r.settle p (r.proc p))
  | .exit p => (r.task p).map fun t => r.settle p (.start t.filp none) (r.toState, .goto (.exiting 0))

/-- No task has a descriptor, and nothing is open. -/
def descriptors (ι : Type*) [DecidableEq ι] : System (Tables ι) (TablesEvent ι) where
  init r := (∀ p t, r.task p = some t → t.closeOnExec = 0 ∧ (∀ fd, t.filp fd = none) ∧
      r.proc p = .start t.filp none) ∧
    ∀ f, (r.file f).fCount = 0
  step r e r' := r.next e = some r'

/-- What holds of the descriptors, and of a call that a task has returned from. -/
structure Kept (r : Tables ι) : Prop where
  closeOnExec : ∀ p t k, r.task p = some t → t.closeOnExec.getLsbD k = true →
    ∃ fd : Fd, fd.val = k ∧ t.filp fd ≠ none
  /-- Where `open` or `pipe` have failed. -/
  failed : ∀ p t c e, r.task p = some t → (r.proc p).call = some c →
    (r.proc p).result = some (.error e) → ((∃ flag mode, c = .open flag mode) ∨ c = .pipe) →
    t.filp = (r.proc p).before ∧ ∀ f, (r.proc p).moved f = 0
  /-- The descriptors that a call has returned. -/
  returned : ∀ p t c fds, r.task p = some t → (r.proc p).call = some c →
    (r.proc p).result = some (.ok fds) → ∀ k ∈ fds, ∃ fd : Fd, fd.val = k ∧ t.filp fd ≠ none ∧
      t.closeOnExec.getLsbD k = false ∧
      ((r.proc p).before fd = none ∨ ∃ oldfd, c = .dup2 oldfd k)

/-! ## The invariant -/

/-- `close_on_exec` is set only for descriptors that are open. -/
def Task.Bits (t : Task) : Prop :=
  ∀ k, t.closeOnExec.getLsbD k = true → ∃ fd : Fd, fd.val = k ∧ t.filp fd ≠ none

/-- A call that has returned. -/
structure Returned (u : Proc) (t : Task) : Prop where
  failed : ∀ c e, u.call = some c → u.result = some (.error e) →
    ((∃ flag mode, c = .open flag mode) ∨ c = .pipe) → t.filp = u.before ∧ ∀ f, u.moved f = 0
  returned : ∀ c fds, u.call = some c → u.result = some (.ok fds) → ∀ k ∈ fds,
    ∃ fd : Fd, fd.val = k ∧ t.filp fd ≠ none ∧ t.closeOnExec.getLsbD k = false ∧
      (u.before fd = none ∨ ∃ oldfd, c = .dup2 oldfd k)

/-- A call that has not: what was claimed is the task's alone. -/
def Proc.Claims (s : State ι) (u : Proc) (t : Task) : Place → Prop
  | .user => True
  | .opening fd f _ _ => u.before fd = none ∧ t.filp = Function.update u.before fd (some f) ∧
      (s.file f).fCount = 1 ∧ (∀ g, u.moved g = if g = f then 1 else 0) ∧
      t.closeOnExec.getLsbD fd = false
  | .piping f₀ f₁ fd₀ fd₁ => f₀ ≠ f₁ ∧ fd₀ ≠ fd₁ ∧ u.before fd₀ = none ∧ u.before fd₁ = none ∧
      t.filp = Function.update (Function.update u.before fd₀ (some f₀)) fd₁ (some f₁) ∧
      (s.file f₀).fCount = 1 ∧ (s.file f₁).fCount = 1 ∧
      (∀ g, u.moved g = if g = f₀ ∨ g = f₁ then 1 else 0) ∧
      t.closeOnExec.getLsbD fd₀ = false ∧ t.closeOnExec.getLsbD fd₁ = false
  | .duping oldfd newfd => u.call = some (.dup2 oldfd newfd) ∧
      ∀ fd : Fd, fd.val ≠ newfd → t.filp fd = u.before fd
  | .execing _ => True
  | .exiting n => ∀ fd : Fd, fd.val < n → t.filp fd = none

structure Tables.Inv (r : Tables ι) : Prop where
  counted : r.Counted
  bits : ∀ p t, r.task p = some t → t.Bits
  returned : ∀ p t, r.task p = some t → Returned (r.proc p) t
  claims : ∀ p t, r.task p = some t → (r.proc p).Claims r.toState t (r.proc p).place

section Bits

variable {t : Task} {fd : Fd} {k : ℕ}

theorem getLsbD_clearCloseOnExec : (t.clearCloseOnExec fd).closeOnExec.getLsbD k =
    (t.closeOnExec.getLsbD k && decide (k ≠ fd.val)) := by
  unfold Task.clearCloseOnExec
  by_cases hk : k < 32
  · rw [BitVec.getLsbD_and, BitVec.getLsbD_not, BitVec.getLsbD_shiftLeft, BitVec.getLsbD_one]
    congr 1
    by_cases he : k = fd.val
    · simp [he]
    · rcases Nat.lt_or_gt_of_ne he with hlt | hgt
      · simp [hk, he, hlt]
      · have hsub : k - fd.val ≠ 0 := by omega
        simp [hk, he, hsub]
  · rw [BitVec.getLsbD_of_ge _ _ (by omega), BitVec.getLsbD_of_ge _ _ (by omega)]
    rfl

theorem getLsbD_cleared : (t.clearCloseOnExec fd).closeOnExec.getLsbD fd = false := by
  rw [getLsbD_clearCloseOnExec]
  simp

theorem Task.Bits.clear (h : t.Bits) : (t.clearCloseOnExec fd).Bits := by
  intro k hk
  rw [getLsbD_clearCloseOnExec, Bool.and_eq_true] at hk
  exact h k hk.1

theorem Task.Bits.open {f : FileNr} (h : t.Bits) : (t.setFilp fd (some f)).Bits := by
  intro k hk
  obtain ⟨x, rfl, hx⟩ := h k hk
  refine ⟨x, rfl, ?_⟩
  by_cases he : x = fd
  · subst he
    rw [Task.setFilp_self]
    exact Option.some_ne_none f
  · rwa [Task.setFilp_of_ne _ _ he]

theorem Task.Bits.close (h : t.Bits) (hbit : t.closeOnExec.getLsbD fd = false) :
    (t.setFilp fd none).Bits := by
  intro k hk
  obtain ⟨x, rfl, hx⟩ := h k hk
  refine ⟨x, rfl, ?_⟩
  rw [Task.setFilp_of_ne _ _ fun he => ?_]
  · exact hx
  · have hk : t.closeOnExec.getLsbD x.val = true := hk
    rw [he, hbit] at hk
    cases hk

/-- The bit of a descriptor that is not open. -/
theorem Task.Bits.free (h : t.Bits) (hfd : t.filp fd = none) : t.closeOnExec.getLsbD fd = false := by
  cases hbit : t.closeOnExec.getLsbD fd with
  | false => rfl
  | true =>
    obtain ⟨x, hx, hopen⟩ := h fd hbit
    rw [Fin.ext hx] at hopen
    exact absurd hfd hopen

end Bits

/-! ## One step of a task -/

section Steps

variable {s s' s₁ : State ι} {p q : Fin 64} {t t' t₁ : Task} {u : Proc} {f g : FileNr} {fd k : Fd}
  {reply : Reply}

section

omit [DecidableEq ι]

theorem fCount_modifyFile {x : File ι → File ι} :
    ((s.modifyFile f x).file g).fCount = if g = f then (x (s.file f)).fCount else (s.file g).fCount := by
  unfold State.modifyFile State.setFile
  by_cases he : g = f
  · rw [if_pos he, he]
    dsimp only
    rw [Function.update_self]
  · rw [if_neg he]
    dsimp only
    rw [Function.update_of_ne he]

theorem fCount_setCount {n : BitVec 16} :
    ((s.setCount f n).file g).fCount = if g = f then n else (s.file g).fCount :=
  fCount_modifyFile

/-- Two descriptors that point to an entry are one, if its count is one. -/
theorem State.Counted.unique (h : s.Counted) (hf : (s.file f).fCount = 1) (ht : s.task p = some t)
    (hfd : t.filp fd = some f) (ht' : s.task q = some t') (hk : t'.filp k = some f) :
    p = q ∧ fd = k := by
  have hone : s.refs f = 1 := (h.toNat f).symm.trans (congrArg BitVec.toNat hf)
  have hpos : 0 < taskRefs f (s.task p) ∧ 0 < taskRefs f (s.task q) := by
    rw [ht, ht']
    exact ⟨Count.card_filter_pos (Finset.mem_univ fd) hfd, Count.card_filter_pos (Finset.mem_univ k) hk⟩
  unfold State.refs at hone
  have hpq : p = q := by
    by_contra hne
    have hpair : ∑ i ∈ {p, q}, taskRefs f (s.task i) ≤ ∑ i, taskRefs f (s.task i) :=
      Finset.sum_le_sum_of_subset (Finset.subset_univ _)
    rw [Finset.sum_pair hne] at hpair
    omega
  subst hpq
  obtain rfl : t = t' := Option.some.inj (ht.symm.trans ht')
  have hle : taskRefs f (s.task p) ≤ ∑ i, taskRefs f (s.task i) :=
    Finset.single_le_sum (f := fun i => taskRefs f (s.task i)) (fun _ _ => Nat.zero_le _)
      (Finset.mem_univ p)
  rw [ht] at hle
  exact ⟨rfl, Count.eq_of_card_filter_le_one (hle.trans hone.le) (Finset.mem_univ fd) hfd
    (Finset.mem_univ k) hk⟩

/-- A free descriptor gets an entry. -/
theorem State.Counted.gain (h : s.Counted) (ht : s.task p = some t) {u : Task} (hu : u.filp = t.filp)
    (hfd : t.filp fd = none) {x : File ι → File ι}
    (hx : (x (s.file f)).fCount = (s.file f).fCount + 1) :
    ((s.modifyFile f x).setTask p (u.setFilp fd (some f))).Counted := by
  refine h.setFilp ht u _ hu fun g => ?_
  have hg := fCount_modifyFile (s := s) (f := f) (g := g) (x := x)
  rw [hfd, if_neg (by simp), BitVec.add_zero]
  refine hg.trans ?_
  by_cases he : g = f
  · rw [if_pos he, he, if_pos rfl, hx]
    rfl
  · rw [if_neg he, if_neg fun h => he (Option.some.inj h).symm, BitVec.add_zero]

/-- A descriptor is freed. -/
theorem State.Counted.drop (h : s.Counted) (ht : s.task p = some t) {u : Task} (hu : u.filp = t.filp)
    (hfd : t.filp fd = some f) {x : File ι → File ι}
    (hx : (x (s.file f)).fCount + 1 = (s.file f).fCount) :
    ((s.modifyFile f x).setTask p (u.setFilp fd none)).Counted := by
  refine h.setFilp ht u _ hu fun g => ?_
  have hg := fCount_modifyFile (s := s) (f := f) (g := g) (x := x)
  rw [hfd, if_neg (by simp : ¬ (none : Option FileNr) = some g), BitVec.add_zero]
  by_cases he : g = f
  · rw [if_pos (he ▸ rfl)]
    refine (congrArg (· + 1) (hg.trans (if_pos he))).trans ?_
    rw [he, hx]
  · rw [if_neg fun h => he (Option.some.inj h).symm, BitVec.add_zero]
    exact hg.trans (if_neg he)

end

/-- What a step of the task `p` leaves alone: the other tasks, and the counts of the entries that are
open, but not by it. -/
structure Own (s : State ι) (p : Fin 64) (t : Task) (s' : State ι) : Prop where
  others : ∀ q, q ≠ p → s'.task q = s.task q
  touched : ∀ f, (s'.file f).fCount = (s.file f).fCount ∨ (s.file f).fCount = 0 ∨
    ∃ k, t.filp k = some f
  counted : s'.Counted

/-- A step of the task `p`, of which `u` is known. -/
structure Good (s : State ι) (p : Fin 64) (t : Task) (u : Proc) (out : State ι × Reply) : Prop where
  own : Own s p t out.1
  bits : ∀ t', out.1.task p = some t' → t'.Bits
  returned : ∀ t', out.1.task p = some t' → Returned (u.after s out.1 out.2) t'
  claims : ∀ t', out.1.task p = some t' →
    (u.after s out.1 out.2).Claims out.1 t' (u.after s out.1 out.2).place

section

omit [DecidableEq ι]

/-- The claims of the other tasks are not touched. -/
theorem Own.count_one (h : Own s p t s') (hc : s.Counted) (ht : s.task p = some t)
    (ht' : s.task q = some t') (hq : q ≠ p) (hk : t'.filp k = some f) (hf : (s.file f).fCount = 1) :
    (s'.file f).fCount = 1 := by
  rcases h.touched f with heq | hzero | ⟨fd, hfd⟩
  · exact heq.trans hf
  · exact absurd (hf.symm.trans hzero) (by decide)
  · exact absurd (hc.unique hf ht hfd ht' hk).1.symm hq

theorem Proc.Claims.keep {place : Place} (h : u.Claims s t place)
    (hcount : ∀ f k, t.filp k = some f → (s.file f).fCount = 1 → (s'.file f).fCount = 1) :
    u.Claims s' t place := by
  cases place with
  | opening fd f flag mode =>
    obtain ⟨hb, hfilp, hf, hrest⟩ := h
    exact ⟨hb, hfilp, hcount f fd (by rw [hfilp, Function.update_self]) hf, hrest⟩
  | piping f₀ f₁ fd₀ fd₁ =>
    obtain ⟨hf, hfd, hb₀, hb₁, hfilp, h₀, h₁, hrest⟩ := h
    refine ⟨hf, hfd, hb₀, hb₁, hfilp, hcount f₀ fd₀ ?_ h₀, hcount f₁ fd₁ ?_ h₁, hrest⟩
    · rw [hfilp, Function.update_of_ne hfd, Function.update_self]
    · rw [hfilp, Function.update_self]
  | user | duping oldfd newfd | execing fd | exiting fd => exact h

/-- The step of a task that is good for it is good for all. -/
theorem Tables.Inv.settle {r : Tables ι} (h : r.Inv) (ht : r.task p = some t) {out : State ι × Reply}
    (hg : Good r.toState p t u out) : (r.settle p u out).Inv := by
  have hold : ∀ q t', q ≠ p → out.1.task q = some t' → r.task q = some t' ∧
      (r.settle p u out).proc q = r.proc q :=
    fun q t' hq ht' => ⟨hg.own.others q hq ▸ ht', Function.update_of_ne hq _ _⟩
  have hself : (r.settle p u out).proc p = u.after r.toState out.1 out.2 := Function.update_self _ _ _
  refine ⟨hg.own.counted, fun q t' ht' => ?_, fun q t' ht' => ?_, fun q t' ht' => ?_⟩
  · by_cases hq : q = p
    · subst hq
      exact hg.bits t' ht'
    · exact h.bits q t' (hold q t' hq ht').1
  · by_cases hq : q = p
    · subst hq
      rw [hself]
      exact hg.returned t' ht'
    · obtain ⟨hr, hproc⟩ := hold q t' hq ht'
      rw [hproc]
      exact h.returned q t' hr
  · by_cases hq : q = p
    · subst hq
      rw [hself]
      exact hg.claims t' ht'
    · obtain ⟨hr, hproc⟩ := hold q t' hq ht'
      rw [hproc]
      exact (h.claims q t' hr).keep fun f k hk hf => hg.own.count_one h.counted ht hr hq hk hf

/-- The step writes the task last. -/
theorem Good.setTask (htask : s₁.task = s.task)
    (htouched : ∀ f, (s₁.file f).fCount = (s.file f).fCount ∨ (s.file f).fCount = 0 ∨
      ∃ k, t.filp k = some f)
    (hcounted : (s₁.setTask p t').Counted) (hbits : t'.Bits)
    (hreturned : Returned (u.after s (s₁.setTask p t') reply) t')
    (hclaims : (u.after s (s₁.setTask p t') reply).Claims (s₁.setTask p t') t'
      (u.after s (s₁.setTask p t') reply).place) :
    Good s p t u (s₁.setTask p t', reply) := by
  have hself : ∀ t'', (s₁.setTask p t').task p = some t'' → t'' = t' := by
    intro t'' h
    have h : Function.update s₁.task p (some t') p = some t'' := h
    rw [Function.update_self] at h
    exact (Option.some.inj h).symm
  refine ⟨⟨fun q hq => ?_, htouched, hcounted⟩, fun t'' h => hself t'' h ▸ hbits,
    fun t'' h => hself t'' h ▸ hreturned, fun t'' h => hself t'' h ▸ hclaims⟩
  exact (Function.update_of_ne hq _ _).trans (congrFun htask q)

/-- The step writes no task. -/
theorem Good.same (ht : s.task p = some t) (htask : s₁.task = s.task)
    (htouched : ∀ f, (s₁.file f).fCount = (s.file f).fCount ∨ (s.file f).fCount = 0 ∨
      ∃ k, t.filp k = some f)
    (hcounted : s₁.Counted) (hbits : t.Bits) (hreturned : Returned (u.after s s₁ reply) t)
    (hclaims : (u.after s s₁ reply).Claims s₁ t (u.after s s₁ reply).place) :
    Good s p t u (s₁, reply) := by
  have hself : ∀ t', s₁.task p = some t' → t' = t := by
    intro t' h
    rw [htask, ht] at h
    exact (Option.some.inj h).symm
  exact ⟨⟨fun q _ => congrFun htask q, htouched, hcounted⟩, fun t' h => hself t' h ▸ hbits,
    fun t' h => hself t' h ▸ hreturned, fun t' h => hself t' h ▸ hclaims⟩

/-- A call that goes on has returned nothing. -/
theorem Returned.goto {place : Place} : Returned (u.after s s' (.goto place)) t := by
  refine ⟨fun _ _ _ h => ?_, fun _ _ _ h => ?_⟩ <;> cases h

theorem Returned.ok_nil : Returned (u.after s s' (.ret (.ok []))) t := by
  refine ⟨fun _ _ _ h => ?_, fun _ fds _ h k hk => ?_⟩
  · cases h
  · cases h
    cases hk

/-- A call fails and has undone what it did. -/
theorem Returned.undone {e : Errno} (hfilp : t.filp = u.before)
    (hmoved : ∀ f, u.moved f + ((s'.file f).fCount.toNat - (s.file f).fCount.toNat : ℤ) = 0) :
    Returned (u.after s s' (.ret (.error e))) t :=
  ⟨fun _ _ _ _ _ => ⟨hfilp, hmoved⟩, fun _ _ _ h => (by cases h)⟩

/-- Another call fails. -/
theorem Returned.error {e : Errno} {c : Call} (hcall : u.call = some c)
    (hc : ¬ ((∃ flag mode, c = .open flag mode) ∨ c = .pipe)) :
    Returned (u.after s s' (.ret (.error e))) t := by
  refine ⟨fun c' _ hc' _ h => ?_, fun _ _ _ h => (by cases h)⟩
  obtain rfl : c = c' := Option.some.inj (hcall.symm.trans hc')
  exact absurd h hc

theorem Returned.one {fd : Fd} (hopen : t.filp fd ≠ none) (hbit : t.closeOnExec.getLsbD fd = false)
    (hbefore : u.before fd = none ∨ ∃ oldfd, u.call = some (.dup2 oldfd fd)) :
    Returned (u.after s s' (.ret (.ok [fd.val]))) t := by
  refine ⟨fun _ _ _ h => (by cases h), fun c fds hc h k hk => ?_⟩
  cases h
  rw [List.mem_singleton.1 hk]
  refine ⟨fd, rfl, hopen, hbit, hbefore.imp_right ?_⟩
  rintro ⟨oldfd, hcall⟩
  exact ⟨oldfd, Option.some.inj (hc.symm.trans hcall)⟩

end

/-! ## `open` -/

theorem openNamei_kept {flag mode : BitVec 16} {l : Lookup ι} {i : ι}
    (h : openNamei s t flag mode l = .ok (s', i)) : s'.task = s.task ∧ s'.file = s.file := by
  unfold openNamei at h
  dsimp only at h
  split at h
  · cases h
  · split at h <;> cases h
    exact ⟨rfl, rfl⟩
  · split at h
    · cases h
    split at h
    · cases h
    split at h
    · cases h
    split at h <;> cases h
    exact ⟨rfl, rfl⟩
  · split at h
    · cases h
    split at h
    · cases h
    split at h
    · cases h
    split at h
    · cases h
    split at h <;> cases h <;> exact ⟨rfl, rfl⟩

theorem openTty_kept {n : Inode} (h : openTty t n = some t') :
    t'.filp = t.filp ∧ t'.closeOnExec = t.closeOnExec := by
  unfold openTty at h
  split_ifs at h <;> cases h <;> exact ⟨rfl, rfl⟩

omit [DecidableEq ι] in
theorem openClaim_good {flag mode : BitVec 16} {c : Call} (hc : s.Counted) (hb : t.Bits)
    (ht : s.task p = some t) :
    Good s p t (.start t.filp (some c)) (openClaim s p t flag mode) := by
  have hsame : ∀ f, (s.file f).fCount = (s.file f).fCount ∨ (s.file f).fCount = 0 ∨
      ∃ k, t.filp k = some f := fun _ => .inl rfl
  have hzero : ∀ f, (Proc.start t.filp (some c)).moved f +
      ((s.file f).fCount.toNat - (s.file f).fCount.toNat : ℤ) = 0 := fun _ => by simp [Proc.start]
  unfold openClaim
  split
  · exact .same ht rfl hsame hc hb (.undone rfl hzero) trivial
  · next fd hfd =>
    have hfd := freeFd_eq_some hfd
    dsimp only
    split
    · exact .setTask rfl hsame (hc.setTask ht rfl) hb.clear (.undone rfl hzero) trivial
    · next f hf =>
      have hf := freeFile_eq_some hf
      have hcount : ∀ g, ((s.modifyFile f fun x => { x with fCount := x.fCount + 1 }).file g).fCount =
          if g = f then 1 else (s.file g).fCount := by
        intro g
        rw [fCount_modifyFile, hf]
        rfl
      refine .setTask rfl (fun g => ?_) ?_ hb.clear.open .goto ⟨hfd, rfl, ?_, fun g => ?_, getLsbD_cleared⟩
      · rw [hcount]
        split_ifs with hg
        · exact .inr (.inl (hg ▸ hf))
        · exact .inl rfl
      · have hx : ({ s.file f with fCount := (s.file f).fCount + 1 } : File ι).fCount =
            (s.file f).fCount + 1 := rfl
        exact hc.gain (u := t.clearCloseOnExec fd) (x := fun x => { x with fCount := x.fCount + 1 }) ht
          rfl hfd hx
      · exact (hcount f).trans (if_pos rfl)
      · have hg := hcount g
        show (0 : ℤ) + (((s.modifyFile f fun x => { x with fCount := x.fCount + 1 }).file g).fCount.toNat -
          (s.file g).fCount.toNat) = _
        rw [hg]
        split_ifs with he
        · rw [he, hf]
          rfl
        · omega

omit [DecidableEq ι] in
/-- What `open` claimed it gives back. -/
theorem unclaim_good {flag mode : BitVec 16} {e : Errno} (hc : s.Counted) (hb : t.Bits)
    (ht : s.task p = some t) (h : u.Claims s t (.opening fd f flag mode)) (htask : s₁.task = s.task)
    (hfile : s₁.file = s.file) : Good s p t u (unclaim s₁ p t fd f, .ret (.error e)) := by
  obtain ⟨hbefore, hfilp, hf, hmoved, hbit⟩ := h
  have hfd : t.filp fd = some f := by rw [hfilp, Function.update_self]
  have hcount : ∀ g, ((s₁.modifyFile f fun x => { x with fCount := 0 }).file g).fCount =
      if g = f then 0 else (s.file g).fCount := by
    intro g
    rw [fCount_modifyFile, hfile]
  have hc₁ : s₁.Counted := hc.of_eq htask hfile
  refine .setTask htask (fun g => ?_) (hc₁.drop (htask ▸ ht) rfl hfd ?_) (hb.close hbit)
    (.undone ?_ fun g => ?_) trivial
  · rw [hcount]
    split_ifs with hg
    · exact .inr (.inr ⟨fd, hg ▸ hfd⟩)
    · exact .inl rfl
  · rw [hfile]
    exact hf.symm
  · show Function.update t.filp fd none = u.before
    rw [hfilp, Function.update_idem, ← hbefore, Function.update_eq_self]
  · show u.moved g + ((((s₁.modifyFile f fun x => { x with fCount := 0 }).file g).fCount.toNat : ℤ) -
      (s.file g).fCount.toNat) = 0
    rw [hcount, hmoved]
    split_ifs with hg
    · rw [hg, hf]
      rfl
    · omega

theorem openEnd_good {flag mode : BitVec 16} {l : Lookup ι} (hc : s.Counted) (hb : t.Bits)
    (ht : s.task p = some t) (h : u.Claims s t (.opening fd f flag mode)) :
    Good s p t u (openEnd s p t fd f flag mode l) := by
  unfold openEnd
  split
  · exact unclaim_good hc hb ht h rfl rfl
  · next s₁ i hopen =>
    obtain ⟨htask, hfile⟩ := openNamei_kept hopen
    split
    · exact unclaim_good hc hb ht h htask hfile
    split
    · exact unclaim_good hc hb ht h htask hfile
    · next n _ _ t₁ htty =>
      obtain ⟨hfilp₁, hbits₁⟩ := openTty_kept htty
      obtain ⟨hbefore, hfilp, hf, -, hbit⟩ := h
      have hcount : ∀ g, ((s₁.setFile f ⟨n.iMode, flag, 1, some i, 0⟩).file g).fCount =
          (s.file g).fCount := by
        intro g
        have hg := fCount_modifyFile (s := s₁) (f := f) (g := g)
          (x := fun _ => ⟨n.iMode, flag, 1, some i, 0⟩)
        refine hg.trans ?_
        rw [hfile]
        split_ifs with he
        · rw [he, hf]
        · rfl
      have hc₁ : (s₁.setFile f ⟨n.iMode, flag, 1, some i, 0⟩).Counted :=
        (hc.of_eq htask hfile).modifyFile (x := fun _ => ⟨n.iMode, flag, 1, some i, 0⟩)
          (by rw [hfile, hf])
      refine .setTask htask (fun g => .inl (hcount g)) (hc₁.setTask (t := t) (htask ▸ ht) hfilp₁) ?_
        (.one ?_ (hbits₁ ▸ hbit) (.inl hbefore)) trivial
      · intro k hk
        rw [hfilp₁]
        exact hb k (hbits₁ ▸ hk)
      · rw [hfilp₁, hfilp, Function.update_self]
        exact Option.some_ne_none f

/-! ## Descriptors -/

section

omit [DecidableEq ι]

theorem sysClose_own (hc : s.Counted) (ht : s.task p = some t) {n : ℕ} :
    Own s p t (sysClose s p t n).1 := by
  unfold sysClose
  split
  · next hn =>
    dsimp only
    split
    · exact ⟨fun q hq => Function.update_of_ne hq _ _, fun _ => .inl rfl, hc.setTask ht rfl⟩
    · next f hf =>
      have hfd : t.filp ⟨n, hn⟩ = some f := hf
      have hx : ({ s.file f with fCount := (s.file f).fCount - 1 } : File ι).fCount + 1 =
          (s.file f).fCount := BitVec.sub_add_cancel _ _
      refine ⟨fun q hq => Function.update_of_ne hq _ _, fun g => ?_,
        hc.drop (u := t.clearCloseOnExec ⟨n, hn⟩) (x := fun x => { x with fCount := x.fCount - 1 }) ht
          rfl hfd hx⟩
      · have hg := fCount_modifyFile (s := s) (f := f) (g := g)
          (x := fun x => { x with fCount := x.fCount - 1 })
        by_cases he : g = f
        · exact .inr (.inr ⟨⟨n, hn⟩, he ▸ hfd⟩)
        · exact .inl (hg.trans (if_neg he))
  · exact ⟨fun _ _ => rfl, fun _ => .inl rfl, hc⟩

/-- The task after a close. -/
theorem sysClose_task (hb : t.Bits) (ht : s.task p = some t) {n : ℕ}
    (h : (sysClose s p t n).1.task p = some t') :
    t'.Bits ∧ (∀ k : Fd, k.val ≠ n → t'.filp k = t.filp k) ∧ ∀ k : Fd, k.val = n → t'.filp k = none := by
  have hself : ∀ {s₁ : State ι} {t₁}, (s₁.setTask p t₁).task p = some t' → t' = t₁ := by
    intro s₁ t₁ h
    have h : Function.update s₁.task p (some t₁) p = some t' := h
    rw [Function.update_self] at h
    exact (Option.some.inj h).symm
  unfold sysClose at h
  split at h
  · next hn =>
    dsimp only at h
    split at h
    · next hnone =>
      rw [hself h]
      refine ⟨hb.clear, fun _ _ => rfl, fun k hk => ?_⟩
      obtain rfl : k = ⟨n, hn⟩ := Fin.ext hk
      exact hnone
    · rw [hself h]
      refine ⟨hb.clear.close getLsbD_cleared, fun k hk => ?_, fun k hk => ?_⟩
      · exact Task.setFilp_of_ne _ _ fun he => hk (congrArg Fin.val he)
      · obtain rfl : k = ⟨n, hn⟩ := Fin.ext hk
        exact Task.setFilp_self _ _ _
  · next hn =>
    rw [ht] at h
    obtain rfl := Option.some.inj h
    exact ⟨hb, fun _ _ => rfl, fun k hk => absurd (hk ▸ k.isLt) hn⟩

/-- A call that returns no descriptor, and is neither `open` nor `pipe`. -/
theorem Returned.status {c : Call} {r : Except Errno ℕ} (hcall : u.call = some c)
    (hc : ¬ ((∃ flag mode, c = .open flag mode) ∨ c = .pipe)) :
    Returned (u.after s s' (Fs.status r)) t := by
  cases r with
  | error e => exact .error hcall hc
  | ok n => exact .ok_nil

theorem sysClose_good {n : ℕ} (hc : s.Counted) (hb : t.Bits) (ht : s.task p = some t)
    (hreturned : ∀ t', Returned (u.after s (sysClose s p t n).1 reply) t')
    (hclaims : ∀ t', (∀ k : Fd, k.val ≠ n → t'.filp k = t.filp k) →
      (∀ k : Fd, k.val = n → t'.filp k = none) →
      (u.after s (sysClose s p t n).1 reply).Claims (sysClose s p t n).1 t'
        (u.after s (sysClose s p t n).1 reply).place) :
    Good s p t u ((sysClose s p t n).1, reply) := by
  refine ⟨sysClose_own hc ht, fun t' h => (sysClose_task hb ht h).1, fun t' _ => hreturned t',
    fun t' h => ?_⟩
  obtain ⟨-, hother, hnone⟩ := sysClose_task hb ht h
  exact hclaims t' hother hnone

/-- What `dupfd` returns was free, or is what `dup2` has closed. -/
theorem dupfd_good {n arg : ℕ} {c : Call} (hc : s.Counted) (hb : t.Bits) (ht : s.task p = some t)
    (hcall : u.call = some c) (hne : ¬ ((∃ flag mode, c = .open flag mode) ∨ c = .pipe))
    (hfree : ∀ k, t.filp k = none → u.before k = none ∨ ∃ oldfd, u.call = some (.dup2 oldfd k.val)) :
    Good s p t u ((dupfd s p t n arg).1, descriptor (dupfd s p t n arg).2) := by
  have hfail : ∀ e, Good s p t u (s, descriptor (.error e)) := fun e =>
    .same ht rfl (fun _ => .inl rfl) hc hb (.error hcall hne) trivial
  unfold dupfd
  split
  · exact hfail _
  · next old f hold =>
    split
    · exact hfail _
    split
    · exact hfail _
    · next new hnew =>
      have hnew := freeFd_eq_some hnew
      have hold : t.filp old = some f := file_eq_some hold
      have hx : ({ s.file f with fCount := (s.file f).fCount + 1 } : File ι).fCount =
          (s.file f).fCount + 1 := rfl
      have hcounted := hc.gain (u := t.clearCloseOnExec new)
        (x := fun x => { x with fCount := x.fCount + 1 }) ht rfl hnew hx
      refine .setTask rfl (fun g => ?_) hcounted hb.clear.open
        (.one ?_ getLsbD_cleared (hfree new hnew)) trivial
      · have hg := fCount_modifyFile (s := s) (f := f) (g := g)
          (x := fun x => { x with fCount := x.fCount + 1 })
        by_cases he : g = f
        · exact .inr (.inr ⟨old, he ▸ hold⟩)
        · exact .inl (hg.trans (if_neg he))
      · rw [Task.setFilp_self]
        exact Option.some_ne_none f

end

theorem getLsbD_setBit {x : BitVec 32} {n m : ℕ} (h : (x ||| 1#32 <<< n).getLsbD m = true) :
    x.getLsbD m = true ∨ m = n := by
  rw [BitVec.getLsbD_or, Bool.or_eq_true] at h
  refine h.imp_right fun h => ?_
  rw [BitVec.getLsbD_shiftLeft, BitVec.getLsbD_one] at h
  simp only [Bool.and_eq_true, Bool.not_eq_true', decide_eq_true_eq, decide_eq_false_iff_not] at h
  omega

omit [DecidableEq ι] in
theorem sysFcntl_good {n : ℕ} {cmd : Cmd} {arg : BitVec 32} (hc : s.Counted) (hb : t.Bits)
    (ht : s.task p = some t) :
    Good s p t (.start t.filp (some (.fcntl n cmd arg))) ((sysFcntl s p t n cmd arg).1,
      if cmd = .dupfd then descriptor (sysFcntl s p t n cmd arg).2
      else status (sysFcntl s p t n cmd arg).2) := by
  have hne : ¬ ((∃ flag mode, Call.fcntl n cmd arg = .open flag mode) ∨ Call.fcntl n cmd arg = .pipe) := by
    rintro (⟨_, _, h⟩ | h) <;> cases h
  have hsame : ∀ r, Good s p t (.start t.filp (some (.fcntl n cmd arg))) (s, status r) := fun r =>
    .same ht rfl (fun _ => .inl rfl) hc hb (.status rfl hne) trivial
  have hbit : ∀ {t'} r, t'.filp = t.filp → t'.Bits →
      Good s p t (.start t.filp (some (.fcntl n cmd arg))) (s.setTask p t', status r) := fun r hfilp hb =>
    .setTask rfl (fun _ => .inl rfl) (hc.setTask ht hfilp) hb (.status rfl hne) trivial
  unfold sysFcntl
  split
  · split_ifs
    · exact .same ht rfl (fun _ => .inl rfl) hc hb (.error rfl hne) trivial
    · exact hsame _
  · next fd f hfd =>
    cases cmd with
    | dupfd => exact dupfd_good hc hb ht rfl hne fun k hk => .inl hk
    | getfd => exact hsame _
    | setfd =>
      have hcmd : Cmd.setfd ≠ Cmd.dupfd := by decide
      rw [if_neg hcmd]
      dsimp only
      split_ifs
      · refine hbit _ rfl fun k hk => ?_
        rcases getLsbD_setBit hk with hk | rfl
        · exact hb k hk
        · exact ⟨fd, rfl, (file_eq_some hfd).trans_ne (Option.some_ne_none f)⟩
      · exact hbit _ rfl hb.clear
    | getfl => exact hsame _
    | setfl =>
      obtain ⟨x, hx⟩ : ∃ x : File ι → File ι, x = fun y => { y with
          fFlags := y.fFlags &&& ~~~(oAppend ||| oNonblock) |||
            arg.setWidth 16 &&& (oAppend ||| oNonblock) } := ⟨_, rfl⟩
      have hkept : (x (s.file f)).fCount = (s.file f).fCount := by rw [hx]
      show Good s p t _ (s.modifyFile f (fun y => { y with
          fFlags := y.fFlags &&& ~~~(oAppend ||| oNonblock) |||
            arg.setWidth 16 &&& (oAppend ||| oNonblock) }), status (.ok 0))
      rw [← hx]
      refine .same ht rfl (fun g => .inl ?_) (hc.modifyFile hkept) hb (.status rfl hne) trivial
      rw [fCount_modifyFile]
      split_ifs with he
      · rw [he, hkept]
      · rfl
    | other => exact hsame _

/-! ## `pipe` -/

omit [DecidableEq ι] in
theorem State.Counted.of_count (h : s.Counted) (htask : s'.task = s.task)
    (hcount : ∀ f, (s'.file f).fCount = (s.file f).fCount) : s'.Counted := by
  intro f
  rw [hcount, h f]
  simp only [State.refs, htask]

omit [DecidableEq ι] in
theorem setTask_setTask (s : State ι) : (s.setTask p t₁).setTask p t' = s.setTask p t' := by
  unfold State.setTask
  rw [Function.update_idem]

section Two

variable {f₀ f₁ : FileNr} {fd₀ fd₁ : Fd}

section

omit [DecidableEq ι]

theorem task_self : (s.setTask p t₁).task p = some t₁ :=
  Function.update_self _ _ _

/-- Two descriptors get an entry each. -/
theorem State.Counted.gain_two (h : s.Counted) (ht : s.task p = some t) (hne : fd₀ ≠ fd₁)
    (hf : f₀ ≠ f₁) (hfd₀ : t.filp fd₀ = none) (hfd₁ : t.filp fd₁ = none)
    (hf₀ : (s.file f₀).fCount = 0) (hf₁ : (s.file f₁).fCount = 0) :
    (((s.setCount f₀ 1).setCount f₁ 1).setTask p
      ((t.setFilp fd₀ (some f₀)).setFilp fd₁ (some f₁))).Counted := by
  obtain ⟨u₁, hu₁⟩ : ∃ u, u = t.setFilp fd₀ (some f₀) := ⟨_, rfl⟩
  have hx₀ : ({ s.file f₀ with fCount := 1 } : File ι).fCount = (s.file f₀).fCount + 1 := by rw [hf₀]; rfl
  have h₁ : ((s.setCount f₀ 1).setTask p u₁).Counted :=
    hu₁ ▸ h.gain (u := t) (x := fun x => { x with fCount := 1 }) ht rfl hfd₀ hx₀
  have hcount : (((s.setCount f₀ 1).setTask p u₁).file f₁).fCount = 0 := by
    refine (fCount_setCount (s := s)).trans ?_
    rw [if_neg hf.symm, hf₁]
  have hx₁ : ({ ((s.setCount f₀ 1).setTask p u₁).file f₁ with fCount := 1 } : File ι).fCount =
      (((s.setCount f₀ 1).setTask p u₁).file f₁).fCount + 1 := by rw [hcount]; rfl
  have hfree : u₁.filp fd₁ = none := by rw [hu₁, Task.setFilp_of_ne _ _ hne.symm, hfd₁]
  have h₂ := h₁.gain (u := u₁) (x := fun x => { x with fCount := 1 }) task_self rfl hfree hx₁
  have heq : (((s.setCount f₀ 1).setTask p u₁).modifyFile f₁ fun x => { x with fCount := 1 }).setTask p
      (u₁.setFilp fd₁ (some f₁)) =
      ((s.setCount f₀ 1).setCount f₁ 1).setTask p (u₁.setFilp fd₁ (some f₁)) :=
    setTask_setTask ((s.setCount f₀ 1).setCount f₁ 1)
  rw [← hu₁, ← heq]
  exact h₂

/-- Two descriptors are freed. -/
theorem State.Counted.drop_two (h : s.Counted) (ht : s.task p = some t) (hne : fd₀ ≠ fd₁)
    (hf : f₀ ≠ f₁) (hfd₀ : t.filp fd₀ = some f₀) (hfd₁ : t.filp fd₁ = some f₁)
    (hf₀ : (s.file f₀).fCount = 1) (hf₁ : (s.file f₁).fCount = 1) :
    (((s.setCount f₀ 0).setCount f₁ 0).setTask p
      ((t.setFilp fd₀ none).setFilp fd₁ none)).Counted := by
  obtain ⟨u₁, hu₁⟩ : ∃ u, u = t.setFilp fd₀ none := ⟨_, rfl⟩
  have hx₀ : ({ s.file f₀ with fCount := 0 } : File ι).fCount + 1 = (s.file f₀).fCount := by
    rw [hf₀]
    rfl
  have h₁ : ((s.setCount f₀ 0).setTask p u₁).Counted :=
    hu₁ ▸ h.drop (u := t) (x := fun x => { x with fCount := 0 }) ht rfl hfd₀ hx₀
  have hcount : (((s.setCount f₀ 0).setTask p u₁).file f₁).fCount = 1 := by
    refine (fCount_setCount (s := s)).trans ?_
    rw [if_neg hf.symm, hf₁]
  have hx₁ : ({ ((s.setCount f₀ 0).setTask p u₁).file f₁ with fCount := 0 } : File ι).fCount + 1 =
      (((s.setCount f₀ 0).setTask p u₁).file f₁).fCount := by rw [hcount]; rfl
  have hopen : u₁.filp fd₁ = some f₁ := by rw [hu₁, Task.setFilp_of_ne _ _ hne.symm, hfd₁]
  have h₂ := h₁.drop (u := u₁) (x := fun x => { x with fCount := 0 }) task_self rfl hopen hx₁
  have heq : (((s.setCount f₀ 0).setTask p u₁).modifyFile f₁ fun x => { x with fCount := 0 }).setTask p
      (u₁.setFilp fd₁ none) =
      ((s.setCount f₀ 0).setCount f₁ 0).setTask p (u₁.setFilp fd₁ none) :=
    setTask_setTask ((s.setCount f₀ 0).setCount f₁ 0)
  rw [← hu₁, ← heq]
  exact h₂

theorem fCount_setCount_two {m n : BitVec 16} : (((s.setCount f₀ m).setCount f₁ n).file g).fCount =
    if g = f₁ then n else if g = f₀ then m else (s.file g).fCount := by
  rw [fCount_setCount]
  split_ifs with h₁ h₀
  · rfl
  · rw [fCount_setCount, if_pos h₀]
  · rw [fCount_setCount, if_neg h₀]

theorem freeFiles_spec : s.freeFiles.Nodup ∧ ∀ f ∈ s.freeFiles, (s.file f).fCount = 0 := by
  unfold State.freeFiles
  refine ⟨(((List.nodup_finRange 64).filter _).sublist (List.take_sublist _ _)), fun f hf => ?_⟩
  exact beq_iff_eq.1 (List.mem_filter.1 (List.mem_of_mem_take hf)).2

end

theorem freeFds_spec : t.freeFds.Nodup ∧ ∀ fd ∈ t.freeFds, t.filp fd = none := by
  unfold Task.freeFds
  refine ⟨(((List.nodup_finRange 20).filter _).sublist (List.take_sublist _ _)), fun fd hfd => ?_⟩
  exact Option.isNone_iff_eq_none.1 (List.mem_filter.1 (List.mem_of_mem_take hfd)).2

omit [DecidableEq ι] in
theorem pipeClaim_good (hc : s.Counted) (hb : t.Bits) (ht : s.task p = some t) :
    Good s p t (.start t.filp (some .pipe)) (pipeClaim s p t) := by
  -- A `pipe` that fails has only written counts that are back at zero.
  have hfail : ∀ {s₁ : State ι}, s₁.task = s.task → (∀ f, (s₁.file f).fCount = (s.file f).fCount) →
      Good s p t (.start t.filp (some .pipe)) (s₁, .ret (.error .eperm)) := by
    intro s₁ htask hcount
    refine .same ht htask (fun f => .inl (hcount f)) (hc.of_count htask hcount) hb
      (.undone rfl fun f => ?_) trivial
    rw [hcount]
    show (0 : ℤ) + _ = 0
    omega
  unfold pipeClaim
  split
  · next f₀ f₁ hfiles =>
    obtain ⟨hnodup, hzero⟩ := freeFiles_spec (s := s)
    rw [hfiles] at hnodup hzero
    have hf₀ := hzero f₀ List.mem_cons_self
    have hf₁ := hzero f₁ (List.mem_cons_of_mem _ List.mem_cons_self)
    have hf : f₀ ≠ f₁ := fun h => (List.nodup_cons.1 hnodup).1 (h ▸ List.mem_cons_self)
    have hback : ∀ f, (((((s.setCount f₀ 1).setCount f₁ 1).setCount f₀ 0).setCount f₁ 0).file f).fCount =
        (s.file f).fCount := by
      intro f
      rw [fCount_setCount_two, fCount_setCount_two]
      split_ifs with h₁ h₀
      · rw [h₁, hf₁]
      · rw [h₀, hf₀]
      · rfl
    dsimp only
    split
    · next fd₀ fd₁ hfds =>
      obtain ⟨hnodup, hnone⟩ := freeFds_spec (t := t)
      rw [hfds] at hnodup hnone
      have hfd₀ := hnone fd₀ List.mem_cons_self
      have hfd₁ := hnone fd₁ (List.mem_cons_of_mem _ List.mem_cons_self)
      have hne : fd₀ ≠ fd₁ := fun h => (List.nodup_cons.1 hnodup).1 (h ▸ List.mem_cons_self)
      refine .setTask rfl (fun g => ?_) (hc.gain_two ht hne hf hfd₀ hfd₁ hf₀ hf₁) hb.open.open .goto
        ⟨hf, hne, hfd₀, hfd₁, rfl, ?_, ?_, fun g => ?_, hb.free hfd₀, hb.free hfd₁⟩
      · rw [fCount_setCount_two]
        split_ifs with h₁ h₀
        · exact .inr (.inl (h₁ ▸ hf₁))
        · exact .inr (.inl (h₀ ▸ hf₀))
        · exact .inl rfl
      · refine fCount_setCount_two.trans ?_
        rw [if_neg hf, if_pos rfl]
      · refine fCount_setCount_two.trans ?_
        rw [if_pos rfl]
      · have hg : (((s.setCount f₀ 1).setCount f₁ 1).file g).fCount = _ := fCount_setCount_two
        show (0 : ℤ) + ((((s.setCount f₀ 1).setCount f₁ 1).file g).fCount.toNat -
          (s.file g).fCount.toNat) = _
        rw [hg]
        by_cases h₁ : g = f₁
        · rw [if_pos h₁, if_pos (.inr h₁), h₁, hf₁]
          rfl
        · by_cases h₀ : g = f₀
          · rw [if_neg h₁, if_pos h₀, if_pos (.inl h₀), h₀, hf₀]
            rfl
          · rw [if_neg h₁, if_neg h₀, if_neg (not_or.2 ⟨h₀, h₁⟩)]
            omega
    · next fd₀ hfds =>
      have hfd₀ := (freeFds_spec (t := t)).2 fd₀ (hfds ▸ List.mem_cons_self)
      have hfilp : ((t.setFilp fd₀ (some f₀)).setFilp fd₀ none).filp = t.filp := by
        show Function.update (Function.update t.filp fd₀ (some f₀)) fd₀ none = t.filp
        rw [Function.update_idem, ← hfd₀, Function.update_eq_self]
      have hcounted : ((((s.setCount f₀ 1).setCount f₁ 1).setCount f₀ 0).setCount f₁ 0).Counted :=
        hc.of_count rfl hback
      refine .setTask rfl (fun g => .inl (hback g)) (hcounted.setTask ht hfilp) ?_
        (.undone hfilp fun g => ?_) trivial
      · intro k hk
        rw [hfilp]
        exact hb k hk
      · have hg := hback g
        show (0 : ℤ) +
          ((((((s.setCount f₀ 1).setCount f₁ 1).setCount f₀ 0).setCount f₁ 0).file g).fCount.toNat -
            (s.file g).fCount.toNat) = 0
        rw [hg]
        omega
    · exact hfail rfl hback
  · next f₀ hfiles =>
    have hf₀ := (freeFiles_spec (s := s)).2 f₀ (hfiles ▸ List.mem_cons_self)
    refine hfail rfl fun f => ?_
    rw [fCount_setCount, fCount_setCount]
    split_ifs with h
    · rw [h, hf₀]
    · rfl
  · exact hfail rfl fun _ => rfl

omit [DecidableEq ι] in
theorem pipeEnd_good {i : Option ι} (hc : s.Counted) (hb : t.Bits) (ht : s.task p = some t)
    (h : u.Claims s t (.piping f₀ f₁ fd₀ fd₁)) :
    Good s p t u (pipeEnd s p t f₀ f₁ fd₀ fd₁ i) := by
  obtain ⟨hf, hne, hbefore₀, hbefore₁, hfilp, hf₀, hf₁, hmoved, hbit₀, hbit₁⟩ := h
  have hfd₀ : t.filp fd₀ = some f₀ := by rw [hfilp, Function.update_of_ne hne, Function.update_self]
  have hfd₁ : t.filp fd₁ = some f₁ := by rw [hfilp, Function.update_self]
  cases i with
  | none =>
    refine .setTask rfl (fun g => ?_) (hc.drop_two ht hne hf hfd₀ hfd₁ hf₀ hf₁)
      ((hb.close hbit₀).close hbit₁) (.undone ?_ fun g => ?_) trivial
    · rw [fCount_setCount_two]
      split_ifs with h₁ h₀
      · exact .inr (.inr ⟨fd₁, h₁ ▸ hfd₁⟩)
      · exact .inr (.inr ⟨fd₀, h₀ ▸ hfd₀⟩)
      · exact .inl rfl
    · show Function.update (Function.update t.filp fd₀ none) fd₁ none = u.before
      funext fd
      rw [hfilp]
      by_cases h₁ : fd = fd₁
      · rw [h₁, Function.update_self, hbefore₁]
      · rw [Function.update_of_ne h₁]
        by_cases h₀ : fd = fd₀
        · rw [h₀, Function.update_self, hbefore₀]
        · rw [Function.update_of_ne h₀, Function.update_of_ne h₁, Function.update_of_ne h₀]
    · have hg : (((s.setCount f₀ 0).setCount f₁ 0).file g).fCount = _ := fCount_setCount_two
      show u.moved g + ((((s.setCount f₀ 0).setCount f₁ 0).file g).fCount.toNat -
        (s.file g).fCount.toNat : ℤ) = 0
      rw [hg, hmoved]
      by_cases h₁ : g = f₁
      · rw [if_pos h₁, if_pos (.inr h₁), h₁, hf₁]
        rfl
      · by_cases h₀ : g = f₀
        · rw [if_neg h₁, if_pos h₀, if_pos (.inl h₀), h₀, hf₀]
          rfl
        · rw [if_neg h₁, if_neg h₀, if_neg (not_or.2 ⟨h₀, h₁⟩)]
          omega
  | some i =>
    have hcount : ∀ g, (((s.modifyFile f₀ fun x => { x with
        fMode := 1, fInode := some i, fPos := 0 }).modifyFile f₁ fun x => { x with
        fMode := 2, fInode := some i, fPos := 0 }).file g).fCount = (s.file g).fCount := by
      intro g
      rw [fCount_modifyFile]
      split_ifs with h₁
      · rw [h₁, fCount_modifyFile, if_neg hf.symm]
      · rw [fCount_modifyFile]
        split_ifs with h₀
        · rw [h₀]
        · rfl
    refine .same ht rfl (fun g => .inl (hcount g)) (hc.of_count rfl hcount) hb ⟨fun _ _ _ h => ?_,
      fun c fds _ h k hk => ?_⟩ trivial
    · cases h
    · cases h
      rcases List.mem_cons.1 hk with rfl | hk
      · exact ⟨fd₀, rfl, hfd₀.trans_ne (Option.some_ne_none f₀), hbit₀, .inl hbefore₀⟩
      · rw [List.mem_singleton.1 hk]
        exact ⟨fd₁, rfl, hfd₁.trans_ne (Option.some_ne_none f₁), hbit₁, .inl hbefore₁⟩

end Two

/-! ## `execve` and `exit` -/

omit [DecidableEq ι] in
theorem execClose_good {n : ℕ} (hc : s.Counted) (hb : t.Bits) (ht : s.task p = some t) :
    Good s p t u (execClose s p t n) := by
  unfold execClose
  split_ifs
  · exact sysClose_good hc hb ht (fun _ => .goto) fun _ _ _ => trivial
  · exact .same ht rfl (fun _ => .inl rfl) hc hb .goto trivial
  · refine .setTask rfl (fun _ => .inl rfl) (hc.setTask ht rfl) (fun k hk => ?_) .ok_nil trivial
    have hk : (0#32).getLsbD k = true := hk
    rw [BitVec.getLsbD_zero] at hk
    cases hk

omit [DecidableEq ι] in
theorem exitClose_good {n : ℕ} (hc : s.Counted) (hb : t.Bits) (ht : s.task p = some t)
    (h : ∀ fd : Fd, fd.val < n → t.filp fd = none) : Good s p t u (exitClose s p t n) := by
  unfold exitClose
  split_ifs with hn hopen
  · refine sysClose_good hc hb ht (fun _ => .goto) fun t' hother hnone fd hfd => ?_
    rcases Nat.lt_succ_iff_lt_or_eq.1 hfd with hlt | heq
    · rw [hother fd (by omega)]
      exact h fd hlt
    · exact hnone fd heq
  · refine .same ht rfl (fun _ => .inl rfl) hc hb .goto fun fd hfd => ?_
    rcases Nat.lt_succ_iff_lt_or_eq.1 hfd with hlt | heq
    · exact h fd hlt
    · have hfile : t.file n = (t.filp fd).map fun f => (fd, f) := by
        unfold Task.file
        rw [dif_pos hn]
        obtain rfl : fd = ⟨n, hn⟩ := Fin.ext heq
        rfl
      rw [hfile, Option.isSome_map, Bool.not_eq_true, Option.isSome_eq_false_iff,
        Option.isNone_iff_eq_none] at hopen
      exact hopen
  · -- The task has no descriptor left.
    have hgone : ({ s with task := Function.update s.task p none } : State ι).task p = none :=
      Function.update_self _ _ _
    refine ⟨⟨fun q hq => Function.update_of_ne hq _ _, fun _ => .inl rfl, fun f => ?_⟩, ?_, ?_, ?_⟩
    · have hsum := Count.sum_update s.task (taskRefs f) p none
      have hzero : taskRefs f (some t) = 0 := by
        refine Count.card_filter_eq_zero_iff.2 fun fd _ hfd => ?_
        rw [h fd (by omega)] at hfd
        cases hfd
      have hnone : taskRefs f none = 0 := rfl
      rw [ht, hzero, hnone] at hsum
      have hsame : ∑ q, taskRefs f (Function.update s.task p none q) = ∑ q, taskRefs f (s.task q) := by
        omega
      show (s.file f).fCount = BitVec.ofNat 16 (∑ q, taskRefs f (Function.update s.task p none q))
      rw [hsame]
      exact hc f
    all_goals
      intro t' ht'
      cases hgone.symm.trans ht'

/-! ## Runs -/

omit [DecidableEq ι] in
/-- The child has the descriptors of its father, and has made no call. -/
theorem Tables.Inv.fork {r : Tables ι} (h : r.Inv) (ht : r.task p = some t) {nr : Fin 64}
    (hnr : r.task nr = none) (c : Call) :
    ({ r with proc := Function.update r.proc nr (.start t.filp none) }.settle p (.start t.filp (some c))
      (copyProcess r.toState t nr, .ret (.ok []))).Inv := by
  have hp : p ≠ nr := by
    rintro rfl
    rw [hnr] at ht
    cases ht
  have htask : ∀ q t', Function.update r.task nr (some { t with leader := false }) q = some t' →
      (q = nr ∧ t' = { t with leader := false }) ∨ q ≠ nr ∧ r.task q = some t' :=
    fun q t' ht' => Table.update_some_cases ht'
  obtain ⟨r', hr'⟩ : ∃ r', r' = { r with proc := Function.update r.proc nr (.start t.filp none) }.settle
      p (.start t.filp (some c)) (copyProcess r.toState t nr, .ret (.ok [])) := ⟨_, rfl⟩
  have hproc : ∀ q, r'.proc q = if q = p then
      (Proc.start t.filp (some c)).after r.toState (copyProcess r.toState t nr) (.ret (.ok []))
      else if q = nr then .start t.filp none else r.proc q := by
    intro q
    rw [hr']
    show Function.update (Function.update r.proc nr _) p _ q = _
    by_cases hqp : q = p
    · rw [if_pos hqp, hqp, Function.update_self]
    · rw [if_neg hqp, Function.update_of_ne hqp]
      by_cases hq : q = nr
      · rw [if_pos hq, hq, Function.update_self]
      · rw [if_neg hq, Function.update_of_ne hq]
  have hstate : r'.toState = copyProcess r.toState t nr := by rw [hr']; rfl
  rw [← hr']
  refine ⟨?_, fun q t' ht' => ?_, fun q t' ht' => ?_, fun q t' ht' => ?_⟩
  · rw [hstate]
    exact h.counted.copyProcess hnr
  · rw [hstate] at ht'
    rcases htask q t' ht' with ⟨-, rfl⟩ | ⟨-, hq⟩
    · exact h.bits p t ht
    · exact h.bits q t' hq
  · rw [hproc]
    split_ifs with hqp hq
    · exact .ok_nil
    · refine ⟨fun _ _ h => ?_, fun _ _ h => ?_⟩ <;> cases h
    · rw [hstate] at ht'
      exact h.returned q t' ((htask q t' ht').resolve_left fun h => hq h.1).2
  · rw [hproc]
    split_ifs with hqp hq
    · trivial
    · trivial
    · rw [hstate] at ht' ⊢
      have hold := ((htask q t' ht').resolve_left fun h => hq h.1).2
      refine (h.claims q t' hold).keep fun f k hk hf => ?_
      have hrefs : taskRefs f (some t) = 0 := by
        refine Count.card_filter_eq_zero_iff.2 fun fd _ hfd => hqp ?_
        exact (h.counted.unique hf ht hfd hold hk).1.symm
      show (forkFiles t r.file f).fCount = 1
      rw [forkFiles_apply, hrefs]
      exact (BitVec.add_zero _).trans hf

theorem Tables.Inv.next {r r' : Tables ι} {e : TablesEvent ι} (hI : r.Inv) (h : r.next e = some r') :
    r'.Inv := by
  cases e with
  | call p c =>
    obtain ⟨t, ht, h⟩ := Option.bind_eq_some_iff.1 h
    have hc := hI.counted
    have hb := hI.bits p t ht
    split_ifs at h with hok
    obtain rfl := Option.some.inj h
    cases c with
    | «open» flag mode => exact hI.settle ht (openClaim_good hc hb ht)
    | close n =>
      exact hI.settle ht (sysClose_good hc hb ht (fun _ => .status rfl (by simp)) fun _ _ _ => trivial)
    | dup n => exact hI.settle ht (dupfd_good hc hb ht rfl (by simp) fun k hk => .inl hk)
    | dup2 n m =>
      refine hI.settle ht (sysClose_good hc hb ht (fun _ => .goto) fun t' hother _ => ⟨rfl, ?_⟩)
      exact hother
    | fcntl n cmd arg => exact hI.settle ht (sysFcntl_good hc hb ht)
    | pipe => exact hI.settle ht (pipeClaim_good hc hb ht)
    | fork nr ok =>
      cases ok with
      | true => exact hI.fork ht (hok.2 nr true rfl) _
      | false =>
        exact hI.settle ht (.same ht rfl (fun _ => .inl rfl) hc hb (.error rfl (by simp)) trivial)
    | execve ok =>
      cases ok with
      | true => exact hI.settle ht (.same ht rfl (fun _ => .inl rfl) hc hb .goto trivial)
      | false =>
        exact hI.settle ht (.same ht rfl (fun _ => .inl rfl) hc hb (.error rfl (by simp)) trivial)
  | resume p w =>
    obtain ⟨t, ht, h⟩ := Option.bind_eq_some_iff.1 h
    obtain ⟨out, hout, rfl⟩ := Option.map_eq_some_iff.1 h
    have hc := hI.counted
    have hb := hI.bits p t ht
    have hclaims := hI.claims p t ht
    refine hI.settle ht ?_
    unfold State.resume at hout
    split at hout
    · cases hout
    · next fd f flag mode hplace =>
      rw [hplace] at hclaims
      exact Option.some.inj hout ▸ openEnd_good hc hb ht hclaims
    · next f₀ f₁ fd₀ fd₁ hplace =>
      rw [hplace] at hclaims
      exact Option.some.inj hout ▸ pipeEnd_good hc hb ht hclaims
    · next n m hplace =>
      rw [hplace] at hclaims
      obtain ⟨hcall, hfilp⟩ := hclaims
      refine Option.some.inj hout ▸ dupfd_good hc hb ht hcall (by simp) fun k hk => ?_
      by_cases hkm : k.val = m
      · exact .inr ⟨n, hkm ▸ hcall⟩
      · exact .inl ((hfilp k hkm).symm.trans hk)
    · exact Option.some.inj hout ▸ execClose_good hc hb ht
    · next n hplace =>
      rw [hplace] at hclaims
      exact Option.some.inj hout ▸ exitClose_good hc hb ht hclaims
  | exit p =>
    obtain ⟨t, ht, rfl⟩ := Option.map_eq_some_iff.1 h
    exact hI.settle ht (.same ht rfl (fun _ => .inl rfl) hI.counted (hI.bits p t ht) .goto
      fun fd hfd => absurd hfd (Nat.not_lt_zero _))

end Steps

/-- In every state of every run. -/
theorem descriptors_kept {r : Tables ι} (h : (descriptors ι).Reachable r) : Kept r := by
  have hI : r.Inv := by
    refine h.invariant (fun r hr => ?_) fun r e r' hI hs => hI.next hs
    obtain ⟨htask, hcount⟩ := hr
    refine ⟨fun f => ?_, fun p t ht k hk => ?_, fun p t ht => ?_, fun p t ht => ?_⟩
    · have hclosed : ¬ r.IsOpen f := by
        rintro ⟨p, t, fd, ht, hfd⟩
        rw [(htask p t ht).2.1 fd] at hfd
        cases hfd
      rw [State.isOpen_iff, not_not] at hclosed
      rw [hcount, hclosed]
      rfl
    · rw [(htask p t ht).1] at hk
      have hk : (0#32).getLsbD k = true := hk
      rw [BitVec.getLsbD_zero] at hk
      cases hk
    · rw [(htask p t ht).2.2]
      refine ⟨fun _ _ h => ?_, fun _ _ h => ?_⟩ <;> cases h
    · rw [(htask p t ht).2.2]
      trivial
  exact ⟨fun p t k ht hk => hI.bits p t ht k hk,
    fun p t c e ht hc hr => (hI.returned p t ht).failed c e hc hr,
    fun p t c fds ht hc hr => (hI.returned p t ht).returned c fds hc hr⟩

/-- One task, and one regular file that everybody may read. -/
def oneTask : Tables Unit where
  task p := if p = 1 then some ⟨0, 0, 0, false, -1, 0, fun _ => none⟩ else none
  file _ := ⟨0, 0, 0, none, 0⟩
  inode _ := some ⟨0o100644, 0, 0, 1, 0x301, 0, false, ⟨0, fun _ => 0⟩⟩
  proc _ := .start (fun _ => none) none

/-- A file is opened, marked, and a `pipe` fails; `execve` closes the file of a child. -/
theorem descriptors_kept_child : ∃ r : Tables Unit, (r.task 1).bind (fun t => t.filp 0) = some 0 ∧
    (r.task 2).map (fun t => t.filp 0) = some none ∧ Kept r := by
  have hrun : (System.execWhen Tables.next (fun _ _ => True) oneTask
      ([.call 1 (.open 0 0), .resume 1 ⟨.found (some ()), none⟩, .call 1 (.fcntl 0 .setfd 1),
        .call 1 .pipe, .resume 1 ⟨.noDir, none⟩, .call 1 (.dup 0), .call 1 (.fork 2 true),
        .call 2 (.execve true)] ++ List.replicate 21 (.resume 2 ⟨.noDir, none⟩))).any
      (fun r => decide ((r.task 1).bind (fun t => t.filp 0) = some 0 ∧
        (r.task 2).map (fun t => t.filp 0) = some none)) = true := by
    decide +kernel
  obtain ⟨r, hr, hfiles⟩ := (Option.any_eq_true _ _).1 hrun
  obtain ⟨h1, h2⟩ := of_decide_eq_true hfiles
  refine ⟨r, h1, h2, descriptors_kept (.exec (fun _ _ _ h => h) (.init ⟨fun p t ht => ?_, fun _ => rfl⟩) hr)⟩
  have ht : (if p = 1 then some _ else none) = some t := ht
  split_ifs at ht
  obtain rfl := Option.some.inj ht
  exact ⟨rfl, fun _ => rfl, rfl⟩

end Linux011.Fs
