import Linux011.Fs.Descriptors

/-!
# `dup2`

`sys_dup2` closes `newfd` before it looks at `oldfd`. The references to the inodes, which `iput` takes
back, are a table of their own here.

1. `closeRefs`, `dup2`.
2. `Atomic`: what `dup2` should do. `dup2_atomic_iff`.
-/

namespace Linux011.Fs

variable {ι : Type*} [DecidableEq ι]

inductive Panic
  /-- `Close: file count is 0` -/
  | fileCount
  /-- `iput: trying to free free inode` -/
  | freeInode
  deriving DecidableEq

/-- `i_count` after `sys_close`: `iput` for the last descriptor of the file. -/
def closeRefs (s : State ι) (iCount : ι → ℕ) (t : Task) (fd : ℕ) : Except Panic (ι → ℕ) :=
  match t.file fd with
  | none => .ok iCount
  | some (_, f) =>
    if (s.file f).fCount = 0 then .error .fileCount
    else if (s.file f).fCount - 1 ≠ 0 then .ok iCount
    else match (s.file f).fInode with
      | none => .ok iCount
      | some i =>
        if iCount i = 0 then .error .freeInode
        else .ok (Function.update iCount i (iCount i - 1))

/-- `sys_dup2`, with the references to the inodes. -/
def dup2 (s : State ι) (iCount : ι → ℕ) (p : Fin 64) (t : Task) (oldfd newfd : ℕ) :
    Except Panic (State ι × (ι → ℕ) × Except Errno ℕ) :=
  match closeRefs s iCount t newfd with
  | .error e => .error e
  | .ok iCount => .ok ((sysDup2 s p t oldfd newfd).1, iCount, (sysDup2 s p t oldfd newfd).2)

/-! ## What `dup2` should do -/

/-- The inode whose reference is given back when the descriptor becomes one of `f`. -/
def released (s : State ι) (t : Task) (new : Fd) (f : FileNr) : Option ι :=
  (t.filp new).bind fun g => if g ≠ f ∧ (s.file g).fCount = 1 then (s.file g).fInode else none

def release (iCount : ι → ℕ) : Option ι → ι → ℕ
  | none => iCount
  | some i => Function.update iCount i (iCount i - 1)

/-- The descriptors of the task, and nothing else of the descriptor tables. -/
structure Sets (s s' : State ι) (p : Fin 64) (filp : Fd → Option FileNr) : Prop where
  filp : ∃ t', s'.task p = some t' ∧ t'.filp = filp
  others : ∀ q ≠ p, s'.task q = s.task q

inductive Atomic (s : State ι) (iCount : ι → ℕ) (p : Fin 64) (t : Task) (oldfd newfd : ℕ) :
    Except Panic (State ι × (ι → ℕ) × Except Errno ℕ) → Prop
  /-- Nothing has changed. -/
  | fails {s' : State ι} {e : Errno} : ¬(oldfd = newfd ∧ t.file oldfd ≠ none) → Sets s s' p t.filp →
      (∀ g, (s'.file g).fCount = (s.file g).fCount) →
      Atomic s iCount p t oldfd newfd (.ok (s', iCount, .error e))
  | same : oldfd = newfd → t.file oldfd ≠ none →
      Atomic s iCount p t oldfd newfd (.ok (s, iCount, .ok newfd))
  | dups {s' : State ι} {fd new : Fd} {f : FileNr} : oldfd ≠ newfd → t.file oldfd = some (fd, f) →
      new.val = newfd → Sets s s' p (Function.update t.filp new (some f)) →
      (∀ g, (s'.file g).fCount.toNat + (if t.filp new = some g then 1 else 0) =
        (s.file g).fCount.toNat + (if f = g then 1 else 0)) →
      Atomic s iCount p t oldfd newfd (.ok (s', release iCount (released s t new f), .ok newfd))

section Dup2

variable {s : State ι} {iCount : ι → ℕ} {p : Fin 64} {t : Task} {oldfd newfd : ℕ} {fd new : Fd}
  {f g : FileNr}

theorem file_eq_some_iff : t.file oldfd = some (fd, f) ↔ fd.val = oldfd ∧ t.filp fd = some f := by
  unfold Task.file
  constructor
  · intro h
    split at h
    · obtain ⟨f', hf, h⟩ := Option.map_eq_some_iff.1 h
      cases h
      exact ⟨rfl, hf⟩
    · cases h
  · rintro ⟨rfl, hf⟩
    rw [dif_pos fd.isLt, hf]
    rfl

/-- A free descriptor is the first one from itself on. -/
theorem freeFd_self (h : t.filp new = none) : t.freeFd new.val = some new := by
  unfold Task.freeFd
  rw [List.find?_eq_some_iff_getElem]
  refine ⟨by simp [h], new.val, by simp, by simp, fun j hj => ?_⟩
  simp only [List.getElem_finRange, Bool.not_eq_true', Bool.and_eq_false_iff, decide_eq_false_iff_not]
  exact .inl (by simpa using hj)

section

omit [DecidableEq ι]

/-- `dupfd` when the descriptor asked for is free. -/
theorem dupfd_free (hold : t.file oldfd = some (fd, f)) (hnew : t.filp new = none) :
    dupfd s p t oldfd new.val =
      ((s.modifyFile f fun x => { x with fCount := x.fCount + 1 }).setTask p
        ((t.clearCloseOnExec new).setFilp new (some f)), .ok new.val) := by
  unfold dupfd
  rw [hold]
  dsimp only
  rw [if_neg (by omega), freeFd_self hnew]

theorem dupfd_ebadf (hold : t.file oldfd = none) : dupfd s p t oldfd newfd = (s, .error .ebadf) := by
  unfold dupfd
  rw [hold]

theorem sysClose_closed (h : t.filp new = none) :
    sysClose s p t new.val = (s.setTask p (t.clearCloseOnExec new), .error .einval) := by
  unfold sysClose
  rw [dif_pos new.isLt]
  dsimp only
  rw [show (t.clearCloseOnExec new).filp new = none from h]

theorem sysClose_open (h : t.filp new = some g) :
    sysClose s p t new.val = ((s.modifyFile g fun x => { x with fCount := x.fCount - 1 }).setTask p
      ((t.clearCloseOnExec new).setFilp new none), .ok 0) := by
  unfold sysClose
  rw [dif_pos new.isLt]
  dsimp only
  rw [show (t.clearCloseOnExec new).filp new = some g from h]

theorem setTask_task {t' : Task} : (s.setTask p t').task p = some t' := Function.update_self ..

theorem setTask_of_ne {t' : Task} {q : Fin 64} (h : q ≠ p) : (s.setTask p t').task q = s.task q :=
  Function.update_of_ne h ..

theorem Sets.setTask {s' : State ι} {t' : Task} {filp : Fd → Option FileNr} (hfilp : t'.filp = filp)
    (h : ∀ q ≠ p, s'.task q = s.task q) : Sets s (s'.setTask p t') p filp :=
  ⟨⟨t', setTask_task, hfilp⟩, fun q hq => (setTask_of_ne hq).trans (h q hq)⟩

end

theorem Atomic.of_error {s' : State ι} {iCount' : ι → ℕ} {e : Errno}
    (h : Atomic s iCount p t oldfd newfd (.ok (s', iCount', .error e))) : Sets s s' p t.filp := by
  cases h with
  | fails _ hsets _ => exact hsets

theorem Atomic.dups_closed {s' : State ι} (hne : oldfd ≠ newfd) (hold : t.file oldfd = some (fd, f))
    (hval : new.val = newfd) (hfree : t.filp new = none)
    (hsets : Sets s s' p (Function.update t.filp new (some f)))
    (hcount : ∀ g, (s'.file g).fCount.toNat = (s.file g).fCount.toNat + (if f = g then 1 else 0)) :
    Atomic s iCount p t oldfd newfd (.ok (s', iCount, .ok newfd)) := by
  have hrel : release iCount (released s t new f) = iCount := by
    unfold released
    rw [hfree]
    rfl
  suffices hd : Atomic s iCount p t oldfd newfd
      (.ok (s', release iCount (released s t new f), .ok newfd)) by rwa [hrel] at hd
  refine .dups hne hold hval hsets fun g => ?_
  rw [hfree, if_neg (by simp), Nat.add_zero]
  exact hcount g

/-- The descriptor is closed, or is no descriptor. -/
theorem dup2_atomic_closed (hc : s.Counted) (hnew : t.file newfd = none) (ht : s.task p = some t) :
    Atomic s iCount p t oldfd newfd (dup2 s iCount p t oldfd newfd) := by
  have hne : t.file oldfd ≠ none → oldfd ≠ newfd := fun h he => h (he ▸ hnew)
  have hfails : ¬(oldfd = newfd ∧ t.file oldfd ≠ none) := fun h => hne h.2 h.1
  unfold dup2 closeRefs
  rw [hnew]
  dsimp only
  by_cases hlt : newfd < 20
  · obtain ⟨new, rfl⟩ : ∃ new : Fd, new.val = newfd := ⟨⟨newfd, hlt⟩, rfl⟩
    have hfree : t.filp new = none := by
      cases h : t.filp new with
      | none => rfl
      | some g => exact absurd (hnew.symm.trans (file_eq_some_iff.2 ⟨rfl, h⟩)) (by simp)
    unfold sysDup2
    rw [sysClose_closed hfree]
    dsimp only
    rw [setTask_task]
    dsimp only
    cases hold : t.file oldfd with
    | none =>
      rw [dupfd_ebadf (t := t.clearCloseOnExec new) hold]
      exact .fails hfails (.setTask rfl fun _ _ => rfl) fun _ => rfl
    | some x =>
      obtain ⟨fd, f⟩ := x
      rw [dupfd_free (t := t.clearCloseOnExec new) hold hfree]
      refine .dups_closed (hne (by rw [hold]; simp)) hold rfl hfree (.setTask ?_ fun q hq => ?_)
        fun g => ?_
      · rfl
      · exact setTask_of_ne hq
      · have hg := fCount_modifyFile (s := s.setTask p (t.clearCloseOnExec new)) (f := f) (g := g)
          (x := fun x => { x with fCount := x.fCount + 1 })
        refine (congrArg BitVec.toNat hg).trans ?_
        by_cases hg : g = f
        · have hle := hc.toNat_le f
          rw [if_pos hg, if_pos hg.symm, hg]
          change ((s.file f).fCount + 1).toNat = _
          bv_omega
        · rw [if_neg hg, if_neg (Ne.symm hg)]
          rfl
  · have hclose : sysClose s p t newfd = (s, .error .einval) := by
      unfold sysClose
      rw [dif_neg hlt]
    unfold sysDup2
    rw [hclose]
    dsimp only
    rw [ht]
    dsimp only
    unfold dupfd
    have hsame : Sets s s p t.filp := ⟨⟨t, ht, rfl⟩, fun _ _ => rfl⟩
    cases hold : t.file oldfd with
    | none => exact .fails hfails hsame fun _ => rfl
    | some x =>
      obtain ⟨fd, f⟩ := x
      dsimp only
      rw [if_pos (by omega)]
      exact .fails hfails hsame fun _ => rfl

/-- What the tables promise: the counts of the files are those of the descriptors, and an open file has
a reference to its inode. -/
structure Held (s : State ι) (iCount : ι → ℕ) : Prop where
  counted : s.Counted
  held : ∀ f i, (s.file f).fCount ≠ 0 → (s.file f).fInode = some i → iCount i ≠ 0

/-- An open descriptor is closed first. -/
theorem closeRefs_open (hh : Held s iCount) (ht : s.task p = some t) (hg : t.filp new = some g) :
    closeRefs s iCount t new.val = .ok (release iCount
      (if (s.file g).fCount = 1 then (s.file g).fInode else none)) := by
  have hpos := hh.counted.ne_zero ⟨p, t, new, ht, hg⟩
  unfold closeRefs
  rw [file_eq_some_iff.2 ⟨rfl, hg⟩]
  dsimp only
  rw [if_neg hpos]
  by_cases hone : (s.file g).fCount = 1
  · rw [if_neg (by rw [hone]; decide), if_pos hone]
    cases hi : (s.file g).fInode with
    | none => rfl
    | some i =>
      dsimp only
      rw [if_neg (hh.held g i hpos hi)]
      rfl
  · have hone' : (s.file g).fCount - 1 ≠ 0 := by bv_omega
    rw [if_pos hone', if_neg hone]
    rfl

omit [DecidableEq ι] in
/-- The counts after `sys_close` and `dupfd`. -/
theorem count_moved (hc : s.Counted) (hpos : (s.file g).fCount ≠ 0) (k : FileNr) :
    (((s.modifyFile g fun x => { x with fCount := x.fCount - 1 }).modifyFile f fun x =>
        { x with fCount := x.fCount + 1 }).file k).fCount.toNat + (if g = k then 1 else 0) =
      (s.file k).fCount.toNat + (if f = k then 1 else 0) := by
  have hle := hc.toNat_le k
  rw [fCount_modifyFile]
  dsimp only
  rw [fCount_modifyFile, fCount_modifyFile]
  by_cases hkf : k = f <;> by_cases hkg : k = g
  · subst hkf
    subst hkg
    simp only [if_true, BitVec.sub_add_cancel]
  · subst hkf
    simp only [hkg, Ne.symm hkg, if_true, if_false]
    bv_omega
  · subst hkg
    simp only [hkf, Ne.symm hkf, if_true, if_false]
    bv_omega
  · simp only [hkf, hkg, Ne.symm hkf, Ne.symm hkg, if_false]

/-- When `dup2` either does all or nothing. -/
theorem dup2_atomic_iff (hh : Held s iCount) (ht : s.task p = some t) :
    Atomic s iCount p t oldfd newfd (dup2 s iCount p t oldfd newfd) ↔
      t.file newfd = none ∨ t.file oldfd ≠ none ∧ oldfd ≠ newfd := by
  cases hnew : t.file newfd with
  | none => exact ⟨fun _ => .inl rfl, fun _ => dup2_atomic_closed hh.counted hnew ht⟩
  | some x =>
    obtain ⟨new, g⟩ := x
    obtain ⟨rfl, hg⟩ := file_eq_some_iff.1 hnew
    -- after `sys_close`
    obtain ⟨t₁, ht₁⟩ : ∃ t₁, t₁ = (t.clearCloseOnExec new).setFilp new none := ⟨_, rfl⟩
    have hfilp₁ : t₁.filp = Function.update t.filp new none := ht₁ ▸ rfl
    have hfree₁ : t₁.filp new = none := by
      rw [hfilp₁]
      exact Function.update_self ..
    unfold dup2 sysDup2
    rw [closeRefs_open hh ht hg, sysClose_open hg, ← ht₁]
    dsimp only
    rw [setTask_task]
    dsimp only
    by_cases hok : t.file oldfd ≠ none ∧ oldfd ≠ new.val
    · refine ⟨fun _ => .inr hok, fun _ => ?_⟩
      obtain ⟨⟨fd, f⟩, hold⟩ := Option.ne_none_iff_exists'.1 hok.1
      obtain ⟨hfd, hf⟩ := file_eq_some_iff.1 hold
      have hne : fd ≠ new := fun h => hok.2 (hfd ▸ congrArg Fin.val h)
      have hold₁ : t₁.file oldfd = some (fd, f) := by
        refine file_eq_some_iff.2 ⟨hfd, ?_⟩
        rw [hfilp₁, Function.update_of_ne hne]
        exact hf
      rw [dupfd_free hold₁ hfree₁]
      have hrel : (if (s.file g).fCount = 1 then (s.file g).fInode else none) = released s t new f := by
        unfold released
        rw [hg, Option.bind_some]
        by_cases hone : (s.file g).fCount = 1
        · have hgf : g ≠ f := by
            rintro rfl
            exact hne (hh.counted.unique hone ht hf ht hg).2
          rw [if_pos hone, if_pos ⟨hgf, hone⟩]
        · rw [if_neg hone, if_neg fun h => hone h.2]
      rw [hrel]
      refine .dups hok.2 hold rfl (.setTask ?_ fun q hq => ?_) fun k => ?_
      · change Function.update t₁.filp new (some f) = _
        rw [hfilp₁, Function.update_idem]
      · exact setTask_of_ne hq
      · rw [hg]
        simp only [Option.some_inj]
        exact count_moved hh.counted (hh.counted.ne_zero ⟨p, t, new, ht, hg⟩) k
    · refine ⟨fun h => ?_, fun h => absurd h (by simpa using hok)⟩
      have hold₁ : t₁.file oldfd = none := by
        cases h₁ : t₁.file oldfd with
        | none => rfl
        | some y =>
          obtain ⟨fd, f⟩ := y
          obtain ⟨hfd, hf⟩ := file_eq_some_iff.1 h₁
          have hne : fd ≠ new := fun h0 => by
            rw [h0, hfree₁] at hf
            cases hf
          rw [hfilp₁, Function.update_of_ne hne] at hf
          refine absurd ⟨?_, fun h0 => hne (Fin.ext (hfd.trans h0))⟩ hok
          rw [file_eq_some_iff.2 ⟨hfd, hf⟩]
          exact Option.some_ne_none _
      rw [dupfd_ebadf hold₁] at h
      -- the descriptor is gone
      obtain ⟨t', ht', hfilp⟩ := h.of_error.filp
      rw [setTask_task] at ht'
      cases ht'
      rw [hfilp, hg] at hfree₁
      cases hfree₁

end Dup2

/-- Descriptor 0 is open, and no other. -/
def oneOpen : State Unit where
  task p := if p = 1 then some ⟨0, 0, 0, false, -1, 0, fun fd => if fd = 0 then some 0 else none⟩ else none
  file f := ⟨0, 0, if f = 0 then 1 else 0, if f = 0 then some () else none, 0⟩
  inode _ := none

theorem oneOpen_held : Held oneOpen fun _ => 1 where
  counted := by
    unfold State.Counted
    decide +kernel
  held _ _ _ _ := by decide

theorem dup2_atomic_one : ∃ t, oneOpen.task 1 = some t ∧
    (Atomic oneOpen (fun _ => 1) 1 t 0 5 (dup2 oneOpen (fun _ => 1) 1 t 0 5) ↔
      t.file 5 = none ∨ t.file 0 ≠ none ∧ 0 ≠ 5) :=
  ⟨_, rfl, dup2_atomic_iff oneOpen_held rfl⟩

def returnsError : Except Panic (State Unit × (Unit → ℕ) × Except Errno ℕ) → Bool
  | .ok (_, _, .error _) => true
  | _ => false

/-- `dup2(0, 0)` closes the descriptor. -/
theorem dup2_closes : ¬∀ (s : State Unit) (iCount : Unit → ℕ) (p : Fin 64) (t : Task) (oldfd newfd : ℕ),
    Held s iCount → s.task p = some t →
      Atomic s iCount p t oldfd newfd (dup2 s iCount p t oldfd newfd) := by
  intro h
  obtain ⟨t, ht, hfile⟩ : ∃ t, oneOpen.task 1 = some t ∧ t.file 0 = some (0, 0) := ⟨_, rfl, rfl⟩
  have ha := h oneOpen (fun _ => 1) 1 t 0 0 oneOpen_held ht
  obtain ⟨r, hr⟩ : ∃ r, r = dup2 oneOpen (fun _ => 1) 1 t 0 0 := ⟨_, rfl⟩
  rw [← hr] at ha
  cases ht
  have herr : returnsError r = true := by
    rw [hr]
    decide +kernel
  cases ha with
  | fails hne => exact hne ⟨rfl, by rw [hfile]; exact Option.some_ne_none _⟩
  | same => cases herr
  | dups => cases herr

end Linux011.Fs
