import Linux011.Mm.Fault
import Linux011.Mm.Process

/-!
# The accounting over whole runs

1. `own s f`: the references to frame `f` that the kernel holds, as a task structure, as the buffer
   of a pipe, or while it is filled from disk.
2. `Inv lo s`: memory is accounted for with these owners, page tables belong to processes that run,
   and the entry a page is being loaded for is still absent.
3. One lemma for each operation; `frames_accounted` for all runs.
-/

namespace Linux011.Mm

open Linux011.Count State

/-- The slots 1, …, 63 of `task[]`. -/
@[irreducible] def slots : Finset ℕ := Finset.Ico 1 64

/-- The frame of a task structure. -/
def pageAt (t : Option Task) : Option ℕ := t.map Task.page

/-- The frame a task is waiting for. -/
def loadAt (t : Option Task) : Option ℕ := (t.bind Task.loading).map Prod.fst

/-- The references to `f` that the kernel holds. -/
def own (s : State) (f : ℕ) : ℕ :=
  (slots.filter fun nr => pageAt (s.task nr) = some f).card +
    (slots.filter fun nr => loadAt (s.task nr) = some f).card + s.pipes.count f

/-- What the memory of a state means. -/
def spaceOf (s : State) : Space := ⟨own s, fun d => present (pde s.mem d), view s.mem⟩

/-- A task that may have page tables. -/
def Alive (t : Task) (k : ℕ) : Prop := t.zombie = false ∧ k < dirCount t.dataLimit

/-- The invariant of the system. -/
structure Inv (lo : ℕ) (s : State) : Prop where
  mem : MemInv lo s.mem (own s)
  table : ∀ d ∈ userDirs, present (pde s.mem d) = true →
    ∃ t, s.task (d / 16) = some t ∧ Alive t (d % 16)
  loading : ∀ nr ∈ slots, ∀ t f address, s.task nr = some t → t.loading = some (f, address) →
    dirIndex address / 16 = nr ∧ Alive t (dirIndex address % 16) ∧
      view s.mem (dirIndex address) (tblIndex address) = .absent
  limits : ∀ nr t, s.task nr = some t →
    t.codeLimit ≤ t.dataLimit ∧ t.dataLimit ≤ 2 ^ 26 ∧ t.endData ≤ 2 ^ 26
  task0 : ∃ t, s.task 0 = some t ∧ t.zombie = false ∧ t.dataLimit = 0xA0000 ∧ t.loading = none

section Basic

variable {lo : ℕ} {s : State} {nr f : ℕ}

theorem mem_slots : nr ∈ slots ↔ 1 ≤ nr ∧ nr < 64 := by
  unfold slots; exact Finset.mem_Ico

@[simp] theorem setTask_task (s : State) (nr : ℕ) (t : Option Task) :
    (s.setTask nr t).task = Function.update s.task nr t := rfl

@[simp] theorem setTask_mem (s : State) (nr : ℕ) (t : Option Task) : (s.setTask nr t).mem = s.mem :=
  rfl

@[simp] theorem setTask_pipes (s : State) (nr : ℕ) (t : Option Task) :
    (s.setTask nr t).pipes = s.pipes := rfl

theorem Inv.repr (h : Inv lo s) : Repr lo s.mem (spaceOf s) :=
  ⟨h.mem, fun _ _ => rfl, fun _ _ _ _ => rfl⟩

/-- The owners when one slot of `task[]` changes. -/
theorem own_setTask (hnr : nr ∈ slots) (t : Option Task) (f : ℕ) :
    own (s.setTask nr t) f + (if pageAt (s.task nr) = some f then 1 else 0) +
        (if loadAt (s.task nr) = some f then 1 else 0) =
      own s f + (if pageAt t = some f then 1 else 0) + (if loadAt t = some f then 1 else 0) := by
  have h1 := card_filter_change (P := fun nr => pageAt (s.task nr) = some f)
    (Q := fun nr' => pageAt ((s.setTask nr t).task nr') = some f) hnr fun x _ hx => by
      rw [setTask_task, Function.update_of_ne hx]
  have h2 := card_filter_change (P := fun nr => loadAt (s.task nr) = some f)
    (Q := fun nr' => loadAt ((s.setTask nr t).task nr') = some f) hnr fun x _ hx => by
      rw [setTask_task, Function.update_of_ne hx]
  simp only [setTask_task, Function.update_self] at h1 h2
  unfold own
  simp only [setTask_task, setTask_pipes]
  omega

/-- The references of one slot of `task[]` to `f`. -/
def held (t : Option Task) (f : ℕ) : ℕ :=
  (if pageAt t = some f then 1 else 0) + (if loadAt t = some f then 1 else 0)

/-- The owners when a task changes but not its frames. -/
theorem own_setTask_eq (hnr : nr ∈ slots) {t : Option Task}
    (h : ∀ f, held t f = held (s.task nr) f) : own (s.setTask nr t) = own s := by
  funext f
  have h1 := own_setTask (s := s) hnr t f
  have h2 := h f
  unfold held at h2
  omega

/-- The owners when a slot of `task[]` gets one more frame. -/
theorem own_setTask_hold (hnr : nr ∈ slots) {t : Option Task}
    (h : ∀ g, held t g = held (s.task nr) g + if f = g then 1 else 0) :
    own (s.setTask nr t) = addOwner (own s) f := by
  funext g
  have h1 := own_setTask (s := s) hnr t g
  have h2 := h g
  unfold held at h2
  unfold addOwner
  simp only [eq_comm (a := g)]
  omega

/-- The owners when a slot of `task[]` loses a frame. -/
theorem own_setTask_drop (hnr : nr ∈ slots) {t : Option Task}
    (h : ∀ g, held (s.task nr) g = held t g + if f = g then 1 else 0) :
    own s = addOwner (own (s.setTask nr t)) f := by
  funext g
  have h1 := own_setTask (s := s) hnr t g
  have h2 := h g
  unfold held at h2
  unfold addOwner
  simp only [eq_comm (a := g)]
  omega

/-- The invariant, from what the memory means. -/
theorem Inv.of_repr {a : Space} (hr : Repr lo s.mem a) (hown : a.own = own s)
    (htable : ∀ d ∈ userDirs, a.table d = true → ∃ t, s.task (d / 16) = some t ∧ Alive t (d % 16))
    (hload : ∀ nr ∈ slots, ∀ t f address, s.task nr = some t → t.loading = some (f, address) →
      dirIndex address / 16 = nr ∧ Alive t (dirIndex address % 16) ∧
        a.page (dirIndex address) (tblIndex address) = .absent)
    (hlimits : ∀ nr t, s.task nr = some t →
      t.codeLimit ≤ t.dataLimit ∧ t.dataLimit ≤ 2 ^ 26 ∧ t.endData ≤ 2 ^ 26)
    (htask0 : ∃ t, s.task 0 = some t ∧ t.zombie = false ∧ t.dataLimit = 0xA0000 ∧ t.loading = none) :
    Inv lo s := by
  refine ⟨by rw [← hown]; exact hr.inv, fun d hd hp => ?_, fun nr hnr t f address ht hl => ?_, hlimits,
    htask0⟩
  · rw [hr.table d hd] at hp
    exact htable d hd hp
  · obtain ⟨h1, h2, h3⟩ := hload nr hnr t f address ht hl
    refine ⟨h1, h2, ?_⟩
    have hs := mem_slots.1 hnr
    have hd : dirIndex address ∈ userDirs := mem_userDirs.2 (by omega)
    rw [hr.page _ hd _ (tblIndex_lt address)]
    exact h3

/-- A change of memory alone: new tables belong to running processes, and the entries that pages are
being loaded for stay absent. -/
theorem Inv.setMem (h : Inv lo s) {m : Mem} {a : Space} (hr : Repr lo m a) (hown : a.own = own s)
    (htable : ∀ d ∈ userDirs, a.table d = true → present (pde s.mem d) = true ∨
      ∃ t, s.task (d / 16) = some t ∧ Alive t (d % 16))
    (hload : ∀ nr ∈ slots, ∀ t f address, s.task nr = some t → t.loading = some (f, address) →
      view s.mem (dirIndex address) (tblIndex address) = .absent →
        a.page (dirIndex address) (tblIndex address) = .absent) :
    Inv lo { s with mem := m } := by
  refine Inv.of_repr (s := { s with mem := m }) hr hown (fun d hd hp => ?_)
    (fun nr hnr t f address ht hl => ?_) h.limits h.task0
  · exact (htable d hd hp).elim (h.table d hd) id
  · obtain ⟨h1, h2, h3⟩ := h.loading nr hnr t f address ht hl
    exact ⟨h1, h2, hload nr hnr t f address ht hl h3⟩

/-- A change of memory that means nothing. -/
theorem Inv.setMem_same (h : Inv lo s) {m : Mem} (hr : Repr lo m (spaceOf s)) :
    Inv lo { s with mem := m } :=
  h.setMem hr rfl (fun _ _ hp => .inl hp) fun _ _ _ _ _ _ _ hv => hv

end Basic

/-! ## Exit, release, exec -/

section Leave

variable {lo : ℕ} {s : State} {nr : ℕ} {t : Task}

/-- A slot other than the one that changes. -/
theorem setTask_other {k : ℕ} (x : Option Task) (h : k ≠ nr) : (s.setTask nr x).task k = s.task k := by
  rw [setTask_task, Function.update_of_ne h]

/-- `free_page_tables` of both segments leaves the task without tables. -/
theorem Inv.freeSegments (h : Inv lo s) (hnr : nr ∈ slots) (ht : s.task nr = some t) :
    Post (State.freeSegments s.mem nr t)
      (fun m => Repr lo m ((spaceOf s).clear (16 * nr) (dirCount t.dataLimit))) (fun _ => False) := by
  have hs := mem_slots.1 hnr
  obtain ⟨hcd, hd, -⟩ := h.limits nr t ht
  have hle : dirCount t.codeLimit ≤ dirCount t.dataLimit := by unfold dirCount; omega
  refine (h.repr.freePageTables (by omega) hs.2 (by omega)).bind fun m hm => ?_
  refine (hm.freePageTables (by omega) hs.2 hd).mono (fun m' hm' => ?_) fun _ => id
  refine hm'.of_eq rfl (fun d _ => ?_) fun d _ i _ => ?_
  · simp only [Space.clear]
    split_ifs <;> first | rfl | omega
  · simp only [Space.clear]
    split_ifs <;> first | rfl | omega

/-- The slot of a task whose tables have been freed can be given any task. -/
theorem Inv.replace (h : Inv lo s) (hnr : nr ∈ slots) (ht : s.task nr = some t) {m : Mem}
    (hm : Repr lo m ((spaceOf s).clear (16 * nr) (dirCount t.dataLimit))) {t' : Task}
    (hp : t'.page = t.page) (hl : t.loading = none) (hl' : t'.loading = none)
    (hlim : t'.codeLimit ≤ t'.dataLimit ∧ t'.dataLimit ≤ 2 ^ 26 ∧ t'.endData ≤ 2 ^ 26) :
    Inv lo (({ s with mem := m } : State).setTask nr (some t')) := by
  have hs := mem_slots.1 hnr
  have hown : own (({ s with mem := m } : State).setTask nr (some t')) = own s := by
    refine own_setTask_eq (s := { s with mem := m }) hnr fun f => ?_
    simp [held, pageAt, loadAt, ht, hp, hl, hl']
  refine Inv.of_repr hm hown.symm (fun d hd htab => ?_) (fun k hk t₁ f address ht₁ hl₁ => ?_)
    (fun k t₁ ht₁ => ?_) ?_
  · -- The tables that are left are not in the slot.
    simp only [Space.clear] at htab
    split_ifs at htab with hrange
    obtain ⟨t₁, ht₁, ha⟩ := h.table d hd htab
    have hne : d / 16 ≠ nr := by
      intro he
      rw [he, ht] at ht₁
      obtain rfl := Option.some.inj ht₁
      have := ha.2
      omega
    exact ⟨t₁, by rw [setTask_other _ hne]; exact ht₁, ha⟩
  · by_cases hk' : k = nr
    · rw [hk', setTask_task, Function.update_self] at ht₁
      obtain rfl := Option.some.inj ht₁
      rw [hl'] at hl₁
      cases hl₁
    · rw [setTask_other _ hk'] at ht₁
      obtain ⟨h1, h2, h3⟩ := h.loading k hk t₁ f address ht₁ hl₁
      refine ⟨h1, h2, ?_⟩
      simp only [Space.clear]
      split_ifs
      · rfl
      · exact h3
  · by_cases hk' : k = nr
    · rw [hk', setTask_task, Function.update_self] at ht₁
      obtain rfl := Option.some.inj ht₁
      exact hlim
    · rw [setTask_other _ hk'] at ht₁
      exact h.limits k t₁ ht₁
  · rw [setTask_other _ (by omega)]
    exact h.task0

/-- `s'` is `s` after the exit of task `nr`: a zombie, and the pages of the others. -/
def Exited (s s' : State) (nr : ℕ) : Prop :=
  (∃ t, s.task nr = some t ∧ s'.task = Function.update s.task nr
    (some { t with zombie := true, executable := none, loading := none })) ∧
  ∀ d ∈ userDirs, d / 16 ≠ nr → ∀ i < 1024, view s'.mem d i = view s.mem d i

theorem Inv.exited (h : Inv lo s) (hnr : nr ∈ slots) (ht : s.task nr = some t)
    (hl : t.loading = none) :
    Post (s.doExit nr) (fun s' => Inv lo s' ∧ Exited s s' nr) (fun _ => False) := by
  have hn := dirCount_le (h.limits nr t ht).2.1
  unfold State.doExit
  rw [ht]
  refine (h.freeSegments hnr ht).bind fun m hm =>
    Post.ok ⟨h.replace hnr ht hm rfl hl rfl (h.limits nr t ht), ⟨t, ht, rfl⟩, fun d hd hne i hi => ?_⟩
  rw [setTask_mem, hm.page d hd i hi]
  simp only [Space.clear]
  rw [if_neg (by omega)]
  rfl

theorem Inv.doExit (h : Inv lo s) (hnr : nr ∈ slots) (ht : s.task nr = some t)
    (hl : t.loading = none) : Post (s.doExit nr) (Inv lo) (fun _ => False) :=
  (h.exited hnr ht hl).mono (fun _ hs => hs.1) fun _ => id

theorem Inv.exec (h : Inv lo s) (hnr : nr ∈ slots) (ht : s.task nr = some t)
    (hl : t.loading = none) {inode aText aData : ℕ} (hsize : aText + aData ≤ 0x3000000) :
    Post (s.exec nr inode aText aData) (Inv lo) (fun _ => False) := by
  unfold State.exec
  rw [ht]
  exact (h.freeSegments hnr ht).bind fun m hm =>
    Post.ok (h.replace hnr ht hm rfl hl hl (by simp only; omega))

theorem Inv.release (h : Inv lo s) (hnr : nr ∈ slots) (ht : s.task nr = some t)
    (hz : t.zombie = true) : Post (s.release nr) (Inv lo) (fun _ => False) := by
  have hs := mem_slots.1 hnr
  have hl : t.loading = none := by
    cases hl : t.loading with
    | none => rfl
    | some r =>
      have := (h.loading nr hnr t r.1 r.2 ht hl).2.1.1
      rw [hz] at this
      cases this
  unfold State.release
  rw [ht]
  have hown : own s = addOwner (own (s.setTask nr none)) t.page := by
    refine own_setTask_drop hnr fun g => ?_
    simp [held, pageAt, loadAt, ht, hl]
  have hheld : Repr lo s.mem
      (({ spaceOf s with own := own (s.setTask nr none) } : Space).hold t.page) := by
    refine ⟨?_, h.repr.table, h.repr.page⟩
    show MemInv lo s.mem (addOwner (own (s.setTask nr none)) t.page)
    rw [← hown]
    exact h.mem
  obtain ⟨hfree, hr⟩ := hheld.freePage
  simp only [hfree]
  refine Post.ok (Inv.of_repr hr rfl (fun d hd htab => ?_) (fun k hk t₁ f address ht₁ hl₁ => ?_)
    (fun k t₁ ht₁ => ?_) ?_)
  · obtain ⟨t₁, ht₁, ha⟩ := h.table d hd htab
    have hne : d / 16 ≠ nr := by
      intro he
      rw [he, ht] at ht₁
      obtain rfl := Option.some.inj ht₁
      rw [ha.1] at hz
      cases hz
    exact ⟨t₁, by rw [setTask_other _ hne]; exact ht₁, ha⟩
  · by_cases hk' : k = nr
    · rw [hk', setTask_task, Function.update_self] at ht₁
      cases ht₁
    · rw [setTask_other _ hk'] at ht₁
      exact h.loading k hk t₁ f address ht₁ hl₁
  · by_cases hk' : k = nr
    · rw [hk', setTask_task, Function.update_self] at ht₁
      cases ht₁
    · rw [setTask_other _ hk'] at ht₁
      exact h.limits k t₁ ht₁
  · rw [setTask_other _ (by omega)]
    exact h.task0

end Leave

/-! ## Fork -/

section Fork

variable {lo : ℕ} {s : State} {nr c p : ℕ} {t : Task}

theorem findEmptyProcess_eq_some (h : s.findEmptyProcess = some c) : c ∈ slots ∧ s.task c = none := by
  unfold findEmptyProcess at h
  have h1 := List.mem_of_find?_eq_some h
  have h2 := List.find?_some h
  rw [List.mem_range'_1] at h1
  exact ⟨mem_slots.2 (by omega), by simpa using h2⟩

/-- An empty slot has no tables. -/
theorem Inv.table_of_empty (h : Inv lo s) (hc : c ∈ slots) (he : s.task c = none) {k : ℕ}
    (hk : k < 16) : (spaceOf s).table (16 * c + k) = false := by
  have hs := mem_slots.1 hc
  by_contra hp
  obtain ⟨t, ht, -⟩ := h.table (16 * c + k) (mem_userDirs.2 (by omega)) (by simpa [spaceOf] using hp)
  rw [show (16 * c + k) / 16 = c by omega, he] at ht
  cases ht

/-- The child's slot after a successful fork. -/
theorem Inv.addChild (h : Inv lo s) (ht : s.task nr = some t) (hz : t.zombie = false)
    (hl : t.loading = none) (hc : c ∈ slots) (he : s.task c = none) {m : Mem}
    (hm : Repr lo m (((spaceOf s).hold p).copy (16 * nr) (16 * c) (dirCount t.dataLimit))) :
    Inv lo (({ s with mem := m } : State).setTask c (some { t with page := p })) := by
  have hs := mem_slots.1 hc
  have hown : addOwner (own s) p =
      own (({ s with mem := m } : State).setTask c (some { t with page := p })) := by
    refine (own_setTask_hold (s := { s with mem := m }) hc fun g => ?_).symm
    simp [held, pageAt, loadAt, he, hl]
  have hlim := h.limits nr t ht
  have hn := dirCount_le hlim.2.1
  refine Inv.of_repr hm hown (fun d hd htab => ?_) (fun k hk t₁ f address ht₁ hl₁ => ?_)
    (fun k t₁ ht₁ => ?_) ?_
  · simp only [Space.copy] at htab
    split_ifs at htab with hrange
    · refine ⟨{ t with page := p }, ?_, hz, by show d % 16 < dirCount t.dataLimit; omega⟩
      rw [show d / 16 = c by omega, setTask_task, Function.update_self]
    · obtain ⟨t₁, ht₁, ha⟩ := h.table d hd htab
      have hne : d / 16 ≠ c := by
        intro hdc
        rw [hdc, he] at ht₁
        cases ht₁
      exact ⟨t₁, by rw [setTask_other _ hne]; exact ht₁, ha⟩
  · by_cases hk' : k = c
    · rw [hk', setTask_task, Function.update_self] at ht₁
      obtain rfl := Option.some.inj ht₁
      rw [show ({ t with page := p } : Task).loading = none from hl] at hl₁
      cases hl₁
    · rw [setTask_other _ hk'] at ht₁
      obtain ⟨h1, h2, h3⟩ := h.loading k hk t₁ f address ht₁ hl₁
      refine ⟨h1, h2, ?_⟩
      simp only [Space.copy]
      rw [if_neg (by omega)]
      exact h3
  · by_cases hk' : k = c
    · rw [hk', setTask_task, Function.update_self] at ht₁
      obtain rfl := Option.some.inj ht₁
      exact hlim
    · rw [setTask_other _ hk'] at ht₁
      exact h.limits k t₁ ht₁
  · rw [setTask_other _ (by omega)]
    exact h.task0

/-- `s'` is `s` after a fork of `nr` into slot `c`, which has the parent's pages. -/
def Forked (s s' : State) (nr c : ℕ) : Prop :=
  (∃ t p, s.task nr = some t ∧ s'.task = Function.update s.task c (some { t with page := p })) ∧
  ∀ d ∈ userDirs, ∀ i < 1024,
    view s'.mem d i = if d / 16 = c then view s.mem (16 * nr + d % 16) i else view s.mem d i

/-- The pages after a copy of slot `nr` to the empty slot `c`. -/
theorem Inv.view_copy (h : Inv lo s) (hnr : nr ∈ slots) (ht : s.task nr = some t) (hc : c ∈ slots)
    (he : s.task c = none) {m : Mem}
    (hm : Repr lo m (((spaceOf s).hold p).copy (16 * nr) (16 * c) (dirCount t.dataLimit))) {d i : ℕ}
    (hd : d ∈ userDirs) (hi : i < 1024) :
    view m d i = if d / 16 = c then view s.mem (16 * nr + d % 16) i else view s.mem d i := by
  have hs := mem_slots.1 hnr
  have hsc := mem_slots.1 hc
  have hn := dirCount_le (h.limits nr t ht).2.1
  rw [hm.page d hd i hi]
  by_cases hdc : d / 16 = c
  · rw [if_pos hdc]
    by_cases hk : d % 16 < dirCount t.dataLimit
    · simp only [Space.copy]
      rw [if_pos (by omega), show d - 16 * c = d % 16 by omega, Space.srcPage, if_neg (by omega)]
      rfl
    · -- Beyond the limit there are no tables in either slot.
      have hnp : (spaceOf s).table (16 * nr + d % 16) = false := by
        by_contra hp
        obtain ⟨t₁, ht₁, ha⟩ := h.table (16 * nr + d % 16) (mem_userDirs.2 (by omega))
          (by simpa [spaceOf] using hp)
        rw [show (16 * nr + d % 16) / 16 = nr by omega, ht] at ht₁
        obtain rfl := Option.some.inj ht₁
        have := ha.2
        omega
      have h1 := h.repr.absent_of_table (mem_userDirs.2 (by omega)) hi hnp
      have h2 := h.repr.absent_of_table hd hi
        (by rw [show d = 16 * c + d % 16 by omega]; exact h.table_of_empty hc he (by omega))
      simp only [Space.copy]
      rw [if_neg (by omega)]
      exact h2.trans h1.symm
  · rw [if_neg hdc]
    simp only [Space.copy]
    rw [if_neg (by omega)]
    rfl

/-- **Fork** keeps the invariant; it either adds a child or leaves `task[]` as it is. -/
theorem Inv.fork (h : Inv lo s) (hnr : nr < 64) (ht : s.task nr = some t) (hz : t.zombie = false)
    (hl : t.loading = none) :
    Post (s.fork nr) (fun s' => Inv lo s' ∧ (s'.task = s.task ∨
      ∃ c, s.findEmptyProcess = some c ∧ (nr ∈ slots → Forked s s' nr c))) (fun _ => False) := by
  unfold State.fork
  rw [ht]
  cases hfe : s.findEmptyProcess with
  | none => exact Post.ok ⟨h, .inl rfl⟩
  | some c =>
    obtain ⟨hc, he⟩ := findEmptyProcess_eq_some hfe
    have hs := mem_slots.1 hc
    obtain ⟨hcd, hd, -⟩ := h.limits nr t ht
    have hn := dirCount_le hd
    simp only
    cases hg : getFreePage s.mem with
    | none => exact Post.ok ⟨h, .inl rfl⟩
    | some r =>
      obtain ⟨p, m⟩ := r
      obtain ⟨hm, -, -⟩ := h.repr.getFreePage hg
      simp only
      rw [if_neg (by omega)]
      have hempty : ∀ k < 16, ((spaceOf s).hold p).table (16 * c + k) = false := fun k hk =>
        h.table_of_empty hc he hk
      have hone : nr = 0 → dirCount t.dataLimit ≤ 1 := by
        rintro rfl
        obtain ⟨t₀, ht₀, -, hlim, -⟩ := h.task0
        rw [ht] at ht₀
        obtain rfl := Option.some.inj ht₀
        rw [hlim]
        decide
      have hcopy := hm.copyPageTables hnr hs.2 (by omega)
        (fun hx => by rw [hx, he] at ht; cases ht) hd hone hempty
      cases hr : copyPageTables m (startCode nr) (startCode c) t.dataLimit with
      | ok m' =>
        have hm' := hcopy.of_ok hr
        exact Post.ok ⟨h.addChild ht hz hl hc he hm', .inr ⟨c, rfl, fun hns =>
          ⟨⟨t, p, ht, rfl⟩, fun d hd i hi => h.view_copy hns ht hc he hm' hd hi⟩⟩⟩
      | error e =>
        obtain ⟨k, m', rfl, hk, hm'⟩ := hcopy.of_error hr
        -- Out of memory half way: what was copied is freed again.
        simp only
        refine Post.bind (hm'.freePageTables (by omega) hs.2 hd) fun m₁ hm₁ => ?_
        have hm₁ : Repr lo m₁ ((spaceOf s).hold p) := by
          refine hm₁.of_eq rfl (fun d _ => ?_) fun d hd i hi => ?_
          · simp only [Space.clear, Space.copy]
            split_ifs with h1 h2
            · rw [show d = 16 * c + (d - 16 * c) by omega]
              exact hempty _ (by omega)
            · omega
            · rfl
          · simp only [Space.clear, Space.copy]
            split_ifs with h1 h2
            · refine hm.absent_of_table hd hi ?_
              rw [show d = 16 * c + (d - 16 * c) by omega]
              exact hempty _ (by omega)
            · omega
            · rfl
        obtain ⟨hfree, hr'⟩ := hm₁.freePage
        simp only [hfree]
        exact Post.ok ⟨h.setMem_same hr', .inl rfl⟩

end Fork

/-! ## Page faults -/

/-- The directory entry of an address in the data segment of task `nr`. -/
theorem dirIndex_offset {nr offset limit : ℕ} (hnr : nr < 64) (ho : offset < limit)
    (hlim : limit ≤ 2 ^ 26) : dirIndex (startCode nr + offset) = 16 * nr + offset / 2 ^ 22 ∧
      offset / 2 ^ 22 < dirCount limit := by
  unfold dirIndex startCode dirCount
  omega

theorem tblIndex_page (address : ℕ) : tblIndex (address / 4096 * 4096) = tblIndex address := by
  unfold tblIndex; omega

theorem dirIndex_page (address : ℕ) : dirIndex (address / 4096 * 4096) = dirIndex address := by
  unfold dirIndex; omega

section Fault

variable {lo : ℕ} {s : State} {nr d i : ℕ} {t : Task}

/-- An entry of a running task is filled, in a table that may be new. -/
theorem Inv.fillEntry (h : Inv lo s) (ht : s.task nr = some t) (hz : t.zombie = false)
    (hl : t.loading = none) (hd : d / 16 = nr) (hk : d % 16 < dirCount t.dataLimit) {m : Mem}
    {v : PageView} (hr : Repr lo m (((spaceOf s).addTable d).setPage d i v)) :
    Inv lo { s with mem := m } := by
  refine h.setMem hr rfl (fun d' _ hp => ?_) fun k hk' t₁ f address ht₁ hl₁ hv => ?_
  · by_cases hdd : d' = d
    · exact .inr ⟨t, by rw [hdd, hd]; exact ht, hz, by rw [hdd]; exact hk⟩
    · simp only [Space.setPage, Space.addTable, if_neg hdd] at hp
      exact .inl hp
  · have hne : ¬ (dirIndex address = d ∧ tblIndex address = i) := by
      rintro ⟨hda, -⟩
      obtain ⟨h1, -⟩ := h.loading k hk' t₁ f address ht₁ hl₁
      rw [hda, hd] at h1
      rw [← h1, ht] at ht₁
      obtain rfl := Option.some.inj ht₁
      rw [hl] at hl₁
      cases hl₁
    simp only [Space.setPage, if_neg hne]
    exact hv

/-- A task begins or ends waiting for a page. -/
theorem Inv.setLoading (h : Inv lo s) (hnr : nr ∈ slots) (ht : s.task nr = some t)
    (hz : t.zombie = false) {x : Option (ℕ × ℕ)} {m : Mem} {a : Space} (hr : Repr lo m a)
    (hown : a.own = own (s.setTask nr (some { t with loading := x })))
    (htable : ∀ d ∈ userDirs, a.table d = true →
      present (pde s.mem d) = true ∨ d / 16 = nr ∧ d % 16 < dirCount t.dataLimit)
    (hother : ∀ d ∈ userDirs, d / 16 ≠ nr → ∀ i, a.page d i = view s.mem d i)
    (hx : ∀ f address, x = some (f, address) → dirIndex address / 16 = nr ∧
      dirIndex address % 16 < dirCount t.dataLimit ∧
        a.page (dirIndex address) (tblIndex address) = .absent) :
    Inv lo (({ s with mem := m } : State).setTask nr (some { t with loading := x })) := by
  have hs := mem_slots.1 hnr
  refine Inv.of_repr hr hown (fun d hd htab => ?_) (fun k hk t₁ f address ht₁ hl₁ => ?_)
    (fun k t₁ ht₁ => ?_) ?_
  · have hold : d / 16 = nr ∧ d % 16 < dirCount t.dataLimit ∨ d / 16 ≠ nr ∧
        ∃ t₁, s.task (d / 16) = some t₁ ∧ Alive t₁ (d % 16) := by
      rcases htable d hd htab with hp | hp
      · obtain ⟨t₁, ht₁, ha⟩ := h.table d hd hp
        by_cases hne : d / 16 = nr
        · rw [hne, ht] at ht₁
          obtain rfl := Option.some.inj ht₁
          exact .inl ⟨hne, ha.2⟩
        · exact .inr ⟨hne, t₁, ht₁, ha⟩
      · exact .inl hp
    rcases hold with ⟨hne, hk⟩ | ⟨hne, t₁, ht₁, ha⟩
    · exact ⟨{ t with loading := x }, by rw [hne, setTask_task, Function.update_self], hz, hk⟩
    · exact ⟨t₁, by rw [setTask_other _ hne]; exact ht₁, ha⟩
  · by_cases hk' : k = nr
    · rw [hk', setTask_task, Function.update_self] at ht₁
      obtain rfl := Option.some.inj ht₁
      obtain ⟨h1, h2, h3⟩ := hx f address hl₁
      exact ⟨by rw [hk']; exact h1, ⟨hz, h2⟩, h3⟩
    · rw [setTask_other _ hk'] at ht₁
      obtain ⟨h1, h2, h3⟩ := h.loading k hk t₁ f address ht₁ hl₁
      have hs' := mem_slots.1 hk
      exact ⟨h1, h2, by rw [hother _ (mem_userDirs.2 (by omega)) (by omega)]; exact h3⟩
  · by_cases hk' : k = nr
    · rw [hk', setTask_task, Function.update_self] at ht₁
      obtain rfl := Option.some.inj ht₁
      exact h.limits nr t ht
    · rw [setTask_other _ hk'] at ht₁
      exact h.limits k t₁ ht₁
  · rw [setTask_other _ (by omega)]
    exact h.task0

/-- A present entry gets another page. -/
theorem Inv.changePage (h : Inv lo s) (hp : view s.mem d i ≠ .absent) {m : Mem} {v : PageView}
    (hr : Repr lo m ((spaceOf s).setPage d i v)) : Inv lo { s with mem := m } := by
  refine h.setMem hr rfl (fun _ _ hp => .inl hp) fun k hk' t₁ f address ht₁ hl₁ hv => ?_
  have hne : ¬ (dirIndex address = d ∧ tblIndex address = i) := by
    rintro ⟨rfl, rfl⟩
    exact hp hv
  simp only [Space.setPage, if_neg hne]
  exact hv

/-- A function that keeps the invariant, or runs out of memory with memory meaning the same. -/
theorem Inv.orOom (h : Inv lo s) (hnr : nr ∈ slots) (ht : s.task nr = some t)
    (hl : t.loading = none) {r : Except Stop Mem}
    (hr : Post r (fun m => Inv lo { s with mem := m })
      (fun e => ∃ m, e = .noMemory m ∧ Repr lo m (spaceOf s))) :
    Post (s.orOom nr r) (Inv lo) (fun _ => False) := by
  cases r with
  | ok m => exact Post.ok (hr.of_ok rfl)
  | error e =>
    obtain ⟨m, rfl, hm⟩ := hr.of_error rfl
    exact (h.setMem_same hm).doExit hnr ht hl

theorem Inv.emptyPage (h : Inv lo s) (hnr : nr ∈ slots) (ht : s.task nr = some t)
    (hz : t.zombie = false) (hl : t.loading = none) (address : ℕ) (hd : dirIndex address / 16 = nr)
    (hk : dirIndex address % 16 < dirCount t.dataLimit)
    (hv : view s.mem (dirIndex address) (tblIndex address) = .absent) :
    Post (s.orOom nr (Mm.getEmptyPage s.mem address)) (Inv lo) (fun _ => False) := by
  have hs := mem_slots.1 hnr
  refine h.orOom hnr ht hl ((h.repr.getEmptyPage address (mem_userDirs.2 (by omega)) hv).mono
    (fun m hm => ?_) fun _ => id)
  exact h.fillEntry ht hz hl hd hk hm.1

/-- The loop of `share_page` fills the entry from another task, or changes nothing. -/
theorem Inv.shareLoop (h : Inv lo s) (hnr : nr ∈ slots) {address : ℕ} (ha : address < 2 ^ 26)
    (exe : ℕ)
    (hv : view s.mem (dirIndex address + dirIndex (startCode nr)) (tblIndex address) = .absent) :
    ∀ ps : List ℕ, (∀ p ∈ ps, p ∈ slots) →
      Post (s.shareLoop nr exe address s.mem ps)
        (fun r => r = (false, s.mem) ∨ r.1 = true ∧ ∃ c, Repr lo r.2
          (((spaceOf s).addTable (dirIndex address + dirIndex (startCode nr))).setPage
            (dirIndex address + dirIndex (startCode nr)) (tblIndex address) (.page c)))
        (fun e => e = .noMemory s.mem) := by
  intro ps
  induction ps with
  | nil => intro _; exact Post.ok (.inl rfl)
  | cons p ps ih =>
    intro hps
    have ih := ih fun q hq => hps q (List.mem_cons_of_mem _ hq)
    have hp := mem_slots.1 (hps p List.mem_cons_self)
    have hs := mem_slots.1 hnr
    have hdp : dirIndex (startCode p) = 16 * p := dirIndex_slot hp.2
    have hdn : dirIndex (startCode nr) = 16 * nr := dirIndex_slot hs.2
    have hda : dirIndex address < 16 := by unfold dirIndex; omega
    unfold State.shareLoop
    cases s.task p with
    | none => exact ih
    | some q =>
      simp only
      split_ifs with hskip
      · exact ih
      · have hne : p ≠ nr := fun hpn => hskip (.inl hpn)
        have hshare := h.repr.tryToShare address (startCode p) (startCode nr) (mem_userDirs.2 (by omega)) (mem_userDirs.2 (by omega))
          (by omega) (by omega) hv
        cases hr : Mm.tryToShare s.mem address (startCode p) (startCode nr) with
        | error e => exact Post.error (hshare.of_error hr)
        | ok r =>
          obtain ⟨b, m⟩ := r
          rcases hshare.of_ok hr with hfalse | ⟨htrue, hc⟩
          · obtain ⟨rfl, rfl⟩ := Prod.mk.inj hfalse
            exact ih
          · obtain rfl : b = true := htrue
            exact Post.ok (.inr ⟨rfl, hc⟩)

theorem Inv.doNoPage (h : Inv lo s) (hnr : nr ∈ slots) (ht : s.task nr = some t)
    (hz : t.zombie = false) (hl : t.loading = none) {offset iCount : ℕ} (ho : offset < t.dataLimit)
    (habs : present (s.entryAt (startCode nr + offset)) = false) :
    Post (s.doNoPage nr (startCode nr + offset) iCount) (Inv lo) (fun _ => False) := by
  have hs := mem_slots.1 hnr
  have hlim := h.limits nr t ht
  obtain ⟨hd, hk⟩ := dirIndex_offset hs.2 ho hlim.2.1
  have hn := dirCount_le hlim.2.1
  obtain ⟨page, hpage⟩ : ∃ page, page = (startCode nr + offset) / 4096 * 4096 := ⟨_, rfl⟩
  have hdp : dirIndex page = 16 * nr + offset / 2 ^ 22 := by rw [hpage, dirIndex_page, hd]
  have hv : view s.mem (dirIndex page) (tblIndex page) = .absent := by
    rw [hpage, dirIndex_page, tblIndex_page]
    exact look_eq_absent_iff.2 habs
  have hempty := h.emptyPage hnr ht hz hl page (by omega) (by rw [hdp]; omega) hv
  unfold State.doNoPage
  rw [ht]
  simp only [← hpage]
  cases hx : t.executable with
  | none => exact hempty
  | some exe =>
    simp only
    split_ifs with hend
    · exact hempty
    · -- The offset of the page, from which the entry of the other task is found.
      obtain ⟨tmp, htmp⟩ : ∃ tmp, tmp = page - startCode nr := ⟨_, rfl⟩
      rw [← htmp] at hend ⊢
      have htmp' : tmp < 2 ^ 26 ∧ dirIndex tmp + dirIndex (startCode nr) = dirIndex page ∧
          tblIndex tmp = tblIndex page := by
        have hsc := dirIndex_slot hs.2
        unfold startCode at hpage htmp ⊢
        rw [hsc]
        unfold dirIndex tblIndex
        omega
      obtain ⟨ht26, htd, hti⟩ := htmp'
      have hshare : Post (s.sharePage nr exe tmp iCount)
          (fun r => r = (false, s.mem) ∨ r.1 = true ∧ ∃ c, Repr lo r.2
            (((spaceOf s).addTable (dirIndex page)).setPage (dirIndex page) (tblIndex page)
              (.page c)))
          (fun e => e = .noMemory s.mem) := by
        unfold State.sharePage
        split_ifs
        · exact Post.ok (.inl rfl)
        · have := h.shareLoop hnr ht26 exe (by rw [htd, hti]; exact hv) (List.range' 1 63).reverse
            fun p hp => by
              rw [List.mem_reverse, List.mem_range'_1] at hp
              exact mem_slots.2 (by omega)
          rw [htd, hti] at this
          exact this
      cases hr : s.sharePage nr exe tmp iCount with
      | error e =>
        obtain rfl := hshare.of_error hr
        exact h.orOom hnr ht hl (Post.error ⟨_, rfl, h.repr⟩)
      | ok r =>
        obtain ⟨b, m⟩ := r
        rcases hshare.of_ok hr with hfalse | ⟨htrue, c, hc⟩
        · obtain ⟨rfl, rfl⟩ := Prod.mk.inj hfalse
          simp only
          cases hg : getFreePage s.mem with
          | none => exact h.doExit hnr ht hl
          | some r =>
            obtain ⟨f, m⟩ := r
            obtain ⟨hm, -, -⟩ := h.repr.getFreePage hg
            have hload := h.setLoading hnr ht hz (x := some (f, page)) hm
              (own_setTask_hold hnr fun g => by simp [held, pageAt, loadAt, ht, hl]).symm
              (fun _ _ hp => .inl hp) (fun _ _ _ _ => rfl) fun f' address' hx' => by
                obtain ⟨rfl, rfl⟩ := Prod.mk.inj (Option.some.inj hx')
                exact ⟨by omega, by rw [hdp]; omega, hv⟩
            rw [hx] at hload
            exact Post.ok hload
        · obtain rfl : b = true := htrue
          exact Post.ok (h.fillEntry ht hz hl (by omega) (by rw [hdp]; omega) hc)

theorem Inv.loaded (h : Inv lo s) (hnr : nr ∈ slots) (content : ℕ → Word) :
    Post (s.loaded nr content) (Inv lo) (fun _ => False) := by
  have hs := mem_slots.1 hnr
  unfold State.loaded
  cases ht : s.task nr with
  | none => exact Post.ok h
  | some t =>
    cases hl : t.loading with
    | none => simp only [hl]; exact Post.ok h
    | some r =>
      obtain ⟨page, address⟩ := r
      obtain ⟨hd, ⟨hz, hk⟩, hv⟩ := h.loading nr hnr t page address ht hl
      have hdu : dirIndex address ∈ userDirs := mem_userDirs.2 (by omega)
      have hown : own s = addOwner (own (s.setTask nr (some { t with loading := none }))) page := by
        refine own_setTask_drop hnr fun g => ?_
        simp [held, pageAt, loadAt, ht, hl]
      -- The frame is the kernel's until it is put at its address.
      have hheld : Repr lo (s.mem.fill page content)
          (({ spaceOf s with own := own (s.setTask nr (some { t with loading := none })) } :
            Space).hold page) := by
        refine Repr.fill ⟨?_, h.repr.table, h.repr.page⟩ content
        show MemInv lo s.mem (addOwner _ page)
        rw [← hown]
        exact h.mem
      simp only [hl]
      cases hput : putPage (s.mem.fill page content) page address with
      | some m =>
        obtain ⟨hr, -⟩ := hheld.putPage hdu hv hput
        refine Post.ok (h.setLoading hnr ht hz hr rfl (fun d _ hp => ?_) (fun d _ hne i => ?_)
          fun _ _ hc => by cases hc)
        · by_cases hdd : d = dirIndex address
          · exact .inr ⟨by rw [hdd]; exact hd, by rw [hdd]; exact hk⟩
          · simp only [Space.setPage, Space.addTable, if_neg hdd] at hp
            exact .inl hp
        · have hdd : d ≠ dirIndex address := by rintro rfl; exact hne hd
          simp only [Space.setPage, if_neg (fun hc : d = dirIndex address ∧ _ => hdd hc.1)]
          rfl
      | none =>
        obtain ⟨hfree, hr⟩ := hheld.freePage
        simp only [hfree]
        have hinv := h.setLoading hnr ht hz (x := none) hr rfl (fun _ _ hp => .inl hp)
          (fun _ _ _ _ => rfl) fun _ _ hc => by cases hc
        exact hinv.doExit hnr (by rw [setTask_task, Function.update_self]) rfl

/-- A present entry of a running task, and its table. -/
theorem Inv.entry_facts (h : Inv lo s) (hnr : nr ∈ slots) (ht : s.task nr = some t) {offset : ℕ}
    (ho : offset < t.dataLimit) (hp : present (s.entryAt (startCode nr + offset)) = true) :
    dirIndex (startCode nr + offset) ∈ userDirs ∧
      (spaceOf s).table (dirIndex (startCode nr + offset)) = true ∧
      view s.mem (dirIndex (startCode nr + offset)) (tblIndex (startCode nr + offset)) ≠ .absent := by
  have hs := mem_slots.1 hnr
  obtain ⟨hd, -⟩ := dirIndex_offset hs.2 ho (h.limits nr t ht).2.1
  have hn := dirCount_le (h.limits nr t ht).2.1
  have hd16 := (dirIndex_offset hs.2 ho (h.limits nr t ht).2.1).2
  refine ⟨mem_userDirs.2 (by omega), ?_, ?_⟩
  · by_contra hc
    have hc : present (pde s.mem (dirIndex (startCode nr + offset))) = false := by
      simpa [spaceOf] using hc
    unfold entryAt at hp
    rw [pte_of_not_present hc, present_zero] at hp
    cases hp
  · rw [Ne, show view _ _ _ = look s.mem (s.entryAt (startCode nr + offset)) from rfl,
      look_eq_absent_iff, hp]
    exact Bool.noConfusion

theorem Inv.wpFault (h : Inv lo s) (hnr : nr ∈ slots) (ht : s.task nr = some t)
    (hl : t.loading = none) {offset : ℕ} (ho : offset < t.dataLimit)
    (hp : present (s.entryAt (startCode nr + offset)) = true) :
    Post (s.wpFault nr (startCode nr + offset)) (Inv lo) (fun _ => False) := by
  obtain ⟨hd, htab, hv⟩ := h.entry_facts hnr ht ho hp
  refine h.orOom hnr ht hl ((h.repr.doWpPage hd htab hp).mono (fun m hm => ?_) fun e he => ?_)
  · exact h.changePage hv hm.1
  · exact ⟨_, he, h.repr⟩

theorem Inv.verify (h : Inv lo s) (hnr : nr ∈ slots) (ht : s.task nr = some t)
    (hl : t.loading = none) (address : ℕ) :
    Post (s.verify nr address) (Inv lo) (fun _ => False) := by
  refine h.orOom hnr ht hl ((h.repr.writeVerify address).mono (fun m hm => ?_) fun e he => ?_)
  · rcases hm with rfl | ⟨hv, c, hr⟩
    · exact h
    · exact h.changePage hv hr
  · exact ⟨_, he, h.repr⟩

theorem Inv.access (h : Inv lo s) (hnr : nr ∈ slots) (ht : s.task nr = some t) {offset : ℕ}
    (ho : offset < t.dataLimit) (hp : present (s.entryAt (startCode nr + offset)) = true)
    (store : Option (ℕ × Word))
    (hw : store.isSome = true → writable (s.entryAt (startCode nr + offset)) = true) :
    Inv lo (s.access (startCode nr + offset) store) := by
  obtain ⟨hd, htab, hv⟩ := h.entry_facts hnr ht ho hp
  have hi := tblIndex_lt (startCode nr + offset)
  obtain ⟨hr, hew⟩ := h.repr.touchEntry hd hi htab hp store.isSome
  unfold State.access
  cases store with
  | none => exact h.setMem_same hr
  | some jv =>
    obtain ⟨j, v⟩ := jv
    have hself := hew.self hd
    have hst := hr.storeWord hd hi (by rw [hself, present_touch]; exact hp)
      (by rw [hself, writable_touch]; exact hw rfl) j v
    rw [hself, pageOf_touch] at hst
    exact h.changePage hv hst

end Fault

/-! ## Pipes -/

section Pipe

variable {lo : ℕ} {s : State}

theorem Inv.getPipe (h : Inv lo s) : Inv lo s.getPipe := by
  unfold State.getPipe
  cases hg : getFreePage s.mem with
  | none => exact h
  | some r =>
    obtain ⟨f, m⟩ := r
    obtain ⟨hm, -, -⟩ := h.repr.getFreePage hg
    refine Inv.of_repr (s := { s with mem := m, pipes := f :: s.pipes }) hm ?_ h.table h.loading
      h.limits h.task0
    funext g
    show addOwner (own s) f g = own { s with mem := m, pipes := f :: s.pipes } g
    unfold addOwner own
    simp only [List.count_cons, beq_iff_eq, eq_comm (a := f)]
    omega

theorem Inv.freePipe (h : Inv lo s) {f : ℕ} (hf : f ∈ s.pipes) :
    Post (s.freePipe f) (Inv lo) (fun _ => False) := by
  have hown : own s = addOwner (own { s with pipes := s.pipes.erase f }) f := by
    funext g
    unfold addOwner own
    simp only
    by_cases hg : g = f
    · subst hg
      have := List.count_pos_iff.2 hf
      rw [List.count_erase_self, if_pos rfl]
      omega
    · rw [List.count_erase_of_ne hg, if_neg hg]
      omega
  have hheld : Repr lo s.mem
      (({ spaceOf s with own := own { s with pipes := s.pipes.erase f } } : Space).hold f) := by
    refine ⟨?_, h.repr.table, h.repr.page⟩
    show MemInv lo s.mem (addOwner _ f)
    rw [← hown]
    exact h.mem
  obtain ⟨hfree, hr⟩ := hheld.freePage
  unfold State.freePipe
  simp only [hfree]
  exact Post.ok (Inv.of_repr (s := { s with mem := _, pipes := s.pipes.erase f }) hr rfl h.table
    h.loading h.limits h.task0)

end Pipe

/-! ## All runs -/

section Run

variable {lo : ℕ} {s : State}

/-- After `mem_init` nothing is referenced. -/
theorem Inv.init (h : State.Init lo s) : Inv lo s := by
  obtain ⟨m, hi, hmem, hlow, hle, hhi, htab, hrest, hid, ⟨p, h0⟩, hnone, hpipes⟩ := h
  have hdir : ∀ d ∈ userDirs, pde s.mem d = 0 := fun d hd => by
    have := mem_userDirs.1 hd
    rw [hmem]
    exact hrest d (by omega) (by omega)
  have hpd : ∀ d ∈ userDirs, ¬ present (pde s.mem d) = true := fun d hd => by
    rw [hdir d hd, present_zero]
    exact Bool.noConfusion
  have hpt : ∀ p ∈ userSlots, ¬ present (pte s.mem p.1 p.2) = true := fun p hp => by
    have := hpd p.1 (mem_userSlots.1 hp).1
    rw [pte_of_not_present (by simpa using this), present_zero]
    exact Bool.noConfusion
  have hrefs : ∀ f, refs s.mem f = 0 := fun f => by
    unfold refs
    exact card_filter_eq_zero_iff.2 fun p hp hc => hpt p hp hc.1
  have hdirRefs : ∀ f, dirRefs s.mem f = 0 := fun f => by
    unfold dirRefs
    exact card_filter_eq_zero_iff.2 fun d hd hc => hpd d hd hc.1
  have hslot : ∀ nr ∈ slots, s.task nr = none := fun nr hnr => by
    have := mem_slots.1 hnr
    exact hnone nr (by omega)
  have hown : ∀ f, own s f = 0 := fun f => by
    have h1 : (slots.filter fun nr => pageAt (s.task nr) = some f).card = 0 :=
      card_filter_eq_zero_iff.2 fun nr hnr hc => by rw [hslot nr hnr] at hc; cases hc
    have h2 : (slots.filter fun nr => loadAt (s.task nr) = some f).card = 0 :=
      card_filter_eq_zero_iff.2 fun nr hnr hc => by rw [hslot nr hnr] at hc; cases hc
    unfold own
    rw [h1, h2, hpipes]
    rfl
  have hmap : ∀ f, s.mem.memMap f = if lo ≤ f ∧ f < hi then 0 else USED := fun f => by
    rw [hmem]; rfl
  have hhigh : s.mem.highMemory = hi := by rw [hmem]; rfl
  have hkernel : KernelMap s.mem := by
    rw [hmem]
    refine ⟨htab, hid, fun d h4 hd => ?_⟩
    rw [show pde (memInit m lo hi) d = 0 from hrest d h4 (by omega)]
    exact present_zero
  refine ⟨⟨hlow, by rw [hhigh]; exact hhi, hkernel, fun f _ hna => ?_, fun d hd hp => ?_,
    fun p hp hpp => ?_, fun f hf => ?_, fun f hf => ?_, fun f hx => ?_, fun p hp _ _ _ _ hc _ => ?_,
    fun p hp hpp => ?_⟩, fun d hd hp => ?_, fun nr hnr t _ _ ht => ?_, fun nr t ht => ?_, ?_⟩
  · rw [hmap, if_neg (by rw [← hhigh]; exact hna)]
    decide
  · exact absurd hp (hpd d hd)
  · exact absurd hpp (hpt p hp)
  · exact absurd (hown f) hf
  · rw [hmap, if_pos (by rw [← hhigh]; exact hf), hrefs, hdirRefs, hown]
    rfl
  · rw [hdirRefs, hown] at hx
    exact absurd rfl hx
  · exact absurd hc.1 (hpt p hp)
  · exact absurd hpp (hpt p hp)
  · exact absurd hp (hpd d hd)
  · rw [hslot nr hnr] at ht
    cases ht
  · by_cases hnr : nr = 0
    · rw [hnr, h0] at ht
      obtain rfl := Option.some.inj ht
      simp only
      omega
    · rw [hnone nr hnr] at ht
      cases ht
  · exact ⟨_, h0, rfl, rfl, rfl⟩

/-- **Every operation keeps the invariant**, and none of them panics. -/
theorem Inv.run (h : Inv lo s) {e : Op} (he : s.Enabled e) :
    Post (s.run e) (Inv lo) (fun _ => False) := by
  cases e with
  | fork nr =>
    obtain ⟨hnr, t, ht, hz, hl⟩ := he
    exact (h.fork hnr ht hz hl).mono (fun _ hs => hs.1) fun _ => id
  | exit nr =>
    obtain ⟨h1, h2, t, ht, -, hl⟩ := he
    exact h.doExit (mem_slots.2 ⟨h1, h2⟩) ht hl
  | release nr =>
    obtain ⟨h1, h2, t, ht, hz⟩ := he
    exact h.release (mem_slots.2 ⟨h1, h2⟩) ht hz
  | exec nr inode aText aData aBss =>
    obtain ⟨h1, ⟨h2, t, ht, -, hl⟩, -, hsize⟩ := he
    exact h.exec (mem_slots.2 ⟨h1, h2⟩) ht hl (by omega)
  | noPage nr offset iCount =>
    obtain ⟨⟨h1, ⟨h2, t, ht, hz, hl⟩, t', ht', ho⟩, habs⟩ := he
    rw [ht] at ht'
    obtain rfl := Option.some.inj ht'
    exact h.doNoPage (mem_slots.2 ⟨h1, h2⟩) ht hz hl ho habs
  | loaded nr content => exact h.loaded (mem_slots.2 he) content
  | wpFault nr offset =>
    obtain ⟨⟨h1, ⟨h2, t, ht, -, hl⟩, t', ht', ho⟩, hp, -⟩ := he
    rw [ht] at ht'
    obtain rfl := Option.some.inj ht'
    exact h.wpFault (mem_slots.2 ⟨h1, h2⟩) ht hl ho hp
  | verify nr address =>
    obtain ⟨h1, h2, t, ht, -, hl⟩ := he
    exact h.verify (mem_slots.2 ⟨h1, h2⟩) ht hl address
  | access nr offset store =>
    obtain ⟨⟨h1, ⟨h2, -⟩, t', ht', ho⟩, hp, hw⟩ := he
    exact Post.ok (h.access (mem_slots.2 ⟨h1, h2⟩) ht' ho hp store hw)
  | getPipe => exact Post.ok h.getPipe
  | freePipe f => exact h.freePipe he

theorem Inv.of_reachable (h : (memory lo).Reachable s) : Inv lo s :=
  h.invariant (fun _ => Inv.init) fun _ _ _ hI hs => (hI.run hs.1).of_ok hs.2

end Run

/-- **Page-frame accounting.** In every state reached by forks, page faults, write checks and exits,
with every way of running out of memory, `mem_map` counts for each allocatable frame the page-table
and directory entries that point to it and the kernel's own reference. The counts stay far below
256, no operation panics, and a frame that `get_free_page` returns is neither mapped nor owned. -/
theorem frames_accounted {lo : ℕ} {s : State} (h : (memory lo).Reachable s) :
    (∀ f, Allocatable lo s.mem f →
      (s.mem.memMap f).toNat = refs s.mem f + dirRefs s.mem f + own s f ∧ own s f ≤ 1 ∧
        (s.mem.memMap f).toNat < 64) ∧
    (∀ e, s.Enabled e → ∃ s', s.run e = .ok s') ∧
    (∀ f m, getFreePage s.mem = some (f, m) →
      refs s.mem f = 0 ∧ dirRefs s.mem f = 0 ∧ own s f = 0) := by
  have hI := Inv.of_reachable h
  refine ⟨fun f hf => ⟨hI.mem.count f hf, ?_, count_lt hI.mem hf⟩, fun e he => ?_, fun f m hg => ?_⟩
  · by_cases ho : own s f = 0
    · omega
    · have := hI.mem.exclusive f (by omega)
      omega
  · have hr := hI.run he
    cases hx : s.run e with
    | ok s' => exact ⟨s', rfl⟩
    | error p => exact (hr.of_error hx).elim
  · obtain ⟨h0, hl, -, -⟩ := getFreePage_eq_some hg
    exact (refs_eq_zero hI.mem hl h0).2

/-- A machine with 16 MB, of which the first 4 MB are the kernel's and the buffer cache. -/
def boot : State where
  mem := memInit ⟨fun f w =>
    if f = 0 then if w < 4 then entry (w + 1) else 0
    else if f ≤ 4 then entry (1024 * (f - 1) + w) else 0, fun _ => 0, 0⟩ 1024 4096
  task nr := if nr = 0 then some ⟨0, false, 0xA0000, 0xA0000, none, 0, none⟩ else none
  pipes := []

theorem boot_init : State.Init 1024 boot := by
  refine ⟨_, 4096, rfl, by decide, by decide, by decide, fun d hd => ?_, fun d h4 _ => ?_,
    fun d hd i _ => ?_, ⟨0, rfl⟩, fun nr hnr => if_neg hnr, rfl⟩
  · simp [hd]
  · simp [show ¬ d < 4 by omega]
  · simp [show d + 1 ≤ 4 by omega]

/-- The accounting after the first fork, which cannot fail. -/
theorem frames_accounted_fork : ∃ s', boot.run (.fork 0) = .ok s' ∧
    ∀ f, Allocatable 1024 s'.mem f →
      (s'.mem.memMap f).toNat = refs s'.mem f + dirRefs s'.mem f + own s' f := by
  have h0 : (memory 1024).Reachable boot := System.Reachable.start boot_init
  have hen : boot.Enabled (.fork 0) := ⟨by decide, _, rfl, rfl, rfl⟩
  obtain ⟨s', hs'⟩ := (frames_accounted h0).2.1 (.fork 0) hen
  have h1 : (memory 1024).Reachable s' := h0.next (e := .fork 0) ⟨hen, hs'⟩
  exact ⟨s', hs', fun f hf => ((frames_accounted h1).1 f hf).1⟩

end Linux011.Mm
