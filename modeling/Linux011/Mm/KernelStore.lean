import Linux011.Mm.CopyOnWrite
import Linux011.Mm.CopyProcess

/-!
# Stores of the kernel to user memory

A system call stores to the memory of its process in kernel mode, where a 386 ignores the write bit of
the page-table entry. `verify_area`, which most calls begin with, makes copies of the shared pages that
are present at that time.

1. `verifyTurns`, `verifyArea`, `put`, and the system `kernel`: what processes do, with such stores at any time.
2. `Maps`: the frames that a process can reach.
3. `Inv.put_private`, `Inv.put_shared`: a store stays private exactly if the page has one user, which is the
   test that `un_wp_page` makes.
4. `copyDir_frames`, `fork_frames`: the child of a fork has the frames of its parent.
-/

namespace Linux011.Mm

open Linux011.Count State

namespace State

/-- One turn of the loop of `verify_area`. There are no more once memory has run out. -/
def verifyPage (nr start : ℕ) (s : State) (k : ℕ) : Except Panic State :=
  if (s.task nr).any fun t => !t.zombie then s.verify nr (start + 4096 * k) else .ok s

/-- The turns of the loop of `verify_area`: `size += start & 0xfff` is an `int`, which the loop counts
down by 4096 while it is positive. -/
def verifyTurns (addr size : ℕ) : ℕ :=
  ((BitVec.ofNat 32 (size + addr % 4096)).toInt + 4095).toNat / 4096

/-- `verify_area(addr, size)` in task `nr`. -/
def verifyArea (s : State) (nr addr size : ℕ) : Except Panic State :=
  let start := addr / 4096 * 4096 + startCode nr
  (List.range (verifyTurns addr size)).foldlM (verifyPage nr start) s

/-- `put_fs_byte` and the like: a store to word `j` of the page at `offset`, when it is there. -/
def put (s : State) (nr offset j : ℕ) (v : Word) : State :=
  s.access (startCode nr + offset) (some (j, v))

/-- The test of `un_wp_page` for a page with one user. -/
def Private (s : State) (address : ℕ) : Prop :=
  lowPages ≤ pageOf (s.entryAt address) ∧ s.mem.memMap (pageOf (s.entryAt address)) = 1

/-- Process `nr` can reach the frame. Task 0 has the first 640 KB. -/
def Maps (s : State) (nr f : ℕ) : Prop :=
  if nr = 0 then f < 0xA0
  else ∃ p ∈ userSlots, p.1 / 16 = nr ∧ PointsTo (pte s.mem p.1 p.2) f

end State

/-- What may happen: an operation as before, or a part of a system call that stores to user memory. A
store to a page that is absent comes after a page fault, which is an operation of the first kind. -/
inductive CallOp
  | user (op : Op)
  | verifyArea (nr addr size : ℕ)
  | put (nr offset j : ℕ) (v : Word)

def kernel (lo : ℕ) : System State CallOp where
  init := State.Init lo
  step s e s' :=
    match e with
    | .user op => s.Enabled op ∧ s.run op = .ok s'
    | .verifyArea nr addr size => 1 ≤ nr ∧ s.Running nr ∧ s.verifyArea nr addr size = .ok s'
    | .put nr offset j v =>
      s.Accesses nr offset ∧ present (s.entryAt (startCode nr + offset)) = true ∧ s' = s.put nr offset j v

/-- The page of a store has one user. -/
def State.Allowed (s : State) : CallOp → Prop
  | .put nr offset _ _ => s.Private (startCode nr + offset)
  | _ => True

/-! ## The invariant -/

variable {lo nr : ℕ} {s s' : State} {t : Task}

/-- After `write_verify` the task is not waiting for a page. -/
theorem verify_task (ht : s.task nr = some t) (hl : t.loading = none) {address : ℕ}
    (h : s.verify nr address = .ok s') : ∃ t', s'.task nr = some t' ∧ t'.loading = none := by
  unfold State.verify at h
  cases hw : writeVerify s.mem address with
  | ok m =>
    rw [hw] at h
    cases h
    exact ⟨t, ht, hl⟩
  | error e =>
    rw [hw] at h
    cases e with
    | panic p => cases h
    | noMemory m =>
      have h : doExit { s with mem := m } nr = .ok s' := h
      unfold doExit at h
      rw [show ({ s with mem := m } : State).task nr = some t from ht] at h
      dsimp only at h
      cases hf : freeSegments m nr t with
      | error p => rw [hf] at h; cases h
      | ok m' =>
        rw [hf] at h
        cases h
        exact ⟨_, Function.update_self .., rfl⟩

/-- `verify_area` keeps the invariant. -/
theorem Inv.verifyArea (h : Inv lo s) (hnr : nr ∈ slots) (ht : s.task nr = some t)
    (hl : t.loading = none) (addr size : ℕ) :
    Post (s.verifyArea nr addr size) (Inv lo) (fun _ => False) := by
  have hloop := Post.foldRange (I := fun _ s => Inv lo s ∧ ∃ t, s.task nr = some t ∧ t.loading = none)
    (E := fun _ => False) (f := State.verifyPage nr (addr / 4096 * 4096 + startCode nr))
    (n := State.verifyTurns addr size) (fun k _ s hs => ?_) (s := s) ⟨h, t, ht, hl⟩
  · exact hloop.mono (fun _ hs => hs.1) fun _ => id
  · obtain ⟨hs, t, ht, hl⟩ := hs
    unfold State.verifyPage
    split
    · have hv := hs.verify hnr ht hl (addr / 4096 * 4096 + startCode nr + 4096 * k)
      cases hr : s.verify nr (addr / 4096 * 4096 + startCode nr + 4096 * k) with
      | ok s' => exact Post.ok ⟨hv.of_ok hr, verify_task ht hl hr⟩
      | error e => exact (hv.of_error hr).elim
    · exact Post.ok ⟨hs, t, ht, hl⟩

/-- A store to a private page keeps the invariant. -/
theorem Inv.put (h : Inv lo s) (hnr : nr ∈ slots) (ht : s.task nr = some t) {offset : ℕ}
    (ho : offset < t.dataLimit) (hp : present (s.entryAt (startCode nr + offset)) = true)
    (hpr : s.Private (startCode nr + offset)) (j : ℕ) (v : Word) : Inv lo (s.put nr offset j v) := by
  obtain ⟨hd, htab, hv⟩ := h.entry_facts hnr ht ho hp
  have hi := tblIndex_lt (startCode nr + offset)
  obtain ⟨hr, hew⟩ := h.repr.touchEntry hd hi htab hp true
  have hself := hew.self hd
  have hst := hr.storePrivate hd hi (by rw [hself, present_touch]; exact hp)
    (by rw [hself, pageOf_touch]; exact hpr.1) (by rw [hself, pageOf_touch]; exact hpr.2) j v
  rw [hself, pageOf_touch] at hst
  exact h.changePage hv hst

theorem Inv.of_kernel (h : (kernel lo).ReachableWhen State.Allowed s) : Inv lo s := by
  refine h.invariant (fun _ => Inv.init) fun s e s' hI hok hs => ?_
  cases e with
  | user op => exact (hI.run hs.1).of_ok hs.2
  | verifyArea nr addr size =>
    obtain ⟨h1, ⟨h2, t, ht, -, hl⟩, hs⟩ := hs
    exact (hI.verifyArea (mem_slots.2 ⟨h1, h2⟩) ht hl addr size).of_ok hs
  | put nr offset j v =>
    obtain ⟨⟨h1, ⟨h2, -⟩, t, ht, ho⟩, hp, rfl⟩ := hs
    exact hI.put (mem_slots.2 ⟨h1, h2⟩) ht ho hp hok j v

/-! ## What a store changes -/

section Store

variable {offset : ℕ}

/-- The store changes the frame of the page and the table of its entry. -/
theorem put_phys (s : State) (nr offset j : ℕ) (v : Word) :
    (s.put nr offset j v).mem.phys (pageOf (s.entryAt (startCode nr + offset))) j = v ∧
    ∀ f, f ≠ pageOf (s.entryAt (startCode nr + offset)) →
      f ≠ pageOf (pde s.mem (dirIndex (startCode nr + offset))) →
      (s.put nr offset j v).mem.phys f = s.mem.phys f := by
  refine ⟨Mem.write_phys_self .., fun f hf ht => funext fun k => ?_⟩
  have hf : f ≠ pageOf (pte s.mem (dirIndex (startCode nr + offset)) (tblIndex (startCode nr + offset))) := hf
  unfold State.put State.access
  dsimp only
  rw [Mem.write_phys_of_ne _ _ (.inl hf), Mem.write_phys_of_ne _ _ (.inl ht)]

/-- The entry of an access belongs to the process, and its table is not mapped by anyone. -/
theorem Inv.entry_own (h : Inv lo s) (ha : s.Accesses nr offset)
    (hp : present (s.entryAt (startCode nr + offset)) = true) :
    (dirIndex (startCode nr + offset), tblIndex (startCode nr + offset)) ∈ userSlots ∧
      dirIndex (startCode nr + offset) / 16 = nr ∧
      ∀ nr', ¬ s.Maps nr' (pageOf (pde s.mem (dirIndex (startCode nr + offset)))) := by
  obtain ⟨h1, ⟨h2, -⟩, t, ht, ho⟩ := ha
  obtain ⟨hd, htab, -⟩ := h.entry_facts (mem_slots.2 ⟨h1, h2⟩) ht ho hp
  have hpd := h.repr.present_pde hd htab
  obtain ⟨hdir, hn⟩ := dirIndex_offset h2 ho (h.limits nr t ht).2.1
  have hcount := dirCount_le (h.limits nr t ht).2.1
  refine ⟨mem_userSlots.2 ⟨hd, tblIndex_lt _⟩, by omega, fun nr' hm => ?_⟩
  unfold State.Maps at hm
  split at hm
  · have := low_le_of_alloc h.mem (h.mem.tables _ hd hpd)
    unfold lowPages at this
    omega
  · obtain ⟨p, hps, -, hpp⟩ := hm
    exact page_ne_table h.mem hps hpp.1 hd hpd hpp.2

/-- A page that is not private is the kernel's, or another process has it too. -/
theorem Inv.shared_of_not_private (h : Inv lo s) {p : ℕ × ℕ} (hps : p ∈ userSlots)
    (hp : present (pte s.mem p.1 p.2) = true) (hl : lowPages ≤ pageOf (pte s.mem p.1 p.2))
    (hmap : s.mem.memMap (pageOf (pte s.mem p.1 p.2)) ≠ 1) :
    ∃ nr' ≠ p.1 / 16, s.Maps nr' (pageOf (pte s.mem p.1 p.2)) := by
  obtain ⟨f, hf⟩ : ∃ f, f = pageOf (pte s.mem p.1 p.2) := ⟨_, rfl⟩
  rw [← hf] at hl hmap ⊢
  have hpt : PointsTo (pte s.mem p.1 p.2) f := ⟨hp, hf.symm⟩
  have halloc : Allocatable lo s.mem f := by
    rcases h.mem.pages p hps hp with hlow | ha
    · omega
    · exact hf ▸ ha
  have hcount := h.mem.count f halloc
  have hne : (s.mem.memMap f).toNat ≠ 1 := fun h1 => hmap (BitVec.eq_of_toNat_eq h1)
  have hpos : 0 < refs s.mem f := refs_pos hps hpt
  -- the count is of entries alone, so there is a second one
  have hex : dirRefs s.mem f + own s f = 0 := by
    by_contra hx
    have := h.mem.exclusive f hx
    omega
  have htwo : 1 < (userSlots.filter fun p => PointsTo (pte s.mem p.1 p.2) f).card := by
    change 1 < refs s.mem f
    omega
  obtain ⟨q, hq, hqp⟩ := Finset.exists_mem_ne htwo p
  obtain ⟨hqs, hqf⟩ := Finset.mem_filter.1 hq
  -- and it is at the same place of another slot
  obtain ⟨hd, hi⟩ := h.mem.offset p hps q hqs f hl hpt hqf
  have hq16 := mem_userDirs.1 (mem_userSlots.1 hqs).1
  have hslot : q.1 / 16 ≠ p.1 / 16 := fun he => hqp (Prod.ext (by omega) hi.symm)
  refine ⟨q.1 / 16, hslot, ?_⟩
  unfold State.Maps
  rw [if_neg (by omega)]
  exact ⟨q, hqs, rfl, hqf⟩

/-- A store to a private page changes no frame of another process. -/
theorem Inv.put_private (h : Inv lo s) (ha : s.Accesses nr offset)
    (hp : present (s.entryAt (startCode nr + offset)) = true) (hpr : s.Private (startCode nr + offset))
    (j : ℕ) (v : Word) {nr' f : ℕ} (hne : nr' ≠ nr) (hf : s.Maps nr' f) :
    (s.put nr offset j v).mem.phys f = s.mem.phys f := by
  obtain ⟨hps, hslot, htab⟩ := h.entry_own ha hp
  refine (put_phys s nr offset j v).2 f ?_ ?_
  · rintro rfl
    unfold State.Maps at hf
    split at hf
    · have := hpr.1
      unfold lowPages at this
      omega
    · obtain ⟨q, hqs, hq, hqf⟩ := hf
      have he := eq_of_memMap_one h.mem hpr.1 hpr.2 hqs hps hqf ⟨hp, rfl⟩
      rw [he] at hq
      exact hne (hq.symm.trans hslot)
  · rintro rfl
    exact htab nr' hf

/-- The frame of one that is not private is the kernel's or another process's too. -/
theorem Inv.put_shared (h : Inv lo s) (ha : s.Accesses nr offset)
    (hp : present (s.entryAt (startCode nr + offset)) = true)
    (hpr : ¬ s.Private (startCode nr + offset)) :
    pageOf (s.entryAt (startCode nr + offset)) < lowPages ∨
      ∃ nr' ≠ nr, s.Maps nr' (pageOf (s.entryAt (startCode nr + offset))) := by
  obtain ⟨hps, hslot, -⟩ := h.entry_own ha hp
  by_cases hl : lowPages ≤ pageOf (s.entryAt (startCode nr + offset))
  · right
    have hsh := h.shared_of_not_private hps hp hl fun h1 => hpr ⟨hl, h1⟩
    rw [hslot] at hsh
    exact hsh
  · exact .inl (Nat.lt_of_not_le hl)

end Store

/-! ## The frames of a child -/

section Frames

variable {m : Mem} {a : Space} {ft tt fd td n c : ℕ}

/-- The inner loop of `copy_page_tables` puts the frame of each entry into the other table. -/
theorem copyEntries_target (hne : ft ≠ tt) (m : Mem) (n : ℕ) :
    ∀ j < n, present (m.phys ft j) = true →
      PointsTo (((List.range n).foldl (copyEntry ft tt) m).phys tt j) (pageOf (m.phys ft j)) := by
  refine (foldRange_invariant (I := fun k m' => Copied m m' ft tt k ∧
    ∀ j < k, present (m.phys ft j) = true → PointsTo (m'.phys tt j) (pageOf (m.phys ft j)))
    (fun k _ m' hI => ⟨hI.1.next hne, fun j hj hp => ?_⟩)
    ⟨⟨rfl, fun _ _ _ => rfl, fun _ => .inl rfl, fun _ => .inl rfl⟩, fun _ hj => by omega⟩).2
  obtain ⟨hc, ht⟩ := hI
  have hother : j ≠ k → PointsTo (m'.phys tt j) (pageOf (m.phys ft j)) := fun hjk =>
    ht j (by omega) hp
  have hsource : present (m'.phys ft j) = true ∧ pageOf (m'.phys ft j) = pageOf (m.phys ft j) := by
    rcases hc.source j with he | ⟨-, -, -, he⟩
    · rw [he]
      exact ⟨hp, rfl⟩
    · rw [he, present_protect, pageOf_protect]
      exact ⟨hp, rfl⟩
  -- The store to `tt`, before the one to `ft`.
  have hwrite : PointsTo ((m'.write tt k (protect (m'.phys ft k))).phys tt j)
      (pageOf (m.phys ft j)) := by
    by_cases hjk : j = k
    · subst hjk
      rw [Mem.write_phys_self]
      exact ⟨by rw [present_protect]; exact hsource.1, by rw [pageOf_protect]; exact hsource.2⟩
    · rw [Mem.write_phys_of_ne _ _ (.inr hjk)]
      exact hother hjk
  unfold copyEntry
  split_ifs with h1
  · simp only
    split_ifs
    · rw [Mem.setMap_phys, Mem.write_phys_of_ne _ _ (.inl hne.symm)]
      exact hwrite
    · exact hwrite
  · apply hother
    rintro rfl
    exact h1 hsource.1

/-- After a turn of `copy_page_tables` the two tables have the same frames. -/
theorem copyDir_frames (h : Repr lo m a) (hpair : CopyPair fd td n) (hfd : fd ∈ userDirs)
    (htd : td ∈ userDirs) (hslot : fd / 16 ≠ td / 16) (ht : a.table td = false) :
    Post (copyDir fd td n m) (fun m' => ∀ i < n, present (pte m fd i) = true →
      PointsTo (pte m' td i) (pageOf (pte m fd i)) ∧
        PointsTo (pte m' fd i) (pageOf (pte m fd i))) fun _ => True := by
  have hne : fd ≠ td := fun he => hslot (by rw [he])
  have hkept := copyDir_kept h hpair htd ht rfl rfl
  have htarget : Post (copyDir fd td n m) (fun m' => ∀ i < n, present (pte m fd i) = true →
      PointsTo (pte m' td i) (pageOf (pte m fd i))) fun _ => True := by
    unfold copyDir
    split_ifs with h1 h2
    · exact Post.error trivial
    · cases hg : getFreePage m with
      | none => exact Post.error trivial
      | some r =>
        obtain ⟨f, m₁⟩ := r
        obtain ⟨hn, hf, hpde⟩ := h.newTable htd ht hg
        have hk := newTable_kept (fd / 16 + 1) h (show td / 16 = td / 16 from rfl) hg (entry f)
        obtain ⟨m₂, hm₂⟩ : ∃ m₂, m₂ = m₁.write 0 td (entry f) := ⟨_, rfl⟩
        simp only
        rw [← hm₂] at hn hf hpde hk ⊢
        have hpf : present (pde m₂ fd) = true := by rw [hpde fd hne]; exact h2
        have hpt := hn.present_pde htd (by simp [Space.addTable])
        have htab : pageOf (pde m₂ fd) ≠ f := by
          rw [← hf]
          exact fun he => hne (table_inj hn.inv hfd htd hpf hpt he)
        have hentry : ∀ i, pte m fd i = m₂.phys (pageOf (pde m fd)) i := fun i => by
          rw [← hpde fd hne, ← pte_of_present hpf]
          exact ((hk.entries fd hfd hslot i).resolve_right fun hc => by omega).symm
        rw [hpde fd hne] at htab
        refine Post.ok fun i hi hp => ?_
        have hloop := Copied.loop htab m₂ n
        have hlow := table_low hn.inv hfd hpf
        have hlow' := table_low hn.inv htd hpt
        rw [hpde fd hne] at hlow
        rw [hf] at hlow'
        unfold lowPages at hlow hlow'
        have hdir : pde ((List.range n).foldl (copyEntry (pageOf (pde m fd)) f) m₂) td =
            pde m₂ td := congrFun (hloop.other 0 (by omega) (by omega)) td
        rw [pte_of_present (by rw [hdir]; exact hpt), hdir, hf]
        rw [hentry] at hp ⊢
        exact copyEntries_target htab m₂ n i hi hp
    · -- Without a table the parent has no pages there.
      refine Post.ok fun i _ hp => ?_
      have h2 : present (pde m fd) = false := by simpa using h2
      rw [pte_of_not_present h2, present_zero] at hp
      cases hp
  refine (htarget.and hkept).mono (fun m' hm i hi hp => ⟨hm.1 i hi hp, ?_⟩) fun _ _ => trivial
  rcases hm.2.entries fd hfd hslot i with he | ⟨-, -, he⟩
  · rw [he]
    exact ⟨hp, rfl⟩
  · rw [he]
    exact ⟨by rw [present_protect]; exact hp, pageOf_protect _⟩

/-- After a fork of a process with one page table the child has the frames of the parent. -/
theorem Inv.fork_frames (h : Inv lo s) (hnr : nr ∈ slots) (ht : s.task nr = some t)
    (hfe : s.findEmptyProcess = some c) (hone : dirCount t.dataLimit = 1) :
    Post (s.fork nr) (fun s' => s'.task = s.task ∨
      ∀ i < 1024, present (pte s.mem (16 * nr) i) = true →
        PointsTo (pte s'.mem (16 * c) i) (pageOf (pte s.mem (16 * nr) i)) ∧
          PointsTo (pte s'.mem (16 * nr) i) (pageOf (pte s.mem (16 * nr) i))) fun _ => True := by
  obtain ⟨hc, he⟩ := findEmptyProcess_eq_some hfe
  have hs := mem_slots.1 hnr
  have hsc := mem_slots.1 hc
  have hne : nr ≠ c := by
    rintro rfl
    rw [ht] at he
    cases he
  unfold State.fork
  rw [ht, hfe]
  simp only
  cases hg : getFreePage s.mem with
  | none => exact Post.ok (.inl rfl)
  | some r =>
    obtain ⟨p, m⟩ := r
    obtain ⟨hm, hsame, -⟩ := h.repr.getFreePage hg
    simp only
    split_ifs
    · exact Post.error trivial
    · have hfd : 16 * nr ∈ userDirs := mem_userDirs.2 (by omega)
      have htd : 16 * c ∈ userDirs := mem_userDirs.2 (by omega)
      have hdir := copyDir_frames hm (.inl ⟨hfd, by omega, by omega, rfl⟩) hfd htd (by omega)
        (h.table_of_empty hc he (k := 0) (by omega))
      have hcopy : copyPageTables m (startCode nr) (startCode c) t.dataLimit =
          copyDir (16 * nr) (16 * c) 1024 m := by
        unfold copyPageTables startCode
        rw [if_neg (by omega), dirIndex_slot hs.2, dirIndex_slot hsc.2, hone, if_neg (by omega)]
        show (copyDir (16 * nr) (16 * c) 1024 m >>= fun m => pure m) = _
        rw [bind_pure]
      rw [hcopy]
      cases hr : copyDir (16 * nr) (16 * c) 1024 m with
      | ok m' =>
        refine Post.ok (.inr fun i hi hp => ?_)
        rw [← hsame.entries _ hfd i] at hp ⊢
        exact hdir.of_ok hr i hi hp
      | error e =>
        cases e with
        | panic p => exact Post.error trivial
        | noMemory m' =>
          refine Post.bind (Q := fun _ => True) ?_ fun m₁ _ => ?_
          · cases freePageTables m' (startCode c) t.dataLimit with
            | ok m₁ => exact Post.ok trivial
            | error e => exact Post.error trivial
          · cases hf : freePage m₁ p with
            | error e => exact Post.error trivial
            | ok m₂ => exact Post.ok (.inl rfl)

end Frames

/-! ## Two processes -/

theorem run_fork (s : State) (nr : ℕ) : s.run (.fork nr) = s.fork nr := rfl

theorem kernel_user {ok : State → CallOp → Prop} (hok : ∀ s op, ok s (.user op))
    (hs : (kernel lo).ReachableWhen ok s) (h : Inv lo s) {op : Op} (he : s.Enabled op) :
    (kernel lo).ReachableWhen ok (s.after op) ∧ Inv lo (s.after op) := by
  have hr := h.run_after he
  exact ⟨.step hs (hok s op) ⟨he, hr⟩, (h.run he).of_ok hr⟩

/-- Process 1 after its first store, and what comes of a fork of it. -/
theorem written_states :
    ((((written.task 1).map fun t => (t.zombie, t.loading, t.dataLimit)) =
        some (false, none, 0xA0000) ∧ written.findEmptyProcess = some 2) ∧
      present (pte written.mem 16 5) = true ∧
      lowPages ≤ pageOf (pte written.mem 16 5) ∧
      written.mem.phys (pageOf (pte written.mem 16 5)) 1 ≠ 1) ∧
    ((written.after (.fork 1)).task 2).isSome = true := by decide +kernel

theorem written_reachable {ok : State → CallOp → Prop} (hok : ∀ s op, ok s (.user op)) :
    (kernel 1024).ReachableWhen ok written ∧ Inv 1024 written := by
  have h0 : (kernel 1024).ReachableWhen ok boot := .init boot_init
  have h1 : (kernel 1024).ReachableWhen ok forked ∧ Inv 1024 forked := by
    unfold forked
    exact kernel_user hok h0 (Inv.init boot_init) boot_enabled
  exact kernel_user hok h1.1 h1.2 forked_enabled

theorem written_inv : Inv 1024 written :=
  have h : (kernel 1024).ReachableWhen State.Allowed written ∧ Inv 1024 written :=
    written_reachable fun _ _ => trivial
  h.2

theorem entryAt_page (s : State) : s.entryAt (startCode 1 + 0x5000) = pte s.mem 16 5 := rfl

/-- The page at `0x5000` has a frame that no other process has, and its word 1 is not 1. -/
theorem written_page :
    (((written.task 1).map fun t => (t.zombie, t.loading, t.dataLimit)) =
        some (false, none, 0xA0000) ∧ written.findEmptyProcess = some 2) ∧
    present (pte written.mem 16 5) = true ∧
    lowPages ≤ pageOf (pte written.mem 16 5) ∧
    written.mem.phys (pageOf (pte written.mem 16 5)) 1 ≠ 1 :=
  written_states.1

theorem written_task : ∃ t, written.task 1 = some t ∧ t.zombie = false ∧ t.loading = none ∧
    t.dataLimit = 0xA0000 := by
  obtain ⟨t, ht, hf⟩ := Option.map_eq_some_iff.1 written_page.1.1
  simp only [Prod.mk.injEq] at hf
  exact ⟨t, ht, hf⟩

theorem written_accesses : written.Accesses 1 0x5000 ∧
    present (written.entryAt (startCode 1 + 0x5000)) = true := by
  obtain ⟨t, ht, hz, hl, hlim⟩ := written_task
  exact ⟨⟨by decide, ⟨by decide, t, ht, hz, hl⟩, t, ht, by rw [hlim]; decide⟩,
    by rw [entryAt_page]; exact written_page.2.1⟩

/-- The frame of the page, after process 1 forks: both have it, and the store has not been made. -/
theorem written_fork {s : State} (hs : written.fork 1 = .ok s) (h2 : (s.task 2).isSome = true) :
    (∃ p t, s.task 2 = some { t with page := p } ∧ written.task 1 = some t) ∧
    ∃ f, PointsTo (pte s.mem 32 5) f ∧ PointsTo (pte s.mem 16 5) f ∧ s.mem.phys f 1 ≠ 1 := by
  obtain ⟨t, ht, hz, hl, hlim⟩ := written_task
  have hI := written_inv
  obtain ⟨⟨-, hfe⟩, hp, hl5, hw⟩ := written_page
  have hnone : written.task 2 = none := (findEmptyProcess_eq_some hfe).2
  have hne : s.task ≠ written.task := by
    intro he
    rw [he, hnone] at h2
    cases h2
  have hslot : 1 ∈ slots := mem_slots.2 (by decide)
  have hframes := ((hI.fork_frames hslot ht hfe (by rw [hlim]; rfl)).of_ok hs).resolve_left hne
  obtain ⟨hchild, hparent⟩ := hframes 5 (by decide) hp
  obtain ⟨c, hc, hf⟩ := ((hI.fork (by decide) ht hz hl).of_ok hs).2.resolve_left hne
  obtain rfl : 2 = c := Option.some.inj (hfe.symm.trans hc)
  obtain ⟨⟨t', p, ht', htask⟩, hview⟩ := hf hslot
  refine ⟨⟨p, t', by rw [htask, Function.update_self], ht'⟩, _, hchild, hparent, ?_⟩
  -- Both pages look as the page of process 1 did.
  have hsame := hview 32 (mem_userDirs.2 (by decide)) 5 (by decide)
  rw [if_pos (by decide), show 16 * 1 + 32 % 16 = 16 from rfl] at hsame
  unfold view at hsame
  rw [look_page hchild.1 (by rw [hchild.2]; exact hl5), look_page hp hl5, hchild.2] at hsame
  rw [PageView.page.inj hsame]
  exact hw

/-- Process 1 forks after it has written a page, and the child calls `pipe` with an array in that page:
`sys_pipe` does not verify it, and the second descriptor is stored in the page of both. -/
theorem pipe_store_shared : ∃ s s', (kernel 1024).Reachable s ∧
    (kernel 1024).step s (.put 2 0x5000 1 1) s' ∧
    ∃ f, s.Maps 1 f ∧ s'.mem.phys f ≠ s.mem.phys f := by
  obtain ⟨t, ht, hz, hl, hlim⟩ := written_task
  have hfork : written.Enabled (.fork 1) := ⟨by decide, t, ht, hz, hl⟩
  obtain ⟨hw, hI⟩ : (kernel 1024).Reachable written ∧ Inv 1024 written :=
    written_reachable fun _ _ => trivial
  obtain ⟨hs, -⟩ := kernel_user (fun _ _ => trivial) hw hI hfork
  have hok := hI.run_after hfork
  rw [run_fork] at hok
  have h2 := written_states.2
  obtain ⟨s, hs'⟩ : ∃ s, s = written.after (.fork 1) := ⟨_, rfl⟩
  rw [← hs'] at hs hok h2
  obtain ⟨⟨p, t', ht2, ht'⟩, f, hchild, hparent, hne⟩ := written_fork hok h2
  rw [ht] at ht'
  obtain rfl := Option.some.inj ht'
  have ha : s.Accesses 2 0x5000 :=
    ⟨by decide, ⟨by decide, _, ht2, hz, hl⟩, _, ht2, by rw [hlim]; decide⟩
  refine ⟨s, _, hs, ⟨ha, hchild.1, rfl⟩, f, ?_, fun he => hne ?_⟩
  · unfold State.Maps
    rw [if_neg (by decide)]
    exact ⟨(16, 5), mem_userSlots.2 ⟨mem_userDirs.2 (by decide), by decide⟩, by decide, hparent⟩
  · have hput := (put_phys s 2 0x5000 1 1).1
    rw [show pageOf (s.entryAt (startCode 2 + 0x5000)) = f from hchild.2, he] at hput
    exact hput

end Linux011.Mm
