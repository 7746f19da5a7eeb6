import Linux011.Mm.Directory

/-!
# A fork that fails

`copy_process` with what it counts, and what is left where `get_free_page` finds nothing.

1. `copyMem`, `copyProcess`.
2. `Kept`: nothing but a slot's own directory entries, the counts of frames, and write bits of
   another slot have changed. `Repr.copyDir_kept` and `Repr.freeDir_kept`: a turn of the copy and one
   of the clean-up.
3. `copyProcess_fails_clean`.
-/

namespace Linux011.Mm

/-! ## The code -/

def EAGAIN : ℤ := 11

/-- The pointers of a `task_struct` to files and inodes; `executable` is a field of `Task`. -/
structure Refs where
  filp : List (Option ℕ)
  pwd : Option ℕ
  root : Option ℕ

/-- Memory and tasks, with the references of each task, and the counts of files and inodes. -/
structure Kernel extends State where
  refs : ℕ → Refs
  fCount : ℕ → BitVec 16
  iCount : ℕ → BitVec 16
  lastPid : ℤ

/-- `if (x) x->count++`. -/
def countUp (count : ℕ → BitVec 16) : Option ℕ → ℕ → BitVec 16
  | none => count
  | some x => Function.update count x (count x + 1)

/-- `copy_mem`; `true` where it returns `-ENOMEM`. -/
def copyMem (m : Mem) (cur nr : ℕ) (t : Task) : Except Panic (Bool × Mem) :=
  if t.dataLimit < t.codeLimit then .error .badDataLimit
  else
    match copyPageTables m (State.startCode cur) (State.startCode nr) t.dataLimit with
    | .ok m => .ok (false, m)
    | .error (.panic e) => .error e
    | .error (.noMemory m) => do
      let m ← freePageTables m (State.startCode nr) t.dataLimit
      return (true, m)

/-- `copy_process` of the process in slot `cur` into slot `nr`. -/
def copyProcess (k : Kernel) (cur nr : ℕ) : Except Panic (ℤ × Kernel) :=
  match k.task cur with
  | none => .ok (0, k)
  | some t =>
    match getFreePage k.mem with
    | none => .ok (-EAGAIN, k)
    | some (p, m) => do
      let task := Function.update k.task nr (some { t with page := p })
      let refs := Function.update k.refs nr (k.refs cur)
      let (failed, m) ← copyMem m cur nr t
      if failed then do
        let m ← freePage m p
        return (-EAGAIN,
          { k with mem := m, task := Function.update task nr none, refs := refs })
      else
        return (k.lastPid,
          { k with
            mem := m
            task := task
            refs := refs
            fCount := (k.refs cur).filp.foldl countUp k.fCount
            iCount := countUp (countUp (countUp k.iCount (k.refs cur).pwd) (k.refs cur).root)
              t.executable })

/-! ## What the loops change -/

section Loops

variable {m m' : Mem} {ft tt t n : ℕ}

/-- Between `m` and `m'` the table `tt` was written, and entries of `ft` lost their write bit and
were counted. -/
structure Copied (m m' : Mem) (ft tt n : ℕ) : Prop where
  high : m'.highMemory = m.highMemory
  other : ∀ g, g ≠ ft → g ≠ tt → m'.phys g = m.phys g
  source : ∀ j, m'.phys ft j = m.phys ft j ∨ j < n ∧ present (m.phys ft j) = true ∧
    lowPages ≤ pageOf (m.phys ft j) ∧ m'.phys ft j = protect (m.phys ft j)
  map : ∀ f, m'.memMap f = m.memMap f ∨ ∃ j < n, PointsTo (m.phys ft j) f ∧ lowPages ≤ f

theorem protect_protect (e : Word) : protect (protect e) = protect e := by
  unfold protect
  rw [BitVec.and_assoc, BitVec.and_self]

/-- One more entry is copied. -/
theorem Copied.next (h : Copied m m' ft tt n) (hne : ft ≠ tt) :
    Copied m (copyEntry ft tt m' n) ft tt (n + 1) := by
  have hsame : present (m'.phys ft n) = present (m.phys ft n) ∧
      pageOf (m'.phys ft n) = pageOf (m.phys ft n) ∧
      protect (m'.phys ft n) = protect (m.phys ft n) := by
    rcases h.source n with he | ⟨-, -, -, he⟩
    · rw [he]; exact ⟨rfl, rfl, rfl⟩
    · rw [he, present_protect, pageOf_protect, protect_protect]; exact ⟨rfl, rfl, rfl⟩
  obtain ⟨hp, hf, hw⟩ := hsame
  have hsource : ∀ j, m'.phys ft j = m.phys ft j ∨ j < n + 1 ∧ present (m.phys ft j) = true ∧
      lowPages ≤ pageOf (m.phys ft j) ∧ m'.phys ft j = protect (m.phys ft j) := fun j =>
    (h.source j).imp_right fun ⟨hj, hr⟩ => ⟨by omega, hr⟩
  have hmap : ∀ f, m'.memMap f = m.memMap f ∨
      ∃ j < n + 1, PointsTo (m.phys ft j) f ∧ lowPages ≤ f := fun f =>
    (h.map f).imp_right fun ⟨j, hj, hr⟩ => ⟨j, by omega, hr⟩
  unfold copyEntry
  rw [hw]
  by_cases hpres : present (m.phys ft n) = true
  · rw [if_pos (hp.trans hpres)]
    simp only
    by_cases hlow : lowPages ≤ pageOf (m.phys ft n)
    · rw [if_pos ((lowMem_lt_iff (by rw [present_protect]; exact hpres)).2
        (by rw [pageOf_protect]; exact hlow)), pageOf_protect]
      refine ⟨h.high, fun g h1 h2 => ?_, fun j => ?_, fun f => ?_⟩
      · funext j
        show ((m'.write tt n _).write ft n _).phys g j = _
        rw [Mem.write_phys_of_ne _ _ (.inl h1), Mem.write_phys_of_ne _ _ (.inl h2), h.other g h1 h2]
      · show ((m'.write tt n _).write ft n _).phys ft j = _ ∨
          _ ∧ _ ∧ _ ∧ ((m'.write tt n _).write ft n _).phys ft j = _
        by_cases hj : j = n
        · subst hj
          rw [Mem.write_phys_self]
          exact .inr ⟨by omega, hpres, hlow, rfl⟩
        · rw [Mem.write_phys_of_ne _ _ (.inr hj), Mem.write_phys_of_ne _ _ (.inl hne)]
          exact hsource j
      · by_cases hff : f = pageOf (m.phys ft n)
        · exact .inr ⟨n, by omega, ⟨hpres, hff.symm⟩, by omega⟩
        · rw [Mem.setMap_memMap, Function.update_of_ne hff]
          exact hmap f
    · rw [if_neg (fun hc => hlow (by
        rw [← pageOf_protect]
        exact (lowMem_lt_iff (by rw [present_protect]; exact hpres)).1 hc))]
      refine ⟨h.high, fun g h1 h2 => ?_, fun j => ?_, hmap⟩
      · funext j
        rw [Mem.write_phys_of_ne _ _ (.inl h2), h.other g h1 h2]
      · rw [Mem.write_phys_of_ne _ _ (.inl hne)]
        exact hsource j
  · rw [if_neg (by rw [hp]; exact hpres)]
    exact ⟨h.high, h.other, hsource, hmap⟩

theorem Copied.loop (hne : ft ≠ tt) (m : Mem) (n : ℕ) :
    Copied m ((List.range n).foldl (copyEntry ft tt) m) ft tt n :=
  foldRange_invariant (I := fun k m' => Copied m m' ft tt k) (fun _ _ _ h => h.next hne)
    ⟨rfl, fun _ _ _ => rfl, fun _ => .inl rfl, fun _ => .inl rfl⟩

/-- Between `m` and `m'` the first `n` entries of table `t` were freed. -/
structure Emptied (m m' : Mem) (t n : ℕ) : Prop where
  high : m'.highMemory = m.highMemory
  other : ∀ g, g ≠ t → m'.phys g = m.phys g
  rest : ∀ j, n ≤ j → m'.phys t j = m.phys t j
  map : ∀ f, m'.memMap f = m.memMap f ∨ ∃ j < n, PointsTo (m.phys t j) f ∧ lowPages ≤ f

/-- `free_page` changes one count, if any. -/
theorem freePage_map {f : ℕ} (h : freePage m f = .ok m') :
    m'.highMemory = m.highMemory ∧
      ∀ g, m'.memMap g = m.memMap g ∨ g = f ∧ lowPages ≤ f := by
  unfold freePage at h
  split_ifs at h with hl
  · cases h
    exact ⟨rfl, fun _ => .inl rfl⟩
  · cases h
    refine ⟨rfl, fun g => ?_⟩
    by_cases hg : g = f
    · exact .inr ⟨hg, by omega⟩
    · exact .inl (Function.update_of_ne hg _ _)

theorem Emptied.next (h : Emptied m m' t n) :
    Post (freeEntry t m' n) (fun m'' => Emptied m m'' t (n + 1)) fun _ => True := by
  have hmap : ∀ f, m'.memMap f = m.memMap f ∨
      ∃ j < n + 1, PointsTo (m.phys t j) f ∧ lowPages ≤ f := fun f =>
    (h.map f).imp_right fun ⟨j, hj, hr⟩ => ⟨j, by omega, hr⟩
  have hwrite : ∀ {m₁ : Mem}, m₁.phys = m'.phys → m₁.highMemory = m'.highMemory →
      (∀ f, m₁.memMap f = m.memMap f ∨ ∃ j < n + 1, PointsTo (m.phys t j) f ∧ lowPages ≤ f) →
      Emptied m (m₁.write t n 0) t (n + 1) := by
    intro m₁ hphys hhigh hmap
    refine ⟨hhigh.trans h.high, fun g hg => ?_, fun j hj => ?_, hmap⟩
    · funext j
      rw [Mem.write_phys_of_ne _ _ (.inl hg), hphys, h.other g hg]
    · rw [Mem.write_phys_of_ne _ _ (.inr (by omega)), hphys, h.rest j (by omega)]
  unfold freeEntry
  split_ifs with hp
  · cases hf : freePage m' (pageOf (m'.phys t n)) with
    | error e => exact Post.error trivial
    | ok m₁ =>
      obtain ⟨hhigh, hone⟩ := freePage_map hf
      refine Post.ok (hwrite (freePage_phys hf) hhigh fun f => ?_)
      rcases hone f with he | ⟨rfl, hl⟩
      · rw [he]
        exact hmap f
      · rw [h.rest n le_rfl] at hp hl ⊢
        exact .inr ⟨n, by omega, ⟨hp, rfl⟩, hl⟩
  · exact Post.ok (hwrite rfl rfl hmap)

theorem Emptied.loop (m : Mem) (t n : ℕ) :
    Post ((List.range n).foldlM (freeEntry t) m) (fun m' => Emptied m m' t n) fun _ => True :=
  Post.foldRange (I := fun k m' => Emptied m m' t k) (fun _ _ _ h => h.next)
    ⟨rfl, fun _ _ => rfl, fun _ _ => rfl, fun _ => .inl rfl⟩

end Loops

/-! ## What stays -/

/-- Between `m` and `m'` the slots other than `c` keep their tables and pages; those of `cur` may
have lost write bits. Only counts of allocatable frames have changed. -/
structure Kept (lo cur c : ℕ) (m m' : Mem) : Prop where
  high : m'.highMemory = m.highMemory
  dirs : ∀ d, d / 16 ≠ c → pde m' d = pde m d
  entries : ∀ d ∈ userDirs, d / 16 ≠ c → ∀ i,
    pte m' d i = pte m d i ∨
      d / 16 = cur ∧ present (pte m d i) = true ∧ pte m' d i = protect (pte m d i)
  map : ∀ f, ¬ Allocatable lo m f → m'.memMap f = m.memMap f

section Kept

variable {lo cur c : ℕ} {m m' m'' : Mem} {a : Space} {d fd td f nr : ℕ}

theorem Kept.refl (lo cur c : ℕ) (m : Mem) : Kept lo cur c m m :=
  ⟨rfl, fun _ _ => rfl, fun _ _ _ _ => .inl rfl, fun _ _ => rfl⟩

theorem Kept.trans (h : Kept lo cur c m m') (h' : Kept lo cur c m' m'') : Kept lo cur c m m'' := by
  refine ⟨h'.high.trans h.high, fun d hd => (h'.dirs d hd).trans (h.dirs d hd),
    fun d hd hc i => ?_, fun f hf => (h'.map f ?_).trans (h.map f hf)⟩
  · rcases h.entries d hd hc i with h1 | ⟨hcur, hp, h1⟩
    · rw [← h1]
      exact h'.entries d hd hc i
    · rcases h'.entries d hd hc i with h2 | ⟨-, -, h2⟩
      · exact .inr ⟨hcur, hp, h2.trans h1⟩
      · exact .inr ⟨hcur, hp, by rw [h2, h1, protect_protect]⟩
  · unfold Allocatable at hf ⊢
    rwa [h.high]

/-- A frame is taken. -/
theorem getFreePage_kept (cur c : ℕ) (h : Repr lo m a) (hg : getFreePage m = some (f, m')) :
    Kept lo cur c m m' := by
  obtain ⟨h', hs, -⟩ := h.getFreePage hg
  obtain ⟨hf, -⟩ := owner_facts h'.held
  obtain ⟨-, -, -, rfl⟩ := getFreePage_eq_some hg
  refine ⟨rfl, fun d _ => hs.dirs d, fun d hd _ i => .inl (hs.entries d hd i), fun g hga => ?_⟩
  have hgf : g ≠ f := by
    rintro rfl
    exact hga hf
  rw [Mem.fill_memMap, Mem.setMap_memMap, Function.update_of_ne hgf]

/-- A frame the kernel holds is given back. -/
theorem freePage_kept (cur c : ℕ) (h : Repr lo m (a.hold f)) (hf : freePage m f = .ok m') :
    Kept lo cur c m m' := by
  obtain ⟨ha, -⟩ := owner_facts h.held
  obtain ⟨hhigh, hmap⟩ := freePage_map hf
  have hpde : ∀ d, pde m' d = pde m d := fun d => by unfold pde; rw [freePage_phys hf]
  refine ⟨hhigh, fun d _ => hpde d, fun d _ _ i => .inl ?_, fun g hg => ?_⟩
  · unfold pte
    rw [hpde, freePage_phys hf]
  · rcases hmap g with he | ⟨rfl, -⟩
    · exact he
    · exact absurd ha hg

/-- The pages of a table are allocatable or low. -/
theorem points_alloc (h : Repr lo m a) (hd : d ∈ userDirs) (hp : present (pde m d) = true)
    {j : ℕ} (hj : j < 1024) (hpt : PointsTo (m.phys (pageOf (pde m d)) j) f) (hl : lowPages ≤ f) :
    Allocatable lo m f := by
  rw [← pte_of_present hp] at hpt
  obtain ⟨hpres, rfl⟩ := hpt
  exact (h.inv.pages (d, j) (mem_userSlots.2 ⟨hd, hj⟩) hpres).resolve_left (by simp only; omega)

/-- A new table is put into the directory. -/
theorem newTable_kept (cur : ℕ) (h : Repr lo m a) (hd : d / 16 = c) (hg : getFreePage m = some (f, m'))
    (w : Word) : Kept lo cur c m (m'.write 0 d w) := by
  have hk := getFreePage_kept cur c h hg
  obtain ⟨-, hs, -⟩ := h.getFreePage hg
  have hdirs : ∀ d', d' / 16 ≠ c → pde (m'.write 0 d w) d' = pde m' d' := fun d' hc => by
    unfold pde
    rw [Mem.write_phys_of_ne _ _ (.inr (by rintro rfl; exact hc hd))]
  refine ⟨hk.high, fun d' hc => (hdirs d' hc).trans (hk.dirs d' hc), fun d' hd' hc i => .inl ?_,
    hk.map⟩
  rw [← hs.entries d' hd' i]
  unfold pte
  rw [hdirs d' hc]
  by_cases hp : present (pde m' d') = true
  · have hlow := table_low h.inv hd' (by rw [← hs.dirs]; exact hp)
    rw [← hs.dirs] at hlow
    unfold lowPages at hlow
    rw [if_pos hp, if_pos hp, Mem.write_phys_of_ne _ _ (.inl (by omega))]
  · rw [if_neg hp, if_neg hp]

/-- The entries of a table are copied to a new one. -/
theorem copyLoop_kept (h : Repr lo m a) (hpair : CopyPair fd td nr) (htd : td ∈ userDirs)
    (ht : a.table td = true) (hp : present (pde m fd) = true) (hcur : fd / 16 = cur)
    (hc : td / 16 = c) :
    Kept lo cur c m
      ((List.range nr).foldl (copyEntry (pageOf (pde m fd)) (pageOf (pde m td))) m) := by
  have hptd := h.present_pde htd ht
  have hlow := table_low h.inv htd hptd
  have hkernel : fd = 0 → pageOf (pde m fd) = 1 := by
    rintro rfl
    rw [h.inv.kernel.table 0 (by decide), pageOf_entry (by decide)]
  unfold lowPages at hlow
  have hft : pageOf (pde m fd) ≠ 0 := by
    rcases hpair with ⟨hfd, -⟩ | ⟨h0, -⟩
    · have := table_low h.inv hfd hp
      unfold lowPages at this
      omega
    · rw [hkernel h0]
      decide
  have hne : pageOf (pde m fd) ≠ pageOf (pde m td) := by
    rcases hpair with ⟨hfd, hfdtd, -⟩ | ⟨h0, -⟩
    · exact fun he => hfdtd (table_inj h.inv hfd htd hp hptd he)
    · rw [hkernel h0]
      omega
  obtain ⟨m', hm'⟩ : ∃ m', m' =
      (List.range nr).foldl (copyEntry (pageOf (pde m fd)) (pageOf (pde m td))) m := ⟨_, rfl⟩
  have hcopied := Copied.loop hne m nr
  rw [← hm'] at hcopied ⊢
  have hdirs : ∀ d, pde m' d = pde m d := fun d => by
    unfold pde
    rw [hcopied.other 0 hft.symm (by omega)]
  refine ⟨hcopied.high, fun d _ => hdirs d, fun d hd hdc i => ?_, fun f hf => ?_⟩
  · by_cases hpd : present (pde m d) = true
    · rw [pte_of_present (by rw [hdirs]; exact hpd), pte_of_present hpd, hdirs]
      have hdtt : pageOf (pde m d) ≠ pageOf (pde m td) := fun he => hdc (by
        rw [table_inj h.inv hd htd hpd hptd he, hc])
      by_cases hdft : pageOf (pde m d) = pageOf (pde m fd)
      · rw [hdft]
        rcases hcopied.source i with he | ⟨-, hpres, -, he⟩
        · exact .inl he
        · refine .inr ⟨?_, hpres, he⟩
          rcases hpair with ⟨hfd, -⟩ | ⟨h0, -⟩
          · rw [table_inj h.inv hd hfd hpd hp hdft, hcur]
          · have := table_low h.inv hd hpd
            rw [hdft, hkernel h0] at this
            exact absurd this (by decide)
      · rw [hcopied.other _ hdft hdtt]
        exact .inl rfl
    · have hpd : present (pde m d) = false := by simpa using hpd
      rw [pte_of_not_present (by rw [hdirs]; exact hpd), pte_of_not_present hpd]
      exact .inl rfl
  · rcases hcopied.map f with he | ⟨j, hj, hpt, hl⟩
    · exact he
    · rcases hpair with ⟨hfd, -, -, rfl⟩ | ⟨rfl, rfl⟩
      · exact absurd (points_alloc h hfd hp hj hpt hl) hf
      · -- The kernel's first pages are low.
        rw [hkernel rfl, h.inv.kernel.identity 0 (by decide) j (by omega)] at hpt
        have := hpt.2
        rw [pageOf_entry (by omega)] at this
        unfold lowPages at hl
        omega

/-- A turn of `copy_page_tables`. -/
theorem copyDir_kept (h : Repr lo m a) (hpair : CopyPair fd td nr) (htd : td ∈ userDirs)
    (ht : a.table td = false) (hcur : fd / 16 = cur) (hc : td / 16 = c) :
    Post (copyDir fd td nr m) (Kept lo cur c m) fun _ => True := by
  have hne : fd ≠ td := by
    rcases hpair with ⟨-, hne, -⟩ | ⟨rfl, -⟩
    · exact hne
    · have := mem_userDirs.1 htd
      omega
  unfold copyDir
  split_ifs with h1 h2
  · exact Post.error trivial
  · cases hg : getFreePage m with
    | none => exact Post.error trivial
    | some r =>
      obtain ⟨tt, m₁⟩ := r
      obtain ⟨hn, htt, hpde⟩ := h.newTable htd ht hg
      have hloop := copyLoop_kept hn hpair htd (by simp [Space.addTable])
        (by rw [hpde fd hne]; exact h2) hcur hc
      rw [htt, hpde fd hne] at hloop
      exact Post.ok ((newTable_kept cur h hc hg _).trans hloop)
  · exact Post.ok (Kept.refl lo cur c m)

/-- A turn of `free_page_tables`. -/
theorem freeDir_kept (cur : ℕ) (h : Repr lo m a) (hd : d ∈ userDirs) (hc : d / 16 = c) :
    Post (freeDir m d) (Kept lo cur c m) fun _ => True := by
  unfold freeDir
  split_ifs with hp
  · have hlow := table_low h.inv hd hp
    unfold lowPages at hlow
    refine (Emptied.loop m (pageOf (pde m d)) 1024).bind fun m₁ h₁ => ?_
    have hdirs₁ : ∀ d', pde m₁ d' = pde m d' := fun d' => by
      unfold pde
      rw [h₁.other 0 (by omega)]
    cases hf : freePage m₁ (pageOf (pde m₁ d)) with
    | error e => exact Post.error trivial
    | ok m₂ =>
      obtain ⟨hhigh, hmap⟩ := freePage_map hf
      have hdirs : ∀ d', d' / 16 ≠ c → pde (m₂.write 0 d 0) d' = pde m d' := fun d' hd' => by
        rw [← hdirs₁]
        unfold pde
        rw [Mem.write_phys_of_ne _ _ (.inr (by rintro rfl; exact hd' hc)), freePage_phys hf]
      refine Post.ok ⟨hhigh.trans h₁.high, hdirs, fun d' hd' hdc i => .inl ?_, fun f hfa => ?_⟩
      · by_cases hpd : present (pde m d') = true
        · have hlow' := table_low h.inv hd' hpd
          unfold lowPages at hlow'
          have hne : pageOf (pde m d') ≠ pageOf (pde m d) := fun he => hdc (by
            rw [table_inj h.inv hd' hd hpd hp he, hc])
          rw [pte_of_present (by rw [hdirs d' hdc]; exact hpd), pte_of_present hpd,
            hdirs d' hdc, Mem.write_phys_of_ne _ _ (.inl (by omega)), freePage_phys hf,
            h₁.other _ hne]
        · have hpd : present (pde m d') = false := by simpa using hpd
          rw [pte_of_not_present (by rw [hdirs d' hdc]; exact hpd), pte_of_not_present hpd]
      · have hkeep : m₂.memMap f = m₁.memMap f := by
          refine (hmap f).resolve_right fun hx => hfa ?_
          rw [hx.1, hdirs₁]
          exact h.inv.tables d hd hp
        rw [Mem.write_memMap, hkeep]
        rcases h₁.map f with he | ⟨j, hj, hpt, hl⟩
        · exact he
        · exact absurd (points_alloc h hd hp hj hpt hl) hfa
  · exact Post.ok (Kept.refl lo cur c m)

/-- `free_page_tables` on a slot changes nothing outside it. -/
theorem freePageTables_kept (cur : ℕ) (h : Repr lo m a) {size : ℕ} (h0 : 1 ≤ nr) (hnr : nr < 64)
    (hsize : size ≤ 2 ^ 26) :
    Post (freePageTables m (nr * 2 ^ 26) size)
      (fun m' => Repr lo m' (a.clear (16 * nr) (dirCount size)) ∧ Kept lo cur nr m m')
      (fun _ => False) := by
  have hn := dirCount_le hsize
  unfold freePageTables
  rw [if_neg (by omega), if_neg (by omega), dirIndex_slot hnr]
  refine Post.foldRange (I := fun j m₂ => Repr lo m₂ (a.clear (16 * nr) j) ∧ Kept lo cur nr m m₂)
    (fun j hj m₂ h₂ => ?_) ⟨by rw [Space.clear_zero]; exact h, Kept.refl lo cur nr m⟩
  obtain ⟨hr₂, hk₂⟩ := h₂
  have hmem : 16 * nr + j ∈ userDirs := mem_userDirs.2 (by omega)
  have hturn := hr₂.freeDir hmem
  rw [Space.clear_succ] at hturn
  exact (hturn.and (freeDir_kept cur hr₂ hmem (show (16 * nr + j) / 16 = nr by omega))).mono
    (fun m₃ h₃ => ⟨h₃.1, hk₂.trans h₃.2⟩) fun e he => he.1

end Kept

/-! ## The failing call -/

/-- `get_free_page` finds nothing at one of the calls of `copy_process`: for the page of the task, or
in `copy_page_tables`, after any number of tables and entries. -/
def Starves (k : Kernel) (cur nr : ℕ) : Prop :=
  getFreePage k.mem = none ∨ ∃ t p m m', k.task cur = some t ∧ getFreePage k.mem = some (p, m) ∧
    copyPageTables m (State.startCode cur) (State.startCode nr) t.dataLimit =
      .error (.noMemory m')

/-- `k'` is `k` but for write bits in the page tables of slot `cur`, which a write fault sets again
where they are. -/
structure FailsClean (k k' : Kernel) (cur nr : ℕ) : Prop where
  empty : k'.task nr = none
  tasks : k'.task = k.task
  refs : ∀ n, k.task n ≠ none → k'.refs n = k.refs n
  memMap : k'.mem.memMap = k.mem.memMap
  dirs : ∀ d < 1024, pde k'.mem d = pde k.mem d
  files : k'.fCount = k.fCount
  inodes : k'.iCount = k.iCount
  entries : ∀ d < 1024, ∀ i < 1024, pte k'.mem d i = pte k.mem d i ∨
    d / 16 = cur ∧ d ∈ userDirs ∧ present (pte k.mem d i) = true ∧
      pte k'.mem d i = protect (pte k.mem d i)
  pages : ∀ d ∈ userDirs, ∀ i < 1024, view k'.mem d i = view k.mem d i
  restored : ∀ address, dirIndex address ∈ userDirs →
    pte k'.mem (dirIndex address) (tblIndex address) ≠
      pte k.mem (dirIndex address) (tblIndex address) →
    doWpPage k'.mem address = .ok (k'.mem.write (pageOf (pde k.mem (dirIndex address)))
      (tblIndex address) (pte k.mem (dirIndex address) (tblIndex address)))

section Fails

variable {lo cur nr : ℕ} {s : State} {t : Task} {m m' : Mem}

theorem getLsbD_two {i : ℕ} (hi : i < 32) : (2#32).getLsbD i = decide (i = 1) := by
  interval_cases i <;> rfl

theorem unprotect_protect {e : Word} (h : writable e = true) : unprotect (protect e) = e := by
  apply BitVec.eq_of_getLsbD_eq
  intro i hi
  unfold unprotect protect
  unfold writable at h
  simp only [BitVec.getLsbD_or, BitVec.getLsbD_and, BitVec.getLsbD_not, getLsbD_two hi, hi,
    decide_true, Bool.true_and]
  by_cases h1 : i = 1
  · subst h1
    rw [h]
    rfl
  · rw [decide_eq_false h1, Bool.not_false, Bool.and_true, Bool.or_false]

theorem protect_eq {e : Word} (h : writable e = false) : protect e = e := by
  apply BitVec.eq_of_getLsbD_eq
  intro i hi
  unfold protect
  unfold writable at h
  simp only [BitVec.getLsbD_and, BitVec.getLsbD_not, getLsbD_two hi, hi, decide_true,
    Bool.true_and]
  by_cases h1 : i = 1
  · subst h1
    rw [h]
    rfl
  · rw [decide_eq_false h1, Bool.not_false, Bool.and_true]

/-- The clean-up after a copy that ran out of memory: nothing but write bits of the parent has
changed. -/
theorem Inv.copyMem_fails (h : Inv lo s) (hD : Directory m) (hcur : cur < 64)
    (ht : s.task cur = some t) (hnr : nr ∈ slots) (he : s.task nr = none) {p : ℕ}
    (hm : Repr lo m ((spaceOf s).hold p))
    (hf : copyPageTables m (State.startCode cur) (State.startCode nr) t.dataLimit =
      .error (.noMemory m')) :
    ∃ m₂, copyMem m cur nr t = .ok (true, m₂) ∧ Repr lo m₂ ((spaceOf s).hold p) ∧
      Directory m₂ ∧ Kept lo cur nr m m₂ := by
  have hs := mem_slots.1 hnr
  obtain ⟨hcd, hd, -⟩ := h.limits cur t ht
  have hn := dirCount_le hd
  have hempty : ∀ k < 16, ((spaceOf s).hold p).table (16 * nr + k) = false := fun k hk =>
    h.table_of_empty hnr he hk
  have hne : cur ≠ nr := by
    rintro rfl
    rw [he] at ht
    cases ht
  have hone : cur = 0 → dirCount t.dataLimit ≤ 1 := by
    rintro rfl
    obtain ⟨t₀, ht₀, -, hlim, -⟩ := h.task0
    rw [ht] at ht₀
    obtain rfl := Option.some.inj ht₀
    rw [hlim]
    decide
  -- The copy, up to the table for which there was no page.
  have hcopy : Post (copyPageTables m (State.startCode cur) (State.startCode nr) t.dataLimit)
      (fun _ => True) fun e => ∃ k m', e = .noMemory m' ∧ k ≤ dirCount t.dataLimit ∧
        Repr lo m' (((spaceOf s).hold p).copy (16 * cur) (16 * nr) k) ∧ Kept lo cur nr m m' := by
    unfold copyPageTables State.startCode
    rw [if_neg (by omega), dirIndex_slot hcur, dirIndex_slot hs.2]
    refine (Post.foldRange (I := fun k m' =>
      Repr lo m' (((spaceOf s).hold p).copy (16 * cur) (16 * nr) k) ∧ Kept lo cur nr m m')
      (fun k hk m₁ h₁ => ?_) ⟨by rw [Space.copy_zero]; exact hm, Kept.refl lo cur nr m⟩).mono
      (fun _ _ => trivial) fun _ => id
    obtain ⟨hr₁, hk₁⟩ := h₁
    obtain ⟨hpair, hturn⟩ := hr₁.copyTurn hcur hs.2 (by omega) hne hd hone hk hempty
    have hkept := copyDir_kept hr₁ hpair (mem_userDirs.2 (by omega))
      (by simp only [Space.copy]; rw [if_neg (by omega)]; exact hempty k (by omega))
      (show (16 * cur + k) / 16 = cur by omega) (show (16 * nr + k) / 16 = nr by omega)
    exact (hturn.and hkept).mono (fun m₂ h₂ => ⟨h₂.1, hk₁.trans h₂.2⟩)
      fun e he => ⟨k, m₁, he.1, by omega, hr₁, hk₁⟩
  obtain ⟨k, m₁, heq, hk, hr₁, hk₁⟩ := hcopy.of_error hf
  cases heq
  have hD₁ : Directory m' := (hD.copyPageTables hcur nr hd).of_error hf
  have hfree := freePageTables_kept cur hr₁ (mem_slots.1 hnr).1 hs.2 hd
  unfold copyMem
  rw [if_neg (by omega), hf]
  simp only
  cases hfr : freePageTables m' (State.startCode nr) t.dataLimit with
  | error e => exact (hfree.of_error hfr).elim
  | ok m₂ =>
    obtain ⟨hr₂, hk₂⟩ := hfree.of_ok hfr
    refine ⟨m₂, rfl, hr₂.of_eq rfl (fun d _ => ?_) (fun d hd i hi => ?_),
      (hD₁.freePageTables hs.2 hd).of_ok hfr, hk₁.trans hk₂⟩
    · simp only [Space.clear, Space.copy]
      split_ifs with h1 h2
      · rw [show d = 16 * nr + (d - 16 * nr) by omega]
        exact hempty _ (by omega)
      · omega
      · rfl
    · simp only [Space.clear, Space.copy]
      split_ifs with h1 h2
      · refine hm.absent_of_table hd hi ?_
        rw [show d = 16 * nr + (d - 16 * nr) by omega]
        exact hempty _ (by omega)
      · omega
      · rfl

/-- Counts that are accounted for in both states are equal. -/
theorem memMap_eq {own : ℕ → ℕ} {c : ℕ} (h : MemInv lo m own) (h' : MemInv lo m' own)
    (hk : Kept lo cur c m m') (hempty : ∀ d ∈ userDirs, d / 16 = c →
      present (pde m d) = false ∧ present (pde m' d) = false) : m'.memMap = m.memMap := by
  funext f
  by_cases hf : Allocatable lo m f
  · have hrefs : refs m' f = refs m f := by
      refine refs_congr fun q hq => ?_
      have hd := (mem_userSlots.1 hq).1
      by_cases hc : q.1 / 16 = c
      · obtain ⟨h1, h2⟩ := hempty q.1 hd hc
        rw [pte_of_not_present h1, pte_of_not_present h2]
      · rcases hk.entries q.1 hd hc q.2 with he | ⟨-, -, he⟩
        · rw [he]
        · rw [he]
          unfold PointsTo
          rw [present_protect, pageOf_protect]
    have hdirs : dirRefs m' f = dirRefs m f := by
      refine dirRefs_congr fun d hd => ?_
      by_cases hc : d / 16 = c
      · obtain ⟨h1, h2⟩ := hempty d hd hc
        unfold PointsTo
        rw [h1, h2]
        simp
      · rw [hk.dirs d hc]
    have hf' : Allocatable lo m' f := by
      unfold Allocatable at hf ⊢
      rwa [hk.high]
    apply BitVec.eq_of_toNat_eq
    rw [h.count f hf, h'.count f hf', hrefs, hdirs]
  · exact hk.map f hf

/-- What is left of a change that keeps all but write bits of slot `cur`, where slot `nr` is
empty. -/
theorem Kept.clean {k : Kernel} (hI : Inv lo k.toState) (hD : Directory k.mem) (hnr : nr ∈ slots)
    (he : k.task nr = none) (hr : Repr lo m (spaceOf k.toState)) (hDm : Directory m)
    (hk : Kept lo cur nr k.mem m) (refs : ℕ → Refs)
    (hrefs : ∀ n, k.task n ≠ none → refs n = k.refs n) :
    FailsClean k { k with mem := m, refs := refs } cur nr := by
  have hI' : Inv lo { k.toState with mem := m } := hI.setMem_same hr
  have hempty : ∀ d ∈ userDirs, d / 16 = nr →
      present (pde k.mem d) = false ∧ present (pde m d) = false := by
    intro d _ hdc
    have hd : 16 * nr + d % 16 = d := by omega
    have h1 := hI.table_of_empty hnr he (k := d % 16) (by omega)
    have h2 := hI'.table_of_empty hnr he (k := d % 16) (by omega)
    rw [hd] at h1 h2
    exact ⟨h1, h2⟩
  have hmap := memMap_eq hI.mem hr.inv hk hempty
  have hs := mem_slots.1 hnr
  have hdirs : ∀ d < 1024, pde m d = pde k.mem d := by
    intro d hd
    by_cases hdc : d / 16 = nr
    · obtain ⟨h1, h2⟩ := hempty d (mem_userDirs.2 (by omega)) hdc
      rw [(hD d hd).eq_zero h1, (hDm d hd).eq_zero h2]
    · exact hk.dirs d hdc
  have hentries : ∀ d < 1024, ∀ i < 1024, pte m d i = pte k.mem d i ∨
      d / 16 = cur ∧ d ∈ userDirs ∧ present (pte k.mem d i) = true ∧
        pte m d i = protect (pte k.mem d i) := by
    intro d hd i hi
    by_cases hu : d ∈ userDirs
    · by_cases hdc : d / 16 = nr
      · obtain ⟨h1, h2⟩ := hempty d hu hdc
        rw [pte_of_not_present h1, pte_of_not_present h2]
        exact .inl rfl
      · exact (hk.entries d hu hdc i).imp_right fun ⟨h1, h2⟩ => ⟨h1, hu, h2⟩
    · -- The kernel's tables are the identity map before and after.
      have hd16 : d < 16 := by
        by_contra hc
        exact hu (mem_userDirs.2 ⟨by omega, hd⟩)
      left
      by_cases h4 : d < 4
      · unfold pte
        rw [hdirs d hd, hI.mem.kernel.table d h4, pageOf_entry (by omega),
          hI.mem.kernel.identity d h4 i hi, hr.inv.kernel.identity d h4 i hi]
      · have hrest := hI.mem.kernel.rest d (by omega) hd16
        rw [pte_of_not_present hrest, pte_of_not_present (by rw [hdirs d hd]; exact hrest)]
  refine ⟨he, rfl, hrefs, hmap, hdirs, rfl, rfl, hentries, fun d hd i hi => ?_,
    fun address hu hne => ?_⟩
  · exact hr.page d hd i hi
  · obtain ⟨d, hd⟩ : ∃ d, d = dirIndex address := ⟨_, rfl⟩
    obtain ⟨i, hi⟩ : ∃ i, i = tblIndex address := ⟨_, rfl⟩
    have hdlt := dirIndex_lt address
    have hilt := tblIndex_lt address
    rw [← hd, ← hi] at hne ⊢
    rw [← hd] at hu hdlt
    rw [← hi] at hilt
    obtain ⟨-, -, hp, hprot⟩ := (hentries d hdlt i hilt).resolve_left hne
    -- Only a writable entry changes, and its page is the process's own.
    have hw : writable (pte k.mem d i) = true := by
      by_contra hc
      rw [protect_eq (by simpa using hc)] at hprot
      exact hne hprot
    obtain ⟨hl, hone⟩ := hI.mem.shared (d, i) (mem_userSlots.2 ⟨hu, hilt⟩) hp hw
    have htab : present (pde k.mem d) = true := by
      by_contra hc
      rw [pte_of_not_present (by simpa using hc), present_zero] at hp
      cases hp
    have hword : m.phys (pageOf (pde k.mem d)) i = protect (pte k.mem d i) := by
      rw [← hdirs d hdlt, ← pte_of_present (by rw [hdirs d hdlt]; exact htab)]
      exact hprot
    show doWpPage m address = _
    unfold doWpPage unWpPage
    rw [← hd, ← hi, hdirs d hdlt, hword, pageOf_protect, unprotect_protect hw]
    simp only
    rw [if_pos ⟨hl, by rw [hmap]; exact hone⟩]

/-- **A fork fails cleanly.** Wherever `get_free_page` first finds nothing, `copy_process` returns
an error, and the slot, the counts and the page tables are as they were, but for write bits of the
parent. -/
theorem copyProcess_fails_clean {k : Kernel} (h : (memory lo).Reachable k.toState)
    (hrun : k.Running cur) (hnr : 1 ≤ nr ∧ nr < 64) (he : k.task nr = none)
    (hf : Starves k cur nr) :
    ∃ k', copyProcess k cur nr = .ok (-EAGAIN, k') ∧ FailsClean k k' cur nr := by
  have hI := Inv.of_reachable h
  have hD := Directory.of_reachable h
  have hslot : nr ∈ slots := mem_slots.2 hnr
  obtain ⟨hcur, t, ht, -, -⟩ := hrun
  unfold copyProcess
  rw [ht]
  simp only
  cases hg : getFreePage k.mem with
  | none =>
    have hclean := Kept.clean hI hD hslot he hI.repr hD (Kept.refl lo cur nr k.mem) k.refs
      fun _ _ => rfl
    exact ⟨k, rfl, hclean⟩
  | some r =>
    obtain ⟨p, m⟩ := r
    obtain ⟨t', p', m₀, m', ht', hg', hcopy⟩ := hf.resolve_left (by rw [hg]; simp)
    rw [ht] at ht'
    obtain rfl := Option.some.inj ht'
    rw [hg] at hg'
    cases hg'
    have hm := (hI.repr.getFreePage hg).1
    obtain ⟨m₂, hmem, hr₂, hD₂, hk₂⟩ :=
      hI.copyMem_fails (hD.getFreePage hg) hcur ht hslot he hm hcopy
    obtain ⟨hfree, hr₃⟩ := hr₂.freePage
    have hk₃ := ((getFreePage_kept cur nr hI.repr hg).trans hk₂).trans
      (freePage_kept cur nr hr₂ hfree)
    have hclean := Kept.clean hI hD hslot he hr₃ (hD₂.freePage hfree) hk₃
      (Function.update k.refs nr (k.refs cur)) fun n hn =>
        Function.update_of_ne (by rintro rfl; exact hn he) _ _
    have htask : Function.update (Function.update k.task nr (some { t with page := p })) nr none =
        k.task := by
      rw [Function.update_idem, ← he, Function.update_eq_self]
    refine ⟨_, ?_, hclean⟩
    simp only [hmem]
    show (freePage m₂ p >>= fun m => _) = _
    rw [hfree]
    show Except.ok (-EAGAIN, _) = _
    rw [htask]

end Fails

/-! ## A machine with one free page -/

/-- Only frame 1024 is allocatable: it becomes the page of the first child, and none is left for the
child's page table. -/
def tiny : Kernel where
  toState := { boot with mem := memInit boot.mem 1024 1025 }
  refs _ := ⟨[some 0, none], some 0, some 0⟩
  fCount _ := 1
  iCount _ := 2
  lastPid := 1

theorem tiny_init : State.Init 1024 tiny.toState := by
  obtain ⟨m, hi, hm, h1, h2, h3, hphys, h4, h5, h6⟩ := boot_init
  have hb : boot.mem.phys = m.phys := by rw [hm]; rfl
  rw [← hb] at hphys h4 h5
  exact ⟨boot.mem, 1025, rfl, h1, by decide, by decide, hphys, h4, h5, h6⟩

theorem tiny_starves : Starves tiny 0 1 := by
  cases hg : getFreePage tiny.mem with
  | none => exact .inl hg
  | some r =>
    obtain ⟨p, m⟩ := r
    obtain ⟨h0, hl, -, rfl⟩ := getFreePage_eq_some hg
    -- The frame that was free is taken, and there is no other.
    have hmap : ∀ f, f ≠ 1024 → tiny.mem.memMap f = USED := fun f hf =>
      if_neg (by omega)
    have hp : p = 1024 := by
      by_contra hp
      rw [hmap p hp] at h0
      exact absurd h0 (by decide)
    subst hp
    have hnone : getFreePage ((tiny.mem.setMap 1024 1).fill 1024 fun _ => 0) = none := by
      unfold getFreePage
      rw [scanFree_eq_none_iff.2 fun k _ => ?_]
      · rfl
      · rw [Mem.fill_memMap, Mem.setMap_memMap]
        by_cases hk : lowPages + k = 1024
        · rw [hk, Function.update_self]
          decide
        · rw [Function.update_of_ne hk, hmap _ hk]
          decide
    refine .inr ⟨_, _, _, (tiny.mem.setMap 1024 1).fill 1024 fun _ => 0, rfl, hg, ?_⟩
    show copyPageTables _ (0 * 2 ^ 26) (1 * 2 ^ 26) 0xA0000 = _
    unfold copyPageTables
    rw [if_neg (by omega), show dirCount 0xA0000 = 1 by decide, List.range_one, List.foldlM_cons]
    have hdir : copyDir (dirIndex (0 * 2 ^ 26) + 0) (dirIndex (1 * 2 ^ 26) + 0)
        (if 0 * 2 ^ 26 = 0 then 0xA0 else 1024) ((tiny.mem.setMap 1024 1).fill 1024 fun _ => 0) =
        .error (.noMemory ((tiny.mem.setMap 1024 1).fill 1024 fun _ => 0)) := by
      unfold copyDir
      rw [if_neg (by decide), if_pos (by decide), hnone]
    rw [hdir]
    rfl

theorem tiny_fails_clean :
    ∃ k', copyProcess tiny 0 1 = .ok (-EAGAIN, k') ∧ FailsClean tiny k' 0 1 :=
  copyProcess_fails_clean (System.Reachable.start tiny_init) ⟨by decide, _, rfl, rfl, rfl⟩
    (by decide) rfl tiny_starves

end Linux011.Mm
