import Linux011.Mm.Copy

/-!
# Page faults

1. `Repr.putPage`, `Repr.getEmptyPage` and `Repr.tryToShare` fill an absent entry with a page the
   kernel holds, a zero page, and a page of another process.
2. `Repr.unWpPage` makes an entry writable and keeps its page.
3. `Repr.touchEntry` and `Repr.storeWord` are the accesses of a process themselves.
-/

namespace Linux011.Mm

/-! ## Filling an entry -/

section Fill

variable {lo : ℕ} {m m' : Mem} {a : Space} {d f i : ℕ}

/-- An absent entry gets a frame the kernel holds. -/
theorem Repr.giveEntry (h : Repr lo m (a.hold f)) (hd : d ∈ userDirs) (hi : i < 1024)
    (ht : a.table d = true) (habs : a.page d i = .absent) :
    Repr lo (m.write (pageOf (pde m d)) i (entry f)) (a.setPage d i (.page (m.phys f))) ∧
      EntryWrite m (m.write (pageOf (pde m d)) i (entry f)) d i (entry f) := by
  obtain ⟨ha, -, hdr, -, -⟩ := owner_facts h.held
  have hpage := pageOf_entry (alloc_lt h.inv ha)
  have hw := EntryWrite.write h.inv hd (h.present_pde hd ht) i (entry f)
  have hinv := MemInv.give h.held hw hd hi ((h.absent_iff hd hi).1 habs)
    (present_entry f) hpage rfl
  have hr := h.setEntry hw hinv hd fun g _ hg => h.write_phys hd ht hg
  rw [look_page (present_entry f) (by rw [hpage]; exact low_le_of_alloc h.inv ha), hpage,
    h.write_phys hd ht hdr] at hr
  exact ⟨hr, hw⟩

/-- `put_page` of a frame the kernel holds. -/
theorem Repr.putPage (h : Repr lo m (a.hold f)) {address : ℕ} (hd : dirIndex address ∈ userDirs)
    (habs : a.page (dirIndex address) (tblIndex address) = .absent)
    (hput : Mm.putPage m f address = some m') :
    Repr lo m' ((a.addTable (dirIndex address)).setPage (dirIndex address) (tblIndex address)
        (.page (m.phys f))) ∧
      pte m' (dirIndex address) (tblIndex address) = entry f := by
  have hi := tblIndex_lt address
  unfold Mm.putPage at hput
  by_cases ht : a.table (dirIndex address) = true
  · rw [if_pos (h.present_pde hd ht)] at hput
    obtain rfl := Option.some.inj hput
    obtain ⟨hr, hw⟩ := h.giveEntry hd hi ht habs
    refine ⟨hr.of_eq rfl (fun d _ => ?_) fun _ _ _ _ => rfl, hw.self hd⟩
    simp only [Space.setPage, Space.addTable]
    split_ifs with hdd
    · rw [hdd, ht]
    · rfl
  · have ht : (a.hold f).table (dirIndex address) = false := by simpa [Space.hold] using ht
    rw [if_neg (by rw [h.table _ hd, ht]; simp)] at hput
    cases hg : Mm.getFreePage m with
    | none => rw [hg] at hput; cases hput
    | some r =>
      obtain ⟨tmp, m₁⟩ := r
      rw [hg] at hput
      obtain rfl := Option.some.inj hput
      obtain ⟨hn, htt, -⟩ := h.newTable hd ht hg
      have hn' : Repr lo (m₁.write 0 (dirIndex address) (entry tmp))
          ((a.addTable (dirIndex address)).hold f) := hn
      obtain ⟨hr, hw⟩ := hn'.giveEntry hd hi (by simp [Space.addTable]) habs
      rw [htt] at hr hw
      -- The new table is not the page.
      obtain ⟨ha, -, -, -, h1⟩ := owner_facts h.held
      have hl := low_le_of_alloc h.inv ha
      obtain ⟨h0, -, -, rfl⟩ := getFreePage_eq_some hg
      have hne : f ≠ tmp := by
        rintro rfl
        rw [h0] at h1
        exact absurd h1 (by decide)
      have hphys : (((m.setMap tmp 1).fill tmp fun _ => 0).write 0 (dirIndex address)
          (entry tmp)).phys f = m.phys f := by
        unfold lowPages at hl
        funext j
        rw [Mem.write_phys_of_ne _ _ (.inl (by omega)), Mem.fill_phys_of_ne _ _ hne]
        rfl
      rw [hphys] at hr
      exact ⟨hr, hw.self hd⟩

/-- **`get_empty_page`** puts a writable zero page at an absent entry, or gives back what it took. -/
theorem Repr.getEmptyPage (h : Repr lo m a) (address : ℕ) (hd : dirIndex address ∈ userDirs)
    (habs : a.page (dirIndex address) (tblIndex address) = .absent) :
    Post (Mm.getEmptyPage m address)
      (fun m' => Repr lo m' ((a.addTable (dirIndex address)).setPage (dirIndex address)
          (tblIndex address) (.page fun _ => 0)) ∧
        present (pte m' (dirIndex address) (tblIndex address)) = true ∧
        writable (pte m' (dirIndex address) (tblIndex address)) = true)
      (fun e => ∃ m', e = .noMemory m' ∧ Repr lo m' a) := by
  unfold Mm.getEmptyPage
  cases hg : Mm.getFreePage m with
  | none => exact Post.error ⟨m, rfl, h⟩
  | some r =>
    obtain ⟨tmp, m₁⟩ := r
    obtain ⟨h₁, -, hz⟩ := h.getFreePage hg
    cases hput : Mm.putPage m₁ tmp address with
    | some m₂ =>
      obtain ⟨hr, he⟩ := h₁.putPage hd habs hput
      rw [hz] at hr
      simp only [hput]
      exact Post.ok ⟨hr, by rw [he]; exact present_entry _, by rw [he]; exact writable_entry _⟩
    | none =>
      obtain ⟨hfree, hr⟩ := h₁.freePage
      simp only [hput, hfree]
      exact Post.error ⟨_, rfl, hr⟩

/-- The table the page is shared into; the entry of the other process stays what it is. -/
theorem Repr.toTable (h : Repr lo m a) {fd td : ℕ} (hfd : fd ∈ userDirs) (htd : td ∈ userDirs)
    (hne : fd ≠ td) (hf : a.table fd = true) (i : ℕ) :
    Post (Mm.toTable m td)
      (fun r => Repr lo r.2 (a.addTable td) ∧ pageOf (pde r.2 td) = r.1 ∧
        pde r.2 fd = pde m fd ∧ pte r.2 fd i = pte m fd i)
      (fun e => e = .noMemory m) := by
  have hpf := h.present_pde hfd hf
  unfold Mm.toTable
  by_cases ht : a.table td = true
  · rw [if_pos (h.present_pde htd ht)]
    refine Post.ok ⟨h.of_eq rfl (fun d _ => ?_) (fun _ _ _ _ => rfl), rfl, rfl, rfl⟩
    simp only [Space.addTable]
    split_ifs with hdd
    · rw [hdd, ht]
    · rfl
  · have ht : a.table td = false := by simpa using ht
    rw [if_neg (by rw [h.table td htd, ht]; simp)]
    cases hg : Mm.getFreePage m with
    | none => exact Post.error rfl
    | some r =>
      obtain ⟨tt, m'⟩ := r
      obtain ⟨hn, htt, hpde⟩ := h.newTable htd ht hg
      obtain ⟨-, hs, -⟩ := h.getFreePage hg
      refine Post.ok ⟨hn, htt, hpde fd hne, ?_⟩
      have hlow := table_low h.inv hfd hpf
      unfold lowPages at hlow
      rw [← hs.entries fd hfd i]
      unfold pte
      simp only
      rw [hpde fd hne, hs.dirs, if_pos hpf, if_pos hpf]
      exact Mem.write_phys_of_ne m' _ (.inl (by omega))

/-- **`try_to_share`** copies a page of another process to an absent entry, or changes nothing. -/
theorem Repr.tryToShare (h : Repr lo m a) (address pStart start : ℕ)
    (hfd : dirIndex address + dirIndex pStart ∈ userDirs)
    (htd : dirIndex address + dirIndex start ∈ userDirs)
    (hne : dirIndex pStart ≠ dirIndex start)
    (hmod : (dirIndex address + dirIndex pStart) % 16 = (dirIndex address + dirIndex start) % 16)
    (habs : a.page (dirIndex address + dirIndex start) (tblIndex address) = .absent) :
    Post (Mm.tryToShare m address pStart start)
      (fun r => r = (false, m) ∨ r.1 = true ∧ ∃ c, Repr lo r.2
        ((a.addTable (dirIndex address + dirIndex start)).setPage
          (dirIndex address + dirIndex start) (tblIndex address) (.page c)))
      (fun e => e = .noMemory m) := by
  obtain ⟨fd, hfd'⟩ : ∃ fd, fd = dirIndex address + dirIndex pStart := ⟨_, rfl⟩
  obtain ⟨td, htd'⟩ : ∃ td, td = dirIndex address + dirIndex start := ⟨_, rfl⟩
  obtain ⟨i, hi'⟩ : ∃ i, i = tblIndex address := ⟨_, rfl⟩
  have hi : i < 1024 := by rw [hi']; exact tblIndex_lt address
  have hft : fd ≠ td := by omega
  unfold Mm.tryToShare
  simp only [← hfd', ← htd', ← hi'] at hfd htd hmod habs ⊢
  by_cases hf : a.table fd = true
  · have hpf := h.present_pde hfd hf
    have hpte : m.phys (pageOf (pde m fd)) i = pte m fd i := (pte_of_present hpf).symm
    rw [if_neg (by rw [hpf]; simp), hpte]
    by_cases hclean : ¬ present (pte m fd i) = true ∨ dirty (pte m fd i) = true
    · rw [if_pos hclean]
      exact Post.ok (.inl rfl)
    rw [if_neg hclean]
    by_cases hrange : m.highMemory ≤ pageOf (pte m fd i) ∨ pageOf (pte m fd i) < lowPages
    · rw [if_pos hrange]
      exact Post.ok (.inl rfl)
    rw [if_neg hrange]
    push Not at hclean hrange
    obtain ⟨hp, -⟩ := hclean
    obtain ⟨-, hl⟩ := hrange
    refine (h.toTable hfd htd hft hf i).bind fun r hr => ?_
    obtain ⟨tt, m₁⟩ := r
    obtain ⟨h₁, htt, hpde, hsame⟩ := hr
    simp only at h₁ htt hpde hsame ⊢
    have hf₁ : (a.addTable td).table fd = true := by simpa [Space.addTable, hft] using hf
    have ht₁ : (a.addTable td).table td = true := by simp [Space.addTable]
    have hpt₁ : m₁.phys tt i = pte m₁ td i := by
      rw [← htt]; exact (pte_of_present (h₁.present_pde htd ht₁)).symm
    have hpf₁ : m₁.phys (pageOf (pde m fd)) i = pte m fd i := by
      rw [← hpde, ← hsame]; exact (pte_of_present (h₁.present_pde hfd hf₁)).symm
    rw [hpt₁, if_neg (by rw [(h₁.absent_iff htd hi).1 habs]; simp), hpf₁]
    obtain ⟨hr, hw⟩ := h₁.protectEntry hfd hi hf₁ (by rw [hsame]; exact hp)
    obtain ⟨hr', -⟩ := hr.shareEntry hfd htd hi ht₁ hmod habs (hw.self hfd)
      (by rw [present_protect, hsame]; exact hp) (by rw [pageOf_protect, hsame]; exact hl)
      (writable_protect _)
    rw [hw.dirs, hsame, hpde, htt, pageOf_protect, Mem.write_memMap] at hr'
    rw [Mem.write_phys_self]
    have hview := h.page fd hfd i hi
    unfold view at hview
    rw [look_page hp hl] at hview
    refine Post.ok (.inr ⟨rfl, m.phys (pageOf (pte m fd i)), ?_⟩)
    rw [hview]
    exact hr'
  · have hf : a.table fd = false := by simpa using hf
    rw [if_pos (by rw [h.table fd hfd, hf]; simp)]
    exact Post.ok (.inl rfl)

end Fill

/-! ## Writing to a protected page -/

section Protected

variable {lo : ℕ} {m m' : Mem} {a : Space} {d f i : ℕ}

/-- The only entry that points to a page of a process may be made writable. -/
theorem Repr.unprotectEntry (h : Repr lo m a) (hd : d ∈ userDirs) (hi : i < 1024)
    (ht : a.table d = true) (hl : lowPages ≤ pageOf (pte m d i))
    (h1 : m.memMap (pageOf (pte m d i)) = 1) (hp : present (pte m d i) = true) :
    Repr lo (m.write (pageOf (pde m d)) i (unprotect (pte m d i)))
        (a.setPage d i (.page (m.phys (pageOf (pte m d i))))) ∧
      EntryWrite m (m.write (pageOf (pde m d)) i (unprotect (pte m d i))) d i
        (unprotect (pte m d i)) := by
  have hw := EntryWrite.write h.inv hd (h.present_pde hd ht) i (unprotect (pte m d i))
  have hinv := h.inv.flags hw hd hi rfl (present_unprotect _) (pageOf_unprotect _)
    fun _ _ => by rw [pageOf_unprotect]; exact ⟨hl, h1⟩
  have hr := h.setEntry hw hinv hd fun g _ hg => h.write_phys hd ht hg
  rw [look_page (by rw [present_unprotect]; exact hp) (by rw [pageOf_unprotect]; exact hl),
    pageOf_unprotect, h.write_phys hd ht] at hr
  · exact ⟨hr, hw⟩
  · by_contra hx
    have hps : (d, i) ∈ userSlots := mem_userSlots.2 ⟨hd, hi⟩
    exact not_pointsTo h.inv (f := pageOf (pte m d i)) (by omega) hps ⟨hp, rfl⟩

/-- **`un_wp_page`** makes an entry writable; the process keeps the contents it saw. -/
theorem Repr.unWpPage (h : Repr lo m a) (hd : d ∈ userDirs) (hi : i < 1024)
    (ht : a.table d = true) (hp : present (pte m d i) = true) :
    Post (Mm.unWpPage m (pageOf (pde m d)) i)
      (fun m' => Repr lo m' (a.setPage d i (.page (m.phys (pageOf (pte m d i))))) ∧
        (∀ d', pde m' d' = pde m d') ∧
        present (pte m' d i) = true ∧ writable (pte m' d i) = true)
      (fun e => e = .noMemory m) := by
  have hpd := h.present_pde hd ht
  have hpte : m.phys (pageOf (pde m d)) i = pte m d i := (pte_of_present hpd).symm
  have hps : (d, i) ∈ userSlots := mem_userSlots.2 ⟨hd, hi⟩
  unfold Mm.unWpPage
  simp only [hpte]
  by_cases h1 : lowPages ≤ pageOf (pte m d i) ∧ m.memMap (pageOf (pte m d i)) = 1
  · rw [if_pos h1]
    obtain ⟨hr, hw⟩ := h.unprotectEntry hd hi ht h1.1 h1.2 hp
    exact Post.ok ⟨hr, hw.dirs, by rw [hw.self hd, present_unprotect]; exact hp,
      by rw [hw.self hd]; exact writable_unprotect _⟩
  · rw [if_neg h1]
    cases hg : Mm.getFreePage m with
    | none => exact Post.error rfl
    | some r =>
      obtain ⟨new, m'⟩ := r
      refine Post.ok ?_
      obtain ⟨h', hs, -⟩ := h.getFreePage hg
      obtain ⟨-, hrnew, hdnew, -, -⟩ := owner_facts h'.held
      obtain ⟨ha, -, -, -, -⟩ := owner_facts h'.held
      -- Neither the table nor the old page is the new page.
      have htnew : pageOf (pde m d) ≠ new := fun he => by
        have : 0 < dirRefs m' new :=
          dirRefs_pos hd ⟨by rw [hs.dirs]; exact hpd, by rw [hs.dirs]; exact he⟩
        omega
      have honew : pageOf (pte m d i) ≠ new := fun he => by
        have : 0 < refs m' new := refs_pos hps
          ⟨by rw [hs.entries d hd]; exact hp, by rw [hs.entries d hd]; exact he⟩
        omega
      have htold : pageOf (pte m d i) ≠ pageOf (pde m d) :=
        page_ne_table (p := (d, i)) h.inv hps hp hd hpd
      have hold : m'.phys (pageOf (pte m d i)) = m.phys (pageOf (pte m d i)) := by
        obtain ⟨-, -, -, rfl⟩ := getFreePage_eq_some hg
        rw [Mem.fill_phys_of_ne _ _ honew]
        rfl
      -- The new page is filled while the kernel holds it, the old one unmapped, the new one mapped.
      have hf := h'.fill (m.phys (pageOf (pte m d i)))
      have hsf := SameTables.fill (m := m') (f := new) (low_le_of_alloc h'.inv ha) hdnew
        (m.phys (pageOf (pte m d i)))
      have hpf : pte (m'.fill new (m.phys (pageOf (pte m d i)))) d i = pte m d i :=
        (hsf.entries d hd i).trans (hs.entries d hd i)
      have hdf : ∀ d', pde (m'.fill new (m.phys (pageOf (pte m d i)))) d' = pde m d' :=
        fun d' => (hsf.dirs d').trans (hs.dirs d')
      let c : ℕ → BitVec 8 := fun f =>
        if f = pageOf (pte m d i) ∧ lowPages ≤ f then m'.memMap f - 1 else m'.memMap f
      obtain ⟨hu, hwu⟩ := hf.unmapEntry hd hi ht (by rw [hpf]; exact hp) (c := c)
        (fun f => by rw [hpf]; rfl)
      rw [hdf] at hu hwu
      obtain ⟨hgv, hwg⟩ := Repr.giveEntry (a := a.setPage d i .absent) hu hd hi ht
        (by simp [Space.setPage])
      rw [hwu.dirs, hdf, Mem.write_write] at hgv hwg
      have hnew : (({ m'.fill new (m.phys (pageOf (pte m d i))) with memMap := c } : Mem).write
          (pageOf (pde m d)) i 0).phys new = m.phys (pageOf (pte m d i)) := by
        funext j
        rw [Mem.write_phys_of_ne _ _ (.inl htnew.symm)]
        simp [Mem.fill]
      rw [hnew] at hgv
      have hm : (if lowPages ≤ pageOf (pte m d i) then
          m'.setMap (pageOf (pte m d i)) (m'.memMap (pageOf (pte m d i)) - 1) else m') =
            { m' with memMap := c } := by
        by_cases hl : lowPages ≤ pageOf (pte m d i)
        · rw [if_pos hl]
          unfold Mem.setMap
          congr 1
          funext f
          by_cases hfo : f = pageOf (pte m d i)
          · rw [hfo, Function.update_self]
            exact (if_pos ⟨rfl, hl⟩).symm
          · rw [Function.update_of_ne hfo]
            exact (if_neg fun hc => hfo hc.1).symm
        · rw [if_neg hl]
          have hc : c = m'.memMap := funext fun f => if_neg (by rintro ⟨rfl, hlf⟩; exact hl hlf)
          rw [hc]
      rw [hm]
      have hphys : ((({ m' with memMap := c } : Mem).write (pageOf (pde m d)) i (entry new)).phys
          (pageOf (pte m d i))) = m.phys (pageOf (pte m d i)) := by
        funext j
        rw [Mem.write_phys_of_ne _ _ (.inl htold), ← hold]
      rw [hphys, Mem.write_fill_comm _ htnew]
      refine ⟨hgv.of_eq rfl (fun _ _ => rfl) fun d' _ i' _ => ?_, fun d' => ?_, ?_, ?_⟩
      · simp only [Space.setPage]
        split_ifs <;> rfl
      · exact (hwg.dirs d').trans ((hwu.dirs d').trans (hdf d'))
      · have hpe := present_entry new
        rw [← hwg.self hd] at hpe
        exact hpe
      · have hwe := writable_entry new
        rw [← hwg.self hd] at hwe
        exact hwe

/-- `do_wp_page`, where the fault is at a present page of a process. -/
theorem Repr.doWpPage (h : Repr lo m a) {address : ℕ} (hd : dirIndex address ∈ userDirs)
    (ht : a.table (dirIndex address) = true)
    (hp : present (pte m (dirIndex address) (tblIndex address)) = true) :
    Post (Mm.doWpPage m address)
      (fun m' => Repr lo m' (a.setPage (dirIndex address) (tblIndex address)
          (.page (m.phys (pageOf (pte m (dirIndex address) (tblIndex address)))))) ∧
        present (pte m' (dirIndex address) (tblIndex address)) = true ∧
        writable (pte m' (dirIndex address) (tblIndex address)) = true)
      (fun e => e = .noMemory m) :=
  (h.unWpPage hd (tblIndex_lt address) ht hp).mono (fun _ hm => ⟨hm.1, hm.2.2⟩) fun _ => id

/-- The kernel's own entries are writable. -/
theorem kernel_writable (h : KernelMap m) (hd : d < 16) (hp : present (pde m d) = true)
    (hi : i < 1024) : writable (m.phys (pageOf (pde m d)) i) = true := by
  by_cases h4 : d < 4
  · rw [h.table d h4, pageOf_entry (by omega), h.identity d h4 i hi]
    exact writable_entry _
  · rw [h.rest d (by omega) hd] at hp
    cases hp

/-- **`write_verify`** of any linear address keeps every page and makes at most the entry of that
address present and writable. -/
theorem Repr.writeVerify (h : Repr lo m a) (address : ℕ) :
    Post (Mm.writeVerify m address)
      (fun m' => m' = m ∨ a.page (dirIndex address) (tblIndex address) ≠ .absent ∧ ∃ c,
        Repr lo m' (a.setPage (dirIndex address) (tblIndex address) (.page c)))
      (fun e => e = .noMemory m) := by
  have hi := tblIndex_lt address
  have hd1024 := dirIndex_lt address
  unfold Mm.writeVerify
  by_cases hpd : present (pde m (dirIndex address)) = true
  · rw [if_pos hpd]
    simp only
    split_ifs with hro
    · by_cases hd : dirIndex address ∈ userDirs
      · rw [← pte_of_present hpd] at hro
        have ht : a.table (dirIndex address) = true := by rw [← h.table _ hd]; exact hpd
        refine (h.unWpPage hd hi ht hro.1).mono (fun m' hm => .inr ⟨?_, _, hm.1⟩) fun _ => id
        rw [Ne, h.absent_iff hd hi, hro.1]
        exact Bool.noConfusion
      · have hk : dirIndex address < 16 := by
          by_contra hc
          exact hd (mem_userDirs.2 (by omega))
        exact absurd (kernel_writable h.inv.kernel hk hpd hi) hro.2
    · exact Post.ok (.inl rfl)
  · rw [if_neg hpd]
    exact Post.ok (.inl rfl)

end Protected

/-! ## The accesses of a process -/

section Access

variable {lo : ℕ} {m : Mem} {a : Space} {d i : ℕ}

/-- The processor marks an entry accessed, and on a store dirty. -/
theorem Repr.touchEntry (h : Repr lo m a) (hd : d ∈ userDirs) (hi : i < 1024)
    (ht : a.table d = true) (hp : present (pte m d i) = true) (store : Bool) :
    Repr lo (m.write (pageOf (pde m d)) i (touch (pte m d i) store)) a ∧
      EntryWrite m (m.write (pageOf (pde m d)) i (touch (pte m d i) store)) d i
        (touch (pte m d i) store) := by
  have hps : (d, i) ∈ userSlots := mem_userSlots.2 ⟨hd, hi⟩
  have hw := EntryWrite.write h.inv hd (h.present_pde hd ht) i (touch (pte m d i) store)
  have hinv := h.inv.flags hw hd hi rfl (present_touch _ _) (pageOf_touch _ _) fun _ hwr => by
    rw [writable_touch] at hwr
    rw [pageOf_touch]
    exact h.inv.shared (d, i) hps hp hwr
  have hr := h.setEntry hw hinv hd fun g _ hg => h.write_phys hd ht hg
  have hlook : look (m.write (pageOf (pde m d)) i (touch (pte m d i) store))
      (touch (pte m d i) store) = a.page d i := by
    rw [look_of_page_eq (present_touch _ _) (pageOf_touch _ _), ← h.page d hd i hi]
    refine look_congr fun _ hl => h.write_phys hd ht ?_
    by_contra hx
    exact not_pointsTo h.inv (f := pageOf (pte m d i)) (by omega) hps ⟨hp, rfl⟩
  rw [hlook, Space.setPage_self] at hr
  exact ⟨hr, hw⟩

/-- A store to a page that is mapped once changes the page of that entry and no other. -/
theorem Repr.storePrivate (h : Repr lo m a) (hd : d ∈ userDirs) (hi : i < 1024)
    (hp : present (pte m d i) = true) (hl' : lowPages ≤ pageOf (pte m d i))
    (h1' : m.memMap (pageOf (pte m d i)) = 1) (j : ℕ) (v : Word) :
    Repr lo (m.write (pageOf (pte m d i)) j v)
      (a.setPage d i (.page (Function.update (m.phys (pageOf (pte m d i))) j v))) := by
  have hps : (d, i) ∈ userSlots := mem_userSlots.2 ⟨hd, hi⟩
  obtain ⟨f, hf⟩ : ∃ f, f = pageOf (pte m d i) := ⟨_, rfl⟩
  rw [← hf]
  have hpt : PointsTo (pte m d i) f := ⟨hp, hf.symm⟩
  have hl : lowPages ≤ f := by rw [hf]; exact hl'
  have h1 : m.memMap f = 1 := by rw [hf]; exact h1'
  have hdr : dirRefs m f = 0 := by
    by_contra hx
    exact not_pointsTo h.inv (f := f) (by omega) hps hpt
  have hfill : m.write f j v = m.fill f (Function.update (m.phys f) j v) := rfl
  have hs : SameTables m (m.write f j v) := by
    rw [hfill]; exact SameTables.fill hl hdr _
  have hinv : MemInv lo (m.write f j v) a.own := by
    rw [hfill]; exact h.inv.fill hl hdr _
  refine ⟨hinv, fun d' hd' => (by rw [hs.dirs]; exact h.table d' hd'), fun d' hd' i' hi' => ?_⟩
  have hps' : (d', i') ∈ userSlots := mem_userSlots.2 ⟨hd', hi'⟩
  unfold view
  rw [hs.entries d' hd']
  simp only [Space.setPage]
  by_cases hdi : d' = d ∧ i' = i
  · obtain ⟨rfl, rfl⟩ := hdi
    rw [if_pos ⟨rfl, rfl⟩, look_page hp (by rw [← hf]; exact hl), ← hf, hfill, Mem.fill_phys_self]
  · rw [if_neg hdi, ← h.page d' hd' i' hi']
    refine look_congr fun hp' _ => ?_
    rw [hfill, Mem.fill_phys_of_ne]
    intro he
    have := eq_of_memMap_one h.inv hl h1 hps' hps ⟨hp', he⟩ hpt
    exact hdi (by simpa using this)

/-- A store through a writable entry. -/
theorem Repr.storeWord (h : Repr lo m a) (hd : d ∈ userDirs) (hi : i < 1024)
    (hp : present (pte m d i) = true) (hwr : writable (pte m d i) = true) (j : ℕ) (v : Word) :
    Repr lo (m.write (pageOf (pte m d i)) j v)
      (a.setPage d i (.page (Function.update (m.phys (pageOf (pte m d i))) j v))) := by
  obtain ⟨hl, h1⟩ := h.inv.shared (d, i) (mem_userSlots.2 ⟨hd, hi⟩) hp hwr
  exact h.storePrivate hd hi hp hl h1 j v

end Access

end Linux011.Mm
