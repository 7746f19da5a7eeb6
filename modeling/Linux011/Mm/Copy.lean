import Linux011.Mm.Space

/-!
# `copy_page_tables`

Fork makes the entries of one slot equal to those of another (`Repr.copyPageTables`). A page of a
process is copied in two steps: the source loses its write bit (`Repr.protectEntry`), then the copy
is made and counted (`Repr.shareEntry`). Low frames are copied without either.
-/

namespace Linux011.Mm

section Copy

variable {lo : ℕ} {m m' : Mem} {a : Space} {fd td i nr : ℕ}

/-- The page tables of two directory entries are different frames. -/
theorem Repr.table_ne (h : Repr lo m a) (hfd : fd ∈ userDirs) (htd : td ∈ userDirs)
    (hf : a.table fd = true) (ht : a.table td = true) (hne : fd ≠ td) :
    pageOf (pde m fd) ≠ pageOf (pde m td) := fun he =>
  hne (table_inj h.inv hfd htd (h.present_pde hfd hf) (h.present_pde htd ht) he)

theorem toNat_protect_iff {e : Word} (hp : present e = true) :
    0x100000 < (protect e).toNat ↔ lowPages ≤ pageOf e := by
  rw [lowMem_lt_iff (by rw [present_protect]; exact hp), pageOf_protect]
  rfl

/-- The inner loop body, where the source is a low frame: only the copy is written. -/
theorem Repr.copyEntry_low (h : Repr lo m a) (htd : td ∈ userDirs) (hi : i < 1024)
    (ht : a.table td = true) (habs : a.page td i = .absent) (ft : ℕ)
    (hp : present (m.phys ft i) = true) (hl : pageOf (m.phys ft i) < lowPages) :
    Repr lo (copyEntry ft (pageOf (pde m td)) m i) (a.setPage td i (.low (pageOf (m.phys ft i)))) ∧
      ∀ d, pde (copyEntry ft (pageOf (pde m td)) m i) d = pde m d := by
  have hpd := h.present_pde htd ht
  have hw := EntryWrite.write h.inv htd hpd i (protect (m.phys ft i))
  have hc : copyEntry ft (pageOf (pde m td)) m i =
      m.write (pageOf (pde m td)) i (protect (m.phys ft i)) := by
    unfold copyEntry
    rw [if_pos hp]
    simp only
    rw [if_neg]
    rw [toNat_protect_iff hp]
    omega
  have hinv := h.inv.mapLow hw htd hi ((h.absent_iff htd hi).1 habs)
    (by rw [pageOf_protect]; exact hl) (writable_protect _) rfl
  have hr := h.setEntry hw hinv htd fun g _ hg => h.write_phys htd ht hg
  rw [look_low (by rw [present_protect]; exact hp) (by rw [pageOf_protect]; exact hl),
    pageOf_protect] at hr
  rw [hc]
  exact ⟨hr, hw.dirs⟩

/-- A present entry loses its write bit. -/
theorem Repr.protectEntry (h : Repr lo m a) (hd : fd ∈ userDirs) (hi : i < 1024)
    (ht : a.table fd = true) (hp : present (pte m fd i) = true) :
    Repr lo (m.write (pageOf (pde m fd)) i (protect (pte m fd i))) a ∧
      EntryWrite m (m.write (pageOf (pde m fd)) i (protect (pte m fd i))) fd i
        (protect (pte m fd i)) := by
  have hw := EntryWrite.write h.inv hd (h.present_pde hd ht) i (protect (pte m fd i))
  have hinv := h.inv.flags hw hd hi rfl (present_protect _) (pageOf_protect _)
    fun _ hc => by rw [writable_protect] at hc; cases hc
  have hr := h.setEntry hw hinv hd fun g _ hg => h.write_phys hd ht hg
  have hlook : look (m.write (pageOf (pde m fd)) i (protect (pte m fd i)))
      (protect (pte m fd i)) = a.page fd i := by
    rw [look_of_page_eq (present_protect _) (pageOf_protect _), ← h.page fd hd i hi]
    refine look_congr fun _ hl => h.write_phys hd ht ?_
    by_contra hx
    have hps : (fd, i) ∈ userSlots := mem_userSlots.2 ⟨hd, hi⟩
    exact not_pointsTo h.inv (f := pageOf (pte m fd i)) (by omega) hps ⟨hp, rfl⟩
  rw [hlook, Space.setPage_self] at hr
  exact ⟨hr, hw⟩

/-- An absent entry is made a copy of a protected one at the same offset, which is counted. -/
theorem Repr.shareEntry (h : Repr lo m a) (hfd : fd ∈ userDirs) (htd : td ∈ userDirs)
    (hi : i < 1024) (ht : a.table td = true) (hmod : fd % 16 = td % 16)
    (habs : a.page td i = .absent) {e : Word} (he : pte m fd i = e) (hp : present e = true)
    (hl : lowPages ≤ pageOf e) (hprot : writable e = false) :
    Repr lo ((m.write (pageOf (pde m td)) i e).setMap (pageOf e) (m.memMap (pageOf e) + 1))
        (a.setPage td i (a.page fd i)) ∧
      ∀ d, pde ((m.write (pageOf (pde m td)) i e).setMap (pageOf e) (m.memMap (pageOf e) + 1)) d =
        pde m d := by
  have hw := (EntryWrite.write h.inv htd (h.present_pde htd ht) i e).setMap (pageOf e)
    (m.memMap (pageOf e) + 1)
  have hps : (fd, i) ∈ userSlots := mem_userSlots.2 ⟨hfd, hi⟩
  have hpt : PointsTo (pte m fd i) (pageOf e) := by rw [he]; exact ⟨hp, rfl⟩
  have hinv := h.inv.map hw htd hi ((h.absent_iff htd hi).1 habs) hp hprot hps hpt hl hmod rfl
    (by rw [he]; exact hprot) (by rw [Mem.setMap_memMap, Mem.write_memMap])
  have hr := h.setEntry hw hinv htd fun g _ hg => h.write_phys htd ht hg
  have hlook : look ((m.write (pageOf (pde m td)) i e).setMap (pageOf e)
      (m.memMap (pageOf e) + 1)) e = a.page fd i := by
    rw [← h.page fd hfd i hi]
    unfold view
    rw [he]
    refine look_congr fun _ _ => h.write_phys htd ht ?_
    by_contra hx
    exact not_pointsTo h.inv (by omega) hps hpt
  rw [hlook] at hr
  exact ⟨hr, hw.dirs⟩

/-- The inner loop body, between two tables of processes. -/
theorem Repr.copyEntry (h : Repr lo m a) (hfd : fd ∈ userDirs) (htd : td ∈ userDirs)
    (hi : i < 1024) (hf : a.table fd = true) (ht : a.table td = true) (hne : fd ≠ td)
    (hmod : fd % 16 = td % 16) (habs : a.page td i = .absent) :
    Repr lo (Mm.copyEntry (pageOf (pde m fd)) (pageOf (pde m td)) m i)
        (a.setPage td i (a.page fd i)) ∧
      ∀ d, pde (Mm.copyEntry (pageOf (pde m fd)) (pageOf (pde m td)) m i) d = pde m d := by
  have hpf := h.present_pde hfd hf
  have hpte : m.phys (pageOf (pde m fd)) i = pte m fd i := (pte_of_present hpf).symm
  by_cases hp : present (pte m fd i) = true
  · by_cases hl : pageOf (pte m fd i) < lowPages
    · have := h.copyEntry_low htd hi ht habs (pageOf (pde m fd)) (by rw [hpte]; exact hp)
        (by rw [hpte]; exact hl)
      rw [hpte, ← look_low (m := m) hp hl] at this
      rw [← h.page fd hfd i hi]
      exact this
    · -- First the source loses its write bit, then the copy is made and counted.
      obtain ⟨hr, hw⟩ := h.protectEntry hfd hi hf hp
      obtain ⟨hr', hd'⟩ := hr.shareEntry hfd htd hi ht hmod habs (hw.self hfd)
        (by rw [present_protect]; exact hp) (by rw [pageOf_protect]; omega) (writable_protect _)
      have hc : Mm.copyEntry (pageOf (pde m fd)) (pageOf (pde m td)) m i =
          ((m.write (pageOf (pde m fd)) i (protect (pte m fd i))).write (pageOf (pde m td)) i
            (protect (pte m fd i))).setMap (pageOf (protect (pte m fd i)))
              (m.memMap (pageOf (protect (pte m fd i))) + 1) := by
        rw [Mem.write_comm m (h.table_ne hfd htd hf ht hne)]
        unfold Mm.copyEntry
        rw [hpte, if_pos hp]
        simp only
        rw [if_pos ((toNat_protect_iff hp).2 (by omega)), Mem.write_memMap]
      rw [hw.dirs, Mem.write_memMap, ← hc] at hr' hd'
      exact ⟨hr', fun d => (hd' d).trans (hw.dirs d)⟩
  · have hp : present (pte m fd i) = false := by simpa using hp
    have hc : Mm.copyEntry (pageOf (pde m fd)) (pageOf (pde m td)) m i = m := by
      unfold Mm.copyEntry
      rw [hpte, if_neg (by simp [hp])]
    have habs' : a.page fd i = a.page td i := by rw [habs, h.absent_iff hfd hi]; exact hp
    rw [hc, habs', Space.setPage_self]
    exact ⟨h, fun _ => rfl⟩

/-- A table for directory entry `td`, taken with `get_free_page`. -/
theorem Repr.newTable (h : Repr lo m a) (htd : td ∈ userDirs) (ht : a.table td = false) {tt : ℕ}
    (hg : Mm.getFreePage m = some (tt, m')) :
    Repr lo (m'.write 0 td (entry tt)) (a.addTable td) ∧
      pageOf (pde (m'.write 0 td (entry tt)) td) = tt ∧
      ∀ d, d ≠ td → pde (m'.write 0 td (entry tt)) d = pde m d := by
  obtain ⟨h', hs, hz⟩ := h.getFreePage hg
  obtain ⟨ha, -, hdr, -, -⟩ := owner_facts h'.held
  have hl := low_le_of_alloc h'.inv ha
  have hpage := pageOf_entry (alloc_lt h'.inv ha)
  have hw : DirWrite m' (m'.write 0 td (entry tt)) td (entry tt) := by
    refine DirWrite.write h'.inv htd (fun i hi => ?_) fun _ => ⟨by rw [hpage]; exact hl, ?_⟩
    · rw [← h'.absent_iff htd hi]
      exact h.absent_of_table htd hi ht
    · intro i _
      rw [hpage, hz]
      exact present_zero
  have hpd : present (pde m' td) = false := by rw [h'.table td htd]; exact ht
  have hinv : MemInv lo (m'.write 0 td (entry tt)) a.own := by
    refine h'.inv.setDir hw htd rfl fun f => ?_
    have hno : ¬ PointsTo (pde m' td) f := fun hc => by rw [hc.1] at hpd; cases hpd
    rw [if_neg hno]
    simp only [Space.hold, addOwner]
    by_cases hf : f = tt
    · rw [if_pos hf, if_pos ⟨present_entry _, hpage.trans hf.symm⟩]
    · rw [if_neg hf, if_neg (fun hc => hf (hc.2.symm.trans hpage))]
  have hr := h'.setDir hw hinv fun g hg => by
    unfold lowPages at hg
    funext j
    exact Mem.write_phys_of_ne m' _ (.inl (by omega))
  refine ⟨hr.of_eq rfl (fun d _ => ?_) fun _ _ _ _ => rfl, ?_, fun d hd => ?_⟩
  · simp only [Space.addTable, Space.hold, present_entry]
  · rw [hw.dirs, if_pos rfl, hpage]
  · rw [hw.dirs, if_neg hd, hs.dirs]

/-- The inner loop, for any source whose entries are copied one by one. -/
theorem Repr.copyEntries (h : Repr lo m a) (habs : ∀ i < 1024, a.page td i = .absent)
    (ft tt nr : ℕ) (src : ℕ → PageView)
    (hstep : ∀ i < nr, ∀ m' a', Repr lo m' a' → (∀ d, pde m' d = pde m d) →
      (∀ d, a'.table d = a.table d) → (∀ d, d ≠ td → a'.page d = a.page d) →
      a'.page td i = .absent → Repr lo (Mm.copyEntry ft tt m' i) (a'.setPage td i (src i)) ∧
        ∀ d, pde (Mm.copyEntry ft tt m' i) d = pde m' d) :
    Repr lo ((List.range nr).foldl (Mm.copyEntry ft tt) m) { a with
      page := fun d i => if d = td then if i < nr then src i else .absent else a.page d i } := by
  let b : ℕ → Space := fun k => { a with
    page := fun d i => if d = td then if i < k then src i else .absent else a.page d i }
  have hinit : Repr lo m (b 0) := by
    refine h.of_eq rfl (fun _ _ => rfl) fun d _ i hi => ?_
    by_cases hd : d = td
    · simp [b, hd, habs i hi]
    · simp [b, hd]
  refine (foldRange_invariant (I := fun k m' => Repr lo m' (b k) ∧ ∀ d, pde m' d = pde m d)
    (fun k hk m' hI => ?_) ⟨hinit, fun _ => rfl⟩).1
  obtain ⟨h1, h2⟩ := hstep k hk m' (b k) hI.1 hI.2 (fun _ => rfl) (fun d hd => by simp [b, hd])
    (by simp [b])
  refine ⟨h1.of_eq rfl (fun _ _ => rfl) fun d _ i _ => ?_, fun d => (h2 d).trans (hI.2 d)⟩
  by_cases hd : d = td
  · by_cases hik : i = k
    · simp [b, Space.setPage, hd, hik]
    · by_cases hlt : i < k
      · simp [b, Space.setPage, hd, hik, hlt, Nat.lt_succ_of_lt hlt]
      · simp [b, Space.setPage, hd, hik, hlt, show ¬ i < k + 1 by omega]
  · simp [b, Space.setPage, hd]

/-- What `copy_page_tables` copies from and to: two slots of processes, or task 0 to a slot. -/
def CopyPair (fd td nr : ℕ) : Prop :=
  fd ∈ userDirs ∧ fd ≠ td ∧ fd % 16 = td % 16 ∧ nr = 1024 ∨ fd = 0 ∧ nr = 0xA0

/-- The outer loop body. -/
theorem Repr.copyDir (h : Repr lo m a) (hpair : CopyPair fd td nr) (htd : td ∈ userDirs)
    (ht : a.table td = false) :
    Post (Mm.copyDir fd td nr m) (fun m' => Repr lo m' (a.copyOne fd td))
      (fun e => e = .noMemory m) := by
  have hsrc : present (pde m fd) = a.srcTable fd := by
    rcases hpair with ⟨hfd, -⟩ | ⟨rfl, -⟩
    · have := mem_userDirs.1 hfd
      rw [h.table fd hfd, Space.srcTable, if_neg (by omega)]
    · rw [h.inv.kernel.table 0 (by decide), present_entry]
      rfl
  unfold Mm.copyDir
  rw [if_neg (by rw [h.table td htd, ht]; simp)]
  by_cases hs : a.srcTable fd = true
  · rw [if_pos (by rw [hsrc, hs])]
    cases hg : Mm.getFreePage m with
    | none => exact Post.error rfl
    | some r =>
      obtain ⟨tt, m'⟩ := r
      obtain ⟨hn, htt, hpde⟩ := h.newTable htd ht hg
      have htd' : (a.addTable td).table td = true := by simp [Space.addTable]
      have habs : ∀ i < 1024, (a.addTable td).page td i = .absent := fun i hi =>
        h.absent_of_table htd hi ht
      rcases hpair with ⟨hfd, hne, hmod, rfl⟩ | ⟨rfl, rfl⟩
      · have hnz : fd ≠ 0 := by have := mem_userDirs.1 hfd; omega
        have hft : (a.addTable td).table fd = true := by
          simpa [Space.addTable, hne, Space.srcTable, hnz] using hs
        have hr := hn.copyEntries habs (pageOf (pde m fd)) tt 1024 (a.page fd)
          fun i hi m'' a' h' hp' ht' hpg' habs' => by
            have := h'.copyEntry hfd htd hi (by rw [ht', hft]) (by rw [ht', htd']) hne hmod habs'
            rw [hp', hp', hpde fd hne, htt, hpg' fd hne] at this
            exact this
        refine Post.ok (hr.of_eq rfl (fun d _ => ?_) fun d _ i hi => ?_)
        · simp [Space.copyOne, Space.addTable, hs]
        · simp [Space.copyOne, Space.addTable, Space.srcPage, hnz, hi]
      · have hk : pde m 0 = entry 1 := h.inv.kernel.table 0 (by decide)
        have hr := hn.copyEntries habs (pageOf (pde m 0)) tt 0xA0 .low
          fun i hi m'' a' h' hp' ht' _ habs' => by
            have he : m''.phys (pageOf (pde m 0)) i = entry i := by
              rw [hk, pageOf_entry (by decide), h'.inv.kernel.identity 0 (by decide) i (by omega)]
              simp
            have hpi : pageOf (entry i) = i := pageOf_entry (by omega)
            have := h'.copyEntry_low htd (by omega) (by rw [ht', htd']) habs'
              (pageOf (pde m 0)) (by rw [he]; exact present_entry i)
              (by rw [he, hpi]; unfold lowPages; omega)
            rw [he, hpi, hp', htt] at this
            exact this
        refine Post.ok (hr.of_eq rfl (fun d _ => ?_) fun d _ i hi => ?_)
        · simp [Space.copyOne, Space.addTable, Space.srcTable]
        · simp [Space.copyOne, Space.addTable, Space.srcPage]
  · have hs : a.srcTable fd = false := by simpa using hs
    rw [if_neg (by rw [hsrc, hs]; simp)]
    refine Post.ok (h.of_eq rfl (fun d hd => ?_) fun d hd i hi => ?_)
    · simp only [Space.copyOne]
      split_ifs with hdd
      · rw [hdd, hs, ht]
      · rfl
    · simp only [Space.copyOne]
      split_ifs with hdd
      · rw [hdd, h.absent_of_table htd hi ht]
        rcases hpair with ⟨hfd, -⟩ | ⟨rfl, -⟩
        · have hnz : fd ≠ 0 := by have := mem_userDirs.1 hfd; omega
          rw [Space.srcTable, if_neg hnz] at hs
          rw [Space.srcPage, if_neg hnz, h.absent_of_table hfd hi hs]
        · cases hs
      · rfl

/-- A turn of the outer loop, of a copy from slot `p` to the empty slot `c`. -/
theorem Repr.copyTurn {p c size k : ℕ} (hp : p < 64) (hc : c < 64) (hc0 : c ≠ 0) (hne : p ≠ c)
    (hsize : size ≤ 2 ^ 26) (hone : p = 0 → dirCount size ≤ 1) (hk : k < dirCount size)
    (hempty : ∀ k < 16, a.table (16 * c + k) = false)
    (hm : Repr lo m (a.copy (16 * p) (16 * c) k)) :
    CopyPair (16 * p + k) (16 * c + k) (if p * 2 ^ 26 = 0 then 0xA0 else 1024) ∧
    Post (Mm.copyDir (16 * p + k) (16 * c + k) (if p * 2 ^ 26 = 0 then 0xA0 else 1024) m)
      (fun m' => Repr lo m' (a.copy (16 * p) (16 * c) (k + 1))) (fun e => e = .noMemory m) := by
  have hn := dirCount_le hsize
  have htd : 16 * c + k ∈ userDirs := mem_userDirs.2 (by omega)
  have hpair : CopyPair (16 * p + k) (16 * c + k) (if p * 2 ^ 26 = 0 then 0xA0 else 1024) := by
    by_cases hp0 : p = 0
    · subst hp0
      have := hone rfl
      exact .inr ⟨by omega, rfl⟩
    · rw [if_neg (by omega)]
      exact .inl ⟨mem_userDirs.2 (by omega), by omega, by omega, rfl⟩
  have ht : (a.copy (16 * p) (16 * c) k).table (16 * c + k) = false := by
    simp only [Space.copy]
    rw [if_neg (by omega)]
    exact hempty k (by omega)
  rw [← Space.copy_succ a (by omega)]
  exact ⟨hpair, hm.copyDir hpair htd ht⟩

/-- **`copy_page_tables`** into an empty slot makes it a copy; where it runs out of memory, a part
of the copy has been made. -/
theorem Repr.copyPageTables (h : Repr lo m a) {p c size : ℕ} (hp : p < 64) (hc : c < 64)
    (hc0 : c ≠ 0) (hne : p ≠ c) (hsize : size ≤ 2 ^ 26) (hone : p = 0 → dirCount size ≤ 1)
    (hempty : ∀ k < 16, a.table (16 * c + k) = false) :
    Post (Mm.copyPageTables m (p * 2 ^ 26) (c * 2 ^ 26) size)
      (fun m' => Repr lo m' (a.copy (16 * p) (16 * c) (dirCount size)))
      (fun e => ∃ k m', e = .noMemory m' ∧ k ≤ dirCount size ∧
        Repr lo m' (a.copy (16 * p) (16 * c) k)) := by
  unfold Mm.copyPageTables
  rw [if_neg (by omega), dirIndex_slot hp, dirIndex_slot hc]
  refine Post.foldRange (I := fun k m' => Repr lo m' (a.copy (16 * p) (16 * c) k))
    (fun k hk m' hm' => ?_) (by rw [Space.copy_zero]; exact h)
  obtain ⟨-, hturn⟩ := hm'.copyTurn hp hc hc0 hne hsize hone hk hempty
  exact hturn.mono (fun _ => id) fun e he => ⟨k, m', he, by omega, hm'⟩

end Copy

end Linux011.Mm
