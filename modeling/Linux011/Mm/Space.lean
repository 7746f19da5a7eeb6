import Linux011.Mm.Account

/-!
# Address spaces

What the page tables mean. `Space` is the abstract state: the frames the kernel holds, which
directory entries have a table, and the page found at each entry. `Repr lo m a` says that memory
`m` is accounted for and means `a`. Each function of `mm/memory.c` gets one specification between
such states, in which it cannot panic: here `Repr.freePageTables`, which clears a range of entries,
in the modules after this one `Repr.copyPageTables` and the page faults.
-/

namespace Linux011.Mm

open Linux011.Count

/-- What a process finds at a page-table entry: nothing, one of the frames below 1 MB, or a page
with its contents. -/
inductive PageView
  | absent
  | low (f : ℕ)
  | page (c : ℕ → Word)

/-- The meaning of an entry. -/
def look (m : Mem) (e : Word) : PageView :=
  if present e then if pageOf e < lowPages then .low (pageOf e) else .page (m.phys (pageOf e))
  else .absent

/-- The meaning of entry `i` of directory entry `d`. -/
def view (m : Mem) (d i : ℕ) : PageView := look m (pte m d i)

/-- The abstract state. -/
structure Space where
  own : ℕ → ℕ
  table : ℕ → Bool
  page : ℕ → ℕ → PageView

namespace Space

/-- Another page at an entry. -/
def setPage (a : Space) (d i : ℕ) (v : PageView) : Space :=
  { a with page := fun d' i' => if d' = d ∧ i' = i then v else a.page d' i' }

/-- A table for directory entry `d`. -/
def addTable (a : Space) (d : ℕ) : Space :=
  { a with table := fun d' => if d' = d then true else a.table d' }

/-- The kernel holds `f` once more. -/
def hold (a : Space) (f : ℕ) : Space := { a with own := addOwner a.own f }

/-- No tables for the `n` directory entries from `b` on. -/
def clear (a : Space) (b n : ℕ) : Space :=
  { a with
    table := fun d => if b ≤ d ∧ d < b + n then false else a.table d
    page := fun d i => if b ≤ d ∧ d < b + n then .absent else a.page d i }

/-- Whether `copy_page_tables` finds a table at directory entry `d`; at 0 it finds the kernel's. -/
def srcTable (a : Space) (d : ℕ) : Bool := if d = 0 then true else a.table d

/-- The page `copy_page_tables` copies from an entry; from 0 it copies the first 640 KB. -/
def srcPage (a : Space) (d i : ℕ) : PageView :=
  if d = 0 then if i < 0xA0 then .low i else .absent else a.page d i

/-- Directory entry `t` becomes a copy of `f`. -/
def copyOne (a : Space) (f t : ℕ) : Space :=
  { a with
    table := fun d => if d = t then a.srcTable f else a.table d
    page := fun d i => if d = t then a.srcPage f i else a.page d i }

/-- The `n` directory entries from `t` on become copies of those from `f` on. -/
def copy (a : Space) (f t n : ℕ) : Space :=
  { a with
    table := fun d => if t ≤ d ∧ d < t + n then a.srcTable (f + (d - t)) else a.table d
    page := fun d i => if t ≤ d ∧ d < t + n then a.srcPage (f + (d - t)) i else a.page d i }

theorem setPage_self (a : Space) (d i : ℕ) : a.setPage d i (a.page d i) = a := by
  unfold setPage
  congr 1
  funext d' i'
  split_ifs with h
  · rw [h.1, h.2]
  · rfl

theorem clear_zero (a : Space) (b : ℕ) : a.clear b 0 = a := by
  have h : ∀ d, ¬ (b ≤ d ∧ d < b + 0) := fun d => by omega
  unfold clear
  simp only [if_neg (h _)]

theorem clear_one (a : Space) (d : ℕ) : a.clear d 1 = { a with
    table := fun d' => if d' = d then false else a.table d'
    page := fun d' i => if d' = d then .absent else a.page d' i } := by
  have h : ∀ d', (d ≤ d' ∧ d' < d + 1) = (d' = d) := fun d' => propext (by omega)
  unfold clear
  simp only [h]

theorem clear_succ (a : Space) (b n : ℕ) : (a.clear b n).clear (b + n) 1 = a.clear b (n + 1) := by
  rw [clear_one]
  unfold clear
  congr 1
  · funext d
    simp only
    split_ifs <;> first | rfl | omega
  · funext d i
    simp only
    split_ifs <;> first | rfl | omega

theorem copy_zero (a : Space) (f t : ℕ) : a.copy f t 0 = a := by
  have h : ∀ d, ¬ (t ≤ d ∧ d < t + 0) := fun d => by omega
  unfold copy
  simp only [if_neg (h _)]

/-- The source is outside what has been copied so far. -/
theorem copy_succ (a : Space) {f t n : ℕ} (h : f + n < t ∨ t + n ≤ f + n) :
    (a.copy f t n).copyOne (f + n) (t + n) = a.copy f t (n + 1) := by
  have hs : ¬ (t ≤ f + n ∧ f + n < t + n) := by omega
  have htable : (a.copy f t n).srcTable (f + n) = a.srcTable (f + n) := by
    simp only [srcTable, copy, if_neg hs]
  have hpage : (a.copy f t n).srcPage (f + n) = a.srcPage (f + n) := by
    funext i
    simp only [srcPage, copy, if_neg hs]
  unfold copyOne
  rw [htable, hpage]
  unfold copy
  congr 1
  · funext d
    simp only
    by_cases hd : d = t + n
    · rw [if_pos hd, if_pos (by omega), hd, Nat.add_sub_cancel_left]
    · rw [if_neg hd]
      by_cases hd' : t ≤ d ∧ d < t + n
      · rw [if_pos hd', if_pos (by omega)]
      · rw [if_neg hd', if_neg (by omega)]
  · funext d i
    simp only
    by_cases hd : d = t + n
    · rw [if_pos hd, if_pos (by omega), hd, Nat.add_sub_cancel_left]
    · rw [if_neg hd]
      by_cases hd' : t ≤ d ∧ d < t + n
      · rw [if_pos hd', if_pos (by omega)]
      · rw [if_neg hd', if_neg (by omega)]

end Space

/-- Memory `m` is accounted for and means `a`. -/
structure Repr (lo : ℕ) (m : Mem) (a : Space) : Prop where
  inv : MemInv lo m a.own
  table : ∀ d ∈ userDirs, present (pde m d) = a.table d
  page : ∀ d ∈ userDirs, ∀ i < 1024, view m d i = a.page d i

section Basic

variable {lo : ℕ} {m m' : Mem} {a a' : Space} {d f i : ℕ} {w : Word}

theorem look_absent (h : present w = false) : look m w = .absent := by
  unfold look; simp [h]

theorem look_low (h : present w = true) (hl : pageOf w < lowPages) : look m w = .low (pageOf w) := by
  unfold look; rw [if_pos h, if_pos hl]

theorem look_page (h : present w = true) (hl : lowPages ≤ pageOf w) :
    look m w = .page (m.phys (pageOf w)) := by
  unfold look; rw [if_pos h, if_neg (by omega)]

theorem look_eq_absent_iff : look m w = .absent ↔ present w = false := by
  unfold look
  split_ifs with h1 h2
  · simp [h1]
  · simp [h1]
  · simpa using h1

/-- An entry means the same in two memories in which its frame has the same contents. -/
theorem look_congr (h : present w = true → lowPages ≤ pageOf w →
    m'.phys (pageOf w) = m.phys (pageOf w)) : look m' w = look m w := by
  unfold look
  split_ifs with h1 h2
  · rfl
  · rw [h h1 (by omega)]
  · rfl

/-- The same frame means the same page. -/
theorem look_of_page_eq {w w' : Word} (hp : present w' = present w) (hf : pageOf w' = pageOf w) :
    look m w' = look m w := by
  unfold look; rw [hp, hf]

theorem Repr.of_eq (h : Repr lo m a) (ho : a'.own = a.own)
    (ht : ∀ d ∈ userDirs, a'.table d = a.table d)
    (hp : ∀ d ∈ userDirs, ∀ i < 1024, a'.page d i = a.page d i) : Repr lo m a' :=
  ⟨by rw [ho]; exact h.inv, fun d hd => (h.table d hd).trans (ht d hd).symm,
    fun d hd i hi => (h.page d hd i hi).trans (hp d hd i hi).symm⟩

theorem Repr.absent_iff (h : Repr lo m a) (hd : d ∈ userDirs) (hi : i < 1024) :
    a.page d i = .absent ↔ present (pte m d i) = false := by
  rw [← h.page d hd i hi]; exact look_eq_absent_iff

/-- A directory entry without a table has no pages. -/
theorem Repr.absent_of_table (h : Repr lo m a) (hd : d ∈ userDirs) (hi : i < 1024)
    (ht : a.table d = false) : a.page d i = .absent := by
  rw [h.absent_iff hd hi, pte_of_not_present (by rw [h.table d hd, ht])]
  exact present_zero

/-- One entry changes, and no page changes its contents. -/
theorem Repr.setEntry (h : Repr lo m a) (hw : EntryWrite m m' d i w) {own' : ℕ → ℕ}
    (hinv : MemInv lo m' own') (hd : d ∈ userDirs)
    (hphys : ∀ g, lowPages ≤ g → dirRefs m g = 0 → m'.phys g = m.phys g) :
    Repr lo m' { a.setPage d i (look m' w) with own := own' } := by
  refine ⟨hinv, fun d' hd' => ?_, fun d' hd' i' hi' => ?_⟩
  · rw [hw.dirs]
    exact h.table d' hd'
  · unfold view
    by_cases hdi : d' = d ∧ i' = i
    · obtain ⟨rfl, rfl⟩ := hdi
      rw [hw.self hd]
      simp [Space.setPage]
    · have hpte : pte m' d' i' = pte m d' i' := by rw [hw.entries d' hd', if_neg hdi]
      rw [hpte]
      simp only [Space.setPage, if_neg hdi]
      rw [← h.page d' hd' i' hi']
      refine look_congr fun hp hl => hphys _ hl ?_
      have hps : (d', i') ∈ userSlots := mem_userSlots.2 ⟨hd', hi'⟩
      by_contra hx
      exact not_pointsTo h.inv (f := pageOf (pte m d' i')) (by omega) hps ⟨hp, rfl⟩

/-- The tables stay, and no page changes its contents. -/
theorem Repr.sameTables (h : Repr lo m a) (hs : SameTables m m') {own' : ℕ → ℕ}
    (hinv : MemInv lo m' own')
    (hphys : ∀ g, lowPages ≤ g → refs m g ≠ 0 → m'.phys g = m.phys g) :
    Repr lo m' { a with own := own' } := by
  refine ⟨hinv, fun d' hd' => ?_, fun d' hd' i' hi' => ?_⟩
  · rw [hs.dirs]
    exact h.table d' hd'
  · unfold view
    rw [hs.entries d' hd']
    rw [← h.page d' hd' i' hi']
    refine look_congr fun hp hl => hphys _ hl ?_
    have hps : (d', i') ∈ userSlots := mem_userSlots.2 ⟨hd', hi'⟩
    have h0 : 0 < refs m (pageOf (pte m d' i')) := refs_pos hps ⟨hp, rfl⟩
    omega

/-- `get_free_page`. -/
theorem Repr.getFreePage (h : Repr lo m a) (hg : getFreePage m = some (f, m')) :
    Repr lo m' (a.hold f) ∧ SameTables m m' ∧ m'.phys f = fun _ => 0 := by
  obtain ⟨hinv, hs⟩ := h.inv.alloc hg
  obtain ⟨h0, hl, -, rfl⟩ := getFreePage_eq_some hg
  obtain ⟨-, hr, -, -⟩ := refs_eq_zero h.inv hl h0
  refine ⟨h.sameTables hs hinv fun g _ hrg => ?_, hs, Mem.fill_phys_self _ _ _⟩
  rw [Mem.fill_phys_of_ne]
  · rfl
  · rintro rfl; exact hrg hr

/-- The accounting with a frame the kernel holds. -/
theorem Repr.held (h : Repr lo m (a.hold f)) : MemInv lo m (addOwner a.own f) := h.inv

/-- `free_page` of a frame the kernel holds. -/
theorem Repr.freePage (h : Repr lo m (a.hold f)) :
    freePage m f = .ok (m.setMap f (m.memMap f - 1)) ∧ Repr lo (m.setMap f (m.memMap f - 1)) a := by
  obtain ⟨he, hinv⟩ := MemInv.free h.held
  exact ⟨he, h.sameTables ((SameTables.refl m).setMap f _) hinv fun _ _ _ => rfl⟩

/-- The contents of a frame the kernel holds. -/
theorem Repr.fill (h : Repr lo m (a.hold f)) (c : ℕ → Word) : Repr lo (m.fill f c) (a.hold f) := by
  obtain ⟨ha, hr, hdr, -, -⟩ := owner_facts h.held
  have hl := low_le_of_alloc h.inv ha
  refine h.sameTables (SameTables.fill hl hdr c) (h.inv.fill hl hdr c) fun g _ hg => ?_
  rw [Mem.fill_phys_of_ne]
  rintro rfl
  exact hg hr

theorem Repr.present_pde (h : Repr lo m a) (hd : d ∈ userDirs) (ht : a.table d = true) :
    present (pde m d) = true := by
  rw [h.table d hd, ht]

/-- A store to a page table changes no page. -/
theorem Repr.write_phys (h : Repr lo m a) (hd : d ∈ userDirs) (ht : a.table d = true) {g : ℕ}
    (hg : dirRefs m g = 0) : (m.write (pageOf (pde m d)) i w).phys g = m.phys g := by
  funext j
  refine Mem.write_phys_of_ne m w (.inl ?_)
  rintro rfl
  have := dirRefs_pos hd ⟨h.present_pde hd ht, rfl⟩
  omega

end Basic

/-! ## `free_page_tables` -/

section Free

variable {lo : ℕ} {m m' : Mem} {a : Space} {own : ℕ → ℕ} {d i : ℕ} {w : Word}

/-- `free_page` of the frame of an entry. -/
theorem freePage_entry (h : MemInv lo m a.own) (hd : d ∈ userDirs) (hi : i < 1024)
    (hp : present (pte m d i) = true) :
    ∃ c, freePage m (pageOf (pte m d i)) = .ok { m with memMap := c } ∧
      ∀ f, c f = if f = pageOf (pte m d i) ∧ lowPages ≤ f then m.memMap f - 1 else m.memMap f := by
  have hps : (d, i) ∈ userSlots := mem_userSlots.2 ⟨hd, hi⟩
  unfold freePage
  by_cases hl : pageOf (pte m d i) < lowPages
  · rw [if_pos hl]
    refine ⟨m.memMap, rfl, fun f => ?_⟩
    rw [if_neg]
    omega
  · have ha : Allocatable lo m (pageOf (pte m d i)) := (h.pages _ hps hp).resolve_left hl
    have hr : 0 < refs m (pageOf (pte m d i)) := refs_pos hps ⟨hp, rfl⟩
    have h0 := memMap_ne_zero h ha (by omega)
    rw [if_neg hl, if_neg (by have := ha.2; omega), if_neg h0]
    refine ⟨_, rfl, fun f => ?_⟩
    by_cases hf : f = pageOf (pte m d i)
    · subst hf
      rw [if_pos ⟨rfl, by omega⟩, Function.update_self]
    · rw [if_neg (fun hc => hf hc.1), Function.update_of_ne hf]

/-- An entry is cleared, and its frame, if it is counted, is given back. -/
theorem Repr.unmapEntry (h : Repr lo m a) (hd : d ∈ userDirs) (hi : i < 1024)
    (ht : a.table d = true) (hp : present (pte m d i) = true) {c : ℕ → BitVec 8}
    (hc : ∀ f, c f =
      if f = pageOf (pte m d i) ∧ lowPages ≤ f then m.memMap f - 1 else m.memMap f) :
    Repr lo (({ m with memMap := c } : Mem).write (pageOf (pde m d)) i 0)
        (a.setPage d i .absent) ∧
      EntryWrite m (({ m with memMap := c } : Mem).write (pageOf (pde m d)) i 0) d i 0 := by
  have hw := EntryWrite.write h.inv hd (h.present_pde hd ht) i 0
  have hw' : EntryWrite m (({ m with memMap := c } : Mem).write (pageOf (pde m d)) i 0) d i 0 :=
    ⟨hw.high, fun hk => ⟨(hw.kernel hk).table, (hw.kernel hk).identity, (hw.kernel hk).rest⟩,
      hw.dirs, hw.entries⟩
  have hinv := h.inv.unmap hw' hd hi hp present_zero hc
  have hr := h.setEntry hw' hinv hd fun g _ hg => h.write_phys hd ht hg
  rw [look_absent present_zero] at hr
  exact ⟨hr, hw'⟩

/-- The inner loop body clears one entry. -/
theorem Repr.freeEntry (h : Repr lo m a) (hd : d ∈ userDirs) (hi : i < 1024)
    (ht : a.table d = true) :
    ∃ m', Mm.freeEntry (pageOf (pde m d)) m i = .ok m' ∧ Repr lo m' (a.setPage d i .absent) ∧
      pde m' d = pde m d := by
  have hpd := h.present_pde hd ht
  have hpte : m.phys (pageOf (pde m d)) i = pte m d i := (pte_of_present hpd).symm
  unfold Mm.freeEntry
  rw [hpte]
  by_cases hp : present (pte m d i) = true
  · obtain ⟨c, hfree, hc⟩ := freePage_entry h.inv hd hi hp
    rw [if_pos hp, hfree]
    obtain ⟨hr, hw⟩ := h.unmapEntry hd hi ht hp hc
    exact ⟨_, rfl, hr, hw.dirs d⟩
  · have hp : present (pte m d i) = false := by simpa using hp
    rw [if_neg (by simp [hp])]
    have hw := EntryWrite.write h.inv hd hpd i 0
    have hinv := h.inv.erase hw hd hi hp present_zero rfl
    have hr := h.setEntry hw hinv hd fun g _ hg => h.write_phys hd ht hg
    rw [look_absent present_zero] at hr
    exact ⟨_, rfl, hr, hw.dirs d⟩

/-- The inner loop clears the table. -/
theorem Repr.freeEntries (h : Repr lo m a) (hd : d ∈ userDirs) (ht : a.table d = true) :
    Post ((List.range 1024).foldlM (Mm.freeEntry (pageOf (pde m d))) m)
      (fun m' => Repr lo m' { a with page := fun d' i => if d' = d then .absent else a.page d' i } ∧
        pde m' d = pde m d) (fun _ => False) := by
  let I : ℕ → Mem → Prop := fun k m' =>
    Repr lo m' { a with page := fun d' i => if d' = d ∧ i < k then .absent else a.page d' i } ∧
      pde m' d = pde m d
  have hstep : ∀ k < 1024, ∀ m', I k m' →
      Post (Mm.freeEntry (pageOf (pde m d)) m' k) (I (k + 1)) (fun _ => False) := by
    intro k hk m' hI
    obtain ⟨m'', he, hr, hpde⟩ := hI.1.freeEntry hd hk ht
    rw [hI.2] at he hpde
    rw [he]
    refine Post.ok ⟨hr.of_eq rfl (fun _ _ => rfl) fun d' _ i _ => ?_, hpde⟩
    by_cases hdd : d' = d
    · subst hdd
      by_cases hik : i < k
      · simp [Space.setPage, hik, Nat.lt_succ_of_lt hik]
      · by_cases hik' : i = k
        · simp [Space.setPage, hik']
        · simp [Space.setPage, hik, hik', show ¬ i < k + 1 by omega]
    · simp [Space.setPage, hdd]
  have h0 : I 0 m := ⟨h.of_eq rfl (fun _ _ => rfl) fun _ _ _ _ => by simp, rfl⟩
  refine (Post.foldRange hstep h0).mono (fun m' hI => ⟨hI.1.of_eq rfl (fun _ _ => rfl) ?_, hI.2⟩)
    fun _ => id
  intro d' _ i hi
  simp [hi]

/-- A store to an entry of the page directory that leaves the pages what they are. -/
theorem Repr.setDir (h : Repr lo m a) (hw : DirWrite m m' d w) {own' : ℕ → ℕ}
    (hinv : MemInv lo m' own') (hphys : ∀ g, lowPages ≤ g → m'.phys g = m.phys g) :
    Repr lo m' { a with
      own := own', table := fun d' => if d' = d then present w else a.table d' } := by
  refine ⟨hinv, fun d' hd' => ?_, fun d' hd' i' hi' => ?_⟩
  · rw [hw.dirs]
    by_cases hdd : d' = d
    · simp [hdd]
    · simp only [if_neg hdd]
      exact h.table d' hd'
  · rw [← h.page d' hd' i' hi']
    unfold view
    by_cases hdd : d' = d
    · rw [hdd, look_absent (hw.after i' hi'), look_absent (hw.before i' hi')]
    · rw [hw.entries d' hd' hdd]
      exact look_congr fun _ hl => hphys _ hl

/-- The store itself. -/
theorem DirWrite.write (h : MemInv lo m own) (hd : d ∈ userDirs)
    (hb : ∀ i < 1024, present (pte m d i) = false)
    (ha : present w = true → lowPages ≤ pageOf w ∧ ∀ i < 1024, present (m.phys (pageOf w) i) = false) :
    DirWrite m (m.write 0 d w) d w := by
  have hlt := mem_userDirs.1 hd
  have hphys : ∀ g, g ≠ 0 → (m.write 0 d w).phys g = m.phys g := fun g hg => by
    funext j; exact Mem.write_phys_of_ne m w (.inl hg)
  have hdirs : ∀ d', pde (m.write 0 d w) d' = if d' = d then w else pde m d' := by
    intro d'
    unfold pde
    by_cases hdd : d' = d
    · rw [if_pos hdd, hdd, Mem.write_phys_self]
    · rw [if_neg hdd, Mem.write_phys_of_ne m w (.inr hdd)]
  refine ⟨rfl, fun hk => ⟨fun d' hd' => ?_, fun d' hd' i hi => ?_, fun d' h4 hd' => ?_⟩, hdirs,
    fun d' hd' hne i => ?_, hb, fun i hi => ?_⟩
  · rw [hdirs, if_neg (by omega)]
    exact hk.table d' hd'
  · rw [hphys _ (by omega)]
    exact hk.identity d' hd' i hi
  · rw [hdirs, if_neg (by omega)]
    exact hk.rest d' h4 hd'
  · unfold pte
    rw [hdirs, if_neg hne]
    by_cases hp : present (pde m d') = true
    · have := table_low h hd' hp
      unfold lowPages at this
      rw [if_pos hp, if_pos hp, hphys _ (by omega)]
    · rw [if_neg hp, if_neg hp]
  · unfold pte
    rw [hdirs, if_pos rfl]
    by_cases hp : present w = true
    · obtain ⟨hl, hz⟩ := ha hp
      unfold lowPages at hl
      rw [if_pos hp, hphys _ (by omega)]
      exact hz i hi
    · rw [if_neg hp]
      exact present_zero

/-- `free_page` does not look at the contents of memory. -/
theorem freePage_write {f g i : ℕ} (h : Mm.freePage (m.write f i w) g = .ok m') :
    ∃ m₂, Mm.freePage m g = .ok m₂ ∧ m₂.write f i w = m' := by
  unfold Mm.freePage at h ⊢
  change (if g < lowPages then .ok (m.write f i w)
    else if m.highMemory ≤ g then .error .freeNonexistentPage
    else if m.memMap g = 0 then .error .freeFreePage
    else .ok ((m.write f i w).setMap g (m.memMap g - 1)) : Except Panic Mem) = .ok m' at h
  by_cases h1 : g < lowPages
  · rw [if_pos h1] at h ⊢
    exact ⟨m, rfl, Except.ok.inj h⟩
  · rw [if_neg h1] at h ⊢
    by_cases h2 : m.highMemory ≤ g
    · rw [if_pos h2] at h
      cases h
    · rw [if_neg h2] at h ⊢
      by_cases h3 : m.memMap g = 0
      · rw [if_pos h3] at h
        cases h
      · rw [if_neg h3] at h ⊢
        exact ⟨_, rfl, Except.ok.inj h⟩

/-- The outer loop body. -/
theorem Repr.freeDir (h : Repr lo m a) (hd : d ∈ userDirs) :
    Post (Mm.freeDir m d) (fun m' => Repr lo m' (a.clear d 1)) (fun _ => False) := by
  unfold Mm.freeDir
  by_cases ht : a.table d = true
  · rw [if_pos (h.present_pde hd ht)]
    refine (h.freeEntries hd ht).bind fun m₁ hm₁ => ?_
    obtain ⟨h₁, hpde⟩ := hm₁
    have hp₁ := h₁.present_pde hd ht
    -- The table goes to the kernel, which gives it back.
    have hw : DirWrite m₁ (m₁.write 0 d 0) d 0 := by
      refine DirWrite.write h₁.inv hd (fun i hi => ?_) fun hc => ?_
      · rw [← h₁.absent_iff hd hi]
        simp
      · rw [present_zero] at hc
        cases hc
    have hnz : ∀ f, ¬ PointsTo (0 : Word) f := fun f hc => by
      have hz := present_zero
      rw [hc.1] at hz
      cases hz
    have hinv : MemInv lo (m₁.write 0 d 0) (addOwner a.own (pageOf (pde m₁ d))) := by
      refine h₁.inv.setDir hw hd rfl fun f => ?_
      rw [if_neg (hnz f)]
      unfold addOwner PointsTo
      by_cases hf : f = pageOf (pde m₁ d)
      · simp [hf, hp₁]
      · simp [hf, show pageOf (pde m₁ d) ≠ f from fun hc => hf hc.symm]
    have hphys : ∀ g, lowPages ≤ g → (m₁.write 0 d 0).phys g = m₁.phys g := fun g hg => by
      unfold lowPages at hg
      funext j
      exact Mem.write_phys_of_ne m₁ 0 (.inl (by omega))
    have hr := h₁.setDir hw hinv hphys
    obtain ⟨hfree, hr'⟩ := Repr.freePage (f := pageOf (pde m₁ d))
      (a := { a with
        page := fun d' i => if d' = d then .absent else a.page d' i
        table := fun d' => if d' = d then present 0 else a.table d' }) hr
    obtain ⟨m₂, hfree', he⟩ := freePage_write hfree
    rw [← he] at hr'
    rw [hfree']
    rw [present_zero] at hr'
    rw [Space.clear_one]
    exact Post.ok hr'
  · have ht : a.table d = false := by simpa using ht
    rw [if_neg (by rw [h.table d hd, ht]; simp)]
    rw [Space.clear_one]
    refine Post.ok (h.of_eq rfl (fun d' _ => ?_) fun d' hd' i hi => ?_)
    · simp only
      split_ifs with hdd
      · rw [hdd, ht]
      · rfl
    · simp only
      split_ifs with hdd
      · rw [hdd, h.absent_of_table hd hi ht]
      · rfl

theorem dirCount_le {size : ℕ} (h : size ≤ 2 ^ 26) : dirCount size ≤ 16 := by
  unfold dirCount; omega

theorem dirIndex_slot {nr : ℕ} (h : nr < 64) : dirIndex (nr * 2 ^ 26) = 16 * nr := by
  unfold dirIndex; omega

/-- **`free_page_tables`** on a slot clears its first entries. -/
theorem Repr.freePageTables (h : Repr lo m a) {nr size : ℕ} (h0 : nr ≠ 0) (hnr : nr < 64)
    (hsize : size ≤ 2 ^ 26) :
    Post (Mm.freePageTables m (nr * 2 ^ 26) size)
      (fun m' => Repr lo m' (a.clear (16 * nr) (dirCount size))) (fun _ => False) := by
  have hn := dirCount_le hsize
  unfold Mm.freePageTables
  rw [if_neg (by omega), if_neg (by omega), dirIndex_slot hnr]
  have hstep : ∀ k < dirCount size, ∀ m', Repr lo m' (a.clear (16 * nr) k) →
      Post (Mm.freeDir m' (16 * nr + k)) (fun m'' => Repr lo m'' (a.clear (16 * nr) (k + 1)))
        (fun _ => False) := by
    intro k hk m' hm'
    rw [← Space.clear_succ]
    exact hm'.freeDir (mem_userDirs.2 (by omega))
  exact Post.foldRange hstep (by rw [Space.clear_zero]; exact h)

end Free

end Linux011.Mm
