import Linux011.Lib.Count
import Mathlib.Order.Interval.Finset.Nat
import Linux011.Mm.Memory

/-!
# Page-frame accounting

`MemInv lo m own`: in memory `m`, with `own f` references to frame `f` held by the kernel, `mem_map`
counts the references to every frame that `mem_init` left allocatable (those from `lo` up to
`HIGH_MEMORY`). The count is kept by the elementary changes of a page table: an entry changes its
flags (`MemInv.flags`), an entry is added (`MemInv.map`) or removed (`MemInv.unmap`), a table is
added (`MemInv.addTable`) or removed (`MemInv.dropTable`), the kernel takes a frame
(`MemInv.alloc`), gives it back (`MemInv.free`) or passes it to an entry (`MemInv.give`).

A frame is mapped at one offset only, the same in every slot of 64 MB, so at most once by each
process (`refs_le`); this keeps the 8-bit counts from wrapping.
-/

namespace Linux011.Mm

open Linux011.Count

/-- The directory entries of the slots 1, …, 63. -/
@[irreducible] def userDirs : Finset ℕ := Finset.Ico 16 1024

/-- The page-table entries of the slots 1, …, 63. -/
@[irreducible] def userSlots : Finset (ℕ × ℕ) := userDirs ×ˢ Finset.range 1024

/-- The frame `e` points to, if it is present. -/
def PointsTo (e : Word) (f : ℕ) : Prop := present e = true ∧ pageOf e = f

instance (e : Word) (f : ℕ) : Decidable (PointsTo e f) := by unfold PointsTo; infer_instance

/-- The number of page-table entries that point to `f`. -/
def refs (m : Mem) (f : ℕ) : ℕ := (userSlots.filter fun p => PointsTo (pte m p.1 p.2) f).card

/-- The number of directory entries that point to `f`. -/
def dirRefs (m : Mem) (f : ℕ) : ℕ := (userDirs.filter fun d => PointsTo (pde m d) f).card

/-- `f` is one of the frames `mem_init` left allocatable. -/
def Allocatable (lo : ℕ) (m : Mem) (f : ℕ) : Prop := lo ≤ f ∧ f < m.highMemory

/-- The identity map of the first 16 MB that `head.s` builds in `pg0`, …, `pg3`; nothing changes
it, and the rest of slot 0 has no tables. -/
structure KernelMap (m : Mem) : Prop where
  table : ∀ d < 4, pde m d = entry (d + 1)
  identity : ∀ d < 4, ∀ i < 1024, m.phys (d + 1) i = entry (1024 * d + i)
  rest : ∀ d, 4 ≤ d → d < 16 → present (pde m d) = false

/-- The accounting invariant. -/
structure MemInv (lo : ℕ) (m : Mem) (own : ℕ → ℕ) : Prop where
  low : lowPages ≤ lo
  high : m.highMemory ≤ lowPages + pagingPages
  kernel : KernelMap m
  used : ∀ f, lowPages ≤ f → ¬ Allocatable lo m f → m.memMap f ≠ 0
  tables : ∀ d ∈ userDirs, present (pde m d) = true → Allocatable lo m (pageOf (pde m d))
  pages : ∀ p ∈ userSlots, present (pte m p.1 p.2) = true →
    pageOf (pte m p.1 p.2) < lowPages ∨ Allocatable lo m (pageOf (pte m p.1 p.2))
  owned : ∀ f, own f ≠ 0 → Allocatable lo m f
  count : ∀ f, Allocatable lo m f → (m.memMap f).toNat = refs m f + dirRefs m f + own f
  exclusive : ∀ f, dirRefs m f + own f ≠ 0 → refs m f + dirRefs m f + own f = 1
  offset : ∀ p ∈ userSlots, ∀ p' ∈ userSlots, ∀ f, lowPages ≤ f → PointsTo (pte m p.1 p.2) f →
    PointsTo (pte m p'.1 p'.2) f → p.1 % 16 = p'.1 % 16 ∧ p.2 = p'.2
  shared : ∀ p ∈ userSlots, present (pte m p.1 p.2) = true → writable (pte m p.1 p.2) = true →
    lowPages ≤ pageOf (pte m p.1 p.2) ∧ m.memMap (pageOf (pte m p.1 p.2)) = 1

section Basic

variable {lo : ℕ} {m m' : Mem} {own own' : ℕ → ℕ} {d f i : ℕ} {p : ℕ × ℕ}

theorem mem_userDirs : d ∈ userDirs ↔ 16 ≤ d ∧ d < 1024 := by
  unfold userDirs; exact Finset.mem_Ico

theorem mem_userSlots : p ∈ userSlots ↔ p.1 ∈ userDirs ∧ p.2 < 1024 := by
  unfold userSlots; rw [Finset.mem_product, Finset.mem_range]

theorem refs_pos (hp : p ∈ userSlots) (h : PointsTo (pte m p.1 p.2) f) : 0 < refs m f := by
  unfold refs
  exact card_filter_pos hp h

theorem dirRefs_pos (hd : d ∈ userDirs) (h : PointsTo (pde m d) f) : 0 < dirRefs m f := by
  unfold dirRefs
  exact card_filter_pos hd h

/-- Entries that point nowhere else have the same reference counts. -/
theorem refs_congr (h : ∀ p ∈ userSlots, PointsTo (pte m' p.1 p.2) f ↔ PointsTo (pte m p.1 p.2) f) :
    refs m' f = refs m f := by
  unfold refs
  exact card_filter_congr h

theorem dirRefs_congr (h : ∀ d ∈ userDirs, PointsTo (pde m' d) f ↔ PointsTo (pde m d) f) :
    dirRefs m' f = dirRefs m f := by
  unfold dirRefs
  exact card_filter_congr h

/-- A frame is mapped at most once in each of the 63 slots. -/
theorem refs_le (h : MemInv lo m own) (hf : lowPages ≤ f) : refs m f ≤ 63 := by
  have hcard : (Finset.Ico 1 64).card = 63 := by simp
  rw [← hcard]
  unfold refs
  refine card_filter_le (fun p : ℕ × ℕ => p.1 / 16) _ (fun p hp _ => ?_) ?_
  · have := mem_userDirs.1 (mem_userSlots.1 hp).1
    rw [Finset.mem_Ico]; omega
  · intro p hp hpf p' hp' hpf' heq
    obtain ⟨h1, h2⟩ := h.offset p hp p' hp' f hf hpf hpf'
    have heq : p.1 / 16 = p'.1 / 16 := heq
    exact Prod.ext (by omega) h2

/-- The 8-bit count of a frame that can be mapped once more does not wrap. -/
theorem count_lt (h : MemInv lo m own) (hf : Allocatable lo m f) : (m.memMap f).toNat < 64 := by
  have hlo := h.low
  have hr := refs_le h (f := f) (le_trans h.low hf.1)
  rw [h.count f hf]
  by_cases hx : dirRefs m f + own f = 0
  · omega
  · rw [h.exclusive f hx]; omega

/-- A frame with references has a nonzero count. -/
theorem memMap_ne_zero (h : MemInv lo m own) (hf : Allocatable lo m f)
    (hr : 0 < refs m f + dirRefs m f + own f) : m.memMap f ≠ 0 := by
  intro h0
  have := h.count f hf
  rw [h0] at this
  simp at this
  omega

/-- No page-table entry points to a page table. -/
theorem page_ne_table (h : MemInv lo m own) (hp : p ∈ userSlots)
    (hpp : present (pte m p.1 p.2) = true) (hd : d ∈ userDirs) (hdp : present (pde m d) = true) :
    pageOf (pte m p.1 p.2) ≠ pageOf (pde m d) := by
  intro he
  have h1 : 0 < refs m (pageOf (pde m d)) := refs_pos hp ⟨hpp, he⟩
  have h2 : 0 < dirRefs m (pageOf (pde m d)) := dirRefs_pos hd ⟨hdp, rfl⟩
  have := h.exclusive (pageOf (pde m d)) (by omega)
  omega

/-- Page tables are not shared. -/
theorem table_inj (h : MemInv lo m own) {d' : ℕ} (hd : d ∈ userDirs) (hd' : d' ∈ userDirs)
    (hp : present (pde m d) = true) (hp' : present (pde m d') = true)
    (he : pageOf (pde m d) = pageOf (pde m d')) : d = d' := by
  have h2 : 0 < dirRefs m (pageOf (pde m d)) := dirRefs_pos hd ⟨hp, rfl⟩
  have h3 := h.exclusive (pageOf (pde m d)) (by omega)
  have hle : dirRefs m (pageOf (pde m d)) ≤ 1 := by omega
  exact eq_of_card_filter_le_one hle hd ⟨hp, rfl⟩ hd' ⟨hp', he.symm⟩

theorem low_le_of_alloc (h : MemInv lo m own) (hf : Allocatable lo m f) : lowPages ≤ f :=
  le_trans h.low hf.1

theorem alloc_lt (h : MemInv lo m own) (hf : Allocatable lo m f) : f < 2 ^ 20 := by
  have h1 := hf.2
  have h2 := h.high
  unfold lowPages pagingPages at h2
  omega

/-- A frame that no page-table entry may point to: a page table or one the kernel owns. -/
theorem not_pointsTo (h : MemInv lo m own) (hx : dirRefs m f + own f ≠ 0) (hp : p ∈ userSlots) :
    ¬ PointsTo (pte m p.1 p.2) f := by
  intro hpf
  have h1 := refs_pos hp hpf
  have h2 := h.exclusive f hx
  omega

end Basic

/-! ## One entry changes -/

/-- Between `m` and `m'` the page tables differ in entry `i` of directory entry `d` only, which is
now `w`. -/
structure EntryWrite (m m' : Mem) (d i : ℕ) (w : Word) : Prop where
  high : m'.highMemory = m.highMemory
  kernel : KernelMap m → KernelMap m'
  dirs : ∀ d', pde m' d' = pde m d'
  entries : ∀ d' ∈ userDirs, ∀ i', pte m' d' i' = if d' = d ∧ i' = i then w else pte m d' i'

section Entry

variable {lo : ℕ} {m m' : Mem} {own own' : ℕ → ℕ} {d f i : ℕ} {w : Word}

theorem pte_of_present (h : present (pde m d) = true) : pte m d i = m.phys (pageOf (pde m d)) i := by
  unfold pte; rw [if_pos h]

theorem pte_of_not_present (h : present (pde m d) = false) : pte m d i = 0 := by
  unfold pte; simp [h]

/-- A table is not one of the frames 0, …, 4 that hold the page directory and the kernel's tables. -/
theorem table_low (h : MemInv lo m own) (hd : d ∈ userDirs) (hp : present (pde m d) = true) :
    lowPages ≤ pageOf (pde m d) :=
  low_le_of_alloc h (h.tables d hd hp)

/-- A store to a frame that is not low leaves the directory and the kernel's tables alone. -/
theorem kernelMap_of_phys (hk : KernelMap m) (h : ∀ g < lowPages, m'.phys g = m.phys g) :
    KernelMap m' := by
  have h0 : m'.phys 0 = m.phys 0 := h 0 (by decide)
  refine ⟨fun d hd => ?_, fun d hd i hi => ?_, fun d hd hd' => ?_⟩
  · have := hk.table d hd
    unfold pde at this ⊢; rw [h0, this]
  · rw [h (d + 1) (by unfold lowPages; omega)]
    exact hk.identity d hd i hi
  · have := hk.rest d hd hd'
    unfold pde at this ⊢; rw [h0, this]

/-- A store to entry `i` of a page table. -/
theorem EntryWrite.write (h : MemInv lo m own) (hd : d ∈ userDirs) (hp : present (pde m d) = true)
    (i : ℕ) (w : Word) : EntryWrite m (m.write (pageOf (pde m d)) i w) d i w := by
  have hlow := table_low h hd hp
  have hpde : ∀ d', pde (m.write (pageOf (pde m d)) i w) d' = pde m d' := by
    intro d'
    unfold lowPages at hlow
    exact Mem.write_phys_of_ne m w (.inl (by omega))
  refine ⟨rfl, fun hk => kernelMap_of_phys hk fun g hg => ?_, hpde, fun d' hd' i' => ?_⟩
  · funext j
    exact Mem.write_phys_of_ne m w (.inl (by omega))
  · by_cases hpd : present (pde m d') = true
    · rw [pte_of_present (by rw [hpde]; exact hpd), pte_of_present hpd, hpde]
      by_cases hdd : d' = d
      · subst hdd
        by_cases hii : i' = i
        · subst hii
          rw [if_pos ⟨rfl, rfl⟩, Mem.write_phys_self]
        · rw [if_neg (fun hc => hii hc.2), Mem.write_phys_of_ne m w (.inr hii)]
      · rw [if_neg (fun hc => hdd hc.1)]
        refine Mem.write_phys_of_ne m w (.inl fun he => hdd ?_)
        exact table_inj h hd' hd hpd hp he
    · have hpd : present (pde m d') = false := by simpa using hpd
      have hdd : d' ≠ d := fun hc => by rw [hc, hp] at hpd; cases hpd
      rw [pte_of_not_present (by rw [hpde]; exact hpd), pte_of_not_present hpd,
        if_neg (fun hc => hdd hc.1)]

theorem EntryWrite.setMap (h : EntryWrite m m' d i w) (f : ℕ) (c : BitVec 8) :
    EntryWrite m (m'.setMap f c) d i w :=
  ⟨h.high, fun hk => ⟨(h.kernel hk).table, (h.kernel hk).identity, (h.kernel hk).rest⟩, h.dirs, h.entries⟩

theorem EntryWrite.self (h : EntryWrite m m' d i w) (hd : d ∈ userDirs) : pte m' d i = w := by
  rw [h.entries d hd i, if_pos ⟨rfl, rfl⟩]

theorem EntryWrite.other (h : EntryWrite m m' d i w) {p : ℕ × ℕ} (hp : p ∈ userSlots)
    (hne : p ≠ (d, i)) : pte m' p.1 p.2 = pte m p.1 p.2 := by
  rw [h.entries p.1 (mem_userSlots.1 hp).1 p.2, if_neg]
  rintro ⟨h1, h2⟩
  exact hne (Prod.ext h1 h2)

theorem EntryWrite.dirRefs_eq (h : EntryWrite m m' d i w) (f : ℕ) : dirRefs m' f = dirRefs m f :=
  dirRefs_congr fun d' _ => by rw [h.dirs]

/-- The references gained and lost by the change of one entry. -/
theorem EntryWrite.refs_add (h : EntryWrite m m' d i w) (hd : d ∈ userDirs) (hi : i < 1024) (f : ℕ) :
    refs m' f + (if PointsTo (pte m d i) f then 1 else 0) =
      refs m f + (if PointsTo w f then 1 else 0) := by
  have hp : (d, i) ∈ userSlots := mem_userSlots.2 ⟨hd, hi⟩
  rw [← h.self hd]
  unfold refs
  have hcard := card_filter_change (P := fun p => PointsTo (pte m p.1 p.2) f)
    (Q := fun p => PointsTo (pte m' p.1 p.2) f) hp fun p hp hne => by rw [h.other hp hne]
  simpa only using hcard

/-- Frames with a directory reference or an owner are allocatable. -/
theorem alloc_of_exclusive (h : MemInv lo m own) (hx : dirRefs m f + own f ≠ 0) :
    Allocatable lo m f := by
  by_cases ho : own f = 0
  · have hne : dirRefs m f ≠ 0 := by omega
    unfold dirRefs at hne
    rw [Ne, card_filter_eq_zero_iff] at hne
    push Not at hne
    obtain ⟨d, hd, hp, rfl⟩ := hne
    exact h.tables d hd hp
  · exact h.owned f ho

/-- What the change of one entry has to respect for the accounting to go on. -/
theorem MemInv.setEntry (h : MemInv lo m own) (hw : EntryWrite m m' d i w) (hd : d ∈ userDirs)
    (hi : i < 1024) (hown : ∀ f, own' f ≤ own f)
    (hout : ∀ f, ¬ Allocatable lo m f → m'.memMap f = m.memMap f)
    (hcount : ∀ f, Allocatable lo m f →
      (m'.memMap f).toNat + own f + (if PointsTo (pte m d i) f then 1 else 0) =
        (m.memMap f).toNat + own' f + (if PointsTo w f then 1 else 0))
    (hpage : present w = true → pageOf w < lowPages ∨
      Allocatable lo m (pageOf w) ∧ dirRefs m (pageOf w) + own' (pageOf w) = 0)
    (hoffset : present w = true → lowPages ≤ pageOf w → ∀ p ∈ userSlots,
      PointsTo (pte m p.1 p.2) (pageOf w) → p.1 % 16 = d % 16 ∧ p.2 = i)
    (hwrite : present w = true → writable w = true →
      lowPages ≤ pageOf w ∧ m'.memMap (pageOf w) = 1)
    (hshared : ∀ p ∈ userSlots, p ≠ (d, i) → present (pte m p.1 p.2) = true →
      writable (pte m p.1 p.2) = true →
        m'.memMap (pageOf (pte m p.1 p.2)) = m.memMap (pageOf (pte m p.1 p.2))) :
    MemInv lo m' own' := by
  have halloc : ∀ f, Allocatable lo m' f ↔ Allocatable lo m f := by
    intro f; unfold Allocatable; rw [hw.high]
  have hself := hw.self hd
  have hdr := hw.dirRefs_eq
  refine ⟨h.low, by rw [hw.high]; exact h.high, hw.kernel h.kernel, ?_, ?_, ?_, ?_, ?_, ?_, ?_, ?_⟩
  · intro f hf hna
    rw [halloc] at hna
    rw [hout f hna]
    exact h.used f hf hna
  · intro d' hd' hp
    rw [hw.dirs] at hp ⊢
    exact (halloc _).2 (h.tables d' hd' hp)
  · intro p hp hpp
    by_cases hne : p = (d, i)
    · subst hne
      rw [hself] at hpp ⊢
      exact (hpage hpp).imp id fun hx => (halloc _).2 hx.1
    · rw [hw.other hp hne] at hpp ⊢
      exact (h.pages p hp hpp).imp id (halloc _).2
  · intro f hf
    exact (halloc f).2 (h.owned f (by have := hown f; omega))
  · intro f hf
    have hf := (halloc f).1 hf
    have h1 := hcount f hf
    have h2 := h.count f hf
    have h3 := hw.refs_add hd hi f
    rw [hdr]
    omega
  · intro f hx
    rw [hdr] at hx ⊢
    have h1 := h.exclusive f (by have := hown f; omega)
    have h3 := hw.refs_add hd hi f
    have hnew : ¬ PointsTo w f := by
      rintro ⟨hp, rfl⟩
      have ha := alloc_of_exclusive h (f := pageOf w) (by have := hown (pageOf w); omega)
      rcases hpage hp with hl | ⟨-, hz⟩
      · have := low_le_of_alloc h ha
        omega
      · exact hx hz
    rw [if_neg hnew] at h3
    have := hown f
    omega
  · intro p hp p' hp' f hf hpf hpf'
    by_cases hne : p = (d, i)
    · by_cases hne' : p' = (d, i)
      · subst hne; subst hne'
        exact ⟨rfl, rfl⟩
      · subst hne
        rw [hself] at hpf
        rw [hw.other hp' hne'] at hpf'
        obtain ⟨hpw, rfl⟩ := hpf
        obtain ⟨h1, h2⟩ := hoffset hpw hf p' hp' hpf'
        exact ⟨h1.symm, h2.symm⟩
    · rw [hw.other hp hne] at hpf
      by_cases hne' : p' = (d, i)
      · subst hne'
        rw [hself] at hpf'
        obtain ⟨hpw, rfl⟩ := hpf'
        exact hoffset hpw hf p hp hpf
      · rw [hw.other hp' hne'] at hpf'
        exact h.offset p hp p' hp' f hf hpf hpf'
  · intro p hp hpp hpw
    by_cases hne : p = (d, i)
    · subst hne
      rw [hself] at hpp hpw ⊢
      exact hwrite hpp hpw
    · rw [hw.other hp hne] at hpp hpw ⊢
      obtain ⟨h1, h2⟩ := h.shared p hp hpp hpw
      exact ⟨h1, (hshared p hp hne hpp hpw).trans h2⟩

/-- The only reference to a frame whose count is one. -/
theorem eq_of_memMap_one (h : MemInv lo m own) (hf : lowPages ≤ f) (h1 : m.memMap f = 1)
    {p p' : ℕ × ℕ} (hp : p ∈ userSlots) (hp' : p' ∈ userSlots) (hpf : PointsTo (pte m p.1 p.2) f)
    (hpf' : PointsTo (pte m p'.1 p'.2) f) : p = p' := by
  have ha : Allocatable lo m f := by
    rcases h.pages p hp hpf.1 with hl | ha
    · rw [hpf.2] at hl; omega
    · rw [hpf.2] at ha; exact ha
  have hc := h.count f ha
  rw [h1] at hc
  have hone : (1 : BitVec 8).toNat = 1 := by decide
  have hle : refs m f ≤ 1 := by omega
  unfold refs at hle
  exact eq_of_card_filter_le_one hle hp hpf hp' hpf'

/-- An entry keeps its frame and may lose the write bit, or get it when it is the only one. -/
theorem MemInv.flags (h : MemInv lo m own) (hw : EntryWrite m m' d i w) (hd : d ∈ userDirs)
    (hi : i < 1024) (hmap : m'.memMap = m.memMap) (hpres : present w = present (pte m d i))
    (hpage : pageOf w = pageOf (pte m d i))
    (hwrite : present w = true → writable w = true →
      lowPages ≤ pageOf w ∧ m.memMap (pageOf w) = 1) : MemInv lo m' own := by
  have hp : (d, i) ∈ userSlots := mem_userSlots.2 ⟨hd, hi⟩
  have hiff : ∀ f, PointsTo w f ↔ PointsTo (pte m d i) f := by
    intro f; unfold PointsTo; rw [hpres, hpage]
  refine h.setEntry hw hd hi (fun _ => le_refl _) (fun f _ => by rw [hmap]) (fun f _ => ?_)
    (fun hpw => ?_) (fun hpw hl p hp' hpf => ?_) (by rw [hmap]; exact hwrite)
    (fun p _ _ _ _ => by rw [hmap])
  · rw [hmap]
    simp only [hiff]
  · rw [hpres] at hpw
    rw [hpage]
    refine (h.pages _ hp hpw).imp id fun ha => ⟨ha, ?_⟩
    by_contra hx
    exact not_pointsTo h hx hp ⟨hpw, rfl⟩
  · exact h.offset p hp' (d, i) hp _ hl hpf ((hiff _).1 ⟨hpw, rfl⟩)

theorem toNat_add_one {c : BitVec 8} (h : c.toNat < 255) : (c + 1).toNat = c.toNat + 1 := by
  rw [BitVec.toNat_add]
  exact Nat.mod_eq_of_lt (by show c.toNat + 1 < 256; omega)

theorem toNat_sub_one {c : BitVec 8} (h : c ≠ 0) : (c - 1).toNat + 1 = c.toNat := by
  have hlt := c.isLt
  have hpos : c.toNat ≠ 0 := fun h0 => h (BitVec.eq_of_toNat_eq h0)
  rw [BitVec.toNat_sub]
  show (2 ^ 8 - 1 + c.toNat) % 2 ^ 8 + 1 = c.toNat
  omega

/-- An absent entry is made to point to a frame that is mapped, nowhere writable, at the same
offset, and the frame's count goes up. -/
theorem MemInv.map (h : MemInv lo m own) (hw : EntryWrite m m' d i w) (hd : d ∈ userDirs)
    (hi : i < 1024) (hold : present (pte m d i) = false) (hpres : present w = true)
    (hnw : writable w = false) {p : ℕ × ℕ} (hp : p ∈ userSlots)
    (hpw : PointsTo (pte m p.1 p.2) (pageOf w)) (hl : lowPages ≤ pageOf w)
    (hpd : p.1 % 16 = d % 16) (hpi : p.2 = i) (hprot : writable (pte m p.1 p.2) = false)
    (hmap : m'.memMap = Function.update m.memMap (pageOf w) (m.memMap (pageOf w) + 1)) :
    MemInv lo m' own := by
  have ha : Allocatable lo m (pageOf w) := by
    have := h.pages p hp hpw.1
    rw [hpw.2] at this
    rcases this with h' | h'
    · omega
    · exact h'
  have hlt := count_lt h ha
  have hpos : m.memMap (pageOf w) ≠ 0 := by
    apply memMap_ne_zero h ha
    have := refs_pos hp hpw
    omega
  refine h.setEntry hw hd hi (fun _ => le_refl _) (fun f hf => ?_) (fun f hf => ?_)
    (fun _ => .inr ⟨ha, ?_⟩) (fun _ _ p' hp' hpf => ?_) (fun _ hc => by rw [hnw] at hc; cases hc)
    (fun p' hp' _ hpp' hw' => ?_)
  · rw [hmap, Function.update_of_ne]
    rintro rfl
    exact hf ha
  · have hno : ¬ PointsTo (pte m d i) f := fun hc => by rw [hc.1] at hold; cases hold
    rw [if_neg hno, hmap]
    by_cases hfw : f = pageOf w
    · subst hfw
      rw [Function.update_self, if_pos ⟨hpres, rfl⟩, toNat_add_one (by omega)]
      omega
    · rw [Function.update_of_ne hfw, if_neg (fun hc => hfw hc.2.symm)]
  · by_contra hx
    exact not_pointsTo h hx hp hpw
  · obtain ⟨h1, h2⟩ := h.offset p' hp' p hp _ hl hpf hpw
    exact ⟨h1.trans hpd, h2.trans hpi⟩
  · rw [hmap, Function.update_of_ne]
    intro he
    obtain ⟨h1, h2⟩ := h.shared p' hp' hpp' hw'
    rw [he] at h2
    obtain rfl := eq_of_memMap_one h hl h2 hp' hp ⟨hpp', he⟩ hpw
    rw [hprot] at hw'
    cases hw'

/-- An entry is cleared, and the count of its frame, if it is counted, goes down. -/
theorem MemInv.unmap (h : MemInv lo m own) (hw : EntryWrite m m' d i w) (hd : d ∈ userDirs)
    (hi : i < 1024) (hold : present (pte m d i) = true) (hpres : present w = false)
    (hmap : ∀ f, m'.memMap f =
      if f = pageOf (pte m d i) ∧ lowPages ≤ f then m.memMap f - 1 else m.memMap f) :
    MemInv lo m' own := by
  have hp : (d, i) ∈ userSlots := mem_userSlots.2 ⟨hd, hi⟩
  have hnw : ∀ f, ¬ PointsTo w f := fun f hc => by rw [hc.1] at hpres; cases hpres
  have hno : ¬ present w = true := by rw [hpres]; exact Bool.false_ne_true
  refine h.setEntry hw hd hi (fun _ => le_refl _) (fun f hf => ?_) (fun f hf => ?_)
    (fun hc => absurd hc hno) (fun hc => absurd hc hno) (fun hc => absurd hc hno)
    (fun p' hp' hne hpp' hw' => ?_)
  · rw [hmap, if_neg]
    rintro ⟨rfl, hl⟩
    rcases h.pages _ hp hold with hl' | ha
    · have : pageOf (pte m d i) < lowPages := hl'
      omega
    · exact hf ha
  · rw [hmap, if_neg (hnw f)]
    by_cases hfp : f = pageOf (pte m d i)
    · have hpt : PointsTo (pte m d i) f := ⟨hold, hfp.symm⟩
      have hr : 0 < refs m f := refs_pos hp hpt
      have h0 : m.memMap f ≠ 0 := memMap_ne_zero h hf (by omega)
      have h1 := toNat_sub_one h0
      rw [if_pos ⟨hfp, low_le_of_alloc h hf⟩, if_pos hpt]
      omega
    · rw [if_neg (fun hc => hfp hc.1), if_neg (fun hc => hfp hc.2.symm)]
  · rw [hmap, if_neg]
    rintro ⟨he, hl⟩
    obtain ⟨-, h2⟩ := h.shared p' hp' hpp' hw'
    exact hne (eq_of_memMap_one h hl h2 hp' hp ⟨hpp', rfl⟩ ⟨hold, he.symm⟩)

/-- An absent entry stays absent. -/
theorem MemInv.erase (h : MemInv lo m own) (hw : EntryWrite m m' d i w) (hd : d ∈ userDirs)
    (hi : i < 1024) (hold : present (pte m d i) = false) (hpres : present w = false)
    (hmap : m'.memMap = m.memMap) : MemInv lo m' own := by
  have hno : ¬ present w = true := by rw [hpres]; exact Bool.false_ne_true
  have hnw : ∀ f, ¬ PointsTo w f := fun f hc => hno hc.1
  have hnold : ∀ f, ¬ PointsTo (pte m d i) f := fun f hc => by rw [hc.1] at hold; cases hold
  exact h.setEntry hw hd hi (fun _ => le_refl _) (fun f _ => by rw [hmap])
    (fun f _ => by rw [hmap, if_neg (hnw f), if_neg (hnold f)]) (fun hc => absurd hc hno)
    (fun hc => absurd hc hno) (fun hc => absurd hc hno) (fun p _ _ _ _ => by rw [hmap])

/-- An absent entry is made to point to a low frame, which is not counted. -/
theorem MemInv.mapLow (h : MemInv lo m own) (hw : EntryWrite m m' d i w) (hd : d ∈ userDirs)
    (hi : i < 1024) (hold : present (pte m d i) = false) (hl : pageOf w < lowPages)
    (hnw : writable w = false) (hmap : m'.memMap = m.memMap) : MemInv lo m' own := by
  have hnold : ∀ f, ¬ PointsTo (pte m d i) f := fun f hc => by rw [hc.1] at hold; cases hold
  refine h.setEntry hw hd hi (fun _ => le_refl _) (fun f _ => by rw [hmap]) (fun f hf => ?_)
    (fun _ => .inl hl) (fun _ hl' => by omega) (fun _ hc => by rw [hnw] at hc; cases hc)
    (fun p _ _ _ _ => by rw [hmap])
  have hnf : ¬ PointsTo w f := by
    rintro ⟨-, rfl⟩
    have := low_le_of_alloc h hf
    omega
  rw [hmap, if_neg hnf, if_neg (hnold f)]

/-- The kernel holds one more reference to `f`. -/
def addOwner (own : ℕ → ℕ) (f : ℕ) : ℕ → ℕ := fun g => own g + if g = f then 1 else 0

/-- What is known of a frame the kernel holds once more than `own`. -/
theorem owner_facts (h : MemInv lo m (addOwner own f)) :
    Allocatable lo m f ∧ refs m f = 0 ∧ dirRefs m f = 0 ∧ own f = 0 ∧ m.memMap f = 1 := by
  have hf : addOwner own f f = own f + 1 := by unfold addOwner; rw [if_pos rfl]
  have ha := h.owned f (by omega)
  have hx := h.exclusive f (by omega)
  have hc := h.count f ha
  refine ⟨ha, by omega, by omega, by omega, ?_⟩
  apply BitVec.eq_of_toNat_eq
  show (m.memMap f).toNat = 1
  omega

/-- A frame the kernel holds is passed to an absent entry. -/
theorem MemInv.give (h : MemInv lo m (addOwner own f)) (hw : EntryWrite m m' d i w)
    (hd : d ∈ userDirs) (hi : i < 1024) (hold : present (pte m d i) = false)
    (hpres : present w = true) (hpage : pageOf w = f) (hmap : m'.memMap = m.memMap) : MemInv lo m' own := by
  obtain ⟨ha, hr, hdr, ho, h1⟩ := owner_facts h
  have hno : ∀ g, ¬ PointsTo (pte m d i) g := fun g hc => by rw [hc.1] at hold; cases hold
  refine h.setEntry hw hd hi (fun g => Nat.le_add_right _ _) (fun g _ => by rw [hmap])
    (fun g _ => ?_) (fun _ => .inr ?_) (fun _ _ p hp hpf => ?_) (fun _ _ => ?_)
    (fun p _ _ _ _ => by rw [hmap])
  · rw [hmap, if_neg (hno g)]
    unfold addOwner
    by_cases hg : g = f
    · rw [if_pos hg, if_pos ⟨hpres, hpage.trans hg.symm⟩]
      omega
    · rw [if_neg hg, if_neg (fun hc => hg (hc.2.symm.trans hpage))]
      omega
  · rw [hpage]
    exact ⟨ha, by omega⟩
  · rw [hpage] at hpf
    have := refs_pos hp hpf
    omega
  · rw [hmap, hpage]
    exact ⟨low_le_of_alloc h ha, h1⟩

end Entry

/-! ## Frames come and go -/

/-- Between `m` and `m'` the page tables do not differ. -/
structure SameTables (m m' : Mem) : Prop where
  high : m'.highMemory = m.highMemory
  kernel : KernelMap m → KernelMap m'
  dirs : ∀ d, pde m' d = pde m d
  entries : ∀ d ∈ userDirs, ∀ i, pte m' d i = pte m d i

/-- Between `m` and `m'` directory entry `d` changes to `w`; the table it had and the table it gets
have no present entry. -/
structure DirWrite (m m' : Mem) (d : ℕ) (w : Word) : Prop where
  high : m'.highMemory = m.highMemory
  kernel : KernelMap m → KernelMap m'
  dirs : ∀ d', pde m' d' = if d' = d then w else pde m d'
  entries : ∀ d' ∈ userDirs, d' ≠ d → ∀ i, pte m' d' i = pte m d' i
  before : ∀ i < 1024, present (pte m d i) = false
  after : ∀ i < 1024, present (pte m' d i) = false

section Frames

variable {lo : ℕ} {m m' : Mem} {own own' : ℕ → ℕ} {d f : ℕ} {w : Word}

theorem SameTables.refs_eq (h : SameTables m m') (f : ℕ) : refs m' f = refs m f :=
  refs_congr fun p hp => by rw [h.entries p.1 (mem_userSlots.1 hp).1]

theorem SameTables.dirRefs_eq (h : SameTables m m') (f : ℕ) : dirRefs m' f = dirRefs m f :=
  dirRefs_congr fun d _ => by rw [h.dirs]

/-- The contents of a frame that is not low and not a page table. -/
theorem SameTables.fill (hl : lowPages ≤ f) (hf : dirRefs m f = 0) (c : ℕ → Word) :
    SameTables m (m.fill f c) := by
  have hlow : ∀ g < lowPages, (m.fill f c).phys g = m.phys g := fun g hg =>
    Mem.fill_phys_of_ne m c (by omega)
  have hdirs : ∀ d, pde (m.fill f c) d = pde m d := by
    intro d; unfold pde; rw [hlow 0 (by decide)]
  refine ⟨rfl, fun hk => kernelMap_of_phys hk hlow, hdirs, fun d hd i => ?_⟩
  unfold pte
  rw [hdirs]
  by_cases hp : present (pde m d) = true
  · rw [if_pos hp, if_pos hp, Mem.fill_phys_of_ne]
    intro he
    have := dirRefs_pos (m := m) hd ⟨hp, he⟩
    omega
  · rw [if_neg hp, if_neg hp]

theorem SameTables.setMap (h : SameTables m m') (f : ℕ) (c : BitVec 8) :
    SameTables m (m'.setMap f c) :=
  ⟨h.high, fun hk => ⟨(h.kernel hk).table, (h.kernel hk).identity, (h.kernel hk).rest⟩, h.dirs,
    h.entries⟩

theorem SameTables.refl (m : Mem) : SameTables m m :=
  ⟨rfl, id, fun _ => rfl, fun _ _ _ => rfl⟩

/-- What a change of owners and counts has to respect. -/
theorem MemInv.setOwner (h : MemInv lo m own) (hs : SameTables m m')
    (hout : ∀ f, ¬ Allocatable lo m f → m'.memMap f = m.memMap f)
    (hcount : ∀ f, Allocatable lo m f →
      (m'.memMap f).toNat + own f = (m.memMap f).toNat + own' f)
    (hown : ∀ f, own' f ≠ 0 → Allocatable lo m f)
    (hexcl : ∀ f, own' f ≠ 0 → own' f ≠ own f → refs m f + dirRefs m f + own' f = 1)
    (hdir : ∀ f, own' f ≠ own f → dirRefs m f = 0)
    (hshared : ∀ f, m.memMap f = 1 → own f = 0 → m'.memMap f = 1) : MemInv lo m' own' := by
  have halloc : ∀ f, Allocatable lo m' f ↔ Allocatable lo m f := by
    intro f; unfold Allocatable; rw [hs.high]
  refine ⟨h.low, by rw [hs.high]; exact h.high, hs.kernel h.kernel, ?_, ?_, ?_, ?_, ?_, ?_, ?_, ?_⟩
  · intro f hf hna
    rw [halloc] at hna
    rw [hout f hna]
    exact h.used f hf hna
  · intro d hd hp
    rw [hs.dirs] at hp ⊢
    exact (halloc _).2 (h.tables d hd hp)
  · intro p hp hpp
    rw [hs.entries p.1 (mem_userSlots.1 hp).1] at hpp ⊢
    exact (h.pages p hp hpp).imp id (halloc _).2
  · exact fun f hf => (halloc f).2 (hown f hf)
  · intro f hf
    have hf := (halloc f).1 hf
    have h1 := hcount f hf
    have h2 := h.count f hf
    rw [hs.refs_eq, hs.dirRefs_eq]
    omega
  · intro f hx
    rw [hs.dirRefs_eq] at hx
    rw [hs.refs_eq, hs.dirRefs_eq]
    by_cases he : own' f = own f
    · rw [he] at hx ⊢
      exact h.exclusive f hx
    · have := hdir f he
      exact hexcl f (by omega) he
  · intro p hp p' hp' f hf hpf hpf'
    rw [hs.entries p.1 (mem_userSlots.1 hp).1] at hpf
    rw [hs.entries p'.1 (mem_userSlots.1 hp').1] at hpf'
    exact h.offset p hp p' hp' f hf hpf hpf'
  · intro p hp hpp hpw
    rw [hs.entries p.1 (mem_userSlots.1 hp).1] at hpp hpw ⊢
    obtain ⟨h1, h2⟩ := h.shared p hp hpp hpw
    refine ⟨h1, hshared _ h2 ?_⟩
    by_contra ho
    exact not_pointsTo h (f := pageOf (pte m p.1 p.2)) (by omega) hp ⟨hpp, rfl⟩

/-- The contents of a frame the kernel holds. -/
theorem MemInv.fill (h : MemInv lo m own) (hl : lowPages ≤ f) (hf : dirRefs m f = 0)
    (c : ℕ → Word) : MemInv lo (m.fill f c) own :=
  h.setOwner (SameTables.fill hl hf c) (fun _ _ => rfl) (fun _ _ => rfl) h.owned
    (fun _ _ hne => absurd rfl hne) (fun _ hne => absurd rfl hne) (fun _ h1 _ => h1)

/-- A frame whose count is zero is not referenced at all. -/
theorem refs_eq_zero (h : MemInv lo m own) (hl : lowPages ≤ f) (h0 : m.memMap f = 0) :
    Allocatable lo m f ∧ refs m f = 0 ∧ dirRefs m f = 0 ∧ own f = 0 := by
  have ha : Allocatable lo m f := by
    by_contra hc
    exact h.used f hl hc h0
  have hc := h.count f ha
  rw [h0] at hc
  have hz : (0 : BitVec 8).toNat = 0 := rfl
  exact ⟨ha, by omega, by omega, by omega⟩

/-- The kernel takes a frame with `get_free_page`. -/
theorem MemInv.alloc (h : MemInv lo m own) (hg : getFreePage m = some (f, m')) :
    MemInv lo m' (addOwner own f) ∧ SameTables m m' := by
  obtain ⟨h0, hl, -, rfl⟩ := getFreePage_eq_some hg
  obtain ⟨ha, hr, hdr, ho⟩ := refs_eq_zero h hl h0
  have hs : SameTables m (m.setMap f 1) := (SameTables.refl m).setMap f 1
  have hne : ∀ g, g ≠ f → (m.setMap f 1).memMap g = m.memMap g := fun g hg => by
    rw [Mem.setMap_memMap, Function.update_of_ne hg]
  have hown : ∀ g, g ≠ f → addOwner own f g = own g := fun g hg => by
    unfold addOwner; rw [if_neg hg]; omega
  have hinv : MemInv lo (m.setMap f 1) (addOwner own f) := by
    refine h.setOwner hs (fun g hna => hne g ?_) (fun g _ => ?_) (fun g hg => ?_)
      (fun g _ hg => ?_) (fun g hg => ?_) (fun g h1 _ => ?_)
    · rintro rfl; exact hna ha
    · by_cases hgf : g = f
      · subst hgf
        have hz : (0 : BitVec 8).toNat = 0 := rfl
        have h1 : (1 : BitVec 8).toNat = 1 := rfl
        rw [Mem.setMap_memMap, Function.update_self, h0]
        unfold addOwner
        rw [if_pos rfl]
        omega
      · rw [hne g hgf, hown g hgf]
    · by_cases hgf : g = f
      · subst hgf; exact ha
      · rw [hown g hgf] at hg
        exact h.owned g hg
    · by_cases hgf : g = f
      · subst hgf
        unfold addOwner
        rw [if_pos rfl]
        omega
      · exact absurd (hown g hgf) hg
    · by_cases hgf : g = f
      · subst hgf; exact hdr
      · exact absurd (hown g hgf) hg
    · rw [hne g, h1]
      rintro rfl
      rw [h0] at h1
      exact absurd h1 (by decide)
  have hfill : dirRefs (m.setMap f 1) f = 0 := by rw [hs.dirRefs_eq, hdr]
  refine ⟨hinv.fill hl hfill _, ?_⟩
  have hs' := SameTables.fill hl hfill (fun _ => 0)
  exact ⟨rfl, fun hk => hs'.kernel (hs.kernel hk), hs'.dirs, hs'.entries⟩

/-- The kernel gives a frame back with `free_page`. -/
theorem MemInv.free (h : MemInv lo m (addOwner own f)) :
    freePage m f = .ok (m.setMap f (m.memMap f - 1)) ∧
      MemInv lo (m.setMap f (m.memMap f - 1)) own := by
  obtain ⟨ha, hr, hdr, ho, h1⟩ := owner_facts h
  have hl := low_le_of_alloc h ha
  have hne : ∀ g, g ≠ f → (m.setMap f (m.memMap f - 1)).memMap g = m.memMap g := fun g hg => by
    rw [Mem.setMap_memMap, Function.update_of_ne hg]
  have hown : ∀ g, g ≠ f → addOwner own f g = own g := fun g hg => by
    unfold addOwner; rw [if_neg hg]; omega
  constructor
  · unfold freePage
    rw [if_neg (by omega), if_neg (by have := ha.2; omega), if_neg]
    rw [h1]
    decide
  · refine h.setOwner ((SameTables.refl m).setMap f _) (fun g hna => hne g ?_) (fun g _ => ?_)
      (fun g hg => h.owned g ?_) (fun g hg hg' => ?_) (fun g hg => ?_) (fun g hg1 hg => ?_)
    · rintro rfl; exact hna ha
    · by_cases hgf : g = f
      · subst hgf
        have hz : ((1 : BitVec 8) - 1).toNat = 0 := rfl
        have h1' : (1 : BitVec 8).toNat = 1 := rfl
        rw [Mem.setMap_memMap, Function.update_self, h1]
        unfold addOwner
        rw [if_pos rfl]
        omega
      · rw [hne g hgf, hown g hgf]
    · unfold addOwner; omega
    · by_cases hgf : g = f
      · subst hgf; omega
      · exact absurd (hown g hgf).symm hg'
    · by_cases hgf : g = f
      · subst hgf; exact hdr
      · exact absurd (hown g hgf).symm hg
    · rw [hne g, hg1]
      rintro rfl
      unfold addOwner at hg
      rw [if_pos rfl] at hg
      omega

/-- The directory references gained and lost by the change of one directory entry. -/
theorem DirWrite.dirRefs_add (h : DirWrite m m' d w) (hd : d ∈ userDirs) (f : ℕ) :
    dirRefs m' f + (if PointsTo (pde m d) f then 1 else 0) =
      dirRefs m f + (if PointsTo w f then 1 else 0) := by
  have hself : pde m' d = w := by rw [h.dirs, if_pos rfl]
  rw [← hself]
  unfold dirRefs
  exact card_filter_change (P := fun d => PointsTo (pde m d) f)
    (Q := fun d => PointsTo (pde m' d) f) hd fun d' _ hne => by rw [h.dirs, if_neg hne]

theorem DirWrite.pointsTo (h : DirWrite m m' d w) {p : ℕ × ℕ} (hp : p ∈ userSlots) (f : ℕ) :
    PointsTo (pte m' p.1 p.2) f ↔ PointsTo (pte m p.1 p.2) f := by
  obtain ⟨hd', hi⟩ := mem_userSlots.1 hp
  by_cases hne : p.1 = d
  · rw [hne]
    constructor
    · intro hc; have := h.after p.2 hi; rw [hc.1] at this; cases this
    · intro hc; have := h.before p.2 hi; rw [hc.1] at this; cases this
  · rw [h.entries p.1 hd' hne]

/-- A page table comes from, or goes back to, the frames the kernel holds. -/
theorem MemInv.setDir (h : MemInv lo m own) (hw : DirWrite m m' d w) (hd : d ∈ userDirs)
    (hmap : m'.memMap = m.memMap)
    (hown : ∀ f, own' f + (if PointsTo w f then 1 else 0) =
      own f + (if PointsTo (pde m d) f then 1 else 0)) : MemInv lo m' own' := by
  have halloc : ∀ f, Allocatable lo m' f ↔ Allocatable lo m f := by
    intro f; unfold Allocatable; rw [hw.high]
  have hsum : ∀ f, dirRefs m' f + own' f = dirRefs m f + own f := by
    intro f
    have h1 := hown f
    have h2 := hw.dirRefs_add hd f
    omega
  have hrefs : ∀ f, refs m' f = refs m f := fun f => refs_congr fun p hp => hw.pointsTo hp f
  refine ⟨h.low, by rw [hw.high]; exact h.high, hw.kernel h.kernel, ?_, ?_, ?_, ?_, ?_, ?_, ?_, ?_⟩
  · intro f hf hna
    rw [halloc] at hna
    rw [hmap]
    exact h.used f hf hna
  · intro d' hd' hp
    have h1 := dirRefs_pos hd' ⟨hp, rfl⟩
    have h2 := hsum (pageOf (pde m' d'))
    exact (halloc _).2 (alloc_of_exclusive h (by omega))
  · intro p hp hpp
    have hpt := (hw.pointsTo hp _).1 ⟨hpp, rfl⟩
    rw [← hpt.2]
    exact (h.pages p hp hpt.1).imp id (halloc _).2
  · intro f hf
    have := hsum f
    exact (halloc f).2 (alloc_of_exclusive h (by omega))
  · intro f hf
    have h1 := h.count f ((halloc f).1 hf)
    have h2 := hsum f
    rw [hmap, hrefs]
    omega
  · intro f hx
    have h2 := hsum f
    have h1 := h.exclusive f (by omega)
    rw [hrefs]
    omega
  · intro p hp p' hp' f hf hpf hpf'
    exact h.offset p hp p' hp' f hf ((hw.pointsTo hp f).1 hpf) ((hw.pointsTo hp' f).1 hpf')
  · intro p hp hpp hpw
    obtain ⟨hd', hi⟩ := mem_userSlots.1 hp
    by_cases hne : p.1 = d
    · have := hw.after p.2 hi
      rw [← hne, hpp] at this
      cases this
    · rw [hw.entries p.1 hd' hne] at hpp hpw ⊢
      rw [hmap]
      exact h.shared p hp hpp hpw

end Frames

end Linux011.Mm
