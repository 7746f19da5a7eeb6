import Linux011.Exec.Args
import Linux011.Exec.Slot
import Linux011.Mm.CopyProcess

/-!
# Where the argument pages go

The pages that `copy_strings` took are given back when `do_execve` fails, and otherwise put at the top
of the new program's address space.

1. `freePages`, the loop at `exec_error1`, and `putPages`, the loop of `change_ldt`.
2. `Borrowed`: memory is what it was but for the pages. `freePages_spec` gives them back.
3. `holdAll`: the pages in the accounting of memory. `exists_free`: the old program's page tables
   leave a free page behind, so that `put_page` finds one for a table (`putPages_spec`).
-/

namespace Linux011.Execve

open Args

/-! ## The code -/

/-- What follows `exec_error1`. -/
def freePages (m : Mm.Mem) (page : ℕ → ℕ) : Except Mm.Panic Mm.Mem :=
  (List.range MAX_ARG_PAGES).foldlM (fun m i => Mm.freePage m (page i)) m

/-- The loop of `change_ldt`, from the last page down; `dataBase` is the end of the segment. What
`put_page` returns is not looked at. -/
def putPages (m : Mm.Mem) (page : ℕ → ℕ) (dataBase : BitVec 32) : Mm.Mem :=
  (List.range MAX_ARG_PAGES).foldl (fun m k =>
    if page (31 - k) ≠ 0 then
      (Mm.putPage m (page (31 - k)) (dataBase - BitVec.ofNat 32 (4096 * (k + 1))).toNat).getD m
    else m) m

/-! ## Giving the pages back -/

/-- A free frame is one that `mem_init` found. -/
def Sized (m : Mm.Mem) : Prop :=
  ∀ f, Mm.lowPages ≤ f → f < Mm.lowPages + Mm.pagingPages → m.memMap f = 0 → f < m.highMemory

/-- Memory is `m₀` but for the argument pages, which were free in it. -/
structure Borrowed (m₀ : Mm.Mem) (s : Args) : Prop where
  high : s.mem.highMemory = m₀.highMemory
  other : ∀ f, (∀ i < MAX_ARG_PAGES, s.page i = f → f = 0) →
    s.mem.memMap f = m₀.memMap f ∧ s.mem.phys f = m₀.phys f
  taken : ∀ i < MAX_ARG_PAGES, s.page i ≠ 0 → m₀.memMap (s.page i) = 0 ∧
    s.mem.memMap (s.page i) = 1 ∧ Mm.lowPages ≤ s.page i ∧ s.page i < m₀.highMemory

section Back

variable {supply : ℕ → Bool} {m m₀ : Mm.Mem} {s s' : Args} {i f : ℕ}

theorem Borrowed.step (h : Borrowed m₀ s) (h₀ : Sized m₀) (hs : Step supply s s') :
    Borrowed m₀ s' := by
  cases hs with
  | setFs => exact ⟨h.high, h.other, h.taken⟩
  | fail => exact ⟨h.high, h.other, h.taken⟩
  | store i k b hi hp hk =>
    refine ⟨h.high, fun f hf => ⟨(h.other f hf).1, ?_⟩, h.taken⟩
    have hne : f ≠ s.page i := fun he => hp (by rw [← he]; exact hf i hi he.symm)
    rw [← (h.other f hf).2]
    funext j
    exact Mm.Mem.write_phys_of_ne _ _ (.inl hne)
  | take i f m hi h0 hg =>
    have hf0 := frame_ne_zero hg
    obtain ⟨hz, hl, hlt, rfl⟩ := Mm.getFreePage_eq_some (getFreePage_eq_some hg)
    have hfree : ∀ j < MAX_ARG_PAGES, s.page j = f → f = 0 := by
      rintro j hj rfl
      by_contra hp
      rw [(h.taken j hj hp).2.1] at hz
      exact absurd hz (by decide)
    refine ⟨h.high, fun g hg' => ?_, fun j hj hp => ?_⟩
    · have hgf : g ≠ f := by
        rintro rfl
        exact hf0 (hg' i hi (Function.update_self ..))
      have hg₀ : ∀ j < MAX_ARG_PAGES, s.page j = g → g = 0 := by
        intro j hj he
        by_cases hji : j = i
        · rw [← he, hji, h0]
        · exact hg' j hj (by rw [← he]; exact Function.update_of_ne hji _ _)
      obtain ⟨h1, h2⟩ := h.other g hg₀
      refine ⟨?_, ?_⟩
      · rw [← h1]
        exact Function.update_of_ne hgf _ _
      · rw [← h2]
        exact Mm.Mem.fill_phys_of_ne _ _ hgf
    · show m₀.memMap (Function.update s.page i f j) = 0 ∧
        Function.update s.mem.memMap f 1 (Function.update s.page i f j) = 1 ∧
        Mm.lowPages ≤ Function.update s.page i f j ∧ Function.update s.page i f j < m₀.highMemory
      by_cases hji : j = i
      · rw [hji, Function.update_self, Function.update_self]
        have hz₀ : m₀.memMap f = 0 := by
          rw [← (h.other f hfree).1]
          exact hz
        exact ⟨hz₀, rfl, hl, h₀ f hl hlt hz₀⟩
      · have hp' : s.page j ≠ 0 := by
          have : Function.update s.page i f j ≠ 0 := hp
          rwa [Function.update_of_ne hji] at this
        have hne : s.page j ≠ f := fun he => hf0 (hfree j hj he)
        rw [Function.update_of_ne hji, Function.update_of_ne hne]
        exact h.taken j hj hp'

theorem Borrowed.steps (h : Borrowed m₀ s) (h₀ : Sized m₀) (hs : Steps supply s s') :
    Borrowed m₀ s' := by
  induction hs with
  | refl => exact h
  | tail _ hstep ih => exact ih.step h₀ hstep

theorem Borrowed.start (h : s.page = fun _ => 0) : Borrowed s.mem s :=
  ⟨rfl, fun _ _ => ⟨rfl, rfl⟩, fun i _ hp => absurd (congrFun h i) hp⟩

/-- **The clean-up** frees all frames that were taken. -/
theorem freePages_spec (h : Borrowed m₀ s) (hW : s.Wf) :
    Post (freePages s.mem s.page)
      (fun m => m.highMemory = m₀.highMemory ∧ m.memMap = m₀.memMap ∧ m.phys = s.mem.phys)
      (fun _ => False) := by
  have hloop : Post (freePages s.mem s.page)
      (fun m => m.highMemory = m₀.highMemory ∧ m.phys = s.mem.phys ∧
        (∀ f, (∀ i < MAX_ARG_PAGES, s.page i = f → f = 0) → m.memMap f = m₀.memMap f) ∧
        ∀ i < MAX_ARG_PAGES, s.page i ≠ 0 →
          m.memMap (s.page i) = if i < MAX_ARG_PAGES then 0 else 1) (fun _ => False) := by
    refine Post.foldRange (I := fun k (m : Mm.Mem) => m.highMemory = m₀.highMemory ∧ m.phys = s.mem.phys ∧
      (∀ f, (∀ i < MAX_ARG_PAGES, s.page i = f → f = 0) → m.memMap f = m₀.memMap f) ∧
      ∀ i < MAX_ARG_PAGES, s.page i ≠ 0 → m.memMap (s.page i) = if i < k then 0 else 1)
      (fun k hk m hm => ?_)
      ⟨h.high, rfl, fun f hf => (h.other f hf).1, fun i hi hp => (h.taken i hi hp).2.1⟩
    obtain ⟨hhigh, hphys, hother, htaken⟩ := hm
    by_cases h0 : s.page k = 0
    · have hfree : Mm.freePage m (s.page k) = .ok m := by
        rw [h0]
        rfl
      rw [hfree]
      refine Post.ok ⟨hhigh, hphys, hother, fun i hi hp => ?_⟩
      have hik : i ≠ k := by
        rintro rfl
        exact hp h0
      rw [htaken i hi hp]
      simp only [show i < k + 1 ↔ i < k by omega]
    · obtain ⟨-, -, hl, hlt⟩ := h.taken k hk h0
      have hone := htaken k hk h0
      rw [if_neg (lt_irrefl k)] at hone
      have hfree : Mm.freePage m (s.page k) = .ok (m.setMap (s.page k) 0) := by
        unfold Mm.freePage
        rw [if_neg (by omega), if_neg (by omega), hone, if_neg (by decide)]
        rfl
      rw [hfree]
      refine Post.ok ⟨hhigh, hphys, fun f hf => ?_, fun i hi hp => ?_⟩
      · rw [Mm.Mem.setMap_memMap, Function.update_of_ne, hother f hf]
        rintro rfl
        exact h0 (hf k hk rfl)
      · rw [Mm.Mem.setMap_memMap]
        by_cases hik : i = k
        · rw [hik, Function.update_self, if_pos (Nat.lt_succ_self k)]
        · rw [Function.update_of_ne fun he => hik (hW.inj i hi k hk hp he), htaken i hi hp]
          simp only [show i < k + 1 ↔ i < k by omega]
  refine hloop.mono (fun m hm => ?_) fun _ => id
  obtain ⟨hhigh, hphys, hother, htaken⟩ := hm
  refine ⟨hhigh, funext fun f => ?_, hphys⟩
  by_cases hf : ∀ i < MAX_ARG_PAGES, s.page i = f → f = 0
  · exact hother f hf
  · push Not at hf
    obtain ⟨i, hi, rfl, hp⟩ := hf
    rw [htaken i hi hp, if_pos hi, (h.taken i hi hp).1]

end Back

/-! ## The pages in the accounting -/

/-- The argument pages are the kernel's. -/
def holdAll (a : Mm.Space) (page : ℕ → ℕ) : Mm.Space :=
  { a with
    own := fun f => a.own f +
      ((Finset.range MAX_ARG_PAGES).filter fun i => page i = f ∧ f ≠ 0).card }

section Hold

variable {supply : ℕ → Bool} {lo : ℕ} {a b : Mm.Space} {m m' : Mm.Mem} {s s' : Args}
  {page : ℕ → ℕ} {i f : ℕ}

theorem holdAll_zero (a : Mm.Space) : holdAll a (fun _ => 0) = a := by
  have h : ∀ f : ℕ, ((Finset.range MAX_ARG_PAGES).filter fun _ => 0 = f ∧ f ≠ 0).card = 0 :=
    fun f => Count.card_filter_eq_zero_iff.2 fun _ _ hx => hx.2 hx.1.symm
  unfold holdAll
  simp only [h, Nat.add_zero]

theorem holdAll_update (a : Mm.Space) (hi : i < MAX_ARG_PAGES) (h0 : page i = 0) (hf : f ≠ 0) :
    holdAll a (Function.update page i f) = (holdAll a page).hold f := by
  have h : ∀ g, ((Finset.range MAX_ARG_PAGES).filter fun j =>
      Function.update page i f j = g ∧ g ≠ 0).card =
      ((Finset.range MAX_ARG_PAGES).filter fun j => page j = g ∧ g ≠ 0).card +
        if g = f then 1 else 0 := by
    intro g
    have hc := Count.card_filter_change (P := fun j => page j = g ∧ g ≠ 0)
      (Q := fun j => Function.update page i f j = g ∧ g ≠ 0) (Finset.mem_range.2 hi)
      fun j _ hj => by rw [Function.update_of_ne hj]
    have hP : ¬ (page i = g ∧ g ≠ 0) := fun hx => hx.2 (by rw [← hx.1, h0])
    have hQ : (Function.update page i f i = g ∧ g ≠ 0) ↔ g = f := by
      rw [Function.update_self]
      constructor
      · exact fun hx => hx.1.symm
      · rintro rfl
        exact ⟨rfl, hf⟩
    simp only [if_neg hP, hQ] at hc
    exact hc
  unfold holdAll Mm.Space.hold Mm.addOwner
  simp only [h, Nat.add_assoc]

/-- One of the pages apart. -/
theorem holdAll_split (a : Mm.Space) (hi : i < MAX_ARG_PAGES) (hp : page i ≠ 0) :
    holdAll a page = (holdAll a (Function.update page i 0)).hold (page i) := by
  rw [← holdAll_update a hi (Function.update_self ..) hp, Function.update_idem,
    Function.update_eq_self]

/-- The copying keeps memory accounted for. -/
theorem Step.repr (h : Mm.Repr lo s.mem (holdAll a s.page)) (hs : Step supply s s') :
    Mm.Repr lo s'.mem (holdAll a s'.page) := by
  cases hs with
  | setFs => exact h
  | fail => exact h
  | store i k b hi hp hk =>
    show Mm.Repr lo (s.mem.fill (s.page i) _) (holdAll a s.page)
    rw [holdAll_split a hi hp] at h ⊢
    exact h.fill _
  | take i f m hi h0 hg =>
    show Mm.Repr lo m (holdAll a (Function.update s.page i f))
    rw [holdAll_update a hi h0 (frame_ne_zero hg)]
    exact (h.getFreePage (getFreePage_eq_some hg)).1

theorem Steps.repr (h : Mm.Repr lo s.mem (holdAll a s.page)) (hs : Steps supply s s') :
    Mm.Repr lo s'.mem (holdAll a s'.page) := by
  induction hs with
  | refl => exact h
  | tail _ hstep ih => exact Step.repr ih hstep

theorem sized_of_repr (h : Mm.Repr lo m a) : Sized m := by
  intro f hl _ h0
  by_contra hlt
  exact h.inv.used f hl (fun ha => hlt ha.2) h0

/-- A slot that had a page table leaves a free page behind when its tables are freed. -/
theorem exists_free (h : Mm.Repr lo m a) {d nr cur : ℕ} (hd : d ∈ Mm.userDirs) (hnr : d / 16 = nr)
    (hp : Mm.present (Mm.pde m d) = true) (hk : Mm.Kept lo cur nr m m') (h' : Mm.Repr lo m' b)
    (hown : b.own = a.own)
    (habs : ∀ d ∈ Mm.userDirs, d / 16 = nr → Mm.present (Mm.pde m' d) = false) :
    Mm.getFreePage m' ≠ none := by
  obtain ⟨f, hf⟩ : ∃ f, f = Mm.pageOf (Mm.pde m d) := ⟨_, rfl⟩
  have ha := h.inv.tables d hd hp
  rw [← hf] at ha
  have hpos : 0 < Mm.dirRefs m f := Mm.dirRefs_pos hd ⟨hp, hf.symm⟩
  have hex := h.inv.exclusive f (by omega)
  -- Nothing points to the frame of the table any more.
  have hrefs : Mm.refs m' f = 0 := by
    refine Count.card_filter_eq_zero_iff.2 fun q hq hpt => ?_
    obtain ⟨hqd, hqi⟩ := Mm.mem_userSlots.1 hq
    by_cases hqn : q.1 / 16 = nr
    · rw [Mm.pte_of_not_present (habs q.1 hqd hqn)] at hpt
      exact absurd hpt.1 (by decide)
    · have hpt₀ : Mm.PointsTo (Mm.pte m q.1 q.2) f := by
        rcases hk.entries q.1 hqd hqn q.2 with he | ⟨-, -, he⟩
        · rwa [he] at hpt
        · rw [he] at hpt
          obtain ⟨h1, h2⟩ := hpt
          rw [Mm.present_protect] at h1
          rw [Mm.pageOf_protect] at h2
          exact ⟨h1, h2⟩
      have := Mm.refs_pos hq hpt₀
      omega
  have hdirs : Mm.dirRefs m' f = 0 := by
    refine Count.card_filter_eq_zero_iff.2 fun d' hd' hpt => ?_
    by_cases hdn : d' / 16 = nr
    · have habs' := habs d' hd' hdn
      rw [hpt.1] at habs'
      cases habs'
    · rw [hk.dirs d' hdn] at hpt
      have := Mm.table_inj h.inv hd' hd hpt.1 hp (hpt.2.trans hf)
      exact hdn (by rw [this, hnr])
  have ha' : Mm.Allocatable lo m' f := by
    unfold Mm.Allocatable at ha ⊢
    rwa [hk.high]
  have hcount := h'.inv.count f ha'
  rw [hrefs, hdirs, hown, show a.own f = 0 by omega] at hcount
  have hzero : m'.memMap f = 0 := BitVec.eq_of_toNat_eq hcount
  intro hnone
  have hl := Mm.low_le_of_alloc h'.inv ha'
  have hhigh := h'.inv.high
  obtain ⟨n, rfl⟩ : ∃ n, f = Mm.lowPages + n := ⟨f - Mm.lowPages, (Nat.add_sub_cancel' hl).symm⟩
  exact Mm.scanFree_eq_none_iff.1 (Option.map_eq_none_iff.1 hnone) n
    (Nat.lt_of_add_lt_add_left (ha'.2.trans_le hhigh)) hzero

/-- What `put_page` leaves alone: the frames the kernel holds, and the other entries of a table that
is there. -/
theorem putPage_frame (h : Mm.Repr lo m b) {address : ℕ} (hd : Mm.dirIndex address ∈ Mm.userDirs)
    (hput : Mm.putPage m f address = some m') :
    (∀ g, b.own g ≠ 0 → m'.phys g = m.phys g) ∧
      (Mm.present (Mm.pde m (Mm.dirIndex address)) = true → ∀ i, i ≠ Mm.tblIndex address →
        Mm.pte m' (Mm.dirIndex address) i = Mm.pte m (Mm.dirIndex address) i) := by
  have hheld : ∀ g, b.own g ≠ 0 → Mm.lowPages ≤ g ∧ m.memMap g ≠ 0 := by
    intro g hg
    have ha := h.inv.owned g hg
    exact ⟨Mm.low_le_of_alloc h.inv ha, Mm.memMap_ne_zero h.inv ha (by omega)⟩
  unfold Mm.putPage at hput
  by_cases hp : Mm.present (Mm.pde m (Mm.dirIndex address)) = true
  · rw [if_pos hp] at hput
    cases hput
    have hlow := Mm.table_low h.inv hd hp
    unfold Mm.lowPages at hlow
    refine ⟨fun g hg => ?_, fun _ i hi => ?_⟩
    · have hne : g ≠ Mm.pageOf (Mm.pde m (Mm.dirIndex address)) := by
        intro he
        have hpos : 0 < Mm.dirRefs m g := Mm.dirRefs_pos hd ⟨hp, he.symm⟩
        have := h.inv.exclusive g (by omega)
        omega
      funext j
      exact Mm.Mem.write_phys_of_ne _ _ (.inl hne)
    · have hpde : Mm.pde (m.write (Mm.pageOf (Mm.pde m (Mm.dirIndex address)))
          (Mm.tblIndex address) (Mm.entry f)) (Mm.dirIndex address) =
          Mm.pde m (Mm.dirIndex address) :=
        Mm.Mem.write_phys_of_ne _ _ (.inl (by omega))
      rw [Mm.pte_of_present (by rw [hpde]; exact hp), Mm.pte_of_present hp, hpde]
      exact Mm.Mem.write_phys_of_ne _ _ (.inr hi)
  · rw [if_neg hp] at hput
    cases hg : Mm.getFreePage m with
    | none =>
      rw [hg] at hput
      cases hput
    | some r =>
      obtain ⟨tmp, m₁⟩ := r
      rw [hg] at hput
      cases hput
      obtain ⟨h0, -, -, rfl⟩ := Mm.getFreePage_eq_some hg
      refine ⟨fun g hgo => ?_, fun hp' => absurd hp' hp⟩
      obtain ⟨hl, hne⟩ := hheld g hgo
      have hgt : g ≠ tmp := by
        rintro rfl
        exact hne h0
      unfold Mm.lowPages at hl
      funext j
      rw [Mm.Mem.write_phys_of_ne _ _ (.inl hgt), Mm.Mem.write_phys_of_ne _ _ (.inl (by omega)),
        Mm.Mem.fill_phys_of_ne _ _ hgt]
      rfl

/-- The entries of `page[]` below `32 - k`. -/
def below (page : ℕ → ℕ) (k i : ℕ) : ℕ := if i + k < 32 then page i else 0

/-- The pages from number `32 - k` on are in their places: the tables and pages of `a` are otherwise
what they were, and the pages below are still the kernel's. -/
structure Placed (lo : ℕ) (a : Mm.Space) (m : Mm.Mem) (page : ℕ → ℕ) (D k : ℕ) (m' : Mm.Mem) : Prop
    where
  repr : ∃ b, Mm.Repr lo m' (holdAll b (below page k)) ∧ b.own = a.own ∧
    (∀ d, d ≠ D → b.table d = a.table d) ∧
    ∀ d i, b.page d i = if d = D ∧ 992 ≤ i ∧ i < 1024 ∧ 32 ≤ i - 992 + k ∧ page (i - 992) ≠ 0 then
      .page (m.phys (page (i - 992))) else a.page d i
  entry : ∀ i < 32, 32 ≤ i + k → page i ≠ 0 → Mm.pte m' D (992 + i) = Mm.entry (page i)
  kept : ∀ i < 32, i + k < 32 → page i ≠ 0 → m'.phys (page i) = m.phys (page i)
  table : Mm.present (Mm.pde m' D) = true ∨ Mm.getFreePage m' ≠ none

theorem own_holdAll_pos (b : Mm.Space) {r : ℕ → ℕ} (hi : i < MAX_ARG_PAGES) (h0 : r i ≠ 0) :
    (holdAll b r).own (r i) ≠ 0 := by
  have hpos : 0 < ((Finset.range MAX_ARG_PAGES).filter fun j => r j = r i ∧ r i ≠ 0).card :=
    Count.card_filter_pos (Finset.mem_range.2 hi) ⟨rfl, h0⟩
  unfold holdAll
  simp only
  omega

/-- One more entry of `page[]` is dealt with. -/
theorem Placed.next {D k A : ℕ} (h : Placed lo a m page D k m') (hD : D ∈ Mm.userDirs) (hk : k < 32)
    (habs : ∀ i < 1024, a.page D i = .absent) (hdir : Mm.dirIndex A = D)
    (htbl : Mm.tblIndex A = 1023 - k) :
    Placed lo a m page D (k + 1)
      (if page (31 - k) ≠ 0 then (Mm.putPage m' (page (31 - k)) A).getD m' else m') := by
  obtain ⟨⟨b, hr, hown, htab, hpage⟩, hentry, hkept, htable⟩ := h
  have hrest : below page (k + 1) = Function.update (below page k) (31 - k) 0 := by
    funext i
    by_cases hi : i = 31 - k
    · rw [hi, Function.update_self]
      exact if_neg (by omega)
    · rw [Function.update_of_ne hi]
      unfold below
      simp only [show i + (k + 1) < 32 ↔ i + k < 32 by omega]
  have hslot : below page k (31 - k) = page (31 - k) := if_pos (by omega)
  have hbelow : ∀ d i,
      (d = D ∧ 992 ≤ i ∧ i < 1024 ∧ 32 ≤ i - 992 + (k + 1) ∧ page (i - 992) ≠ 0) ↔
      (d = D ∧ 992 ≤ i ∧ i < 1024 ∧ 32 ≤ i - 992 + k ∧ page (i - 992) ≠ 0) ∨
        (d = D ∧ i = 1023 - k ∧ page (31 - k) ≠ 0) := by
    intro d i
    constructor
    · rintro ⟨hd, hi, hlt, hle, hp⟩
      by_cases he : i - 992 = 31 - k
      · exact .inr ⟨hd, by omega, by rw [← he]; exact hp⟩
      · exact .inl ⟨hd, hi, hlt, by omega, hp⟩
    · rintro (⟨hd, hi, hlt, hle, hp⟩ | ⟨hd, rfl, hp⟩)
      · exact ⟨hd, hi, hlt, by omega, hp⟩
      · refine ⟨hd, by omega, by omega, by omega, ?_⟩
        rw [show 1023 - k - 992 = 31 - k by omega]
        exact hp
  by_cases h0 : page (31 - k) = 0
  · rw [if_neg (by rw [h0]; simp)]
    refine ⟨⟨b, ?_, hown, htab, fun d i => ?_⟩, fun i hi hle hp => ?_,
      fun i hi hlt hp => hkept i hi (by omega) hp, htable⟩
    · rw [hrest, Function.update_eq_self_iff.2 (by rw [hslot, h0])]
      exact hr
    · rw [hpage]
      simp only [hbelow, h0, ne_eq, not_true_eq_false, and_false, or_false]
    · refine hentry i hi ?_ hp
      have hne : i ≠ 31 - k := by
        rintro rfl
        exact hp h0
      omega
  · obtain ⟨f, hf⟩ : ∃ f, f = page (31 - k) := ⟨_, rfl⟩
    rw [if_pos h0, ← hf]
    rw [← hf] at h0
    rw [← hf] at hslot
    have hsplit : holdAll b (below page k) =
        (holdAll b (Function.update (below page k) (31 - k) 0)).hold (below page k (31 - k)) :=
      holdAll_split b (by unfold MAX_ARG_PAGES; omega) (by rw [hslot]; exact h0)
    rw [hslot, ← hrest] at hsplit
    obtain ⟨m₂, hput⟩ : ∃ m₂, Mm.putPage m' f A = some m₂ := by
      unfold Mm.putPage
      rw [hdir]
      by_cases hp : Mm.present (Mm.pde m' D) = true
      · exact ⟨_, if_pos hp⟩
      · rw [if_neg hp]
        cases hg : Mm.getFreePage m' with
        | none => exact absurd hg (htable.resolve_left hp)
        | some r => exact ⟨_, rfl⟩
    have hrb := hr
    rw [hsplit] at hr
    have hbabs : b.page D (1023 - k) = .absent := by
      rw [hpage, if_neg (by rintro ⟨-, -, -, hle, -⟩; omega)]
      exact habs _ (by omega)
    obtain ⟨hr₂, hpte⟩ := hr.putPage (by rw [hdir]; exact hD) (by rw [hdir, htbl]; exact hbabs) hput
    obtain ⟨hphys, hother⟩ := putPage_frame hrb (by rw [hdir]; exact hD) hput
    rw [hdir, htbl] at hr₂ hpte hother
    have hcontent : m'.phys f = m.phys f := by
      rw [hf]
      exact hkept (31 - k) (by omega) (by omega) (by rw [← hf]; exact h0)
    rw [hcontent] at hr₂
    rw [hput, Option.getD_some]
    have hD₂ : Mm.present (Mm.pde m₂ D) = true := by
      rw [hr₂.table D hD]
      simp [Mm.Space.setPage, Mm.Space.addTable]
    refine ⟨⟨(b.addTable D).setPage D (1023 - k) (.page (m.phys f)), hr₂, hown, fun d hd => ?_,
      fun d i => ?_⟩, fun i hi hle hp => ?_, fun i hi hlt hp => ?_, .inl hD₂⟩
    · simp only [Mm.Space.setPage, Mm.Space.addTable, if_neg hd]
      exact htab d hd
    · simp only [Mm.Space.setPage, Mm.Space.addTable]
      by_cases hdi : d = D ∧ i = 1023 - k
      · obtain ⟨rfl, rfl⟩ := hdi
        rw [if_pos ⟨rfl, rfl⟩, if_pos ((hbelow _ _).2 (.inr ⟨rfl, rfl, by rw [← hf]; exact h0⟩)),
          show 1023 - k - 992 = 31 - k by omega, ← hf]
      · rw [if_neg hdi, hpage]
        simp only [hbelow, show ¬ (d = D ∧ i = 1023 - k ∧ page (31 - k) ≠ 0) from
          fun hx => hdi ⟨hx.1, hx.2.1⟩, or_false]
    · by_cases hik : i = 31 - k
      · rw [hik, ← hf, show 992 + (31 - k) = 1023 - k by omega]
        exact hpte
      · have hold := hentry i hi (by omega) hp
        have hp' : Mm.present (Mm.pde m' D) = true := by
          by_contra hc
          rw [Mm.pte_of_not_present (by simpa using hc)] at hold
          have := Mm.present_entry (page i)
          rw [← hold] at this
          exact absurd this (by decide)
        rw [hother hp' _ (by omega)]
        exact hold
    · rw [← hkept i hi (by omega) hp]
      have hi_k : below page k i = page i := if_pos (by omega)
      refine hphys _ ?_
      rw [← hi_k]
      exact own_holdAll_pos b (by unfold MAX_ARG_PAGES; omega) (by rw [hi_k]; exact hp)

theorem dataBase_index {base : BitVec 32} {nr k : ℕ}
    (hbase : base.toNat = nr * 0x4000000) (hk : k < 32) :
    Mm.dirIndex (base + 0x4000000 - BitVec.ofNat 32 (4096 * (k + 1))).toNat = 16 * nr + 15 ∧
      Mm.tblIndex (base + 0x4000000 - BitVec.ofNat 32 (4096 * (k + 1))).toNat = 1023 - k := by
  have hA : (base + 0x4000000 - BitVec.ofNat 32 (4096 * (k + 1))).toNat =
      nr * 0x4000000 + 0x4000000 - 4096 * (k + 1) := by
    rw [BitVec.toNat_sub, BitVec.toNat_add, hbase, BitVec.toNat_ofNat,
      show (0x4000000 : BitVec 32).toNat = 0x4000000 from rfl]
    omega
  rw [hA]
  unfold Mm.dirIndex Mm.tblIndex
  omega

/-- **`change_ldt` puts every argument page in its place**, where the slot is empty and a page is free
for the table. -/
theorem putPages_spec {base : BitVec 32} {nr : ℕ} (h1 : 1 ≤ nr) (hnr : nr < 64)
    (hbase : base.toNat = nr * 0x4000000) (h : Mm.Repr lo m (holdAll a page))
    (habs : ∀ i < 1024, a.page (16 * nr + 15) i = .absent) (hfree : Mm.getFreePage m ≠ none) :
    Placed lo a m page (16 * nr + 15) 32 (putPages m page (base + 0x4000000)) := by
  have hD : 16 * nr + 15 ∈ Mm.userDirs := Mm.mem_userDirs.2 (by omega)
  refine foldRange_invariant (I := fun k m' => Placed lo a m page (16 * nr + 15) k m')
    (fun k hk m' hm' => ?_) ⟨⟨a, ?_, rfl, fun _ _ => rfl, fun d i => ?_⟩, fun i hi hle => by omega,
      fun _ _ _ _ => rfl, .inr hfree⟩
  · obtain ⟨hdir, htbl⟩ := dataBase_index hbase hk
    exact hm'.next hD hk habs hdir htbl
  · refine h.of_eq ?_ (fun _ _ => rfl) fun _ _ _ _ => rfl
    unfold holdAll
    funext f
    refine congrArg (a.own f + ·) (Count.card_filter_congr fun i hi => ?_)
    have hlt : i < 32 := Finset.mem_range.1 hi
    rw [show below page 0 i = page i from if_pos (by omega)]
  · exact (if_neg fun hx => by omega).symm

end Hold

end Linux011.Execve
