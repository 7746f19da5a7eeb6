import Linux011.Mm.Reach

/-!
# The page directory

An entry of the page directory is zero or points to a page table (`Directory`). Every operation keeps
this, so a slot without tables has entries that are zero (`Directory.of_reachable`).
-/

namespace Linux011.Mm

/-- Zero, or `page | 7` of a frame that is not the directory's own. -/
def DirEntry (w : Word) : Prop := w = 0 ∨ ∃ f, f ≠ 0 ∧ f < 2 ^ 20 ∧ w = entry f

def Directory (m : Mem) : Prop := ∀ d < 1024, DirEntry (pde m d)

/-- What holds of the memory where a function runs out of it. -/
def Stop.Left (P : Mem → Prop) : Stop → Prop
  | .panic _ => True
  | .noMemory m => P m

theorem DirEntry.eq_zero {w : Word} (h : DirEntry w) (hp : present w = false) : w = 0 := by
  rcases h with rfl | ⟨f, -, -, rfl⟩
  · rfl
  · rw [present_entry] at hp
    cases hp

theorem DirEntry.page_ne {w : Word} (h : DirEntry w) (hp : present w = true) : pageOf w ≠ 0 := by
  rcases h with rfl | ⟨f, hf, hlt, rfl⟩
  · rw [present_zero] at hp
    cases hp
  · rw [pageOf_entry hlt]
    exact hf

/-! ## Stores -/

section Stores

variable {m m' : Mem} {d f i t : ℕ} {w : Word}

theorem Directory.write (h : Directory m) (hf : f ≠ 0) (i : ℕ) (w : Word) :
    Directory (m.write f i w) := by
  intro d hd
  unfold pde
  rw [Mem.write_phys_of_ne m w (.inl hf.symm)]
  exact h d hd

theorem Directory.writeDir (h : Directory m) (hw : DirEntry w) (d : ℕ) :
    Directory (m.write 0 d w) := by
  intro d' hd'
  unfold pde
  by_cases hdd : d' = d
  · rw [hdd, Mem.write_phys_self]
    exact hw
  · rw [Mem.write_phys_of_ne m w (.inr hdd)]
    exact h d' hd'

theorem Directory.of_phys (h : Directory m) (he : m'.phys 0 = m.phys 0) : Directory m' := by
  intro d hd
  unfold pde
  rw [he]
  exact h d hd

theorem Directory.fill (h : Directory m) (hf : f ≠ 0) (c : ℕ → Word) : Directory (m.fill f c) :=
  h.of_phys (Mem.fill_phys_of_ne m c hf.symm)

theorem Directory.table_ne (h : Directory m) (hd : d < 1024) (hp : present (pde m d) = true) :
    pageOf (pde m d) ≠ 0 :=
  (h d hd).page_ne hp

theorem getFreePage_ne_zero (hg : getFreePage m = some (f, m')) : f ≠ 0 ∧ DirEntry (entry f) := by
  obtain ⟨-, hl, hlt, -⟩ := getFreePage_eq_some hg
  unfold lowPages at hl hlt
  unfold pagingPages at hlt
  exact ⟨by omega, .inr ⟨f, by omega, by omega, rfl⟩⟩

theorem Directory.getFreePage (h : Directory m) (hg : getFreePage m = some (f, m')) :
    Directory m' := by
  obtain ⟨hf, -⟩ := getFreePage_ne_zero hg
  obtain ⟨-, -, -, rfl⟩ := getFreePage_eq_some hg
  have hset : Directory (m.setMap f 1) := h.of_phys rfl
  exact hset.fill hf _

theorem freePage_phys (h : freePage m f = .ok m') : m'.phys = m.phys := by
  unfold freePage at h
  split_ifs at h <;> · cases h; rfl

theorem Directory.freePage (h : Directory m) (hf : freePage m f = .ok m') : Directory m' :=
  h.of_phys (by rw [freePage_phys hf])

end Stores

/-! ## The functions on page tables -/

section Tables

variable {m : Mem} {d fd td t address : ℕ}

theorem Directory.freeDir (h : Directory m) (hd : d < 1024) :
    Post (Mm.freeDir m d) Directory fun _ => True := by
  unfold Mm.freeDir
  split_ifs with hp
  · have ht := h.table_ne hd hp
    have hloop : Post ((List.range 1024).foldlM (freeEntry (pageOf (pde m d))) m) Directory
        fun _ => True := by
      refine Post.foldRange (I := fun _ => Directory) (fun i _ m₁ h₁ => ?_) h
      unfold freeEntry
      split_ifs
      · cases hf : Mm.freePage m₁ (pageOf (m₁.phys (pageOf (pde m d)) i)) with
        | ok m₂ => exact Post.ok ((h₁.freePage hf).write ht i 0)
        | error e => exact Post.error trivial
      · exact Post.ok (h₁.write ht i 0)
    refine hloop.bind fun m₁ h₁ => ?_
    cases hf : Mm.freePage m₁ (pageOf (pde m₁ d)) with
    | ok m₂ => exact Post.ok ((h₁.freePage hf).writeDir (.inl rfl) d)
    | error e => exact Post.error trivial
  · exact Post.ok h

theorem Directory.freePageTables (h : Directory m) {nr size : ℕ} (hnr : nr < 64)
    (hsize : size ≤ 2 ^ 26) :
    Post (Mm.freePageTables m (nr * 2 ^ 26) size) Directory fun _ => True := by
  have hn := dirCount_le hsize
  unfold Mm.freePageTables
  split_ifs
  · exact Post.error trivial
  · exact Post.error trivial
  · rw [dirIndex_slot hnr]
    exact Post.foldRange (I := fun _ => Directory) (fun k hk m₁ h₁ => h₁.freeDir (by omega)) h

theorem Directory.copyDir (h : Directory m) (hd : fd < 1024) (nr : ℕ) :
    Post (Mm.copyDir fd td nr m) Directory (Stop.Left Directory) := by
  unfold Mm.copyDir
  split_ifs with hp hq
  · exact Post.error trivial
  · cases hg : Mm.getFreePage m with
    | none => exact Post.error h
    | some r =>
      obtain ⟨tt, m'⟩ := r
      obtain ⟨htt, he⟩ := getFreePage_ne_zero hg
      have hft := h.table_ne hd hq
      refine Post.ok (foldRange_invariant (I := fun _ => Directory) (fun i _ m₁ h₁ => ?_)
        ((h.getFreePage hg).writeDir he td))
      unfold Mm.copyEntry
      simp only
      split_ifs
      · exact ((h₁.write htt i _).write hft i _).of_phys rfl
      · exact h₁.write htt i _
      · exact h₁
  · exact Post.ok h

theorem Directory.copyPageTables (h : Directory m) {p size : ℕ} (hp : p < 64) (c : ℕ)
    (hsize : size ≤ 2 ^ 26) :
    Post (Mm.copyPageTables m (p * 2 ^ 26) (c * 2 ^ 26) size) Directory
      (Stop.Left Directory) := by
  have hn := dirCount_le hsize
  unfold Mm.copyPageTables
  split_ifs
  · exact Post.error trivial
  · rw [dirIndex_slot hp]
    exact Post.foldRange (I := fun _ => Directory)
      (fun k hk m₁ h₁ => h₁.copyDir (by omega) _) h
  · rw [dirIndex_slot hp]
    exact Post.foldRange (I := fun _ => Directory)
      (fun k hk m₁ h₁ => h₁.copyDir (by omega) _) h

theorem Directory.putPage (h : Directory m) {page : ℕ} {m' : Mem}
    (hp : Mm.putPage m page address = some m') : Directory m' := by
  unfold Mm.putPage at hp
  split_ifs at hp with hd
  · cases hp
    exact h.write (h.table_ne (dirIndex_lt address) hd) _ _
  · cases hg : Mm.getFreePage m with
    | none =>
      rw [hg] at hp
      cases hp
    | some r =>
      obtain ⟨tmp, m₁⟩ := r
      obtain ⟨htmp, he⟩ := getFreePage_ne_zero hg
      rw [hg] at hp
      cases hp
      exact ((h.getFreePage hg).writeDir he _).write htmp _ _

theorem Directory.unWpPage (h : Directory m) (ht : t ≠ 0) (i : ℕ) :
    Post (Mm.unWpPage m t i) Directory (Stop.Left Directory) := by
  unfold Mm.unWpPage
  simp only
  split_ifs with h1 h2
  · exact Post.ok (h.write ht i _)
  all_goals
    cases hg : Mm.getFreePage m with
    | none => exact Post.error h
    | some r =>
      obtain ⟨newPage, m'⟩ := r
      obtain ⟨hn, -⟩ := getFreePage_ne_zero hg
      have h' := h.getFreePage hg
      exact Post.ok (((h'.of_phys rfl).write ht i _).fill hn _)

theorem Directory.writeVerify (h : Directory m) (address : ℕ) :
    Post (Mm.writeVerify m address) Directory (Stop.Left Directory) := by
  unfold Mm.writeVerify
  split_ifs with hp
  · simp only
    split_ifs
    · exact h.unWpPage (h.table_ne (dirIndex_lt address) hp) _
    · exact Post.ok h
  · exact Post.ok h

theorem Directory.getEmptyPage (h : Directory m) (address : ℕ) :
    Post (Mm.getEmptyPage m address) Directory (Stop.Left Directory) := by
  unfold Mm.getEmptyPage
  cases hg : Mm.getFreePage m with
  | none => exact Post.error h
  | some r =>
    obtain ⟨tmp, m'⟩ := r
    have h' := h.getFreePage hg
    simp only
    cases hp : Mm.putPage m' tmp address with
    | some m'' => exact Post.ok (h'.putPage hp)
    | none =>
      cases hf : Mm.freePage m' tmp with
      | ok m₂ => exact Post.error (h'.freePage hf)
      | error p => exact Post.error trivial

theorem Directory.tryToShare (h : Directory m) (address pStart start : ℕ)
    (hfd : dirIndex address + dirIndex pStart < 1024)
    (htd : dirIndex address + dirIndex start < 1024) :
    Post (Mm.tryToShare m address pStart start) (fun r => Directory r.2)
      (Stop.Left Directory) := by
  have htable : Post (toTable m (dirIndex address + dirIndex start))
      (fun r => r.1 ≠ 0 ∧ Directory r.2) (Stop.Left Directory) := by
    unfold Mm.toTable
    split_ifs with hp
    · exact Post.ok ⟨h.table_ne htd hp, h⟩
    · cases hg : Mm.getFreePage m with
      | none => exact Post.error h
      | some r =>
        obtain ⟨tt, m'⟩ := r
        obtain ⟨htt, he⟩ := getFreePage_ne_zero hg
        exact Post.ok ⟨htt, (h.getFreePage hg).writeDir he _⟩
  unfold Mm.tryToShare
  simp only
  split_ifs with h1 h2 h3
  · exact Post.ok h
  · exact Post.ok h
  · have hft := h.table_ne hfd h1
    refine htable.bind fun r hr => ?_
    obtain ⟨tt, m₁⟩ := r
    obtain ⟨htt, hm₁⟩ := hr
    simp only at htt hm₁ ⊢
    split_ifs
    · exact Post.error trivial
    · exact Post.ok (((hm₁.write hft _ _).write htt _ _).of_phys rfl)
  · exact Post.ok h

end Tables

/-! ## The operations -/

section Run

variable {lo nr : ℕ} {s : State}

theorem Directory.freeSegments {m : Mem} (h : Directory m) (hnr : nr < 64) {t : Task}
    (hc : t.codeLimit ≤ 2 ^ 26) (hd : t.dataLimit ≤ 2 ^ 26) :
    Post (State.freeSegments m nr t) Directory fun _ => True :=
  (h.freePageTables hnr hc).bind fun _ h₁ => h₁.freePageTables hnr hd

theorem Directory.doExit (h : Directory s.mem) (hnr : nr < 64)
    (hlim : ∀ t, s.task nr = some t → t.codeLimit ≤ 2 ^ 26 ∧ t.dataLimit ≤ 2 ^ 26) :
    Post (s.doExit nr) (fun s' => Directory s'.mem) fun _ => True := by
  unfold State.doExit
  cases ht : s.task nr with
  | none => exact Post.ok h
  | some t =>
    obtain ⟨hc, hd⟩ := hlim t ht
    exact (h.freeSegments hnr hc hd).bind fun m hm => Post.ok hm

theorem Directory.orOom {r : Except Stop Mem} (h : Post r Directory (Stop.Left Directory))
    (hnr : nr < 64)
    (hlim : ∀ t, s.task nr = some t → t.codeLimit ≤ 2 ^ 26 ∧ t.dataLimit ≤ 2 ^ 26) :
    Post (s.orOom nr r) (fun s' => Directory s'.mem) fun _ => True := by
  cases r with
  | ok m => exact Post.ok (h.of_ok rfl)
  | error e =>
    have he := h.of_error rfl
    cases e with
    | panic p => exact Post.error trivial
    | noMemory m => exact Directory.doExit (s := { s with mem := m }) he hnr hlim

theorem Inv.limit (h : Inv lo s) (nr : ℕ) :
    ∀ t, s.task nr = some t → t.codeLimit ≤ 2 ^ 26 ∧ t.dataLimit ≤ 2 ^ 26 := fun t ht =>
  have hl := h.limits nr t ht
  ⟨hl.1.trans hl.2.1, hl.2.1⟩

theorem Directory.fork (h : Directory s.mem) (hI : Inv lo s) (hnr : nr < 64) :
    Post (s.fork nr) (fun s' => Directory s'.mem) fun _ => True := by
  unfold State.fork
  cases ht : s.task nr with
  | none => exact Post.ok h
  | some t =>
    have hd := (hI.limit nr t ht).2
    cases hfe : s.findEmptyProcess with
    | none => exact Post.ok h
    | some c =>
      have hc := mem_slots.1 (findEmptyProcess_eq_some hfe).1
      simp only
      cases hg : Mm.getFreePage s.mem with
      | none => exact Post.ok h
      | some r =>
        obtain ⟨p, m⟩ := r
        have hcopy := (h.getFreePage hg).copyPageTables hnr c hd
        simp only
        split_ifs
        · exact Post.error trivial
        · cases hr : Mm.copyPageTables m (State.startCode nr) (State.startCode c) t.dataLimit with
          | ok m' => exact Post.ok (hcopy.of_ok hr)
          | error e =>
            cases e with
            | panic p => exact Post.error trivial
            | noMemory m' =>
              have hm' : Directory m' := hcopy.of_error hr
              refine (hm'.freePageTables hc.2 hd).bind fun m₁ h₁ => ?_
              cases hf : Mm.freePage m₁ p with
              | ok m₂ => exact Post.ok (h₁.freePage hf)
              | error e => exact Post.error trivial

theorem Directory.shareLoop (s : State) {exe address : ℕ} (ha : address < 2 ^ 26) (hnr : nr < 64) :
    ∀ {ps : List ℕ} {m : Mem}, (∀ p ∈ ps, p < 64) → Directory m →
      Post (s.shareLoop nr exe address m ps) (fun r => Directory r.2) (Stop.Left Directory) := by
  intro ps
  induction ps with
  | nil => exact fun _ h => Post.ok h
  | cons p ps ih =>
    intro m hps h
    have hp := hps p List.mem_cons_self
    have htail := fun q hq => hps q (List.mem_cons_of_mem p hq)
    have hdir : dirIndex address < 16 := by unfold dirIndex; omega
    unfold State.shareLoop
    cases s.task p with
    | none => exact ih htail h
    | some q =>
      simp only
      split_ifs
      · exact ih htail h
      · have hshare := h.tryToShare address (State.startCode p) (State.startCode nr)
          (by unfold State.startCode; rw [dirIndex_slot hp]; omega)
          (by unfold State.startCode; rw [dirIndex_slot hnr]; omega)
        cases hr : Mm.tryToShare m address (State.startCode p) (State.startCode nr) with
        | error e => exact Post.error (hshare.of_error hr)
        | ok r =>
          obtain ⟨shared, m'⟩ := r
          have hm' : Directory m' := hshare.of_ok hr
          cases shared with
          | true => exact Post.ok hm'
          | false => exact ih htail hm'

theorem Directory.doNoPage (h : Directory s.mem) (hI : Inv lo s) (hnr : nr < 64) {address : ℕ}
    (ha : address - State.startCode nr < 2 ^ 26) (iCount : ℕ) :
    Post (s.doNoPage nr address iCount) (fun s' => Directory s'.mem) fun _ => True := by
  have hlim := hI.limit nr
  unfold State.doNoPage
  cases ht : s.task nr with
  | none => exact Post.ok h
  | some t =>
    simp only
    cases hexe : t.executable with
    | none => exact Directory.orOom (h.getEmptyPage _) hnr hlim
    | some exe =>
      simp only
      split_ifs
      · exact Directory.orOom (h.getEmptyPage _) hnr hlim
      · have hloop : Post (s.sharePage nr exe (address / 4096 * 4096 - State.startCode nr) iCount)
            (fun r => Directory r.2) (Stop.Left Directory) := by
          unfold State.sharePage
          split_ifs
          · exact Post.ok h
          · refine Directory.shareLoop s (by omega) hnr (fun p hp => ?_) h
            rw [List.mem_reverse, List.mem_range'_1] at hp
            omega
        cases hr : s.sharePage nr exe (address / 4096 * 4096 - State.startCode nr) iCount with
        | error e => exact Directory.orOom (Post.error (hloop.of_error hr)) hnr hlim
        | ok r =>
          obtain ⟨shared, m⟩ := r
          have hm : Directory m := hloop.of_ok hr
          cases shared with
          | true => exact Post.ok hm
          | false =>
            simp only
            cases hg : Mm.getFreePage m with
            | none => exact Directory.doExit (s := { s with mem := m }) hm hnr hlim
            | some r =>
              obtain ⟨f, m'⟩ := r
              exact Post.ok (hm.getFreePage hg)

theorem Directory.loaded (h : Directory s.mem) (hI : Inv lo s) (hnr : nr ∈ slots)
    (content : ℕ → Word) :
    Post (s.loaded nr content) (fun s' => Directory s'.mem) fun _ => True := by
  unfold State.loaded
  cases ht : s.task nr with
  | none => exact Post.ok h
  | some t =>
    cases hl : t.loading with
    | none => simp only [hl]; exact Post.ok h
    | some r =>
      obtain ⟨page, address⟩ := r
      -- The page is the task's own, so it is not the directory.
      have hpage : page ≠ 0 := by
        have hown : own s page ≠ 0 := by
          have := own_setTask hnr (s := s) (some { t with loading := none }) page
          simp only [ht, hl, pageAt, loadAt, Option.map_some, Option.bind_some, if_true] at this
          simp at this
          omega
        have := low_le_of_alloc hI.mem (hI.mem.owned page hown)
        unfold lowPages at this
        omega
      have hfill := h.fill hpage content
      simp only [hl]
      cases hp : Mm.putPage (s.mem.fill page content) page address with
      | some m => exact Post.ok (hfill.putPage hp)
      | none =>
        simp only
        cases hf : Mm.freePage (s.mem.fill page content) page with
        | error e => exact Post.error trivial
        | ok m =>
          refine Directory.doExit (hfill.freePage hf) (mem_slots.1 hnr).2 fun t₁ ht₁ => ?_
          rw [setTask_task, Function.update_self] at ht₁
          obtain rfl := Option.some.inj ht₁
          exact hI.limit nr t ht

theorem Directory.access (h : Directory s.mem) (hI : Inv lo s) (hnr : nr ∈ slots) {t : Task}
    (ht : s.task nr = some t) {offset : ℕ} (ho : offset < t.dataLimit)
    (hp : present (s.entryAt (State.startCode nr + offset)) = true) (store : Option (ℕ × Word))
    (hw : store.isSome = true → writable (s.entryAt (State.startCode nr + offset)) = true) :
    Directory (s.access (State.startCode nr + offset) store).mem := by
  obtain ⟨hd, htab, -⟩ := hI.entry_facts hnr ht ho hp
  have htouch := h.write (h.table_ne (dirIndex_lt _) (hI.repr.present_pde hd htab))
    (tblIndex (State.startCode nr + offset))
    (touch (pte s.mem (dirIndex (State.startCode nr + offset))
      (tblIndex (State.startCode nr + offset))) store.isSome)
  unfold State.access
  cases store with
  | none => exact htouch
  | some jv =>
    obtain ⟨j, v⟩ := jv
    have hps : (dirIndex (State.startCode nr + offset), tblIndex (State.startCode nr + offset)) ∈
        userSlots := mem_userSlots.2 ⟨hd, tblIndex_lt _⟩
    have hlow := (hI.mem.shared _ hps hp (hw rfl)).1
    unfold lowPages at hlow
    exact htouch.write (by simp only at hlow; omega) j v

theorem Directory.run (h : Directory s.mem) (hI : Inv lo s) {e : Op} (he : s.Enabled e) :
    Post (s.run e) (fun s' => Directory s'.mem) fun _ => True := by
  cases e with
  | fork nr => exact h.fork hI he.1
  | exit nr => exact Directory.doExit h he.2.1 (hI.limit nr)
  | release nr =>
    show Post (s.release nr) _ _
    unfold State.release
    cases s.task nr with
    | none => exact Post.ok h
    | some t =>
      simp only
      cases hf : Mm.freePage s.mem t.page with
      | ok m => exact Post.ok (h.freePage hf)
      | error e => exact Post.error trivial
  | exec nr inode aText aData aBss =>
    show Post (s.exec nr inode aText aData) _ _
    unfold State.exec
    cases ht : s.task nr with
    | none => exact Post.ok h
    | some t =>
      obtain ⟨hc, hd⟩ := hI.limit nr t ht
      exact (h.freeSegments he.2.1.1 hc hd).bind fun m hm => Post.ok hm
  | noPage nr offset iCount =>
    obtain ⟨⟨h1, ⟨h2, -⟩, t, ht, ho⟩, -⟩ := he
    have := (hI.limit nr t ht).2
    exact h.doNoPage hI h2 (by omega) iCount
  | loaded nr content => exact h.loaded hI (mem_slots.2 he) content
  | wpFault nr offset =>
    obtain ⟨⟨h1, ⟨h2, -⟩, t, ht, ho⟩, hp, -⟩ := he
    obtain ⟨hd, htab, -⟩ := hI.entry_facts (mem_slots.2 ⟨h1, h2⟩) ht ho hp
    exact Directory.orOom (h.unWpPage
      (h.table_ne (dirIndex_lt _) (hI.repr.present_pde hd htab)) _) h2 (hI.limit nr)
  | verify nr address => exact Directory.orOom (h.writeVerify address) he.2.1 (hI.limit nr)
  | access nr offset store =>
    obtain ⟨⟨h1, ⟨h2, -⟩, t, ht, ho⟩, hp, hw⟩ := he
    exact Post.ok (h.access hI (mem_slots.2 ⟨h1, h2⟩) ht ho hp store hw)
  | getPipe =>
    refine Post.ok ?_
    unfold State.getPipe
    cases hg : Mm.getFreePage s.mem with
    | none => exact h
    | some r => exact h.getFreePage hg
  | freePipe f =>
    show Post (s.freePipe f) _ _
    unfold State.freePipe
    cases hf : Mm.freePage s.mem f with
    | ok m => exact Post.ok (h.freePage hf)
    | error e => exact Post.error trivial

theorem Directory.init (h : State.Init lo s) : Directory s.mem := by
  obtain ⟨m, hi, hm, -, -, -, hk, hz, -⟩ := h
  intro d hd
  rw [hm]
  by_cases h4 : d < 4
  · exact .inr ⟨d + 1, by omega, by omega, hk d h4⟩
  · exact .inl (hz d (by omega) hd)

theorem Directory.of_reachable (h : (memory lo).Reachable s) : Directory s.mem := by
  have hboth : Inv lo s ∧ Directory s.mem := by
    refine h.invariant (I := fun s => Inv lo s ∧ Directory s.mem) (fun s h0 => ⟨Inv.init h0, Directory.init h0⟩)
      fun s e s' hI hs => ?_
    obtain ⟨hI, hD⟩ := hI
    obtain ⟨he, hr⟩ := hs
    exact ⟨(hI.run he).of_ok hr, (hD.run hI he).of_ok hr⟩
  exact hboth.2

end Run

end Linux011.Mm
