import Linux011.Exec.Rules
import Linux011.Mm.Reach

/-!
# After the point of no return

What `do_execve` makes of a process once nothing can fail any more.

1. `Caller`: the process and the state of memory that the call finds.
2. `Caller.freed`: the old pages go, and a page is free for the table of the argument pages.
3. `commit_spec`: the new stack leads to the strings, and every argument page is in its place.
-/

namespace Linux011.Execve

open Args Bytes

variable {σ ι β φ : Type}

/-! ## The caller -/

/-- Process `nr` calls `do_execve` in a state of memory that can be reached; the page that the call is
made from is there. -/
structure Caller (lo : ℕ) (s : Mm.State) (nr : ℕ) (x : Machine σ ι φ) : Prop where
  reachable : (Mm.memory lo).Reachable s
  slot : 1 ≤ nr
  running : s.Running nr
  mem : x.args.mem = s.mem
  owns : OwnsSlot x.task.toProcess nr
  limits : ∀ t, s.task nr = some t →
    x.task.code.getLimit.toNat = t.codeLimit ∧ x.task.data.getLimit.toNat = t.dataLimit
  fetched : ∃ offset < 2 ^ 26, Mm.present (s.entryAt (Mm.State.startCode nr + offset)) = true

/-- Every argument page is where the new program finds it, at the top of the slot. -/
def Mapped (nr : ℕ) (page : ℕ → ℕ) (m : Mm.Mem) : Prop :=
  ∀ i < MAX_ARG_PAGES, page i ≠ 0 → Mm.pte m (16 * nr + 15) (992 + i) = Mm.entry (page i)

section Free

variable {lo nr : ℕ} {s : Mm.State} {x : Machine σ ι φ} {m m' : Mm.Mem} {a : Mm.Space} {t : Args}
  {supply : ℕ → Bool}

/-- `free_page_tables` writes no frame that the kernel holds. -/
theorem freeDir_held {d : ℕ} (h : Mm.Repr lo m a) (hd : d ∈ Mm.userDirs) :
    Post (Mm.freeDir m d) (fun m' => ∀ g, a.own g ≠ 0 → m'.phys g = m.phys g) fun _ => True := by
  unfold Mm.freeDir
  split_ifs with hp
  · refine (Mm.Emptied.loop m (Mm.pageOf (Mm.pde m d)) 1024).bind fun m₁ h₁ => ?_
    cases hf : Mm.freePage m₁ (Mm.pageOf (Mm.pde m₁ d)) with
    | error e => exact Post.error trivial
    | ok m₂ =>
      refine Post.ok fun g hg => ?_
      have hne : g ≠ Mm.pageOf (Mm.pde m d) := fun he => by
        have hpos : 0 < Mm.dirRefs m g := Mm.dirRefs_pos hd ⟨hp, he.symm⟩
        have := h.inv.exclusive g (by omega)
        omega
      have hlow := Mm.low_le_of_alloc h.inv (h.inv.owned g hg)
      unfold Mm.lowPages at hlow
      funext j
      rw [Mm.Mem.write_phys_of_ne _ _ (.inl (by omega)), Mm.freePage_phys hf, h₁.other g hne]
  · exact Post.ok fun _ _ => rfl

theorem freePageTables_held (h : Mm.Repr lo m a) {size : ℕ} (h0 : 1 ≤ nr) (hnr : nr < 64)
    (hsize : size ≤ 2 ^ 26) :
    Post (Mm.freePageTables m (nr * 2 ^ 26) size)
      (fun m' => ∀ g, a.own g ≠ 0 → m'.phys g = m.phys g) fun _ => True := by
  have hn := Mm.dirCount_le hsize
  unfold Mm.freePageTables
  rw [if_neg (by omega), if_neg (by omega), Mm.dirIndex_slot hnr]
  refine (Post.foldRange (I := fun j m₂ => Mm.Repr lo m₂ (a.clear (16 * nr) j) ∧
    ∀ g, a.own g ≠ 0 → m₂.phys g = m.phys g) (fun j hj m₂ h₂ => ?_)
    ⟨by rw [Mm.Space.clear_zero]; exact h, fun _ _ => rfl⟩).mono (fun m' h' => h'.2) fun _ => id
  obtain ⟨hr₂, hk₂⟩ := h₂
  have hmem : 16 * nr + j ∈ Mm.userDirs := Mm.mem_userDirs.2 (by omega)
  have hturn := hr₂.freeDir hmem
  rw [Mm.Space.clear_succ] at hturn
  exact (hturn.and (freeDir_held hr₂ hmem)).mono
    (fun m₃ h₃ => ⟨h₃.1, fun g hg => (h₃.2 g hg).trans (hk₂ g hg)⟩) fun _ _ => trivial

/-- **The old program's pages go**: its slot is empty, the argument pages are as they were, and one
page more is free. -/
theorem Caller.freed (h : Caller lo s nr x) (hs : Steps supply { x.args with page := fun _ => 0 } t) :
    Post (freeSegment t.mem x.task.code >>= fun m => freeSegment m x.task.data)
      (fun m => ∃ b, Mm.Repr lo m (holdAll b t.page) ∧ b.own = Mm.own s ∧
        (∀ i < 1024, b.page (16 * nr + 15) i = .absent) ∧ Mm.getFreePage m ≠ none ∧
        ∀ i < MAX_ARG_PAGES, t.page i ≠ 0 → m.phys (t.page i) = t.mem.phys (t.page i))
      (fun _ => False) := by
  have hInv := Mm.Inv.of_reachable h.reachable
  obtain ⟨hnr, task, htask, -, -⟩ := h.running
  obtain ⟨hcl, hdl⟩ := h.limits task htask
  obtain ⟨hle, hlim, -⟩ := hInv.limits nr task htask
  have h1 := h.slot
  obtain ⟨a, ha⟩ : ∃ a, a = Mm.spaceOf s := ⟨_, rfl⟩
  have hr₀ : Mm.Repr lo t.mem (holdAll a t.page) := by
    refine Steps.repr ?_ hs
    show Mm.Repr lo x.args.mem (holdAll a fun _ => 0)
    rw [holdAll_zero, h.mem, ha]
    exact hInv.repr
  -- The directory entry of the page that the call was made from.
  obtain ⟨offset, hoff, hpte⟩ := h.fetched
  obtain ⟨D, hD⟩ : ∃ D, D = Mm.dirIndex (Mm.State.startCode nr + offset) := ⟨_, rfl⟩
  have hDn : D / 16 = nr := by
    rw [hD]
    unfold Mm.dirIndex Mm.State.startCode
    omega
  have hDu : D ∈ Mm.userDirs := Mm.mem_userDirs.2 (by omega)
  have hDp : Mm.present (Mm.pde s.mem D) = true := by
    by_contra hn
    unfold Mm.State.entryAt at hpte
    rw [← hD, Mm.pte_of_not_present (by simpa using hn)] at hpte
    exact absurd hpte (by decide)
  have hDt : Mm.present (Mm.pde t.mem D) = true := by
    rw [hr₀.table D hDu, ha]
    exact hDp
  have hfree : ∀ (m : Mm.Mem) (b : Mm.Space) (d : Descriptor) (limit : ℕ),
      Mm.Repr lo m (holdAll b t.page) → d.getBase.toNat = nr * 0x4000000 →
      d.getLimit.toNat = limit → limit ≤ 2 ^ 26 →
      Post (freeSegment m d) (fun m' => (Mm.Repr lo m'
          (holdAll (b.clear (16 * nr) (Mm.dirCount limit)) t.page) ∧ Mm.Kept lo nr nr m m') ∧
        ∀ g, (holdAll b t.page).own g ≠ 0 → m'.phys g = m.phys g) (fun _ => False) := by
    intro m b d limit hr hbase hlimit hle
    have hspec := (Mm.freePageTables_kept nr hr h1 hnr hle).and (freePageTables_held hr h1 hnr hle)
    unfold freeSegment
    rw [hbase, hlimit]
    cases hf : Mm.freePageTables m (nr * 0x4000000) limit with
    | error e => exact ((hspec.of_error hf).1).elim
    | ok m' => exact Post.ok (hspec.of_ok hf)
  refine Post.bind (hfree _ a _ _ hr₀ h.owns.code hcl (by omega)) fun m₁ h₁ => ?_
  refine (hfree _ _ _ _ h₁.1.1 h.owns.data hdl hlim).mono (fun m₂ h₂ => ?_) fun _ => id
  obtain ⟨b, hb⟩ : ∃ b, b = (a.clear (16 * nr) (Mm.dirCount task.codeLimit)).clear (16 * nr)
    (Mm.dirCount task.dataLimit) := ⟨_, rfl⟩
  rw [← hb] at h₂
  -- Only entries below the limit of the data segment had a table.
  have htable : ∀ d ∈ Mm.userDirs, d / 16 = nr → b.table d = false := by
    intro d hd hdn
    rw [hb]
    simp only [Mm.Space.clear]
    by_cases hc : 16 * nr ≤ d ∧ d < 16 * nr + Mm.dirCount task.dataLimit
    · rw [if_pos hc]
    · rw [if_neg hc]
      split_ifs
      · rfl
      · rw [ha]
        show Mm.present (Mm.pde s.mem d) = false
        by_contra hp
        obtain ⟨t', ht', hal⟩ := hInv.table d hd (by simpa using hp)
        rw [hdn, htask] at ht'
        obtain rfl := Option.some.inj ht'
        have := hal.2
        omega
  have hown : b.own = Mm.own s := by rw [hb, ha]; rfl
  refine ⟨b, h₂.1.1, hown, fun i hi => ?_, ?_, fun i hi hp => ?_⟩
  · have hd15 : 16 * nr + 15 ∈ Mm.userDirs := Mm.mem_userDirs.2 (by omega)
    exact h₂.1.1.absent_of_table hd15 hi (htable _ hd15 (by omega))
  · refine exists_free hr₀ hDu hDn hDt (h₁.1.2.trans h₂.1.2) h₂.1.1 ?_ fun d hd hdn => ?_
    · show (holdAll b t.page).own = (holdAll a t.page).own
      unfold holdAll
      rw [hown, ha]
      rfl
    · rw [h₂.1.1.table d hd]
      exact htable d hd hdn
  · have hpos : ∀ c : Mm.Space, (holdAll c t.page).own (t.page i) ≠ 0 := fun c =>
      own_holdAll_pos c hi hp
    rw [h₂.2 _ (hpos _), h₁.2 _ (hpos _)]

end Free

/-! ## What the new program finds -/

/-- `p` at the top of the address space. -/
def relocate (p : BitVec 32) : Addr := p + (0x4000000 - 0x20000)

/-- Every argument page is mapped, all bytes of the strings are in such pages, and nobody else has got
a page. -/
structure Installed (lo nr : ℕ) (s : Mm.State) (p : BitVec 32) (y : Machine σ ι φ) : Prop where
  mapped : Mapped nr y.args.page y.args.mem
  there : ∀ k, p.toNat ≤ k → k < 0x1FFFC → y.args.page (k / 4096) ≠ 0
  accounted : ∃ b, Mm.Repr lo y.args.mem b ∧ b.own = Mm.own s

section Top

variable {lo nr : ℕ} {m m' : Mm.Mem} {b : Mm.Space} {page : ℕ → ℕ} {base p : BitVec 32} {t : Args}
  {rest : Memory} {bs : List Byte}

/-- A byte of an argument page as the new program reads it. -/
theorem userMemory_top (hnr : nr < 64) (h1 : 1 ≤ nr)
    (h : Placed lo b m page (16 * nr + 15) 32 m') (hbase : base.toNat = nr * 0x4000000)
    (hp : p.toNat < 0x20000) (h0 : page (p.toNat / 4096) ≠ 0) :
    userMemory m' base rest (relocate p) =
      Mm.byteOf (m.phys (page (p.toNat / 4096))) (p.toNat % 4096) := by
  obtain ⟨i, hi⟩ : ∃ i, i = p.toNat / 4096 := ⟨_, rfl⟩
  rw [← hi] at h0 ⊢
  have hreloc : (relocate p).toNat = 0x3FE0000 + p.toNat := by
    unfold relocate
    bv_omega
  have haddr : (base + relocate p).toNat = nr * 0x4000000 + (0x3FE0000 + p.toNat) := by
    rw [BitVec.toNat_add, hbase, hreloc]
    omega
  have hdir : Mm.dirIndex (base + relocate p).toNat = 16 * nr + 15 := by
    rw [haddr]
    unfold Mm.dirIndex
    omega
  have htbl : Mm.tblIndex (base + relocate p).toNat = 992 + i := by
    rw [haddr]
    unfold Mm.tblIndex
    omega
  obtain ⟨⟨b', hr, -, -, hpage⟩, hentry, -, -⟩ := h
  have he := hentry i (by omega) (by omega) h0
  -- What is at the entry is the page.
  have hview := hr.page (16 * nr + 15) (Mm.mem_userDirs.2 (by omega)) (992 + i) (by omega)
  rw [show (holdAll b' (below page 32)).page = b'.page from rfl, hpage,
    if_pos ⟨rfl, by omega, by omega, by omega, by rw [show 992 + i - 992 = i by omega]; exact h0⟩,
    show 992 + i - 992 = i by omega] at hview
  have hpres : Mm.present (Mm.pte m' (16 * nr + 15) (992 + i)) = true := by
    rw [he]
    exact Mm.present_entry _
  have hphys : m'.phys (Mm.pageOf (Mm.pte m' (16 * nr + 15) (992 + i))) = m.phys (page i) := by
    unfold Mm.view Mm.look at hview
    rw [if_pos hpres] at hview
    split_ifs at hview
    exact Mm.PageView.page.inj hview
  unfold userMemory
  simp only
  rw [hdir, htbl, if_pos hpres, hphys, hreloc, show (0x3FE0000 + p.toNat) % 4096 = p.toNat % 4096 by omega]

variable (rest) in
/-- The strings as the new program reads them. -/
theorem bytesAt_top (hnr : nr < 64) (h1 : 1 ≤ nr) (h : Placed lo b m t.page (16 * nr + 15) 32 m')
    (hbase : base.toNat = nr * 0x4000000)
    (hphys : ∀ i < MAX_ARG_PAGES, t.page i ≠ 0 → m.phys (t.page i) = t.mem.phys (t.page i))
    (hbs : t.Holds p.toNat bs) : BytesAt (userMemory m' base rest) (relocate p) bs := by
  induction bs generalizing p with
  | nil => trivial
  | cons c bs ih =>
    obtain ⟨hlt, h0, hbyte, hbs⟩ := hbs
    unfold MAX_ARG_PAGES at hlt hphys
    have hnext : (p + 1).toNat = p.toNat + 1 := by bv_omega
    refine ⟨?_, ?_⟩
    · rw [userMemory_top hnr h1 h hbase (by omega) h0, hphys _ hlt h0]
      exact hbyte
    · rw [show relocate p + 1 = relocate (p + 1) by unfold relocate; bv_omega]
      exact ih (by rw [hnext]; exact hbs)

theorem Args.Holds.there (h : t.Holds p.toNat bs) {k : ℕ} (hk : p.toNat ≤ k)
    (hlt : k < p.toNat + bs.length) : t.page (k / 4096) ≠ 0 := by
  obtain ⟨n, hn⟩ : ∃ n, n = p.toNat := ⟨_, rfl⟩
  rw [← hn] at h hk hlt
  clear hn
  induction bs generalizing n with
  | nil => exact absurd hlt (by simp; omega)
  | cons c bs ih =>
    rcases Nat.eq_or_lt_of_le hk with rfl | hk
    · exact h.2.1
    · rw [List.length_cons] at hlt
      exact ih (n + 1) (by omega) hk h.2.2.2

end Top

/-- What a new program is started with, if it has the strings from `p` on: the arguments `A`, the
environment `B`, and `text` bytes of text and data. -/
structure Started (lo nr : ℕ) (s : Mm.State) (p : BitVec 32) (text : BitVec 32)
    (A B : List (List Byte)) (y : Machine σ ι φ) : Prop extends Installed lo nr s p y where
  sp : y.esp.toNat = (relocate p).toNat / 4 * 4 - tableSize A.length B.length
  built : ∃ m, y.user = clearTail m 4096 text ∧ Built m y.esp (relocate p) A B

section Commit

variable {F : Files σ ι β φ} {e : Env} {lo nr : ℕ} {s : Mm.State} {x x' : Machine σ ι φ} {inode : ι}
  {ex : Exec} {u g : BitVec 16} {v : Vars} {filename : Addr} {A B C : List (List Byte)}
  {Q : ℤ × Machine σ ι φ → Prop} {E : Stop → Prop}

theorem putExecutable_rule (hE : E .files) : Post (putExecutable F x) (fun _ => True) E := by
  unfold putExecutable
  cases x.task.executable with
  | none => exact Post.ok trivial
  | some old => exact call_rule (fun _ _ => trivial) hE

theorem closeOne_rule (t : Task ι φ) (r : (Fin 20 → Option φ) × σ) (i : Fin 20) (hE : E .files) :
    Post (closeOne F t r i) (fun _ => True) E := by
  unfold closeOne
  split_ifs
  · cases r.1 i with
    | none => exact Post.ok trivial
    | some f => exact Post.bind (call_rule (fun _ _ => trivial) hE) fun _ _ => Post.ok trivial
  · exact Post.ok trivial

theorem closeAll_rule (t : Task ι φ) (l : List (Fin 20)) (r : (Fin 20 → Option φ) × σ)
    (hE : E .files) : Post (l.foldlM (closeOne F t) r) (fun _ => True) E := by
  induction l generalizing r with
  | nil => exact Post.ok trivial
  | cons i l ih =>
    rw [List.foldlM_cons]
    exact Post.bind (closeOne_rule t r i hE) fun r' _ => ih r'

theorem length_le_flat (ss : List (List Byte)) : ss.length ≤ (flat ss).length := by
  induction ss with
  | nil => exact le_rfl
  | cons s ss ih =>
    rw [flat_cons, List.length_append, List.length_append, List.length_singleton, List.length_cons]
    omega

/-- Nothing is to be closed. -/
theorem closeAll_none (t : Task ι φ) (l : List (Fin 20)) (r : (Fin 20 → Option φ) × σ)
    (h : t.closeOnExec = 0) : l.foldlM (closeOne F t) r = .ok r := by
  induction l with
  | nil => rfl
  | cons i l ih =>
    have hone : closeOne F t r i = .ok r := by
      unfold closeOne
      rw [h, if_neg (by simp)]
    rw [List.foldlM_cons, hone]
    exact ih

variable (inode ex u g) in
/-- **The point of no return** is followed by a program that finds what was copied. -/
theorem commit_rule (hc : Caller lo s nr x)
    (hr : Ready e (enter e filename x) x' v.p ((A ++ B) ++ C)) (hz : ∀ s ∈ A ++ B, ∀ c ∈ s, c ≠ 0)
    (hA : v.argc = A.length) (hB : v.envc = B.length)
    (hput : Post (putExecutable F x') (fun _ => True) E)
    (hclose : ∀ r, Post ((List.finRange 20).foldlM (closeOne F x'.task) r) (fun _ => True) E)
    (hQ : ∀ y, Started lo nr s v.p (ex.aText + ex.aData) A B y → Q (0, y)) :
    Post (commit F e x' inode ex u g v) Q E := by
  obtain ⟨hnr, -⟩ := hc.running
  have hbase : x.task.code.getBase.toNat = nr * 0x4000000 := hc.owns.code
  have htask : x'.task = x.task := hr.task
  have hplace := hr.place
  rw [flat_append, List.length_append] at hplace
  have hlen := length_le_flat (A ++ B)
  rw [List.length_append] at hlen
  have hreloc : (relocate v.p).toNat = 0x3FE0000 + v.p.toNat := by
    unfold relocate
    bv_omega
  unfold commit
  refine Post.bind hput fun f₁ _ => ?_
  refine Post.bind (hclose _) fun r _ => ?_
  obtain ⟨filp, f₂⟩ := r
  have hfreed := hc.freed hr.steps
  rw [htask]
  simp only
  rw [← bind_assoc]
  refine Post.bind (hfreed.mono (fun _ => id) fun _ => False.elim) fun m hm => ?_
  obtain ⟨b, hrepr, hown, habs, hfree, hphys⟩ := hm
  have hplaced := putPages_spec hc.slot hnr hbase hrepr habs hfree
  obtain ⟨m', hm'⟩ : ∃ m', m' = putPages m x'.args.page (x.task.code.getBase + 0x4000000) := ⟨_, rfl⟩
  rw [← hm'] at hplaced ⊢
  have hbytes := bytesAt_top e.rest hnr hc.slot hplaced hbase hphys hr.holds
  rw [flat_append, bytesAt_append] at hbytes
  obtain ⟨sp, user, hok, hsp, hstack, hframe⟩ := createTables_spec hbytes.1 hz
    (by unfold tableSize; omega) (by omega)
  rw [hA, hB]
  have hok' : createTables (userMemory m' x.task.code.getBase e.rest) (v.p + (0x4000000 - 0x20000))
      A.length B.length = .ok (sp, user) := hok
  rw [hok']
  refine Post.ok (hQ _ ⟨⟨fun i hi h0 => hplaced.entry i hi (by omega) h0,
    fun k hk hlt => hr.holds.there hk (by rw [flat_append, List.length_append]; omega), ?_⟩, hsp,
    _, rfl, hstack, ?_, hz, ?_, ?_, ?_, ?_⟩)
  · obtain ⟨b', hr', hown', -⟩ := hplaced.repr
    have hbelow : below x'.args.page 32 = fun _ => 0 := funext fun i => if_neg (by omega)
    rw [hbelow, holdAll_zero] at hr'
    exact ⟨b', hr', hown'.trans hown⟩
  · exact hbytes.1.congr_range (by omega) fun a h1 _ => hframe a (.inr h1)
  · rw [hsp]
    unfold tableSize
    omega
  · rw [hsp]
    unfold tableSize
    omega
  · rw [hsp]
    unfold tableSize
    omega
  · omega

end Commit

end Linux011.Execve
