import Linux011.Mm.KernelStore

/-!
# What `verify_area` un-shares

`verify_area` of `kernel/fork.c` goes through the pages of an area with `write_verify`. It adds the
offset in the first page to its `int` before it looks at the sign.

1. `unWpPage_spec`: `un_wp_page` writes one entry and a frame that was free.
2. `Checked`: what a call has done to the entries it went to, and that the contents of all pages stay.
3. `checked_verifyArea`: the pages that the loop goes to, by induction on its turns.
4. `verifyArea_unshares_iff`: the areas for which every page is un-shared.
5. `kernel_store_private`: a store through an entry that is not write-protected stays private.
-/

namespace Linux011.Mm

open State

/-! ## `un_wp_page` -/

section Unwp

variable {m m' : Mem} {t i : ℕ}

/-- `un_wp_page` on a present entry, whose page is not the table: frames in use stay but for the
entry, which is writable then and points to what it pointed to. -/
theorem unWpPage_spec (hp : present (m.phys t i) = true)
    (hold : pageOf (m.phys t i) < lowPages ∨ m.memMap (pageOf (m.phys t i)) ≠ 0)
    (hne : pageOf (m.phys t i) ≠ t) (h : unWpPage m t i = .ok m') :
    ∃ e, present e = true ∧ writable e = true ∧
      (∀ g, g < lowPages ∨ m.memMap g ≠ 0 → ∀ j,
        m'.phys g j = if g = t ∧ j = i then e else m.phys g j) ∧
      m'.phys (pageOf e) = m.phys (pageOf (m.phys t i)) := by
  have hwrite : ∀ (m : Mem) (w : Word) g j,
      (m.write t i w).phys g j = if g = t ∧ j = i then w else m.phys g j := by
    intro m w g j
    split_ifs with hg
    · rw [hg.1, hg.2, Mem.write_phys_self]
    · exact Mem.write_phys_of_ne _ _ (not_and_or.1 hg)
  unfold unWpPage at h
  dsimp only at h
  by_cases h1 : lowPages ≤ pageOf (m.phys t i) ∧ m.memMap (pageOf (m.phys t i)) = 1
  · rw [if_pos h1] at h
    cases h
    refine ⟨unprotect (m.phys t i), ?_, writable_unprotect _, fun g _ j => hwrite m _ g j, ?_⟩
    · rw [present_unprotect, hp]
    · rw [pageOf_unprotect]
      funext j
      rw [hwrite, if_neg fun hg => hne hg.1]
  · rw [if_neg h1] at h
    rcases hfree : getFreePage m with _ | ⟨new, m₁⟩
    · rw [hfree] at h
      cases h
    · rw [hfree] at h
      dsimp only at h
      obtain ⟨h0, hl, hlt, hm₁⟩ := getFreePage_eq_some hfree
      have hused : ∀ g, g < lowPages ∨ m.memMap g ≠ 0 → g ≠ new := by
        rintro g (hg | hg) rfl
        · omega
        · exact hg h0
      obtain ⟨m₂, hm₂⟩ : ∃ m₂, m₂ = if lowPages ≤ pageOf (m.phys t i) then
          m₁.setMap (pageOf (m.phys t i)) (m₁.memMap (pageOf (m.phys t i)) - 1) else m₁ := ⟨_, rfl⟩
      have hphys : ∀ g, g < lowPages ∨ m.memMap g ≠ 0 → m₂.phys g = m.phys g := by
        intro g hg
        have h12 : m₂.phys = m₁.phys := by
          rw [hm₂]
          split_ifs <;> rfl
        rw [h12, hm₁, Mem.fill_phys_of_ne _ _ (hused g hg)]
        rfl
      rw [← hm₂] at h
      obtain rfl := Except.ok.inj h
      have hnew : pageOf (entry new) = new :=
        pageOf_entry (by unfold lowPages pagingPages at hlt; omega)
      refine ⟨entry new, present_entry _, writable_entry _, fun g hg j => ?_, ?_⟩
      · rw [Mem.fill_phys_of_ne _ _ (hused g hg), hwrite, hphys g hg]
      · rw [hnew, Mem.fill_phys_self]
        funext j
        rw [hwrite, if_neg fun hg => hne hg.1, hphys _ hold]

end Unwp

/-! ## Entries that have been checked -/

/-- Between `m` and `m'` the entries in `T` have been checked. -/
structure Checked (m m' : Mem) (T : ℕ × ℕ → Prop) : Prop where
  other : ∀ q ∈ userSlots, ¬ T q → pte m' q.1 q.2 = pte m q.1 q.2
  presence : ∀ q ∈ userSlots, present (pte m' q.1 q.2) = present (pte m q.1 q.2)
  keeps : ∀ q ∈ userSlots, ¬ (present (pte m q.1 q.2) = true ∧ ¬ writable (pte m q.1 q.2) = true) →
    pte m' q.1 q.2 = pte m q.1 q.2
  self : ∀ q ∈ userSlots, T q → present (pte m q.1 q.2) = true → writable (pte m' q.1 q.2) = true
  contents : ∀ q ∈ userSlots, present (pte m q.1 q.2) = true →
    m'.phys (pageOf (pte m' q.1 q.2)) = m.phys (pageOf (pte m q.1 q.2))

section Checked

variable {lo : ℕ} {m m₁ m₂ m' : Mem} {own : ℕ → ℕ} {T T₁ T₂ : ℕ × ℕ → Prop} {address : ℕ}

theorem Checked.refl (h : ∀ q ∈ userSlots, T q → present (pte m q.1 q.2) = true →
    writable (pte m q.1 q.2) = true) : Checked m m T :=
  ⟨fun _ _ _ => rfl, fun _ _ => rfl, fun _ _ _ => rfl, h, fun _ _ _ => rfl⟩

theorem Checked.trans (h₁ : Checked m m₁ T₁) (h₂ : Checked m₁ m₂ T₂) :
    Checked m m₂ fun q => T₁ q ∨ T₂ q where
  other q hq hT := by
    rw [not_or] at hT
    rw [h₂.other q hq hT.2, h₁.other q hq hT.1]
  presence q hq := by rw [h₂.presence q hq, h₁.presence q hq]
  keeps q hq hw := by
    have hk := h₁.keeps q hq hw
    rw [h₂.keeps q hq (by rw [hk]; exact hw), hk]
  self q hq hT hp := by
    rcases hT with hT | hT
    · have hw := h₁.self q hq hT hp
      rw [h₂.keeps q hq fun hn => hn.2 hw]
      exact hw
    · exact h₂.self q hq hT (by rw [h₁.presence q hq]; exact hp)
  contents q hq hp := by
    rw [h₂.contents q hq (by rw [h₁.presence q hq]; exact hp), h₁.contents q hq hp]

theorem Checked.congr (h : Checked m m' T₁) (hT : ∀ q, T₁ q ↔ T₂ q) : Checked m m' T₂ := by
  rw [show T₂ = T₁ from funext fun q => propext (hT q).symm]
  exact h

/-- The kernel's entries are writable, so `write_verify` leaves them alone. -/
theorem writeVerify_kernel (h : KernelMap m) (hd : dirIndex address < 16) :
    writeVerify m address = .ok m := by
  unfold writeVerify
  by_cases h4 : dirIndex address < 4
  · have hpage : pageOf (entry (dirIndex address + 1)) = dirIndex address + 1 :=
      pageOf_entry (by omega)
    rw [h.table _ h4, if_pos (present_entry _), hpage]
    dsimp only
    rw [h.identity _ h4 _ (tblIndex_lt address)]
    exact if_neg fun hn => hn.2 (writable_entry _)
  · exact if_neg (by rw [h.rest _ (by omega) hd]; exact Bool.false_ne_true)

/-- `un_wp_page` of a protected entry of a process. -/
theorem MemInv.unWpPage {d i : ℕ} (h : MemInv lo m own) (hd : d ∈ userDirs) (hi : i < 1024)
    (hpd : present (pde m d) = true) (hp : present (pte m d i) = true)
    (hro : ¬ writable (pte m d i) = true)
    (hv : Mm.unWpPage m (pageOf (pde m d)) i = .ok m') : Checked m m' fun q => q = (d, i) := by
  have hps : (d, i) ∈ userSlots := mem_userSlots.2 ⟨hd, hi⟩
  have hpte : pte m d i = m.phys (pageOf (pde m d)) i := pte_of_present hpd
  obtain ⟨t, ht⟩ : ∃ t, t = pageOf (pde m d) := ⟨_, rfl⟩
  rw [← ht] at hv hpte
  have hta : Allocatable lo m t := by rw [ht]; exact h.tables d hd hpd
  have hused : ∀ q ∈ userSlots, present (pte m q.1 q.2) = true →
      pageOf (pte m q.1 q.2) < lowPages ∨ m.memMap (pageOf (pte m q.1 q.2)) ≠ 0 := by
    intro q hq hp
    refine (h.pages q hq hp).imp_right fun ha => memMap_ne_zero h ha ?_
    have := refs_pos hq ⟨hp, rfl⟩
    omega
  have hold := hused (d, i) hps hp
  have hne : pageOf (m.phys t i) ≠ t := by
    have := page_ne_table h hps hp hd hpd
    rw [hpte, ← ht] at this
    exact this
  rw [hpte] at hold
  obtain ⟨e, hep, hew, hphys, hcont⟩ := unWpPage_spec (hpte ▸ hp) hold hne hv
  have hpde : ∀ d', pde m' d' = pde m d' := by
    intro d'
    have h0 : (0 : ℕ) ≠ t := by
      have := low_le_of_alloc h hta
      unfold lowPages at this
      omega
    unfold pde
    rw [hphys 0 (.inl (by decide)), if_neg fun hg => h0 hg.1]
  -- an entry of another place stays: its table is another frame, or it is another word
  have hentry : ∀ q ∈ userSlots, pte m' q.1 q.2 = if q = (d, i) then e else pte m q.1 q.2 := by
    intro q hq
    by_cases hqp : present (pde m q.1) = true
    · have hqa := h.tables q.1 (mem_userSlots.1 hq).1 hqp
      have hqm : m.memMap (pageOf (pde m q.1)) ≠ 0 := memMap_ne_zero h hqa (by
        have := dirRefs_pos (m := m) (mem_userSlots.1 hq).1 ⟨hqp, rfl⟩
        omega)
      rw [pte_of_present (by rw [hpde]; exact hqp), hpde, hphys _ (.inr hqm), pte_of_present hqp]
      have hiff : (pageOf (pde m q.1) = t ∧ q.2 = i) ↔ q = (d, i) := by
        constructor
        · rintro ⟨h1, h2⟩
          exact Prod.ext (table_inj h (mem_userSlots.1 hq).1 hd hqp hpd (h1.trans ht)) h2
        · rintro rfl
          exact ⟨ht.symm, rfl⟩
      simp only [hiff]
    · have hqn : present (pde m q.1) = false := by simpa using hqp
      have hqd : q ≠ (d, i) := by rintro rfl; exact hqp hpd
      rw [if_neg hqd, pte_of_not_present (by rw [hpde]; exact hqn), pte_of_not_present hqn]
  refine ⟨fun q hq hT => by rw [hentry q hq, if_neg hT], fun q hq => ?_, fun q hq hw => ?_,
    fun q hq hT _ => ?_, fun q hq hp => ?_⟩
  · rw [hentry q hq]
    split_ifs with hqd
    · rw [hqd, hep, hp]
    · rfl
  · rw [hentry q hq]
    split_ifs with hqd
    · rw [hqd] at hw
      exact absurd ⟨hp, hro⟩ hw
    · rfl
  · rw [hentry q hq, if_pos hT]
    exact hew
  · rw [hentry q hq]
    split_ifs with hqd
    · rw [hqd, hpte]
      exact hcont
    · funext j
      have hqt : pageOf (pte m q.1 q.2) ≠ t := by
        rw [ht]
        exact page_ne_table h hq hp hd hpd
      rw [hphys _ (hused q hq hp), if_neg fun hg => hqt hg.1]

/-- `write_verify` checks one entry. -/
theorem MemInv.writeVerify (h : MemInv lo m own) (hv : Mm.writeVerify m address = .ok m') :
    Checked m m' fun q => q = (dirIndex address, tblIndex address) := by
  by_cases hd16 : dirIndex address < 16
  · rw [writeVerify_kernel h.kernel hd16] at hv
    cases hv
    refine .refl fun q hq hT => ?_
    have := (mem_userDirs.1 (mem_userSlots.1 hq).1).1
    rw [hT] at this
    omega
  have hd : dirIndex address ∈ userDirs := mem_userDirs.2 ⟨not_lt.1 hd16, dirIndex_lt address⟩
  unfold Mm.writeVerify at hv
  by_cases hpd : present (pde m (dirIndex address)) = true
  · rw [if_pos hpd] at hv
    dsimp only at hv
    rw [← pte_of_present hpd] at hv
    by_cases hro : present (pte m (dirIndex address) (tblIndex address)) = true ∧
        ¬ writable (pte m (dirIndex address) (tblIndex address)) = true
    · rw [if_pos hro] at hv
      exact h.unWpPage hd (tblIndex_lt _) hpd hro.1 hro.2 hv
    · rw [if_neg hro] at hv
      cases hv
      refine .refl fun q _ hT hp => ?_
      rw [hT] at hp ⊢
      by_contra hw
      exact hro ⟨hp, hw⟩
  · rw [if_neg hpd] at hv
    cases hv
    refine .refl fun q _ hT hp => ?_
    rw [hT, pte_of_not_present (by simpa using hpd)] at hp
    exact absurd hp (by decide)

end Checked

/-! ## The loop -/

/-- The entries that the first `n` turns of `verify_area` go to. -/
def Visited (nr addr n : ℕ) (q : ℕ × ℕ) : Prop :=
  ∃ k < n, q = (dirIndex (addr / 4096 * 4096 + startCode nr + 4096 * k),
    tblIndex (addr / 4096 * 4096 + startCode nr + 4096 * k))

/-- The process has died in `oom`. -/
def Dead (s : State) (nr : ℕ) : Prop :=
  ∃ t, s.task nr = some t ∧ t.zombie = true

section Loop

variable {lo nr addr size : ℕ} {s s' : State} {t : Task}

theorem doExit_dead (ht : s.task nr = some t) (h : s.doExit nr = .ok s') : Dead s' nr := by
  unfold State.doExit at h
  rw [ht] at h
  dsimp only at h
  cases hf : freeSegments s.mem nr t with
  | error p => rw [hf] at h; cases h
  | ok m =>
    rw [hf] at h
    cases h
    exact ⟨_, Function.update_self .., rfl⟩

/-- A turn of a living process. -/
theorem Inv.verifyTurn (h : Inv lo s) (hnr : nr ∈ slots) (ht : s.task nr = some t)
    (hl : t.loading = none) {address : ℕ} (hv : s.verify nr address = .ok s') :
    Dead s' nr ∨ s'.task = s.task ∧ Inv lo s' ∧
      Checked s.mem s'.mem fun q => q = (dirIndex address, tblIndex address) := by
  have hI : Inv lo s' := (h.verify hnr ht hl address).of_ok hv
  unfold State.verify at hv
  cases hw : writeVerify s.mem address with
  | ok m =>
    rw [hw] at hv
    cases hv
    exact .inr ⟨rfl, hI, h.mem.writeVerify hw⟩
  | error e =>
    rw [hw] at hv
    cases e with
    | panic p => cases hv
    | noMemory m => exact .inl (doExit_dead (s := { s with mem := m }) ht hv)

/-- When `verify_area` returns, it has checked the pages it went to. -/
theorem Inv.checked_verifyArea (h : Inv lo s) (hnr : nr ∈ slots) (ht : s.task nr = some t)
    (hz : t.zombie = false) (hl : t.loading = none) (hv : s.verifyArea nr addr size = .ok s')
    (hlive : ¬ Dead s' nr) :
    Inv lo s' ∧ Checked s.mem s'.mem (Visited nr addr (verifyTurns addr size)) := by
  have hloop := Post.foldRange (E := fun _ => True)
    (I := fun k s' => Dead s' nr ∨
      s'.task = s.task ∧ Inv lo s' ∧ Checked s.mem s'.mem (Visited nr addr k))
    (f := State.verifyPage nr (addr / 4096 * 4096 + startCode nr)) (n := verifyTurns addr size)
    (s := s) (fun k _ s₁ hs₁ => ?_) (.inr ⟨rfl, h, .refl fun q _ hT => ?_⟩)
  · rcases hloop.of_ok hv with hd | ⟨-, hI, hc⟩
    · exact absurd hd hlive
    · exact ⟨hI, hc⟩
  · unfold State.verifyPage
    rcases hs₁ with ⟨t₁, ht₁, hz₁⟩ | ⟨htask, hI, hc⟩
    · rw [ht₁, if_neg (by simp [hz₁])]
      exact Post.ok (.inl ⟨t₁, ht₁, hz₁⟩)
    · have ht₁ : s₁.task nr = some t := by rw [htask, ht]
      rw [ht₁, if_pos (by simp [hz])]
      cases hr : s₁.verify nr (addr / 4096 * 4096 + startCode nr + 4096 * k) with
      | error p => exact Post.error trivial
      | ok s₂ =>
        refine Post.ok ((hI.verifyTurn hnr ht₁ hl hr).imp_right fun ⟨htask₂, hI₂, hc₂⟩ => ?_)
        refine ⟨htask₂.trans htask, hI₂, (hc.trans hc₂).congr fun q => ?_⟩
        constructor
        · rintro (⟨k', hk', hq⟩ | hq)
          · exact ⟨k', Nat.lt_succ_of_lt hk', hq⟩
          · exact ⟨k, Nat.lt_succ_self k, hq⟩
        · rintro ⟨k', hk', hq⟩
          rcases Nat.lt_succ_iff_lt_or_eq.1 hk' with hlt | rfl
          · exact .inl ⟨k', hlt, hq⟩
          · exact .inr hq
  · obtain ⟨k, hk, -⟩ := hT
    omega

end Loop

/-! ## The pages of an area -/

/-- The entry of the byte at `a` in the process's segment. -/
def place (nr a : ℕ) : ℕ × ℕ := (dirIndex (startCode nr + a), tblIndex (startCode nr + a))

/-- The page is there and write-protected. -/
def Protected (s : State) (nr a : ℕ) : Prop :=
  present (s.entryAt (startCode nr + a)) = true ∧ ¬ writable (s.entryAt (startCode nr + a)) = true

/-- After `verify_area(addr, size)` the pages of the area are the process's own, with what they held;
entries of other pages are as before, and so are the contents of all pages. -/
structure Unshares (s s' : State) (nr addr size : ℕ) : Prop where
  area : ∀ a, addr ≤ a → a < addr + size → a < 2 ^ 26 →
    present (s.entryAt (startCode nr + a)) = true →
    present (s'.entryAt (startCode nr + a)) = true ∧ writable (s'.entryAt (startCode nr + a)) = true ∧
      (∀ nr' ≠ nr, ¬ s'.Maps nr' (pageOf (s'.entryAt (startCode nr + a)))) ∧
      s'.mem.phys (pageOf (s'.entryAt (startCode nr + a))) =
        s.mem.phys (pageOf (s.entryAt (startCode nr + a)))
  outside : ∀ q ∈ userSlots, (∀ a, addr ≤ a → a < addr + size → q ≠ place nr a) →
    pte s'.mem q.1 q.2 = pte s.mem q.1 q.2
  contents : ∀ q ∈ userSlots, present (pte s'.mem q.1 q.2) = present (pte s.mem q.1 q.2) ∧
    (present (pte s.mem q.1 q.2) = true →
      s'.mem.phys (pageOf (pte s'.mem q.1 q.2)) = s.mem.phys (pageOf (pte s.mem q.1 q.2)))

/-- The sum in `size += start & 0xfff` does not overflow, or no page of the area is protected. An area
without bytes starts with a page, or in one that is not protected. -/
def Covered (s : State) (nr addr size : ℕ) : Prop :=
  if size = 0 then addr % 4096 = 0 ∨ ¬ Protected s nr addr
  else size + addr % 4096 < 2 ^ 31 ∨
    ∀ a, addr ≤ a → a < addr + size → a < 2 ^ 26 → ¬ Protected s nr a

section Area

variable {lo nr addr size : ℕ} {s s' : State}

theorem verifyTurns_of_lt (h : size + addr % 4096 < 2 ^ 31) :
    verifyTurns addr size = (size + addr % 4096 + 4095) / 4096 := by
  unfold verifyTurns
  rw [BitVec.toInt_eq_toNat_of_lt (by rw [BitVec.toNat_ofNat]; omega), BitVec.toNat_ofNat,
    Nat.mod_eq_of_lt (by omega)]
  omega

theorem verifyTurns_of_le (hs : size < 2 ^ 31) (h : 2 ^ 31 ≤ size + addr % 4096) :
    verifyTurns addr size = 0 := by
  unfold verifyTurns
  have hnat : (BitVec.ofNat 32 (size + addr % 4096)).toNat = size + addr % 4096 := by
    rw [BitVec.toNat_ofNat]
    omega
  rw [BitVec.toInt_eq_toNat_cond, hnat, if_neg (by omega)]
  omega

variable (nr) in
/-- The pages that the loop goes to are those of the bytes of the area. -/
theorem visited_iff (hpos : 0 < size) (h : size + addr % 4096 < 2 ^ 31) (q : ℕ × ℕ) :
    Visited nr addr (verifyTurns addr size) q ↔ ∃ a, addr ≤ a ∧ a < addr + size ∧ q = place nr a := by
  rw [verifyTurns_of_lt h]
  have hplace : ∀ a k, a / 4096 = addr / 4096 + k →
      (dirIndex (addr / 4096 * 4096 + startCode nr + 4096 * k),
        tblIndex (addr / 4096 * 4096 + startCode nr + 4096 * k)) = place nr a := by
    intro a k hk
    unfold place dirIndex tblIndex startCode
    exact Prod.ext (by dsimp only; omega) (by dsimp only; omega)
  constructor
  · rintro ⟨k, hk, rfl⟩
    refine ⟨max addr ((addr / 4096 + k) * 4096), le_max_left .., by omega, hplace _ k ?_⟩
    omega
  · rintro ⟨a, ha, ha', rfl⟩
    exact ⟨a / 4096 - addr / 4096, by omega, (hplace a _ (by omega)).symm⟩

/-- A writable page of a process is its own. -/
theorem Inv.not_maps (h : Inv lo s) {q : ℕ × ℕ} (hq : q ∈ userSlots)
    (hp : present (pte s.mem q.1 q.2) = true) (hw : writable (pte s.mem q.1 q.2) = true) {nr' : ℕ}
    (hne : nr' ≠ q.1 / 16) : ¬ s.Maps nr' (pageOf (pte s.mem q.1 q.2)) := by
  obtain ⟨hl, h1⟩ := h.mem.shared q hq hp hw
  intro hm
  unfold State.Maps at hm
  split at hm
  · unfold lowPages at hl
    omega
  · obtain ⟨p, hp', hpn, hpf⟩ := hm
    have he := eq_of_memMap_one h.mem hl h1 hp' hq hpf ⟨hp, rfl⟩
    exact hne (hpn.symm.trans (by rw [he]))

theorem place_mem {a : ℕ} (hnr : nr ∈ slots) (ha : a < 2 ^ 26) :
    place nr a ∈ userSlots ∧ (place nr a).1 / 16 = nr := by
  have hs := mem_slots.1 hnr
  unfold place dirIndex startCode
  exact ⟨mem_userSlots.2 ⟨mem_userDirs.2 (by dsimp only; omega), tblIndex_lt _⟩,
    by dsimp only; omega⟩

theorem entryAt_place (s : State) (nr a : ℕ) :
    s.entryAt (startCode nr + a) = pte s.mem (place nr a).1 (place nr a).2 := rfl

/-- A protected page is not one of the kernel's. -/
theorem Inv.protected_mem (h : Inv lo s) {a : ℕ} (hp : Protected s nr a) :
    place nr a ∈ userSlots := by
  refine mem_userSlots.2 ⟨mem_userDirs.2 ⟨?_, dirIndex_lt _⟩, tblIndex_lt _⟩
  by_contra hlt
  have hd : dirIndex (startCode nr + a) < 16 := not_le.1 hlt
  have hk := h.mem.kernel
  unfold Protected State.entryAt pte at hp
  by_cases h4 : dirIndex (startCode nr + a) < 4
  · rw [hk.table _ h4, if_pos (present_entry _), pageOf_entry (by omega),
      hk.identity _ h4 _ (tblIndex_lt _)] at hp
    exact hp.2 (writable_entry _)
  · rw [hk.rest _ (by omega) hd] at hp
    exact absurd hp.1 (by rw [if_neg Bool.false_ne_true, present_zero]; exact Bool.false_ne_true)

/-- It is enough that the protected pages of the area are visited and others not. -/
theorem Checked.unshares {T : ℕ × ℕ → Prop} (hc : Checked s.mem s'.mem T) (hI : Inv lo s')
    (hnr : nr ∈ slots)
    (hin : ∀ q ∈ userSlots, T q →
      present (pte s.mem q.1 q.2) = true ∧ ¬ writable (pte s.mem q.1 q.2) = true →
      ∃ a, addr ≤ a ∧ a < addr + size ∧ q = place nr a)
    (hall : ∀ a, addr ≤ a → a < addr + size → a < 2 ^ 26 → Protected s nr a → T (place nr a)) :
    Unshares s s' nr addr size where
  area a ha ha' hlt hp := by
    obtain ⟨hq, hslot⟩ := place_mem hnr hlt
    rw [entryAt_place] at hp ⊢
    rw [entryAt_place]
    have hp' : present (pte s'.mem (place nr a).1 (place nr a).2) = true := by
      rw [hc.presence _ hq, hp]
    have hw' : writable (pte s'.mem (place nr a).1 (place nr a).2) = true := by
      by_cases hw : writable (pte s.mem (place nr a).1 (place nr a).2) = true
      · rw [hc.keeps _ hq fun hn => hn.2 hw, hw]
      · exact hc.self _ hq (hall a ha ha' hlt ⟨hp, hw⟩) hp
    refine ⟨hp', hw', fun nr' hne => hI.not_maps hq hp' hw' ?_, hc.contents _ hq hp⟩
    rw [hslot]
    exact hne
  outside q hq hout := by
    by_cases hT : T q
    · refine hc.keeps q hq fun hpw => ?_
      obtain ⟨a, ha, ha', he⟩ := hin q hq hT hpw
      exact hout a ha ha' he
    · exact hc.other q hq hT
  contents q hq := ⟨hc.presence q hq, hc.contents q hq⟩

/-- A protected page that is visited is un-shared. -/
theorem Checked.not_protected {T : ℕ × ℕ → Prop} (hc : Checked s.mem s'.mem T) {q : ℕ × ℕ}
    (hq : q ∈ userSlots) (hT : T q)
    (hp : present (pte s.mem q.1 q.2) = true ∧ ¬ writable (pte s.mem q.1 q.2) = true) :
    pte s'.mem q.1 q.2 ≠ pte s.mem q.1 q.2 := by
  intro he
  have hw := hc.self q hq hT hp.1
  rw [he] at hw
  exact hp.2 hw

/-- An area without bytes that does not start with a page: the loop runs once. -/
theorem visited_empty (ha : addr % 4096 ≠ 0) (q : ℕ × ℕ) :
    Visited nr addr (verifyTurns addr 0) q ↔ q = place nr addr := by
  rw [verifyTurns_of_lt (by omega), show (0 + addr % 4096 + 4095) / 4096 = 1 by omega]
  have hplace : (dirIndex (addr / 4096 * 4096 + startCode nr + 4096 * 0),
      tblIndex (addr / 4096 * 4096 + startCode nr + 4096 * 0)) = place nr addr := by
    unfold place dirIndex tblIndex startCode
    exact Prod.ext (by dsimp only; omega) (by dsimp only; omega)
  constructor
  · rintro ⟨k, hk, rfl⟩
    rw [show k = 0 by omega]
    exact hplace
  · rintro rfl
    exact ⟨0, Nat.one_pos, hplace.symm⟩

theorem not_visited (h : verifyTurns addr size = 0) (q : ℕ × ℕ) :
    ¬ Visited nr addr (verifyTurns addr size) q := by
  rintro ⟨k, hk, -⟩
  omega

/-- **`verify_area` un-shares the pages of the area** exactly if `size` plus the offset of `addr` in
its page is an `int`, or there is nothing to un-share. -/
theorem verifyArea_unshares_iff {lo nr addr size : ℕ} {s s' : State}
    (hs : (kernel lo).ReachableWhen State.Allowed s)
    (hstep : (kernel lo).step s (.verifyArea nr addr size) s') (hlive : s'.Running nr)
    (hsize : size < 2 ^ 31) : Unshares s s' nr addr size ↔ Covered s nr addr size := by
  obtain ⟨h1, ⟨h64, t, ht, hz, hl⟩, hv⟩ := hstep
  have hnr : nr ∈ slots := mem_slots.2 ⟨h1, h64⟩
  have hI := Inv.of_kernel hs
  have hnd : ¬ Dead s' nr := by
    rintro ⟨t', ht', hz'⟩
    obtain ⟨-, t₁, ht₁, hz₁, -⟩ := hlive
    rw [ht'] at ht₁
    cases ht₁
    rw [hz'] at hz₁
    cases hz₁
  obtain ⟨hI', hc⟩ := hI.checked_verifyArea hnr ht hz hl hv hnd
  unfold Covered
  by_cases h0 : size = 0
  · subst h0
    rw [if_pos rfl]
    by_cases ha : addr % 4096 = 0
    · have hturns : verifyTurns addr 0 = 0 := by
        rw [verifyTurns_of_lt (by omega)]
        omega
      refine ⟨fun _ => .inl ha, fun _ => hc.unshares hI' hnr (fun q _ hT => ?_) fun a h h' => ?_⟩
      · exact absurd hT (not_visited hturns q)
      · omega
    · constructor
      · refine fun hu => .inr fun hp => ?_
        have hq := hI.protected_mem hp
        exact hc.not_protected hq ((visited_empty ha _).2 rfl) hp
          (hu.outside _ hq fun a h h' => by omega)
      · rintro (hal | hnp)
        · exact absurd hal ha
        · refine hc.unshares hI' hnr (fun q _ hT hpw => ?_) fun a h h' => by omega
          rw [(visited_empty ha q).1 hT] at hpw
          exact absurd hpw hnp
  · rw [if_neg h0]
    by_cases hov : size + addr % 4096 < 2 ^ 31
    · have hvis := visited_iff nr (Nat.pos_of_ne_zero h0) hov
      refine ⟨fun _ => .inl hov, fun _ => hc.unshares hI' hnr (fun q _ hT _ => ?_)
        fun a h h' _ _ => (hvis _).2 ⟨a, h, h', rfl⟩⟩
      exact (hvis q).1 hT
    · have hturns : verifyTurns addr size = 0 := verifyTurns_of_le hsize (not_lt.1 hov)
      constructor
      · refine fun hu => .inr fun a h h' hlt hp => ?_
        have hq := (place_mem hnr hlt).1
        have hw := (hu.area a h h' hlt hp.1).2.1
        rw [entryAt_place, hc.other _ hq (not_visited hturns _)] at hw
        exact hp.2 hw
      · rintro (hlt | hnp)
        · exact absurd hlt hov
        · refine hc.unshares hI' hnr (fun q _ hT => absurd hT (not_visited hturns q)) ?_
          exact fun a h h' hlt hp => absurd hp (hnp a h h' hlt)

end Area

/-! ## Stores after it -/

/-- A store goes through an entry that is not write-protected, as a store in user mode would. -/
def State.Guarded (s : State) : CallOp → Prop
  | .put nr offset _ _ => writable (s.entryAt (startCode nr + offset)) = true
  | _ => True

section Guarded

variable {lo nr offset : ℕ} {s s' : State}

/-- The page of an entry that is not write-protected has one user. -/
theorem Inv.private_of_writable (h : Inv lo s) (ha : s.Accesses nr offset)
    (hp : present (s.entryAt (startCode nr + offset)) = true)
    (hw : writable (s.entryAt (startCode nr + offset)) = true) : s.Private (startCode nr + offset) := by
  have hshared := h.mem.shared (dirIndex (startCode nr + offset), tblIndex (startCode nr + offset))
    (h.entry_own ha hp).1 hp hw
  unfold State.Private
  exact hshared

theorem Inv.of_guarded (hs : (kernel lo).ReachableWhen State.Guarded s) :
    (kernel lo).ReachableWhen State.Allowed s ∧ Inv lo s := by
  refine hs.invariant (I := fun s => (kernel lo).ReachableWhen State.Allowed s ∧ Inv lo s)
    (fun _ hinit => ⟨.init hinit, Inv.init hinit⟩) fun s e s' hI hok hstep => ?_
  have hallowed : s.Allowed e := by
    cases e with
    | put nr offset j v => exact hI.2.private_of_writable hstep.1 hstep.2.1 hok
    | user | verifyArea => trivial
  have hreach : (kernel lo).ReachableWhen State.Allowed s' := hI.1.step hallowed hstep
  exact ⟨hreach, Inv.of_kernel hreach⟩

/-- **A store of the kernel through an entry that is not write-protected changes no frame of another
process**; `verify_area` leaves the pages it goes to so, if they are present; and a store through another
entry goes to a frame that is the kernel's or another process's too, unless the page has lost its other
users. -/
theorem kernel_store_private (lo : ℕ) {s : State} (hs : (kernel lo).ReachableWhen State.Guarded s) :
    (∀ nr offset j v s', (kernel lo).step s (.put nr offset j v) s' → s.Guarded (.put nr offset j v) →
      ∀ nr' ≠ nr, ∀ f, s.Maps nr' f → s'.mem.phys f = s.mem.phys f) ∧
    (∀ nr addr size s', (kernel lo).step s (.verifyArea nr addr size) s' → s'.Running nr →
      ∀ q ∈ userSlots, Visited nr addr (verifyTurns addr size) q → present (pte s.mem q.1 q.2) = true →
        present (pte s'.mem q.1 q.2) = true ∧ writable (pte s'.mem q.1 q.2) = true) ∧
    ∀ nr offset j v s', (kernel lo).step s (.put nr offset j v) s' → ¬ s.Guarded (.put nr offset j v) →
      s'.mem.phys (pageOf (s.entryAt (startCode nr + offset))) j = v ∧
        (pageOf (s.entryAt (startCode nr + offset)) < lowPages ∨
          (∃ nr' ≠ nr, s.Maps nr' (pageOf (s.entryAt (startCode nr + offset)))) ∨
          s.mem.memMap (pageOf (s.entryAt (startCode nr + offset))) = 1) := by
  have hI := (Inv.of_guarded hs).2
  refine ⟨fun nr offset j v s' hstep hok nr' hne f hf => ?_, fun nr addr size s' hstep hlive => ?_,
    fun nr offset j v s' hstep _ => ?_⟩
  · obtain ⟨ha, hp, rfl⟩ := hstep
    exact hI.put_private ha hp (hI.private_of_writable ha hp hok) j v hne hf
  · obtain ⟨h1, ⟨h64, t, ht, hz, hl⟩, hv⟩ := hstep
    obtain ⟨-, t', ht', hz', -⟩ := hlive
    have hnd : ¬ Dead s' nr := by
      rintro ⟨t₁, ht₁, hz₁⟩
      rw [ht'] at ht₁
      cases ht₁
      rw [hz'] at hz₁
      cases hz₁
    obtain ⟨-, hc⟩ := hI.checked_verifyArea (mem_slots.2 ⟨h1, h64⟩) ht hz hl hv hnd
    exact fun q hq hvisited hp => ⟨(hc.presence q hq).trans hp, hc.self q hq hvisited hp⟩
  · obtain ⟨ha, hp, rfl⟩ := hstep
    refine ⟨(put_phys s nr offset j v).1, ?_⟩
    by_cases hpr : s.Private (startCode nr + offset)
    · exact .inr (.inr hpr.2)
    · exact (hI.put_shared ha hp hpr).imp_right .inl

end Guarded

/-! ## Process 1 -/

theorem written_running : written.Running 1 :=
  written_accesses.1.2.1

theorem written_verified : ∃ s', written.verifyArea 1 0x6001 4096 = .ok s' ∧ s'.Accesses 1 0x6000 := by
  obtain ⟨h64, t, ht, -, hl⟩ := written_running
  have hpost := written_inv.verifyArea (mem_slots.2 ⟨by decide, h64⟩) ht hl 0x6001 4096
  have htask : ((written.verifyArea 1 0x6001 4096).toOption.bind fun s => s.task 1).map
      (fun t => (t.zombie, t.loading, t.dataLimit)) = some (false, none, 0xA0000) := by decide +kernel
  cases hv : written.verifyArea 1 0x6001 4096 with
  | error p => exact (hpost.of_error hv).elim
  | ok s' =>
    rw [hv] at htask
    obtain ⟨t', ht', hf⟩ := Option.map_eq_some_iff.1 htask
    simp only [Prod.mk.injEq] at hf
    exact ⟨s', rfl, by decide, ⟨by decide, t', ht', hf.1, hf.2.1⟩, t', ht', by rw [hf.2.2]; decide⟩

/-- Two pages of process 1 that task 0 has too. -/
theorem written_unshares : ∃ s', written.verifyArea 1 0x6001 4096 = .ok s' ∧
    Unshares written s' 1 0x6001 4096 := by
  obtain ⟨s', hv, -, hlive, -⟩ := written_verified
  obtain ⟨hs, -⟩ : (kernel 1024).ReachableWhen State.Allowed written ∧ Inv 1024 written :=
    written_reachable fun _ _ => trivial
  refine ⟨s', hv, (verifyArea_unshares_iff hs ⟨by decide, written_running, hv⟩ hlive (by decide)).2 ?_⟩
  unfold Covered
  rw [if_neg (by decide)]
  exact .inl (by decide)

/-- With the largest `int` the sum overflows: nothing is done. -/
theorem written_overflow : (kernel 1024).ReachableWhen State.Allowed written ∧
    (kernel 1024).step written (.verifyArea 1 0x6001 (2 ^ 31 - 1)) written ∧ written.Running 1 ∧
    ¬ Unshares written written 1 0x6001 (2 ^ 31 - 1) := by
  refine ⟨(written_reachable fun _ _ => trivial).1, ⟨by decide, written_running, ?_⟩, written_running,
    fun hu => ?_⟩
  · unfold State.verifyArea
    rw [verifyTurns_of_le (by decide) (by decide)]
    rfl
  · have hp : present (written.entryAt (startCode 1 + 0x6001)) = true ∧
        writable (written.entryAt (startCode 1 + 0x6001)) = false := by decide +kernel
    have hw := (hu.area 0x6001 le_rfl (by decide) (by decide) hp.1).2.1
    rw [hp.2] at hw
    cases hw

/-- A page of process 1 that task 0 has too: `verify_area` goes to it, and then a store is private. A store
before that goes to the page of both. -/
theorem kernel_store_private_verified :
    (∃ s', (kernel 1024).step written (.verifyArea 1 0x6001 4096) s' ∧
      ∀ f < 0xA0, (s'.put 1 0x6000 0 1).mem.phys f = s'.mem.phys f) ∧
    (written.put 1 0x6000 0 1).mem.phys (pageOf (written.entryAt (startCode 1 + 0x6000))) 0 = 1 := by
  obtain ⟨hs, -⟩ : (kernel 1024).ReachableWhen State.Guarded written ∧ Inv 1024 written :=
    written_reachable fun _ _ => trivial
  obtain ⟨s', hv, ha'⟩ := written_verified
  have hstep : (kernel 1024).step written (.verifyArea 1 0x6001 4096) s' :=
    ⟨by decide, written_running, hv⟩
  obtain ⟨t, ht, -, -, hlim⟩ := written_task
  have ha : written.Accesses 1 0x6000 := ⟨by decide, written_running, t, ht, by rw [hlim]; decide⟩
  have hp : present (written.entryAt (startCode 1 + 0x6000)) = true ∧
      writable (written.entryAt (startCode 1 + 0x6000)) = false := by decide +kernel
  obtain ⟨-, hverify, hshared⟩ := kernel_store_private 1024 hs
  have hpage := hverify 1 0x6001 4096 s' hstep ha'.2.1
    (dirIndex (startCode 1 + 0x6000), tblIndex (startCode 1 + 0x6000))
    (mem_userSlots.2 ⟨mem_userDirs.2 (by decide), by decide⟩) ⟨0, by decide, rfl⟩ hp.1
  refine ⟨⟨s', hstep, fun f hf => ?_⟩, (hshared 1 0x6000 0 1 _ ⟨ha, hp.1, rfl⟩ fun hw => ?_).1⟩
  · have hs' : (kernel 1024).ReachableWhen State.Guarded s' := hs.step (e := .verifyArea 1 0x6001 4096) trivial hstep
    have hmaps : s'.Maps 0 f := by
      unfold State.Maps
      rw [if_pos rfl]
      exact hf
    exact (kernel_store_private 1024 hs').1 1 0x6000 0 1 _ ⟨ha', hpage.1, rfl⟩ hpage.2 0 (by decide) f hmaps
  · have hw : writable (written.entryAt (startCode 1 + 0x6000)) = true := hw
    rw [hp.2] at hw
    cases hw

end Linux011.Mm
